import MustDpor.Algo.MaskedView

/-! # The reused context

`get_cons_tiebreaker_masked` keeps one `MaskedPorfContext` per worker. `reset` clears its tables and fills
them in two passes; channel slots that an earlier query opened are taken again one by one, and without the
FIFO model the FIFO tables stay as they were. `fifo_rewrite_violates` writes to the consumer table and puts
back what it overwrote. Whatever the context held before, a query sees the view of its own graph and mask. -/

namespace MustDpor
set_option autoImplicit false
open List Function

variable {V : Type}

/-- What a context carries from one query to the next. -/
structure MaskedPorfBuffers where
  keptEventsByThread : ℕ → List ℕ
  consumedSendMask : ℕ → Bool
  rfConsumer : ℕ → Option ℕ
  extraRfConsumers : List (ℕ × ℕ)
  fifoConsumer : ℕ → Option ℕ
  channels : List (List ℕ)
  channelKeys : List (ℕ × ℕ)
  activeChannels : ℕ

namespace MaskedPorfBuffers
open MaskedPorfContext

/-! ## The code -/

/-- The start of `reset`. -/
def cleared (buffers : MaskedPorfBuffers) (buildFifo : Bool) : MaskedPorfBuffers :=
  let tables := { buffers with
    keptEventsByThread := fun _ => []
    consumedSendMask := fun _ => false
    rfConsumer := fun _ => none
    extraRfConsumers := [] }
  if buildFifo then { tables with fifoConsumer := fun _ => none, channelKeys := [], activeChannels := 0 }
  else tables

/-- A send goes to the slot of its channel, or opens the next slot. -/
def pushSend (buffers : MaskedPorfBuffers) (key : ℕ × ℕ) (id : ℕ) : MaskedPorfBuffers :=
  if key ∈ buffers.channelKeys then
    { buffers with channels := buffers.channels.modify (buffers.channelKeys.idxOf key) (· ++ [id]) }
  else
    let channel := buffers.activeChannels
    let slots := if buffers.channels.length ≤ channel then buffers.channels ++ [[]] else buffers.channels
    { buffers with
      activeChannels := channel + 1
      channelKeys := buffers.channelKeys ++ [key]
      channels := (slots.set channel []).modify channel (· ++ [id]) }

def keepEvent (graph : ExplorationGraph V) (buildFifo : Bool) (buffers : MaskedPorfBuffers) (id : ℕ) :
    MaskedPorfBuffers :=
  let tid := graph.threadOf id
  let placed := { buffers with
    keptEventsByThread := Function.update buffers.keptEventsByThread tid (buffers.keptEventsByThread tid ++ [id]) }
  if buildFifo then
    match graph.asSendId id with
    | some send => placed.pushSend (tid, send.destination) id
    | none => placed
  else placed

def keepRead (graph : ExplorationGraph V) (buildFifo : Bool) (buffers : MaskedPorfBuffers) (read : ℕ × ℕ) :
    MaskedPorfBuffers :=
  let consumed := { buffers with consumedSendMask := Function.update buffers.consumedSendMask read.1 true }
  let bound :=
    match consumed.rfConsumer read.1 with
    | none => { consumed with rfConsumer := Function.update consumed.rfConsumer read.1 (some read.2) }
    | some _ => { consumed with extraRfConsumers := consumed.extraRfConsumers ++ [read] }
  if buildFifo && matchedRead graph.graph read.2 read.1 then
    { bound with fifoConsumer := Function.update bound.fifoConsumer read.1 (some read.2) }
  else bound

/-- The body of the second pass: entries of dropped receives, from bottom or from dropped sends are skipped. -/
def keepEntry (graph : ExplorationGraph V) (keepMask : List Bool) (buildFifo : Bool) (buffers : MaskedPorfBuffers)
    (entry : ℕ × ReadsFromSource) : MaskedPorfBuffers :=
  match entry.2 with
  | .bottom => buffers
  | .send sendId =>
    if keeps keepMask entry.1 && keeps keepMask sendId then buffers.keepRead graph buildFifo (sendId, entry.1)
    else buffers

def reset (buffers : MaskedPorfBuffers) (graph : ExplorationGraph V) (keepMask : List Bool) (buildFifo : Bool) :
    Except DporError MaskedPorfBuffers :=
  if keepMask.length ≠ graph.eventCount then
    .error (.internalError "keep mask size must match event count")
  else
    let kept := (keptIds graph keepMask).foldl (keepEvent graph buildFifo) (buffers.cleared buildFifo)
    .ok (graph.readsFrom.entries.foldl (keepEntry graph keepMask buildFifo) kept)

/-- What the queries of a context read. -/
def view (buffers : MaskedPorfBuffers) (keepMask : List Bool) : MaskedPorfContext where
  keepMask := keepMask
  keptEventsByThread := buffers.keptEventsByThread
  consumedSendMask := buffers.consumedSendMask
  rfConsumer := buffers.rfConsumer
  extraRfConsumers := buffers.extraRfConsumers
  fifoConsumer := buffers.fifoConsumer
  channels := buffers.channelKeys.zip (buffers.channels.take buffers.activeChannels)

def assignConsumer (buffers : MaskedPorfBuffers) (sendId : ℕ) (consumer : Option ℕ) : MaskedPorfBuffers :=
  { buffers with fifoConsumer := Function.update buffers.fifoConsumer sendId consumer }

/-- `fifo_rewrite_violates`: the consumers it overwrites are put back in reverse order. -/
def fifoRewriteViolates (buffers : MaskedPorfBuffers) (graph : ExplorationGraph V) (keepMask : List Bool)
    (recv candidate previousSource : ℕ) : Bool × MaskedPorfBuffers :=
  let savedSource := if previousSource ≠ candidate then [(previousSource, buffers.fifoConsumer previousSource)] else []
  let released := if previousSource ≠ candidate then buffers.assignConsumer previousSource none else buffers
  let saved := savedSource ++ [(candidate, released.fifoConsumer candidate)]
  let assigned := released.assignConsumer candidate (some recv)
  let shown := assigned.view keepMask
  let violated := shown.fifoClauseBViolated graph assigned.fifoConsumer ||
    shown.fifoClauseCViolated graph assigned.fifoConsumer
  (violated, saved.reverse.foldl (fun restored entry => restored.assignConsumer entry.1 entry.2) assigned)

def scanCandidates (graph : ExplorationGraph V) (keepMask : List Bool) (fifoModel : Bool) (recv currentRfSource : ℕ)
    (reachableFromRecv : ℕ → Bool) : MaskedPorfBuffers → List ℕ → Except DporError ℕ × MaskedPorfBuffers
  | buffers, [] => (.error (tiebreakerError "no consistent source found"), buffers)
  | buffers, candidate :: rest =>
    if reachableFromRecv candidate then
      scanCandidates graph keepMask fifoModel recv currentRfSource reachableFromRecv buffers rest
    else if fifoModel then
      let (violated, restored) := buffers.fifoRewriteViolates graph keepMask recv candidate currentRfSource
      if violated then scanCandidates graph keepMask fifoModel recv currentRfSource reachableFromRecv restored rest
      else (.ok candidate, restored)
    else (.ok candidate, buffers)

/-- `get_cons_tiebreaker_masked` on the context of a worker: the answer and what the context holds then. -/
def getConsTiebreakerMasked (buffers : MaskedPorfBuffers) (graph : ExplorationGraph V) (keepMask : List Bool)
    (recv : ℕ) (communicationModel : CommunicationModel) : Except DporError ℕ × MaskedPorfBuffers :=
  let fifoModel := decide (communicationModel = .fifoP2P)
  match buffers.reset graph keepMask fifoModel with
  | .error e => (.error e, buffers)
  | .ok filled =>
    let prepared : Except DporError (ℕ × List ℕ × (ℕ → Bool)) := do
      if !keeps keepMask recv then throw (tiebreakerError "event missing from keep mask")
      let recvEvt ← graph.event recv
      match recvEvt.label with
      | .receive receive =>
        if receive.isNonblocking then throw (tiebreakerError "event is not a blocking receive")
        match graph.readsFrom.find recv with
        | none => throw (tiebreakerError "receive missing reads-from source")
        | some .bottom => throw (tiebreakerError "blocking receive reads from bottom")
        | some (.send currentRfSource) =>
          if !keeps keepMask currentRfSource then throw (tiebreakerError "receive source missing from keep mask")
          let candidates := tiebreakerCandidates graph (filled.view keepMask) recvEvt.thread receive currentRfSource
          let reachableFromRecv ← (filled.view keepMask).reachableFrom graph recv
          return (currentRfSource, candidates, reachableFromRecv)
      | _ => throw (tiebreakerError "event is not a receive")
    match prepared with
    | .error e => (.error e, filled)
    | .ok (currentRfSource, candidates, reachableFromRecv) =>
      scanCandidates graph keepMask fifoModel recv currentRfSource reachableFromRecv filled candidates

/-! ## The first pass -/

theorem zip_modify_idxOf (key : ℕ × ℕ) (id : ℕ) (keys : List (ℕ × ℕ)) (slots : List (List ℕ)) (hmem : key ∈ keys)
    (hlen : keys.length ≤ slots.length) :
    keys.zip (slots.modify (keys.idxOf key) (· ++ [id])) = pushChannel key id (keys.zip slots) := by
  induction keys generalizing slots with
  | nil => exact absurd hmem not_mem_nil
  | cons k keys ih =>
    cases slots with
    | nil => exact absurd hlen (Nat.not_succ_le_zero _)
    | cons slot slots =>
      by_cases heq : key = k
      · subst heq
        rw [idxOf_cons_self, zip_cons_cons]
        unfold pushChannel
        rw [if_pos rfl]
        rfl
      · rw [idxOf_cons_ne _ (Ne.symm heq), zip_cons_cons]
        unfold pushChannel
        rw [if_neg heq, ← ih slots ((mem_cons.mp hmem).resolve_left heq) (Nat.le_of_succ_le_succ hlen)]
        rfl

theorem zip_open_slot (key : ℕ × ℕ) (id : ℕ) (keys : List (ℕ × ℕ)) (slots : List (List ℕ)) (hnew : key ∉ keys)
    (hlen : keys.length < slots.length) :
    (keys ++ [key]).zip (slots.set keys.length [id]) = pushChannel key id (keys.zip slots) := by
  induction keys generalizing slots with
  | nil =>
    cases slots with
    | nil => exact absurd hlen (lt_irrefl 0)
    | cons slot slots => rfl
  | cons k keys ih =>
    cases slots with
    | nil => exact absurd hlen (Nat.not_lt_zero _)
    | cons slot slots =>
      have hne : key ≠ k := fun heq => hnew (heq ▸ mem_cons_self)
      rw [zip_cons_cons]
      unfold pushChannel
      rw [if_neg hne, ← ih slots (fun hmem => hnew (mem_cons_of_mem _ hmem)) (Nat.lt_of_succ_lt_succ hlen)]
      rfl

theorem zip_take (keys : List (ℕ × ℕ)) (slots : List (List ℕ)) : keys.zip
    (slots.take keys.length) = keys.zip slots := by
  induction keys generalizing slots with
  | nil => rfl
  | cons k keys ih =>
    cases slots with
    | nil => rfl
    | cons slot slots => exact congrArg ((k, slot) :: ·) (ih slots)

/-- As many slots are in use as there are keys. -/
structure Opened (buffers : MaskedPorfBuffers) : Prop where
  keys : buffers.channelKeys.length = buffers.activeChannels
  slots : buffers.activeChannels ≤ buffers.channels.length

variable (buffers : MaskedPorfBuffers)

theorem Opened.view_channels (h : buffers.Opened) (mask : List Bool) :
    (buffers.view mask).channels = buffers.channelKeys.zip buffers.channels := by
  show buffers.channelKeys.zip (buffers.channels.take buffers.activeChannels) = _
  rw [← h.keys, zip_take]

theorem Opened.pushSend {buffers : MaskedPorfBuffers} (h : buffers.Opened) (key : ℕ × ℕ) (id : ℕ) :
    (buffers.pushSend key id).Opened := by
  unfold MaskedPorfBuffers.pushSend
  split
  · exact ⟨h.keys, h.slots.trans_eq (length_modify _ _ _).symm⟩
  · refine ⟨?_, ?_⟩
    · rw [length_append, h.keys]
      rfl
    · rw [length_modify, length_set]
      split
      · have := h.slots
        rw [length_append]
        exact Nat.succ_le_succ this
      · rename_i hlt
        exact not_le.mp hlt

theorem pushSend_channels {buffers : MaskedPorfBuffers} (h : buffers.Opened) (key : ℕ × ℕ) (id : ℕ)
    (mask : List Bool) :
    ((buffers.pushSend key id).view mask).channels = pushChannel key id (buffers.view mask).channels := by
  rw [(h.pushSend key id).view_channels, h.view_channels]
  unfold MaskedPorfBuffers.pushSend
  split
  · rename_i hmem
    exact zip_modify_idxOf key id _ _ hmem (h.keys.trans_le h.slots)
  · rename_i hnew
    have hopen (slots : List (List ℕ)) (hlt : buffers.activeChannels < slots.length)
        (hsame : buffers.channelKeys.zip slots = buffers.channelKeys.zip buffers.channels) :
        (buffers.channelKeys ++ [key]).zip
            ((slots.set buffers.activeChannels []).modify buffers.activeChannels (· ++ [id])) =
          pushChannel key id (buffers.channelKeys.zip buffers.channels) := by
      rw [← hsame, ← zip_open_slot key id _ slots hnew (h.keys ▸ hlt), h.keys]
      congr 1
      rw [modify_eq_set]
      simp [hlt]
    dsimp only
    split
    · rename_i hle
      have hlength : buffers.channels.length = buffers.activeChannels := le_antisymm hle h.slots
      refine hopen _ (by rw [length_append, hlength]; exact Nat.lt_succ_self _) ?_
      rw [← zip_take, h.keys, ← hlength, take_left]
    · rename_i hlt
      exact hopen _ (not_le.mp hlt) rfl

/-- The tables of the second pass. -/
structure SameReads (buffers buffers' : MaskedPorfBuffers) : Prop where
  consumed : buffers'.consumedSendMask = buffers.consumedSendMask
  consumer : buffers'.rfConsumer = buffers.rfConsumer
  extra : buffers'.extraRfConsumers = buffers.extraRfConsumers
  fifo : buffers'.fifoConsumer = buffers.fifoConsumer

theorem pushSend_same (key : ℕ × ℕ) (id : ℕ) : SameReads buffers (buffers.pushSend key id) ∧
      (buffers.pushSend key id).keptEventsByThread = buffers.keptEventsByThread := by
  unfold pushSend
  split <;> exact ⟨⟨rfl, rfl, rfl, rfl⟩, rfl⟩

variable (g : ExplorationGraph V)

theorem keepEvent_same (buildFifo : Bool) (buffers : MaskedPorfBuffers) (id : ℕ) :
    SameReads buffers (keepEvent g buildFifo buffers id) ∧
      (keepEvent g buildFifo buffers id).keptEventsByThread =
        update buffers.keptEventsByThread (g.threadOf id)
          (buffers.keptEventsByThread (g.threadOf id) ++ [id]) := by
  unfold keepEvent
  dsimp only
  split
  · split
    · obtain ⟨hsame, hkept⟩ := pushSend_same { buffers with
        keptEventsByThread := update buffers.keptEventsByThread (g.threadOf id)
          (buffers.keptEventsByThread (g.threadOf id) ++ [id]) } _ id
      exact ⟨⟨hsame.consumed, hsame.consumer, hsame.extra, hsame.fifo⟩, hkept⟩
    · exact ⟨⟨rfl, rfl, rfl, rfl⟩, rfl⟩
  · exact ⟨⟨rfl, rfl, rfl, rfl⟩, rfl⟩

theorem foldl_keepEvent_same (buildFifo : Bool) (ids : List ℕ) (buffers : MaskedPorfBuffers) :
    SameReads buffers (ids.foldl (keepEvent g buildFifo) buffers) ∧
      ∀ tid, (ids.foldl (keepEvent g buildFifo) buffers).keptEventsByThread tid =
        buffers.keptEventsByThread tid ++ ids.filter fun id => decide (g.threadOf id = tid) := by
  induction ids generalizing buffers with
  | nil => exact ⟨⟨rfl, rfl, rfl, rfl⟩, fun tid => (append_nil _).symm⟩
  | cons id rest ih =>
    obtain ⟨hstep, hplaced⟩ := keepEvent_same g buildFifo buffers id
    obtain ⟨hrest, hkept⟩ := ih (keepEvent g buildFifo buffers id)
    rw [foldl_cons]
    refine ⟨⟨hrest.consumed.trans hstep.consumed, hrest.consumer.trans hstep.consumer,
      hrest.extra.trans hstep.extra, hrest.fifo.trans hstep.fifo⟩, fun tid => ?_⟩
    rw [hkept tid, hplaced]
    by_cases htid : g.threadOf id = tid
    · subst htid
      rw [update_self, filter_cons_of_pos (by simp), append_assoc]
      rfl
    · rw [update_of_ne (Ne.symm htid), filter_cons_of_neg (by simpa using htid)]

theorem foldl_keepEvent_channels (mask : List Bool) (ids : List ℕ)
    (buffers : MaskedPorfBuffers) (h : buffers.Opened) :
    ((ids.foldl (keepEvent g true) buffers).view mask).channels =
      ids.foldl (channelRound g) (buffers.view mask).channels := by
  induction ids generalizing buffers with
  | nil => rfl
  | cons id rest ih =>
    rw [foldl_cons, foldl_cons]
    obtain ⟨placed, hplaced, hview, hkeep⟩ : ∃ placed : MaskedPorfBuffers, placed.Opened ∧
        (placed.view mask).channels = (buffers.view mask).channels ∧
        keepEvent g true buffers id = match g.asSendId id with
          | none => placed
          | some send => placed.pushSend (g.threadOf id, send.destination) id := by
      refine ⟨{ buffers with
        keptEventsByThread := update buffers.keptEventsByThread (g.threadOf id)
          (buffers.keptEventsByThread (g.threadOf id) ++ [id]) }, ⟨h.keys, h.slots⟩, rfl, ?_⟩
      unfold keepEvent
      cases g.asSendId id <;> rfl
    rw [hkeep, ← hview]
    cases hsend : g.asSendId id with
    | none =>
      have hround : channelRound g (placed.view mask).channels id = (placed.view mask).channels := by
        unfold channelRound
        rw [hsend]
      rw [hround]
      exact ih placed hplaced
    | some send =>
      have hround : channelRound g (placed.view mask).channels id =
          pushChannel (g.threadOf id, send.destination) id (placed.view mask).channels := by
        unfold channelRound
        rw [hsend]
      rw [hround, ← pushSend_channels hplaced]
      exact ih _ (hplaced.pushSend _ id)

/-! ## The second pass -/

theorem foldl_keepEntry (mask : List Bool) (buildFifo : Bool) (buffers : MaskedPorfBuffers) :
    g.readsFrom.entries.foldl (keepEntry g mask buildFifo) buffers =
      (keptReads g mask).foldl (keepRead g buildFifo) buffers := by
  unfold keptReads
  rw [foldl_filterMap]
  congr 1
  funext filled entry
  obtain ⟨recv, source⟩ := entry
  unfold keepEntry
  cases source with
  | bottom => rfl
  | send sendId =>
    dsimp only
    split <;> rfl

theorem keepRead_same (buildFifo : Bool) (buffers : MaskedPorfBuffers) (read : ℕ × ℕ) :
    (keepRead g buildFifo buffers read).keptEventsByThread = buffers.keptEventsByThread ∧
      ∀ mask, ((keepRead g buildFifo buffers read).view mask).channels = (buffers.view mask).channels := by
  unfold keepRead
  dsimp only
  split <;> split <;> exact ⟨rfl, fun _ => rfl⟩

/-- The consumer table follows the reads that match. -/
def takeRead (g : ExplorationGraph V) (consumers : ℕ → Option ℕ) (read : ℕ × ℕ) : ℕ → Option ℕ :=
  if matchedRead g.graph read.2 read.1 then Function.update consumers read.1 (some read.2) else consumers

/-- What the reads leave in the tables, a send's first reader apart from the others. -/
structure HoldsReads (g : ExplorationGraph V) (buildFifo : Bool) (start : ℕ → Option ℕ) (reads : List (ℕ × ℕ))
    (buffers : MaskedPorfBuffers) : Prop where
  consumed : buffers.consumedSendMask = fun id => reads.any fun r => decide (r.1 = id)
  consumer : buffers.rfConsumer = fun id => (reads.find? fun r => decide (r.1 = id)).map Prod.snd
  extra : buffers.extraRfConsumers = reads.filter fun r =>
    decide (((reads.find? fun r' => decide (r'.1 = r.1)).map Prod.snd) ≠ some r.2)
  fifo : buffers.fifoConsumer = if buildFifo then reads.foldl (takeRead g) start else start

theorem HoldsReads.keepRead {g : ExplorationGraph V} {buildFifo : Bool} {start : ℕ → Option ℕ}
    {reads : List (ℕ × ℕ)} {buffers : MaskedPorfBuffers} (h : HoldsReads g buildFifo start reads buffers)
    {read : ℕ × ℕ} (hfresh : ∀ r ∈ reads, r.2 ≠ read.2) :
    HoldsReads g buildFifo start (reads ++ [read]) (buffers.keepRead g buildFifo read) := by
  obtain ⟨s, r⟩ := read
  -- the first reader of a send that has one stays the first
  have hfind (id : ℕ) : (reads ++ [(s, r)]).find? (fun x => decide (x.1 = id)) =
      (reads.find? fun x => decide (x.1 = id)).or (if s = id then some (s, r) else none) := by
    rw [find?_append, find?_singleton]
    by_cases hid : s = id <;> simp [hid]
  have hold : ∀ x ∈ reads, ((reads ++ [(s, r)]).find? fun x' => decide (x'.1 = x.1)) =
      reads.find? fun x' => decide (x'.1 = x.1) := by
    intro x hx
    rw [hfind]
    cases hfirst : reads.find? fun x' => decide (x'.1 = x.1) with
    | none => exact absurd (decide_eq_true rfl) (find?_eq_none.mp hfirst x hx)
    | some first => rfl
  have hfilter : reads.filter (fun x =>
      decide ((((reads ++ [(s, r)]).find? fun x' => decide (x'.1 = x.1)).map Prod.snd) ≠ some x.2)) =
      buffers.extraRfConsumers := by
    rw [h.extra]
    exact filter_congr fun x hx => by rw [hold x hx]
  have hconsumed : (fun id => (reads ++ [(s, r)]).any fun x => decide (x.1 = id)) =
      update buffers.consumedSendMask s true := by
    funext id
    rw [h.consumed, any_append, any_cons, any_nil, Bool.or_false]
    by_cases hid : id = s
    · subst hid
      rw [update_self, decide_eq_true rfl, Bool.or_true]
    · rw [update_of_ne hid, decide_eq_false (Ne.symm hid), Bool.or_false]
  have hfifo : (if buildFifo then (reads ++ [(s, r)]).foldl (takeRead g) start else start) =
      if buildFifo && matchedRead g.graph r s then update buffers.fifoConsumer s (some r)
      else buffers.fifoConsumer := by
    rw [h.fifo, foldl_append]
    cases buildFifo with
    | false => rfl
    | true =>
      dsimp only [foldl_cons, foldl_nil]
      rw [Bool.true_and]
      rfl
  have hfirst := congrFun h.consumer s
  cases hconsumer : buffers.rfConsumer s with
  | none =>
    rw [hconsumer] at hfirst
    have hnone : reads.find? (fun x => decide (x.1 = s)) = none := Option.map_eq_none_iff.mp hfirst.symm
    have hkeep : buffers.keepRead g buildFifo (s, r) = { buffers with
        consumedSendMask := update buffers.consumedSendMask s true
        rfConsumer := update buffers.rfConsumer s (some r)
        fifoConsumer := if buildFifo && matchedRead g.graph r s then update buffers.fifoConsumer s (some r)
          else buffers.fifoConsumer } := by
      unfold MaskedPorfBuffers.keepRead
      simp only [hconsumer]
      split <;> rfl
    rw [hkeep]
    refine ⟨hconsumed.symm, ?_, ?_, hfifo.symm⟩
    · funext id
      rw [hfind]
      by_cases hid : id = s
      · subst hid
        rw [hnone, if_pos rfl]
        exact update_self ..
      · rw [if_neg (Ne.symm hid), Option.or_none]
        exact (update_of_ne hid _ _).trans (congrFun h.consumer id)
    · rw [filter_append, hfilter, filter_cons_of_neg, filter_nil, append_nil]
      rw [hfind, hnone, if_pos rfl]
      simp
  | some first =>
    rw [hconsumer] at hfirst
    obtain ⟨x, hx, hxr⟩ := Option.map_eq_some_iff.mp hfirst.symm
    have hkeep : buffers.keepRead g buildFifo (s, r) = { buffers with
        consumedSendMask := update buffers.consumedSendMask s true
        extraRfConsumers := buffers.extraRfConsumers ++ [(s, r)]
        fifoConsumer := if buildFifo && matchedRead g.graph r s then update buffers.fifoConsumer s (some r)
          else buffers.fifoConsumer } := by
      unfold MaskedPorfBuffers.keepRead
      simp only [hconsumer]
      split <;> rfl
    rw [hkeep]
    refine ⟨hconsumed.symm, ?_, ?_, hfifo.symm⟩
    · funext id
      rw [hfind]
      by_cases hid : id = s
      · subst hid
        rw [hx]
        exact hconsumer.trans (congrArg some hxr.symm)
      · rw [if_neg (Ne.symm hid), Option.or_none]
        exact congrFun h.consumer id
    · rw [filter_append, hfilter, filter_cons_of_pos, filter_nil]
      rw [hfind, hx]
      simpa using hfresh x (mem_of_find?_eq_some hx)

theorem foldl_keepRead {g : ExplorationGraph V} {buildFifo : Bool} {buffers : MaskedPorfBuffers}
    (hempty : HoldsReads g buildFifo buffers.fifoConsumer [] buffers) {reads : List (ℕ × ℕ)}
    (hdistinct : (reads.map Prod.snd).Nodup) :
    HoldsReads g buildFifo buffers.fifoConsumer reads (reads.foldl (MaskedPorfBuffers.keepRead g buildFifo) buffers) ∧
      (reads.foldl (MaskedPorfBuffers.keepRead g buildFifo) buffers).keptEventsByThread = buffers.keptEventsByThread ∧
      ∀ mask, ((reads.foldl (MaskedPorfBuffers.keepRead g buildFifo) buffers).view mask).channels =
        (buffers.view mask).channels := by
  induction reads using reverseRecOn with
  | nil => exact ⟨hempty, rfl, fun _ => rfl⟩
  | append_singleton reads read ih =>
    rw [map_append, nodup_append] at hdistinct
    obtain ⟨hfirst, -, hdisjoint⟩ := hdistinct
    obtain ⟨hholds, hkept, hchannels⟩ := ih hfirst
    obtain ⟨hkept', hchannels'⟩ := keepRead_same g buildFifo
      (reads.foldl (MaskedPorfBuffers.keepRead g buildFifo) buffers) read
    rw [foldl_append]
    refine ⟨hholds.keepRead fun x hx => ?_, hkept'.trans hkept, fun mask =>
      (hchannels' mask).trans (hchannels mask)⟩
    exact hdisjoint x.2 (mem_map_of_mem hx) read.2 mem_cons_self

/-! ## Queries -/

theorem keptReads_distinct (mask : List Bool) : ((keptReads g mask).map Prod.snd).Nodup := by
  have hascending : (keptReads g mask).Pairwise fun a b => a.2 < b.2 := by
    unfold keptReads
    rw [pairwise_filterMap]
    refine List.Pairwise.imp (fun {x y} hlt a ha b hb => ?_) g.readsFrom.ascending
    have hreceive (entry : ℕ × ReadsFromSource) (read : ℕ × ℕ) (hread : (match entry.2 with
        | .bottom => none
        | .send sendId =>
          if keeps mask entry.1 && keeps mask sendId then some (sendId, entry.1) else none) = some read) :
        read.2 = entry.1 := by
      split at hread
      · cases hread
      · split at hread
        · cases hread
          rfl
        · cases hread
    rw [hreceive x a ha, hreceive y b hb]
    exact hlt
  exact List.Pairwise.imp ne_of_lt (pairwise_map.mpr hascending)

/-- After a reset the context shows the view of the new graph and mask, up to FIFO tables that only the FIFO
model reads. -/
theorem reset_shows {g : ExplorationGraph V} {mask : List Bool}
    (buildFifo : Bool) (hlen : mask.length = g.eventCount) :
    ∃ filled ctx, buffers.reset g mask buildFifo = .ok filled ∧
      MaskedPorfContext.reset g mask buildFifo = .ok ctx ∧
      (filled.view mask = { ctx with
        fifoConsumer := filled.fifoConsumer
        channels := (filled.view mask).channels }) ∧
      (buildFifo = true → filled.view mask = ctx) := by
  obtain ⟨hkeptSame, hkept⟩ := foldl_keepEvent_same g buildFifo (keptIds g mask) (buffers.cleared buildFifo)
  have hempty : HoldsReads g buildFifo ((keptIds g mask).foldl (keepEvent g buildFifo)
      (buffers.cleared buildFifo)).fifoConsumer [] ((keptIds g mask).foldl (keepEvent g buildFifo)
      (buffers.cleared buildFifo)) := by
    refine ⟨hkeptSame.consumed.trans ?_, hkeptSame.consumer.trans ?_, hkeptSame.extra.trans ?_, ?_⟩
    · unfold cleared
      cases buildFifo <;> rfl
    · unfold cleared
      cases buildFifo <;> rfl
    · unfold cleared
      cases buildFifo <;> rfl
    · cases buildFifo <;> rfl
  obtain ⟨hholds, hthreads, hchannels⟩ := foldl_keepRead hempty
    (keptReads_distinct g mask)
  rw [← foldl_keepEntry] at hholds hthreads hchannels
  have hclearedThreads : (buffers.cleared buildFifo).keptEventsByThread = fun _ => [] := by
    unfold cleared
    cases buildFifo <;> rfl
  have hview (filled : MaskedPorfBuffers) (hfilled : filled = g.readsFrom.entries.foldl
      (keepEntry g mask buildFifo) ((keptIds g mask).foldl (keepEvent g buildFifo) (buffers.cleared buildFifo))) :
      filled.keptEventsByThread = fun tid =>
        (keptIds g mask).filter (fun id => decide (g.threadOf id = tid)) := by
    funext tid
    rw [hfilled, hthreads, hkept tid, hclearedThreads]
    rfl
  unfold reset MaskedPorfContext.reset
  rw [if_neg (not_not.mpr hlen), if_neg (not_not.mpr hlen)]
  refine ⟨_, _, rfl, rfl, ?_, ?_⟩
  · unfold view
    dsimp only
    rw [hview _ rfl, hholds.consumed, hholds.consumer, hholds.extra]
  · rintro rfl
    have hopened : (buffers.cleared true).Opened := ⟨rfl, Nat.zero_le _⟩
    have hslots := (hchannels mask).trans (foldl_keepEvent_channels g mask (keptIds g mask) _ hopened)
    have hfifo := hholds.fifo
    rw [hkeptSame.fifo] at hfifo
    unfold view at hslots ⊢
    dsimp only at hslots ⊢
    rw [hview _ rfl, hholds.consumed, hholds.consumer, hholds.extra, hfifo, hslots]
    rfl

theorem fifoRewriteViolates_restores (g : ExplorationGraph V) (mask : List Bool)
    (recv candidate previousSource : ℕ) :
    buffers.fifoRewriteViolates g mask recv candidate previousSource =
      ((buffers.view mask).fifoRewriteViolates g recv candidate previousSource, buffers) := by
  unfold MaskedPorfBuffers.fifoRewriteViolates MaskedPorfContext.fifoRewriteViolates rewrittenConsumers assignConsumer
  by_cases heq : previousSource = candidate
  · subst heq
    simp only [ne_eq, not_true, if_false, nil_append, reverse_singleton, foldl_cons, foldl_nil,
      update_idem, update_eq_self]
    rfl
  · simp only [ne_eq, heq, not_false_eq_true, if_true, singleton_append, reverse_cons, reverse_nil,
      nil_append, foldl_cons, foldl_nil, update_idem, update_eq_self]
    rfl

theorem scanCandidates_eq (mask : List Bool) (fifoModel : Bool) (recv src : ℕ)
    (reachable : ℕ → Bool) (buffers : MaskedPorfBuffers) (candidates : List ℕ) :
    scanCandidates g mask fifoModel recv src reachable buffers candidates =
      (match candidates.find? (fun candidate => !reachable candidate
          && !(fifoModel && (buffers.view mask).fifoRewriteViolates g recv candidate src)) with
        | some candidate => .ok candidate
        | none => .error (tiebreakerError "no consistent source found"), buffers) := by
  induction candidates with
  | nil => rfl
  | cons candidate rest ih =>
    unfold scanCandidates
    rw [find?_cons]
    cases hreach : reachable candidate with
    | true => simpa using ih
    | false =>
      cases fifoModel with
      | false => rfl
      | true =>
        simp only [Bool.false_eq_true, if_false, if_true, fifoRewriteViolates_restores, Bool.not_false, Bool.true_and]
        cases hviolated : (buffers.view mask).fifoRewriteViolates g recv candidate src with
        | true =>
          simp only [if_true, Bool.not_true]
          simpa using ih
        | false => rfl

theorem getConsTiebreakerMasked_eq (g : ExplorationGraph V) (mask : List Bool)
    (recv : ℕ) (model : CommunicationModel) :
    (buffers.getConsTiebreakerMasked g mask recv model).1 =
      MustDpor.getConsTiebreakerMasked g mask recv model := by
  unfold MaskedPorfBuffers.getConsTiebreakerMasked MustDpor.getConsTiebreakerMasked
  by_cases hlen : mask.length = g.eventCount
  · obtain ⟨filled, ctx, hfilled, hctx, hshows, hfifo⟩ :=
      buffers.reset_shows (decide (model = .fifoP2P)) hlen
    have hcandidates (tid : ℕ) (receive : ReceiveLabel V) (src : ℕ) :
        tiebreakerCandidates g (filled.view mask) tid receive src = tiebreakerCandidates g ctx tid receive src := by
      rw [hshows]
      rfl
    have hreach : (filled.view mask).reachableFrom g recv = ctx.reachableFrom g recv := by
      rw [hshows]
      rfl
    have hviolates (c src : ℕ) :
        (decide (model = .fifoP2P) && (filled.view mask).fifoRewriteViolates g recv c src) =
          (decide (model = .fifoP2P) && ctx.fifoRewriteViolates g recv c src) := by
      by_cases hmodel : model = .fifoP2P
      · rw [hfifo (decide_eq_true hmodel)]
      · rw [decide_eq_false hmodel, Bool.false_and, Bool.false_and]
    simp only [hfilled, hctx, hcandidates, hreach, scanCandidates_eq, hviolates, bind, Except.bind, pure, Except.pure]
    cases keeps mask recv with
    | false => rfl
    | true =>
      cases g.event recv with
      | error e => rfl
      | ok evt =>
        simp only [Bool.not_true, Bool.false_eq_true, if_false]
        cases evt.label with
        | receive receive =>
          dsimp only
          cases receive.isNonblocking with
          | true => rfl
          | false =>
            simp only [Bool.false_eq_true, if_false]
            cases g.readsFrom.find recv with
            | none => rfl
            | some source =>
              cases source with
              | bottom => rfl
              | send src =>
                dsimp only
                cases keeps mask src with
                | false => rfl
                | true =>
                  simp only [Bool.not_true, Bool.false_eq_true, if_false]
                  cases ctx.reachableFrom g recv with
                  | error e => rfl
                  | ok reachable =>
                    dsimp only
                    generalize find? _ (tiebreakerCandidates g ctx evt.thread receive src) = found
                    cases found <;> rfl
        | _ => rfl
  · have herror : buffers.reset g mask (decide (model = .fifoP2P)) =
        .error (.internalError "keep mask size must match event count") := if_pos hlen
    have herror' : MaskedPorfContext.reset g mask (decide (model = .fifoP2P)) =
        .error (.internalError "keep mask size must match event count") := if_pos hlen
    simp only [herror, herror']
    rfl

end MaskedPorfBuffers
end MustDpor

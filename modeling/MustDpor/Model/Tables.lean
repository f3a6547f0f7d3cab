import MustDpor.Foundations.Positions
import MustDpor.Model.Restriction

/-! # The tables beside the event vector

Everything an exploration graph keeps besides its events, its reads-from relation, the reader counts
and the acyclicity metadata is a function of the events (`tabulate`). Every mutator, and every undo,
keeps it that way (`Tabulated`). -/

namespace MustDpor
set_option autoImplicit false
open List Function ExplorationGraph WorkerGraph

variable {V : Type}

def inThread (tid : ℕ) (e : Event V) : Bool := decide (e.thread = tid)

def receiveIn (tid : ℕ) (e : Event V) : Bool := decide (e.thread = tid) && e.label.isReceive

def threadCount (events : List (Event V)) (tid : ℕ) : ℕ := events.countP (inThread tid)

/-- The index set of a thread with `n` events. -/
def usedIndices (n : ℕ) : UsedEventIndexSet :=
  if n ≤ maxEventIndex then ⟨n, []⟩ else ⟨maxEventIndex, [maxEventIndex]⟩

/-- Each event has the index its thread hands out, within the bounds the source puts on both. -/
def Numbered (events : List (Event V)) : Prop :=
  ∀ id e, events[id]? = some e →
    e.index = threadCount (events.take id) e.thread ∧ e.index ≤ maxEventIndex ∧ e.thread ≤ kMaxThreadId

variable {events : List (Event V)}

namespace ExplorationGraph

def tabulate (events : List (Event V)) (rf : ReadsFromRelation) (counts : List ℕ) (known : Bool)
    (pending : Option ℕ) : ExplorationGraph V where
  graph :=
    { events := events
      readsFrom := rf
      nextEventIndexByThread := fun tid => min (threadCount events tid) maxEventIndex
      usedEventIndicesByThread := fun tid => usedIndices (threadCount events tid) }
  threadState := fun tid => ⟨threadCount events tid, (positions events (inThread tid)).getLast?⟩
  threadEventIds := fun tid => positions events (inThread tid)
  receiveEventIdsByThread := fun tid => positions events (receiveIn tid)
  sendEventIds := positions events (fun e => e.label.isSend)
  sendReaderCounts := counts
  unreadSendMask := List.zipWith (fun e c => e.label.isSend && decide (c = 0)) events counts
  knownAcyclic := known
  pendingFreshReceiveId := pending

structure Tabulated (g : ExplorationGraph V) : Prop where
  tables : g = tabulate g.graph.events g.graph.readsFrom g.sendReaderCounts g.knownAcyclic
    g.pendingFreshReceiveId
  counts_length : g.sendReaderCounts.length = g.graph.events.length
  numbered : Numbered g.graph.events

theorem tabulate_tabulated (rf : ReadsFromRelation) {counts : List ℕ}
    (known : Bool) (pending : Option ℕ) (hlen : counts.length = events.length)
    (hnumbered : Numbered events) : (tabulate events rf counts known pending).Tabulated :=
  ⟨rfl, hlen, hnumbered⟩

end ExplorationGraph

/-! ## Growing the event vector -/

theorem threadCount_concat (events : List (Event V)) (e : Event V) (tid : ℕ) :
    threadCount (events ++ [e]) tid = threadCount events tid + if e.thread = tid then 1 else 0 := by
  unfold threadCount
  rw [countP_append, countP_singleton]
  unfold inThread
  simp only [decide_eq_true_eq]

theorem positions_inThread_concat (events : List (Event V)) (e : Event V) (tid : ℕ) :
    positions (events ++ [e]) (inThread tid) =
      if e.thread = tid then positions events (inThread tid) ++ [events.length]
      else positions events (inThread tid) := by
  rw [positions_concat]
  unfold inThread
  by_cases h : e.thread = tid
  · simp [h]
  · simp [h]

theorem threadCount_take_le (events : List (Event V)) (id tid : ℕ) :
    threadCount (events.take id) tid ≤ threadCount events tid :=
  (take_sublist id events).countP_le

theorem Numbered.nil : Numbered ([] : List (Event V)) := nofun

theorem numbered_concat (events : List (Event V)) (e : Event V) :
    Numbered (events ++ [e]) ↔ Numbered events ∧
      e.index = threadCount events e.thread ∧ e.index ≤ maxEventIndex ∧ e.thread ≤ kMaxThreadId := by
  constructor
  · intro h
    refine ⟨fun id a ha => ?_, ?_⟩
    · have hlt := lt_of_getElem? ha
      have hget := h id a (by rw [getElem?_append_left hlt]; exact ha)
      rwa [take_append_of_le_length (le_of_lt hlt)] at hget
    · have hlast := h events.length e (getElem?_concat_length)
      rwa [take_left'] at hlast
      rfl
  · rintro ⟨h, hlast⟩ id a ha
    by_cases hlt : id < events.length
    · rw [getElem?_append_left hlt] at ha
      rw [take_append_of_le_length (le_of_lt hlt)]
      exact h id a ha
    · have hid : id = events.length := by
        have := lt_of_getElem? ha
        rw [length_append, length_singleton] at this
        omega
      subst hid
      rw [getElem?_concat_length] at ha
      obtain rfl := Option.some.inj ha
      rw [take_left' rfl]
      exact hlast

theorem Numbered.threadCount_le (h : Numbered events) (tid : ℕ) : threadCount events tid ≤ maxEventIndex + 1 := by
  induction events using reverseRecOn with
  | nil => exact Nat.zero_le _
  | append_singleton events e ih =>
    obtain ⟨hevents, hindex, hle, _⟩ := (numbered_concat events e).mp h
    rw [threadCount_concat]
    split
    · rename_i htid
      rw [← htid]
      omega
    · exact ih hevents

theorem length_le_of_threadCount (bound threads : ℕ) (events : List (Event V))
    (hthreads : ∀ e ∈ events, e.thread < threads) (hcounts : ∀ tid, threadCount events tid ≤ bound) :
    events.length ≤ threads * bound := by
  induction threads generalizing events with
  | zero =>
    cases events with
    | nil => exact Nat.zero_le _
    | cons e rest => exact absurd (hthreads e mem_cons_self) (Nat.not_lt_zero _)
  | succ threads ih =>
    -- the events of the last thread, and the others
    have hothers := ih (events.filter fun e => !inThread threads e)
      (fun e he => by
        obtain ⟨hmem, hne⟩ := mem_filter.mp he
        have hlt := hthreads e hmem
        have hne : e.thread ≠ threads := by simpa [inThread] using hne
        omega)
      (fun tid => (List.Sublist.countP_le filter_sublist).trans (hcounts tid))
    have hlast := hcounts threads
    have hsplit := length_eq_countP_add_countP (inThread threads) (l := events)
    rw [← countP_eq_length_filter] at hothers
    simp only [Bool.not_eq_true, Bool.decide_eq_false] at hsplit
    rw [hsplit, Nat.succ_mul, Nat.add_comm]
    exact Nat.add_le_add hothers hlast

theorem Numbered.length_lt (h : Numbered events) : events.length < ReadsFromRelation.maxEntries := by
  have hlength := length_le_of_threadCount (maxEventIndex + 1) (kMaxThreadId + 1) events
    (fun e he => by
      obtain ⟨id, hid⟩ := getElem?_of_mem he
      exact Nat.lt_succ_of_le (h id e hid).2.2)
    (h.threadCount_le)
  exact hlength.trans_lt (by decide)

variable {n : ℕ}

theorem usedIndices_succ (h : n ≤ maxEventIndex) : usedIndices (n + 1) = (UsedEventIndexSet.mk n []).insert n := by
  unfold usedIndices UsedEventIndexSet.insert
  by_cases hn : n = maxEventIndex
  · rw [if_neg (by omega), if_neg (by simp [hn])]
    rw [hn]
    rfl
  · rw [if_pos (by omega), if_pos ⟨rfl, hn⟩]
    rfl

theorem usedIndices_dense (h : n ≤ maxEventIndex + 1) : DenseIndices (min n maxEventIndex) (usedIndices n) := by
  unfold usedIndices DenseIndices
  by_cases hn : n ≤ maxEventIndex
  · rw [if_pos hn, Nat.min_eq_left hn]
    exact .inl ⟨rfl, hn⟩
  · rw [if_neg hn, Nat.min_eq_right (by omega)]
    exact .inr ⟨rfl, rfl⟩

variable {g : ExplorationGraph V} {thread index id : ℕ} {source : ReadsFromSource}

namespace ExplorationGraph

theorem getD_zipWith_mask {counts : List ℕ} (hlen : counts.length = events.length) (id : ℕ) :
    (zipWith (fun (e : Event V) c => e.label.isSend && decide (c = 0)) events counts).getD id false
      = ((events[id]?.any fun e => e.label.isSend) && decide (counts.getD id 0 = 0)) := by
  rw [getD_eq_getElem?_getD, getElem?_zipWith, getD_eq_getElem?_getD]
  by_cases hid : id < events.length
  · rw [getElem?_eq_getElem hid, getElem?_eq_getElem (hlen ▸ hid)]
    rfl
  · rw [getElem?_eq_none (by omega), getElem?_eq_none (by omega)]
    rfl

theorem isSendId_iff (g : ExplorationGraph V) (id : ℕ) :
    g.isSendId id = g.graph.events[id]?.any fun e => e.label.isSend := by
  unfold isSendId label?
  cases g.graph.events[id]? <;> rfl

theorem isReceiveId_iff (g : ExplorationGraph V) (id : ℕ) :
    g.isReceiveId id = g.graph.events[id]?.any fun e => e.label.isReceive := by
  unfold isReceiveId label?
  cases g.graph.events[id]? <;> rfl

theorem tabulate_sound (rf : ReadsFromRelation) {counts : List ℕ}
    (known : Bool) (pending : Option ℕ) (hlen : counts.length = events.length)
    (hnumbered : Numbered events) : (tabulate events rf counts known pending).Sound where
  indices := fun tid => usedIndices_dense (hnumbered.threadCount_le tid)
  counts_length := hlen
  mask_length := by
    show (zipWith _ events counts).length = events.length
    rw [length_zipWith, hlen, Nat.min_self]
  mask_eq := by
    intro id hid
    show (zipWith _ events counts).getD id false = _
    rw [getD_zipWith_mask hlen id]
    rw [isSendId_iff] at hid
    rw [show (events[id]?.any fun e => e.label.isSend) = true from hid]
    rfl

theorem Tabulated.sound (h : g.Tabulated) : g.Sound := by
  rw [h.tables]
  exact tabulate_sound _ _ _ h.counts_length h.numbered

theorem empty_eq_tabulate :
    (empty : ExplorationGraph V) = tabulate [] AscendingMap.empty [] true none := by
  unfold empty tabulate
  congr 1

theorem empty_tabulated : (empty : ExplorationGraph V).Tabulated := by
  rw [empty_eq_tabulate]
  exact tabulate_tabulated _ _ _ rfl Numbered.nil

/-! ## Appending an event -/

theorem nextEventIndex_tabulate (rf : ReadsFromRelation) (counts : List ℕ)
    (known : Bool) (pending : Option ℕ) (hbound : threadCount events thread ≤ maxEventIndex + 1) :
    (tabulate events rf counts known pending).graph.nextEventIndex thread =
      if kMaxThreadId < thread then
        .error (.preconditionError "thread id exceeds the maximum supported thread id")
      else if threadCount events thread ≤ maxEventIndex then .ok (threadCount events thread)
      else .error (.preconditionError "no available event index for thread") := by
  unfold ExecutionGraph.nextEventIndex
  split
  · rfl
  · show ExecutionGraph.scanEventIndex (usedIndices (threadCount events thread)) _ _ = _
    unfold usedIndices
    by_cases hle : threadCount events thread ≤ maxEventIndex
    · rw [if_pos hle, if_pos hle]
      show ExecutionGraph.scanEventIndex _ (maxEventIndex + 1 - min _ _) (min _ _) = _
      rw [Nat.min_eq_left hle]
      obtain ⟨fuel, hfuel⟩ : ∃ fuel, maxEventIndex + 1 - threadCount events thread = fuel + 1 :=
        ⟨maxEventIndex - threadCount events thread, by omega⟩
      rw [hfuel, ExecutionGraph.scanEventIndex, if_neg (by simp [UsedEventIndexSet.contains])]
    · rw [if_neg hle, if_neg hle]
      show ExecutionGraph.scanEventIndex _ (maxEventIndex + 1 - min _ _) (min _ _) = _
      rw [Nat.min_eq_right (by omega), Nat.add_sub_cancel_left, ExecutionGraph.scanEventIndex,
        if_pos (by simp [UsedEventIndexSet.contains]), if_pos rfl]

/-- The pending marker `add_event` leaves. -/
def pendingAfter (known : Bool) (label : EventLabel V) (id : ℕ) : Option ℕ :=
  if known && label.isReceive then some id else none

theorem appended_tabulate (rf : ReadsFromRelation) {counts : List ℕ}
    (known : Bool) (pending : Option ℕ) (hlen : counts.length = events.length)
    (label : EventLabel V) (hle : threadCount events thread ≤ maxEventIndex) :
    (tabulate events rf counts known pending).appended thread (threadCount events thread) label =
      tabulate (events ++ [⟨thread, threadCount events thread, label⟩]) rf (counts ++ [0]) known
        (pendingAfter known label events.length) := by
  have hmask : (zipWith (fun (e : Event V) c => e.label.isSend && decide (c = 0)) events counts).length
      = events.length := by
    rw [length_zipWith, hlen, Nat.min_self]
  unfold appended tabulate ExecutionGraph.appendEventUnchecked eventCount
  dsimp only
  congr 1
  · congr 1
    · refine update_eq_iff.mpr ⟨?_, fun tid htid => by rw [threadCount_concat, if_neg htid.symm, Nat.add_zero]⟩
      rw [threadCount_concat, if_pos rfl]
      split <;> omega
    · refine update_eq_iff.mpr ⟨?_, fun tid htid => by rw [threadCount_concat, if_neg htid.symm, Nat.add_zero]⟩
      rw [threadCount_concat, if_pos rfl, usedIndices_succ hle]
      unfold usedIndices
      rw [if_pos hle]
  · funext tid
    rw [threadCount_concat, positions_inThread_concat]
    by_cases htid : thread = tid
    · subst htid
      rw [update_self, if_pos rfl, if_pos rfl, getLast?_append]
      rfl
    · rw [update_of_ne (Ne.symm htid), if_neg htid, if_neg htid, Nat.add_zero]
  · refine update_eq_iff.mpr ⟨?_, fun tid htid => by rw [positions_inThread_concat, if_neg htid.symm]⟩
    rw [positions_inThread_concat, if_pos rfl]
  · funext tid
    rw [positions_concat]
    unfold receiveIn
    by_cases hreceive : label.isReceive = true
    · by_cases htid : thread = tid
      · subst htid
        rw [if_pos hreceive, update_self, if_pos (by simp [hreceive])]
      · rw [if_pos hreceive, update_of_ne (Ne.symm htid), if_neg (by simp [htid]), append_nil]
    · rw [if_neg hreceive, if_neg (by simp [hreceive]), append_nil]
  · rw [positions_concat]
    split <;> simp
  · rw [← hlen, resize_succ_length]
  · rw [zipWith_append hlen.symm, ← hmask, resize_succ_length]
    cases hsend : label.isSend with
    | true =>
      rw [if_pos rfl, set_append_right _ _ (le_refl _), Nat.sub_self]
      simp [hsend]
    | false =>
      rw [if_neg (nomatch ·)]
      simp [hsend]

theorem Tabulated.nextEventIndex (h : g.Tabulated) (hnext : g.graph.nextEventIndex thread = .ok index) :
    index = threadCount g.graph.events thread ∧ index ≤ maxEventIndex ∧ thread ≤ kMaxThreadId := by
  rw [h.tables, nextEventIndex_tabulate _ _ _ _ (h.numbered.threadCount_le thread)] at hnext
  split at hnext
  · cases hnext
  · split at hnext
    · cases hnext
      exact ⟨rfl, by assumption, by omega⟩
    · cases hnext

theorem Tabulated.appended_eq (h : g.Tabulated)
    (label : EventLabel V) (hnext : g.graph.nextEventIndex thread = .ok index) :
    g.appended thread index label =
      tabulate (g.graph.events ++ [⟨thread, index, label⟩]) g.graph.readsFrom (g.sendReaderCounts ++ [0])
        g.knownAcyclic (pendingAfter g.knownAcyclic label g.graph.events.length) := by
  obtain ⟨hindex, hle, _⟩ := h.nextEventIndex hnext
  have happended := appended_tabulate g.graph.readsFrom g.knownAcyclic
    g.pendingFreshReceiveId h.counts_length label (hindex ▸ hle)
  rw [← h.tables, ← hindex] at happended
  exact happended

theorem Tabulated.appended (h : g.Tabulated)
    (label : EventLabel V) (hnext : g.graph.nextEventIndex thread = .ok index) :
    (g.appended thread index label).Tabulated := by
  obtain ⟨hindex, hle, hthread⟩ := h.nextEventIndex hnext
  rw [h.appended_eq label hnext]
  refine tabulate_tabulated _ _ _ ?_ ((numbered_concat _ _).mpr ⟨h.numbered, hindex, hle, hthread⟩)
  rw [length_append, length_append, h.counts_length]
  rfl

theorem Tabulated.addEvent (g g' : ExplorationGraph V) (h : g.Tabulated) (thread id : ℕ)
    (label : EventLabel V) (hadd : g.addEvent thread label = .ok (id, g')) : g'.Tabulated := by
  obtain ⟨index, hnext, _, rfl⟩ := addEvent_inv hadd
  exact h.appended label hnext

/-! ## Reader counts, the relation and the metadata -/

theorem setReaders_tabulate (rf : ReadsFromRelation) {counts : List ℕ}
    (known : Bool) (pending : Option ℕ) (hlen : counts.length = events.length) (id count : ℕ)
    (hid : (events[id]?.any fun e => e.label.isSend) = true) :
    (tabulate events rf counts known pending).setReaders id count =
      tabulate events rf (counts.set id count) known pending := by
  unfold setReaders tabulate
  congr 1
  apply ext_getElem?
  intro j
  rw [getElem?_set, getElem?_zipWith, getElem?_zipWith, getElem?_set,
    length_zipWith, hlen, Nat.min_self]
  by_cases hj : id = j
  · subst hj
    rw [if_pos rfl, if_pos rfl]
    cases he : events[id]? with
    | none =>
      rw [he] at hid
      cases hid
    | some e =>
      rw [he] at hid
      have hlt := lt_of_getElem? he
      have hsend : e.label.isSend = true := hid
      rw [if_pos hlt, if_pos hlt]
      simp [hsend]
  · rw [if_neg hj, if_neg hj]

theorem Tabulated.setReaders (h : g.Tabulated) (id count : ℕ)
    (hid : g.isSendId id = true) : (g.setReaders id count).Tabulated := by
  rw [isSendId_iff] at hid
  have heq := setReaders_tabulate g.graph.readsFrom g.knownAcyclic
    g.pendingFreshReceiveId h.counts_length id count hid
  rw [← h.tables] at heq
  rw [heq]
  refine tabulate_tabulated _ _ _ ?_ h.numbered
  rw [length_set, h.counts_length]

variable {g' : ExplorationGraph V}

theorem Tabulated.adjustSendReaderCount (h : g.Tabulated)
    {source : Option ReadsFromSource} {add : Bool} (heq : g.adjustSendReaderCount source add = .ok g') :
    g'.Tabulated := by
  rw [adjustSendReaderCount_eq] at heq
  split at heq
  · cases heq
    exact h
  · rename_i id hid
    obtain ⟨_, hsend, _⟩ := g.readerTarget_some hid
    split at heq
    · cases heq
    · cases heq
      exact h.setReaders id _ hsend

theorem Tabulated.withReadsFrom (h : g.Tabulated) (rf : ReadsFromRelation) : (g.withReadsFrom rf).Tabulated := by
  have heq : g.withReadsFrom rf = tabulate g.graph.events rf g.sendReaderCounts g.knownAcyclic
      g.pendingFreshReceiveId := by
    conv_lhs => rw [h.tables]
    rfl
  rw [heq]
  exact tabulate_tabulated _ _ _ h.counts_length h.numbered

theorem Tabulated.withMetadata (h : g.Tabulated) (known : Bool)
    (pending : Option ℕ) : (g.withMetadata known pending).Tabulated := by
  have heq : g.withMetadata known pending = tabulate g.graph.events g.graph.readsFrom g.sendReaderCounts
      known pending := by
    conv_lhs => rw [h.tables]
    rfl
  rw [heq]
  exact tabulate_tabulated _ _ _ h.counts_length h.numbered

theorem Tabulated.assignReadsFrom (g g' : ExplorationGraph V) (h : g.Tabulated) (recv : ℕ)
    (source : ReadsFromSource) (hset : g.assignReadsFrom recv source = .ok g') : g'.Tabulated := by
  obtain ⟨a, b, known, pending, ha, hb, rfl⟩ :=
    assignReadsFrom_inv hset
  exact (((h.adjustSendReaderCount ha).adjustSendReaderCount hb).withReadsFrom _).withMetadata _ _

/-! ## Rebuilds and copies -/

theorem restrictMasked_tabulated {mask : List Bool} (h : g.restrictMasked mask = .ok g') : g'.Tabulated := by
  obtain ⟨_, built, remapped, hb, hr, rfl⟩ := restrictMasked_inv h
  have hbuilt : built.Tabulated := bulkBuild_keeps Tabulated
    (fun g g' thread id label hg => hg.addEvent g g' thread id label) _ _ _ empty_tabulated hb
  have hremapped : remapped.Tabulated := remapReadsFrom_keeps Tabulated
    (fun g g' recv source hg => hg.assignReadsFrom g g' recv source) _ _ _ _ hbuilt hr
  exact hremapped.withMetadata _ none

theorem Tabulated.copyWithRfSource (h : g.Tabulated) {recv : ℕ} {preserve : Bool}
    (hwith : g.copyWithRfSource recv source preserve = .ok g') :
    g'.Tabulated := by
  obtain ⟨copy, hcopy, rfl⟩ := copyWithRfSource_inv hwith
  exact (h.assignReadsFrom g copy recv source hcopy).withMetadata preserve none

theorem withNdValue_inv {ndEvent : ℕ} {value : V} (h : g.withNdValue ndEvent value = .ok g') :
    ∃ e nd, g.graph.events[ndEvent]? = some e ∧ e.label = .nondeterministicChoice nd ∧
      g' = { g with graph := { g.graph with
        events := g.graph.events.set ndEvent
          { e with label := .nondeterministicChoice { nd with value := value } } } } := by
  unfold withNdValue at h
  split at h
  · cases h
  · rename_i e he
    split at h
    · rename_i nd hnd
      cases h
      exact ⟨e, nd, he, hnd, rfl⟩
    · cases h

/-- Two events that no table tells apart. -/
def SameKind (a b : Event V) : Prop :=
  a.thread = b.thread ∧ a.index = b.index ∧ a.label.isReceive = b.label.isReceive ∧
    a.label.isSend = b.label.isSend

theorem tabulate_set (rf : ReadsFromRelation) (counts : List ℕ) (known : Bool)
    (pending : Option ℕ) {a b : Event V} (ha : events[id]? = some a) (hab : SameKind a b) :
    tabulate (events.set id b) rf counts known pending =
      { tabulate events rf counts known pending with
        graph := { (tabulate events rf counts known pending).graph with events := events.set id b } } := by
  obtain ⟨hthread, _, hreceive, hsend⟩ := hab
  have hlt := lt_of_getElem? ha
  have hin : ∀ tid, inThread tid a = inThread tid b := by
    intro tid
    unfold inThread
    rw [hthread]
  have hcount : ∀ tid, threadCount (events.set id b) tid = threadCount events tid :=
    fun tid => countP_set ha (hin tid)
  have hmask : zipWith (fun (e : Event V) c => e.label.isSend && decide (c = 0)) (events.set id b) counts
      = zipWith (fun (e : Event V) c => e.label.isSend && decide (c = 0)) events counts := by
    apply ext_getElem?
    intro j
    rw [getElem?_zipWith, getElem?_zipWith]
    by_cases hj : id = j
    · subst hj
      rw [getElem?_set_self hlt, ha]
      cases counts[id]? with
      | none => rfl
      | some c => simp [hsend]
    · rw [getElem?_set_ne hj]
  unfold tabulate
  simp only [hcount, hmask]
  congr 1
  · funext tid
    rw [positions_set ha (hin tid)]
  · funext tid
    exact positions_set ha (hin tid)
  · funext tid
    refine positions_set ha ?_
    unfold receiveIn
    rw [hthread, hreceive]
  · exact positions_set ha hsend

theorem numbered_set (h : Numbered events) {a b : Event V}
    (ha : events[id]? = some a) (hab : SameKind a b) : Numbered (events.set id b) := by
  have hin : ∀ tid, inThread tid a = inThread tid b := by
    intro tid
    unfold inThread
    rw [hab.1]
  have hcount : ∀ n tid, threadCount ((events.set id b).take n) tid = threadCount (events.take n) tid := by
    intro n tid
    rw [take_set]
    by_cases hn : id < n
    · exact countP_set (by rw [getElem?_take_of_lt hn, ha]) (hin tid)
    · rw [set_eq_of_length_le (by rw [length_take]; omega)]
  intro j e he
  rw [hcount]
  by_cases hj : id = j
  · subst hj
    rw [getElem?_set_self (lt_of_getElem? ha)] at he
    obtain rfl := Option.some.inj he
    rw [← hab.1, ← hab.2.1]
    exact h id a ha
  · rw [getElem?_set_ne hj] at he
    exact h j e he

theorem Tabulated.withNdValue (h : g.Tabulated) {ndEvent : ℕ} {value : V}
    (hnd : g.withNdValue ndEvent value = .ok g') : g'.Tabulated := by
  obtain ⟨e, nd, he, hlabel, rfl⟩ := withNdValue_inv hnd
  have hkind : SameKind e { e with label := .nondeterministicChoice { nd with value := value } } :=
    ⟨rfl, rfl, by rw [hlabel]; rfl, by rw [hlabel]; rfl⟩
  have heq := tabulate_set g.graph.readsFrom g.sendReaderCounts g.knownAcyclic
    g.pendingFreshReceiveId he hkind
  rw [← h.tables] at heq
  rw [← heq]
  refine tabulate_tabulated _ _ _ ?_ (numbered_set h.numbered he hkind)
  rw [length_set, h.counts_length]

end ExplorationGraph

/-! ## Undoing -/

/-- The undo record `add_event` writes for an event behind `events`. -/
def undoRecord (events : List (Event V)) (e : Event V) : EventUndo where
  eventId := events.length
  thread := e.thread
  eventIndex := e.index
  previousThreadState := ⟨threadCount events e.thread, (positions events (inThread e.thread)).getLast?⟩
  previousNextEventIndex := min (threadCount events e.thread) maxEventIndex

/-- The event undo log, newest record first, is about the last events. -/
def Logged : List (Event V) → List EventUndo → Prop
  | _, [] => True
  | events, undo :: log => ∃ init e, events = init ++ [e] ∧ undo = undoRecord init e ∧ Logged init log

theorem erase_usedIndices (h : n ≤ maxEventIndex) : (usedIndices (n + 1)).erase n = (1, usedIndices n) := by
  rw [usedIndices_succ h, erase_insert]
  unfold usedIndices
  rw [if_pos h]

namespace ExplorationGraph

section Tail
variable (init : List (Event V)) (e : Event V) (rf : ReadsFromRelation) (counts : List ℕ) (count : ℕ)
  (known : Bool) (pending : Option ℕ)

theorem rollbackLastEvent_tabulate (hnumbered : Numbered (init ++ [e])) :
    (tabulate (init ++ [e]) rf (counts ++ [count]) known pending).graph.rollbackLastEvent init.length
        e.thread e.index (min (threadCount init e.thread) maxEventIndex)
      = .ok (tabulate init rf counts known pending).graph := by
  obtain ⟨_, hindex, hle, _⟩ := (numbered_concat init e).mp hnumbered
  have hused : usedIndices (threadCount (init ++ [e]) e.thread) = usedIndices (e.index + 1) := by
    rw [threadCount_concat, if_pos rfl, hindex]
  unfold ExecutionGraph.rollbackLastEvent tabulate
  dsimp only
  rw [getLast?_concat]
  dsimp only
  rw [if_neg (by simp), if_neg (by simp), hused, erase_usedIndices hle]
  dsimp only
  rw [if_neg (by simp), dropLast_concat]
  have hothers (tid : ℕ) (htid : tid ≠ e.thread) : threadCount (init ++ [e]) tid = threadCount init tid := by
    rw [threadCount_concat, if_neg htid.symm, Nat.add_zero]
  congr 2
  · exact update_eq_iff.mpr ⟨rfl, fun tid htid => by rw [hothers tid htid]⟩
  · exact update_eq_iff.mpr ⟨by rw [hindex], fun tid htid => by rw [hothers tid htid]⟩

/-! Each table with its last entry taken off. -/

theorem threadEventIds_drop (tid : ℕ) :
    update (fun tid => positions (init ++ [e]) (inThread tid)) e.thread
      (positions (init ++ [e]) (inThread e.thread)).dropLast tid = positions init (inThread tid) := by
  by_cases htid : e.thread = tid
  · subst htid
    rw [update_self, positions_inThread_concat, if_pos rfl, dropLast_concat]
  · rw [update_of_ne (Ne.symm htid), positions_inThread_concat, if_neg htid]

theorem receiveEventIds_drop (tid : ℕ) :
    (if e.label.isReceive then
      update (fun tid => positions (init ++ [e]) (receiveIn tid)) e.thread
        (positions (init ++ [e]) (receiveIn e.thread)).dropLast
    else fun tid => positions (init ++ [e]) (receiveIn tid)) tid = positions init (receiveIn tid) := by
  by_cases hlabel : e.label.isReceive = true
  · rw [if_pos hlabel]
    by_cases htid : e.thread = tid
    · subst htid
      rw [update_self, positions_concat, if_pos (by simp [receiveIn, hlabel]),
        dropLast_concat]
    · rw [update_of_ne (Ne.symm htid), positions_concat, if_neg (by simp [receiveIn, htid]),
        append_nil]
  · rw [if_neg hlabel, positions_concat, if_neg (by simp [receiveIn, hlabel]), append_nil]

theorem sendEventIds_drop :
    (if e.label.isSend then (positions (init ++ [e]) fun e => e.label.isSend).dropLast
      else positions (init ++ [e]) fun e => e.label.isSend) = positions init fun e => e.label.isSend := by
  rw [positions_concat]
  cases e.label.isSend <;> simp

theorem checkTailCaches_tabulate (hlen : counts.length = init.length) :
    WorkerGraph.checkTailCaches (tabulate (init ++ [e]) rf (counts ++ [count]) known pending)
        (undoRecord init e) e =
      if e.label.isSend ∧ count ≠ 0 then
        .error (.internalError "rolled back send still appears to have readers")
      else .ok () := by
  have hthread : (positions (init ++ [e]) (inThread e.thread)).getLast? = some init.length := by
    rw [positions_inThread_concat, if_pos rfl, getLast?_concat]
  have hreceive : e.label.isReceive = true →
      (positions (init ++ [e]) (receiveIn e.thread)).getLast? = some init.length := by
    intro h
    rw [positions_concat, if_pos (by simp [receiveIn, h]), getLast?_concat]
  have hsend : e.label.isSend = true →
      (positions (init ++ [e]) fun e => e.label.isSend).getLast? = some init.length := by
    intro h
    rw [positions_concat, if_pos h, getLast?_concat]
  unfold WorkerGraph.checkTailCaches undoRecord tabulate
  dsimp only
  rw [if_neg (by simp [hthread]), if_neg (fun h => h.2 (hreceive h.1)),
    if_neg (by rw [zipWith_append hlen.symm]; simp), if_neg (fun h => h.2 (hsend h.1)),
    getLast?_concat]
  simp

end Tail
end ExplorationGraph

namespace WorkerGraph

structure Tabulated (w : WorkerGraph V) : Prop where
  graph : w.graph.Tabulated
  log : Logged w.graph.graph.events w.eventUndoLog

theorem undoLastEventAppend_tabulate {init : List (Event V)} {e : Event V} (rf : ReadsFromRelation)
    {counts : List ℕ} (count : ℕ) (known : Bool) (pending : Option ℕ) (hlen : counts.length = init.length)
    (hnumbered : Numbered (init ++ [e])) (log : List EventUndo) (rfs : List ReadsFromUndo) :
    undoLastEventAppend ⟨tabulate (init ++ [e]) rf (counts ++ [count]) known pending,
        undoRecord init e :: log, rfs⟩ =
      if e.label.isSend ∧ count ≠ 0 then
        .error (.internalError "rolled back send still appears to have readers")
      else .ok ⟨tabulate init rf counts known pending, log, rfs⟩ := by
  have hevent : (tabulate (init ++ [e]) rf (counts ++ [count]) known pending).event
      init.length = .ok e := by
    show ExecutionGraph.event ⟨init ++ [e], _, _, _⟩ init.length = _
    unfold ExecutionGraph.event
    rw [getElem?_concat_length]
  have hrollback := rollbackLastEvent_tabulate init e rf counts count known pending hnumbered
  have hcheck := checkTailCaches_tabulate init e rf counts count known pending hlen
  unfold undoLastEventAppend
  dsimp only
  rw [show (undoRecord init e).eventId = init.length from rfl, hevent]
  show (if (init ++ [e]).length - 1 ≠ init.length then _ else
    (ExecutionGraph.rollbackLastEvent _ _ e.thread e.index (min (threadCount init e.thread) maxEventIndex)
      >>= fun _ => _)) = _
  rw [if_neg (by simp), hrollback]
  show (WorkerGraph.checkTailCaches _ _ e >>= fun _ => _) = _
  rw [hcheck]
  split
  · rfl
  · show Except.ok _ = Except.ok _
    congr 2
    unfold tabulate
    dsimp only
    congr 1
    · funext tid
      by_cases htid : e.thread = tid
      · subst htid
        exact update_self _ _ _
      · show update _ e.thread _ tid = _
        rw [update_of_ne (Ne.symm htid), threadCount_concat, positions_inThread_concat,
          if_neg htid, if_neg htid, Nat.add_zero]
    · exact funext (threadEventIds_drop init e)
    · exact funext (receiveEventIds_drop init e)
    · exact sendEventIds_drop init e
    · exact dropLast_concat
    · rw [zipWith_append hlen.symm]
      exact dropLast_concat

theorem Tabulated.ofGraph (h : g.Tabulated) : (ofGraph g).Tabulated :=
  ⟨h, trivial⟩

theorem Tabulated.withMetadata {w : WorkerGraph V} (h : w.Tabulated) (known : Bool) (pending : Option ℕ) :
    (w.withMetadata known pending).Tabulated :=
  ⟨h.graph.withMetadata known pending, h.log⟩

variable {w : WorkerGraph V}

theorem Tabulated.appended (h : w.Tabulated)
    (label : EventLabel V) (hnext : w.graph.graph.nextEventIndex thread = .ok index) :
    (w.appended thread index label).Tabulated := by
  refine ⟨h.graph.appended label hnext, ?_⟩
  refine ⟨w.graph.graph.events, ⟨thread, index, label⟩, rfl, ?_, h.log⟩
  have hstate : w.graph.threadState thread = ⟨threadCount w.graph.graph.events thread,
      (positions w.graph.graph.events (inThread thread)).getLast?⟩ := by
    conv_lhs => rw [h.graph.tables]
    rfl
  have hindex : w.graph.graph.nextEventIndexByThread thread
      = min (threadCount w.graph.graph.events thread) maxEventIndex := by
    conv_lhs => rw [h.graph.tables]
    rfl
  unfold undoRecord
  rw [← hstate, ← hindex]
  rfl

variable {w' : WorkerGraph V}

theorem Tabulated.addEvent (h : w.Tabulated) {label : EventLabel V}
    (hadd : w.addEvent thread label = .ok (id, w')) : w'.Tabulated := by
  obtain ⟨index, hnext, _, rfl⟩ := addEvent_inv hadd
  exact h.appended label hnext

theorem Tabulated.setReadsFromSource (h : w.Tabulated) {recv : ℕ}
    (hset : w.setReadsFromSource recv source = .ok w') : w'.Tabulated := by
  obtain ⟨g', hg', rfl⟩ := setReadsFromSource_inv hset
  refine ⟨h.graph.assignReadsFrom w.graph g' recv source hg', ?_⟩
  show Logged g'.graph.events w.eventUndoLog
  rw [assignReadsFrom_events hg']
  exact h.log

theorem Tabulated.rebindRf (w w' : WorkerGraph V) (h : w.Tabulated) (recv send : ℕ) (preserve : Bool)
    (hrebind : w.rebindRf recv send preserve = .ok w') : w'.Tabulated := by
  obtain ⟨_, _, a, b, ha, hb, rfl⟩ := rebindRf_inv hrebind
  exact Tabulated.ofGraph ((((h.graph.adjustSendReaderCount ha).adjustSendReaderCount hb).withReadsFrom _).withMetadata _ _)

theorem Tabulated.undoLastRfAssignment {w u : WorkerGraph V} (h : w.Tabulated)
    (hundo : w.undoLastRfAssignment = .ok u) : u.Tabulated := by
  have hlogged := (undoLastRfAssignment_same hundo).1
  obtain ⟨undo, log, a, b, _, ha, hb, rfl⟩ := undoLastRfAssignment_inv hundo
  refine ⟨((h.graph.adjustSendReaderCount ha).adjustSendReaderCount hb).withReadsFrom _, ?_⟩
  rw [hlogged.events]
  exact h.log

variable {u : WorkerGraph V}

theorem undoLastEventAppend_inv (h : w.Tabulated) (hundo : w.undoLastEventAppend = .ok u) :
    ∃ init e counts count log, w.graph.graph.events = init ++ [e] ∧
      w.graph.sendReaderCounts = counts ++ [count] ∧ counts.length = init.length ∧
      w.eventUndoLog = undoRecord init e :: log ∧ Logged init log ∧
      (e.label.isSend = true → count = 0) ∧
      u = ⟨tabulate init w.graph.graph.readsFrom counts w.graph.knownAcyclic
        w.graph.pendingFreshReceiveId, log, w.rfUndoLog⟩ := by
  cases hlog : w.eventUndoLog with
  | nil =>
    unfold undoLastEventAppend at hundo
    rw [hlog] at hundo
    cases hundo
  | cons undo log =>
    have hlogged := h.log
    rw [hlog] at hlogged
    obtain ⟨init, e, hevents, rfl, hinit⟩ := hlogged
    have hlen := h.graph.counts_length
    rw [hevents, length_append, length_singleton] at hlen
    rcases eq_nil_or_concat w.graph.sendReaderCounts with hnil | ⟨counts, count, hcounts⟩
    · rw [hnil] at hlen
      cases hlen
    · rw [concat_eq_append] at hcounts
      rw [hcounts, length_append, length_singleton, Nat.add_right_cancel_iff] at hlen
      have hw : w = ⟨tabulate (init ++ [e]) w.graph.graph.readsFrom (counts ++ [count])
          w.graph.knownAcyclic w.graph.pendingFreshReceiveId, undoRecord init e :: log, w.rfUndoLog⟩ := by
        rw [← hevents, ← hcounts, ← h.graph.tables, ← hlog]
      have hnumbered : Numbered (init ++ [e]) := hevents ▸ h.graph.numbered
      rw [hw, undoLastEventAppend_tabulate _ count _ _ hlen hnumbered log _] at hundo
      split at hundo
      · cases hundo
      · rename_i hready
        cases hundo
        refine ⟨init, e, counts, count, log, hevents, hcounts, hlen, rfl, hinit, fun hsend => ?_, rfl⟩
        by_contra hcount
        exact hready ⟨hsend, hcount⟩

theorem Tabulated.undoLastEventAppend {w u : WorkerGraph V} (h : w.Tabulated)
    (hundo : w.undoLastEventAppend = .ok u) : u.Tabulated := by
  obtain ⟨init, e, counts, count, log, hevents, _, hlen, _, hlog, _, rfl⟩ :=
    undoLastEventAppend_inv h hundo
  have hnumbered : Numbered init := ((numbered_concat init e).mp (hevents ▸ h.graph.numbered)).1
  exact ⟨tabulate_tabulated _ _ _ hlen hnumbered, hlog⟩

/-! What one undo keeps, a rollback keeps. -/

variable (P : WorkerGraph V → Prop)

theorem undoRfAssignments_keeps (hrf : ∀ w u : WorkerGraph V, P w → w.undoLastRfAssignment = .ok u → P u)
    (n : ℕ) (w u : WorkerGraph V) (h : P w) (hundo : undoRfAssignments n w = .ok u) : P u := by
  induction n generalizing w with
  | zero =>
    cases hundo
    exact h
  | succ n ih =>
    obtain ⟨a, ha, hundo⟩ := Except.bind_ok_iff.mp hundo
    exact ih a (hrf w a h ha) hundo

theorem undoEventAppends_keeps (hevent : ∀ w u : WorkerGraph V, P w → w.undoLastEventAppend = .ok u → P u)
    (n : ℕ) (w u : WorkerGraph V) (h : P w) (hundo : undoEventAppends n w = .ok u) : P u := by
  induction n generalizing w with
  | zero =>
    cases hundo
    exact h
  | succ n ih =>
    obtain ⟨a, ha, hundo⟩ := Except.bind_ok_iff.mp hundo
    exact ih a (hevent w a h ha) hundo

theorem rollback_keeps (hrf : ∀ w u : WorkerGraph V, P w → w.undoLastRfAssignment = .ok u → P u)
    (hevent : ∀ w u : WorkerGraph V, P w → w.undoLastEventAppend = .ok u → P u)
    (hmeta : ∀ (w : WorkerGraph V) known pending, P w → P (w.withMetadata known pending)) {cp : Checkpoint} (h : P w) (hroll : w.rollback cp = .ok u) : P u := by
  rw [rollback_eq] at hroll
  split at hroll
  · cases hroll
  · obtain ⟨v, hv, rfl⟩ := (Except.map_ok_iff _ _ _).mp hroll
    obtain ⟨a, ha, hv⟩ := Except.bind_ok_iff.mp hv
    exact hmeta v _ _ (undoEventAppends_keeps P hevent _ a v (undoRfAssignments_keeps P hrf _ w a h ha) hv)

theorem Tabulated.rollback {cp : Checkpoint} (h : w.Tabulated) (hroll : w.rollback cp = .ok u) : u.Tabulated :=
  rollback_keeps Tabulated (fun _ _ hw => hw.undoLastRfAssignment)
    (fun _ _ hw => hw.undoLastEventAppend) (fun _ known pending hw => hw.withMetadata known pending) h hroll

end WorkerGraph
end MustDpor

import MustDpor.Model.Inverse

/-! # Malformed reads-from entries

Neither `set_reads_from` nor `set_reads_from_bottom` validates its ids. The operations and queries of a
graph with malformed entries return or throw `precondition_error` as long as three things are avoided:
a send added under an id that an entry or an undo record names, the largest 64-bit id as a receive, and
a restriction while an entry points past the events. -/

namespace MustDpor
set_option autoImplicit false
open List ExplorationGraph

variable {V : Type}

/-! ## Rendering -/

namespace ExplorationGraph

/-- What `format_graph` writes about a receive: its rf entry, whatever it names. -/
def formatSource (valueFormatter : V → String) (g : ExplorationGraph V) (id : ℕ) : Except DporError String :=
  match g.readsFrom.find id with
  | none => return "unmatched)"
  | some .bottom => return "bottom)"
  | some (.send sendId) =>
    if g.isValidEventId sendId then do
      let source ← g.event sendId
      match source.label.asSend with
      | some send => return "from=" ++ toString sendId ++ ", val=" ++ valueFormatter send.value ++ ")"
      | none => return "from=" ++ toString sendId ++ ")"
    else return "from=" ++ toString sendId ++ ")"

def formatLabel (valueFormatter : V → String) (g : ExplorationGraph V) (id : ℕ) :
    EventLabel V → Except DporError String
  | .send send =>
    return "send(dest=" ++ toString send.destination ++ ", val=" ++ valueFormatter send.value ++ ")"
  | .receive recv => do
    let source ← g.formatSource valueFormatter id
    return (if recv.isBlocking then "receive(" else "receive(nonblocking, ") ++ source
  | .nondeterministicChoice nd => return "nd(val=" ++ valueFormatter nd.value ++ ")"
  | .block => return "block"
  | .error error => return "error(" ++ error.message ++ ")"

def formatEvents (valueFormatter : V → String) (g : ExplorationGraph V) : List ℕ → Except DporError String
  | [] => return ""
  | id :: rest => do
    let evt ← g.event id
    let label ← g.formatLabel valueFormatter id evt.label
    let text ← formatEvents valueFormatter g rest
    return "event " ++ toString id ++ " thread=" ++ toString evt.thread ++ " index=" ++ toString evt.index ++ " "
      ++ label ++ "\n" ++ text

/-- `format_graph` of `include/dpor/model/format.hpp`. -/
def formatGraph (valueFormatter : V → String) (g : ExplorationGraph V) : Except DporError String :=
  g.formatEvents valueFormatter (List.range g.eventCount)

end ExplorationGraph

/-! ## Returning, or refusing the arguments -/

/-- The call returns or throws `precondition_error`. -/
def Orderly {α : Type} (x : Except DporError α) : Prop :=
  (∃ a, x = .ok a) ∨ ∃ message, x = .error (.preconditionError message)

namespace Orderly
variable {α β : Type}

theorem ok (a : α) : Orderly (.ok a) := Or.inl ⟨a, rfl⟩

theorem refusal (message : String) : Orderly (.error (.preconditionError message) : Except DporError α) :=
  Or.inr ⟨message, rfl⟩

theorem bind (x : Except DporError α) (f : α → Except DporError β) (hx : Orderly x)
    (hf : ∀ a, x = .ok a → Orderly (f a)) : Orderly (x >>= f) := by
  rcases hx with ⟨a, rfl⟩ | ⟨message, rfl⟩
  · exact hf a rfl
  · exact refusal message

end Orderly

namespace ExplorationGraph
variable (g : ExplorationGraph V)

theorem event_orderly (id : ℕ) : Orderly (g.event id) := by
  unfold event ExecutionGraph.event
  split
  · exact .ok _
  · exact .refusal _

theorem threadTrace_orderly (tid : ℕ) : Orderly (g.threadTrace tid) := by
  have hobserve (id : ℕ) : Orderly (g.observe id) := by
    refine .bind _ _ (g.event_orderly id) fun evt _ => ?_
    split
    · split
      · exact .ok _
      · exact .ok _
      · refine .bind _ _ (g.event_orderly _) fun source _ => ?_
        split
        · exact .ok _
        · exact .ok _
    · exact .ok _
    · exact .ok _
  unfold threadTrace
  induction g.threadEventIds tid with
  | nil => exact .ok _
  | cons id rest ih => exact .bind _ _ (hobserve id) fun observed _ => .bind _ _ ih fun trace _ => .ok _

theorem formatGraph_orderly (valueFormatter : V → String) : Orderly (g.formatGraph valueFormatter) := by
  have hsource (id : ℕ) : Orderly (g.formatSource valueFormatter id) := by
    unfold formatSource
    split
    · exact .ok _
    · exact .ok _
    · split
      · refine .bind _ _ (g.event_orderly _) fun source _ => ?_
        split
        · exact .ok _
        · exact .ok _
      · exact .ok _
  have hlabel (id : ℕ) (label : EventLabel V) : Orderly (g.formatLabel valueFormatter id label) := by
    cases label with
    | receive recv => exact .bind _ _ (hsource id) fun source _ => .ok _
    | _ => exact .ok _
  unfold formatGraph
  induction range g.eventCount with
  | nil => exact .ok _
  | cons id rest ih =>
    exact .bind _ _ (g.event_orderly id) fun evt _ => .bind _ _ (hlabel id evt.label) fun label _ =>
      .bind _ _ ih fun text _ => .ok _

theorem validatedRfEdges_orderly : Orderly g.graph.validatedRfEdges := by
  unfold ExecutionGraph.validatedRfEdges
  induction g.graph.readsFrom.entries with
  | nil => exact .ok _
  | cons entry rest ih =>
    obtain ⟨recv, source⟩ := entry
    unfold ExecutionGraph.validatedRfEdgesOf
    split
    · exact .refusal _
    · split
      · exact .refusal _
      · split
        · exact ih
        · split
          · exact .refusal _
          · split
            · exact .refusal _
            · exact .bind _ _ ih fun edges _ => .ok _

theorem buildPorfAdjacencyAndOrder_orderly : Orderly g.buildPorfAdjacencyAndOrder :=
  .bind _ _ (.bind _ _ g.validatedRfEdges_orderly fun _ _ => .ok _) fun _ _ => .ok _

theorem hasCausalCycleWithoutCache_orderly : Orderly g.hasCausalCycleWithoutCache :=
  .bind _ _ g.buildPorfAdjacencyAndOrder_orderly fun _ _ => .ok _

theorem ensurePorfCache_orderly : Orderly g.ensurePorfCache := by
  unfold ensurePorfCache
  split
  · exact .ok _
  · refine .bind _ _ g.buildPorfAdjacencyAndOrder_orderly fun order _ => ?_
    split
    · exact .ok _
    · exact .ok _

theorem hasCausalCycle_orderly : Orderly g.hasCausalCycle :=
  .bind _ _ g.ensurePorfCache_orderly fun _ _ => .ok _

theorem porfContains_orderly (fromId toId : ℕ) : Orderly (g.porfContains fromId toId) := by
  unfold porfContains
  split
  · exact .refusal _
  · refine .bind _ _ g.ensurePorfCache_orderly fun cache _ => ?_
    dsimp only
    split
    · exact .refusal _
    · split
      · exact .ok _
      · split
        · exact .ok _
        · exact .ok _

/-! ## Restrictions -/

/-- No entry points past the events: no receive id, and no source of a kept receive. -/
def Restrictable (keepSet : List ℕ) : Prop :=
  ∀ receiveId source, g.readsFrom.find receiveId = some source →
    receiveId < g.eventCount ∧ (receiveId ∈ keepSet → ∀ id, source = .send id → id < g.eventCount)

theorem addEvent_orderly (thread : ℕ) (label : EventLabel V) : Orderly (g.addEvent thread label) := by
  have hscan (used : UsedEventIndexSet) (fuel next : ℕ) : Orderly (ExecutionGraph.scanEventIndex used fuel next) := by
    induction fuel generalizing next with
    | zero => exact .refusal _
    | succ fuel ih =>
      unfold ExecutionGraph.scanEventIndex
      split
      · split
        · exact .refusal _
        · exact ih (next + 1)
      · exact .ok _
  have hindex : Orderly (g.graph.nextEventIndex thread) := by
    unfold ExecutionGraph.nextEventIndex
    split
    · exact .refusal _
    · exact hscan _ _ _
  exact .bind _ _ (.bind _ _ hindex fun _ _ => .ok _) fun _ _ => .ok _

theorem bulkBuild_orderly (events : List (Event V)) : Orderly (bulkBuild events g) := by
  induction events generalizing g with
  | nil => exact .ok _
  | cons e rest ih =>
    rw [bulkBuild_cons]
    exact .bind _ _ (g.addEvent_orderly e.thread e.label) fun added _ => ih added.2

theorem remapReadsFrom_ok (mask : List Bool) (hsize : mask.length < ReadsFromRelation.maxEntries)
    (entries : List (ℕ × ReadsFromSource)) (hentries : ∀ entry ∈ entries, entry.1 < mask.length ∧
      (mask.getD entry.1 false = true → ∀ id, entry.2 = .send id → id < mask.length))
    (hs : g.Sound) (hc : g.Counted) : ∃ g', remapReadsFrom mask entries g = .ok g' := by
  induction entries generalizing g with
  | nil => exact ⟨g, rfl⟩
  | cons entry rest ih =>
    obtain ⟨recvId, source⟩ := entry
    obtain ⟨hrecv, hsource⟩ := hentries (recvId, source) mem_cons_self
    have hrest := ih g (fun entry hentry => hentries entry (mem_cons_of_mem _ hentry))
    have hassign (remapped : ℕ) (hle : remapped ≤ recvId) (source : ReadsFromSource) :
        ∃ g', (g.assignReadsFrom remapped source >>= remapReadsFrom mask rest) = .ok g' := by
      obtain ⟨a, ha⟩ := g.assignReadsFrom_ok hc remapped source (by omega)
      rw [ha]
      exact ih a (fun entry hentry => hentries entry (mem_cons_of_mem _ hentry))
        (hs.assignReadsFrom ha) (hc.assignReadsFrom hs ha)
    unfold remapReadsFrom
    rw [if_neg (not_le.mpr hrecv)]
    unfold remapId
    by_cases hkept : mask.getD recvId false = true
    · rw [if_pos hkept]
      have hle : (mask.take recvId).countP (fun b => b) ≤ recvId :=
        countP_le_length.trans (length_take_le _ _)
      cases source with
      | bottom => exact hassign _ hle .bottom
      | send sendId =>
        dsimp only
        rw [if_neg (not_le.mpr (hsource hkept sendId rfl))]
        split
        · exact hrest hs hc
        · exact hassign _ hle _
    · rw [if_neg hkept]
      exact hrest hs hc

theorem restrict_orderly (ht : g.Tabulated) (keepSet : List ℕ) (hkeep : g.Restrictable keepSet) :
    Orderly (g.restrict keepSet) := by
  unfold restrict restrictMasked
  have hlength : ((range g.eventCount).map fun id => keepSet.contains id).length = g.eventCount := by
    rw [length_map, length_range]
  rw [if_neg (not_not.mpr hlength)]
  refine .bind _ _ (bulkBuild_orderly _ _) fun built hbuilt => ?_
  obtain ⟨hsound, hcounted, -⟩ := bulkBuild_counted hbuilt
  have hremap := built.remapReadsFrom_ok ((range g.eventCount).map fun id => keepSet.contains id)
    (by rw [hlength]; exact ht.numbered.length_lt) g.readsFrom.entries ?_ hsound hcounted
  · obtain ⟨remapped, hremapped⟩ := hremap
    rw [hremapped]
    exact .ok _
  · rintro ⟨recv, source⟩ hentry
    obtain ⟨hlt, hsource⟩ := hkeep recv source (AscendingMap.mem_entries.mp hentry)
    rw [hlength]
    refine ⟨hlt, fun hkept => hsource ?_⟩
    rw [getD_eq_getElem?_getD, getElem?_map, getElem?_range hlt] at hkept
    simpa using hkept

/-! ## Tables in range -/

/-- Every id that a table holds or a loop over the edges reaches is the id of an event, and the columns
per event are as long as the event vector. -/
structure InRange : Prop where
  threadEventIds : ∀ tid, ∀ id ∈ g.threadEventIds tid, id < g.eventCount
  receiveEventIds : ∀ tid, ∀ id ∈ g.receiveEventIdsByThread tid, id < g.eventCount
  sendEventIds : ∀ id ∈ g.sendEventIds, id < g.eventCount
  lastEventId : ∀ tid, (g.threadState tid).eventCount ≠ 0 →
    ∃ id, (g.threadState tid).lastEventId = some id ∧ id < g.eventCount
  sendReaderCounts : g.sendReaderCounts.length = g.eventCount
  unreadSendMask : g.unreadSendMask.length = g.eventCount
  porfEdges : ∀ edges, g.porfEdges = .ok edges → ∀ edge ∈ edges, edge.1 < g.eventCount ∧ edge.2 < g.eventCount
  clockColumns : ∀ e ∈ g.events, (g.threadClockIndex e.thread).isSome = true

theorem mem_validatedRfEdges (edges : List (ℕ × ℕ)) (h : g.graph.validatedRfEdges = .ok edges) :
    ∀ edge ∈ edges, edge.1 < g.eventCount ∧ edge.2 < g.eventCount := by
  unfold ExecutionGraph.validatedRfEdges at h
  generalize g.graph.readsFrom.entries = entries at h
  induction entries generalizing edges with
  | nil =>
    cases h
    exact nofun
  | cons entry rest ih =>
    obtain ⟨recv, source⟩ := entry
    unfold ExecutionGraph.validatedRfEdgesOf at h
    split at h
    · cases h
    · rename_i receive hreceive
      split at h
      · cases h
      · split at h
        · exact ih edges h
        · split at h
          · cases h
          · rename_i send hsend
            split at h
            · cases h
            · obtain ⟨others, hothers, h⟩ := Except.bind_ok_iff.mp h
              cases h
              intro edge hedge
              rcases mem_cons.mp hedge with rfl | hedge
              · exact ⟨lt_of_getElem? hsend, lt_of_getElem? hreceive⟩
              · exact ih others hothers edge hedge

theorem Tabulated.inRange (h : g.Tabulated) : g.InRange := by
  have hthreads (tid id : ℕ) (hid : id ∈ g.threadEventIds tid) : id < g.eventCount := by
    rw [h.tables] at hid
    exact lt_of_mem_positions hid
  refine ⟨hthreads, fun tid id hid => ?_, fun id hid => ?_, fun tid hcount => ?_, h.counts_length, ?_, ?_, ?_⟩
  · rw [h.tables] at hid
    exact lt_of_mem_positions hid
  · rw [h.tables] at hid
    exact lt_of_mem_positions hid
  · have hstate : g.threadState tid
        = ⟨threadCount g.graph.events tid, (positions g.graph.events (inThread tid)).getLast?⟩ :=
      congrFun (congrArg threadState h.tables) tid
    rw [hstate] at hcount ⊢
    have hne : positions g.graph.events (inThread tid) ≠ [] := by
      intro hnil
      have hlength := length_positions g.graph.events (inThread tid)
      rw [hnil] at hlength
      exact hcount hlength.symm
    exact ⟨(positions g.graph.events (inThread tid)).getLast hne, List.getLast?_eq_some_getLast hne,
      lt_of_mem_positions (List.getLast_mem hne)⟩
  · rw [h.tables]
    exact List.length_zipWith.trans (by rw [h.counts_length, Nat.min_self]; rfl)
  · intro edges hedges edge hedge
    obtain ⟨rfEdges, hrf, hedges⟩ := Except.bind_ok_iff.mp hedges
    cases hedges
    rcases List.mem_append.mp hedge with hpo | hrfEdge
    · obtain ⟨a, b⟩ := edge
      obtain ⟨tid, i, ha, hb⟩ := (h.mem_poEdges g a b).mp hpo
      exact ⟨hthreads tid a (List.mem_of_getElem? ha), hthreads tid b (List.mem_of_getElem? hb)⟩
    · exact g.mem_validatedRfEdges rfEdges hrf edge hrfEdge
  · intro e he
    obtain ⟨id, hid⟩ := List.getElem?_of_mem he
    unfold threadClockIndex
    rw [if_neg]
    · rfl
    · rw [List.isEmpty_iff, h.tables]
      exact List.ne_nil_of_mem ((mem_positions _ _ id).mpr ⟨e, hid, decide_eq_true rfl⟩)

end ExplorationGraph

/-! ## Histories -/

namespace WorkerGraph

/-- The graphs that events, assignments with any ids and rollbacks make of the empty one, with the states
at which checkpoints of the current history were taken, the latest first. -/
inductive History (allowed : WorkerGraph V → EventLabel V → Prop) : List (WorkerGraph V) → WorkerGraph V → Prop
  | empty : History allowed [] (.ofGraph .empty)
  | checkpoint (taken : List (WorkerGraph V)) (w : WorkerGraph V) :
    History allowed taken w → History allowed (w :: taken) w
  | addEvent (taken : List (WorkerGraph V)) (w w' : WorkerGraph V) (thread id : ℕ) (label : EventLabel V) :
    History allowed taken w → allowed w label → w.addEvent thread label = .ok (id, w') →
      History allowed taken w'
  | setReadsFromSource (taken : List (WorkerGraph V)) (w w' : WorkerGraph V) (receiveId : ℕ)
      (source : ReadsFromSource) :
    History allowed taken w → w.setReadsFromSource receiveId source = .ok w' → History allowed taken w'
  | rollback (newer older : List (WorkerGraph V)) (v w w' : WorkerGraph V) :
    History allowed (newer ++ v :: older) w → w.rollback v.checkpoint = .ok w' → History allowed (v :: older) w'

/-- Tables and counts are what they should be, and in a run that is `safe` so is the flag. -/
structure Sturdy (safe : Prop) (w : WorkerGraph V) : Prop where
  tables : w.Tabulated
  counted : w.graph.Counted
  truthful : safe → w.graph.Truthful

/-- What holds of a graph and of the states its checkpoints were taken at: each can be rolled back to. -/
structure Traceable (safe : Prop) (taken : List (WorkerGraph V)) (w : WorkerGraph V) : Prop where
  sturdy : ∀ v ∈ w :: taken, v.Sturdy safe
  back : (w :: taken).Pairwise fun newer older => newer.rollback older.checkpoint = .ok older

namespace Traceable
variable {safe : Prop} {taken : List (WorkerGraph V)} {w w' : WorkerGraph V}

theorem fresh_history (h : w.Sturdy safe) : Traceable safe [] w := by
  refine ⟨fun v hv => ?_, pairwise_singleton _ _⟩
  cases mem_singleton.mp hv
  exact h

theorem step (h : Traceable safe taken w) (hsturdy : w'.Sturdy safe)
    (hback : ∀ v, w.rollback v.checkpoint = .ok v → w'.rollback v.checkpoint = .ok v) : Traceable safe taken w' := by
  obtain ⟨hw, htaken⟩ := pairwise_cons.mp h.back
  refine ⟨fun v hv => ?_, pairwise_cons.mpr ⟨fun v hv => hback v (hw v hv), htaken⟩⟩
  rcases mem_cons.mp hv with rfl | hv
  · exact hsturdy
  · exact h.sturdy v (mem_cons_of_mem _ hv)

theorem checkpoint (h : Traceable safe taken w) : Traceable safe (w :: taken) w := by
  refine ⟨fun v hv => ?_, pairwise_cons.mpr ⟨fun v hv => ?_, h.back⟩⟩
  · rcases mem_cons.mp hv with rfl | hv
    · exact h.sturdy v mem_cons_self
    · exact h.sturdy v hv
  · rcases mem_cons.mp hv with rfl | hv
    · exact v.rollback_checkpoint
    · exact (pairwise_cons.mp h.back).1 v hv

theorem addEvent (h : Traceable safe taken w) {thread id : ℕ} {label : EventLabel V}
    (hunnamed : w.SendsUnnamed label) (hadd : w.addEvent thread label = .ok (id, w')) : Traceable safe taken w' := by
  obtain ⟨index, hnext, -, rfl⟩ := addEvent_inv hadd
  obtain ⟨htables, hcounted, htruthful⟩ := h.sturdy w mem_cons_self
  have hsound := htables.graph.sound
  refine h.step ⟨htables.appended label hnext,
    hcounted.appended hsound thread index fun hsend => (hunnamed hsend).1,
    fun hsafe => (htruthful hsafe).appended htables.graph label hnext⟩ fun v hv => ?_
  exact rollback_appended_older thread index label w v hsound hnext _
    (fun hsend => ⟨(hunnamed hsend).1, fun record hrecord => (hunnamed hsend).2 record
      (by rw [take_length]; exact mem_of_mem_take hrecord)⟩) hv

theorem setReadsFromSource (h : Traceable safe taken w) {recv : ℕ} {source : ReadsFromSource}
    (hset : w.setReadsFromSource recv source = .ok w') : Traceable safe taken w' := by
  obtain ⟨htables, hcounted, htruthful⟩ := h.sturdy w mem_cons_self
  have hsound := htables.graph.sound
  refine h.step ⟨htables.setReadsFromSource hset, ?_, fun hsafe => ?_⟩
    fun v hv => rollback_setReadsFromSource_older hsound hset hv
  all_goals obtain ⟨g', hg', rfl⟩ := setReadsFromSource_inv hset
  · exact hcounted.assignReadsFrom hsound hg'
  · exact (htruthful hsafe).assignReadsFrom htables.graph hg'

theorem rollback {newer older : List (WorkerGraph V)} {v : WorkerGraph V}
    (h : Traceable safe (newer ++ v :: older) w) (hroll : w.rollback v.checkpoint = .ok w') :
    Traceable safe (v :: older) w' := by
  obtain ⟨hw, htaken⟩ := pairwise_cons.mp h.back
  have hv : v ∈ newer ++ v :: older := mem_append_right _ mem_cons_self
  cases (hw v hv).symm.trans hroll
  refine ⟨fun x hx => ?_, pairwise_cons.mpr ⟨fun x hx => ?_, (pairwise_append.mp htaken).2.1⟩⟩
  · rcases mem_cons.mp hx with rfl | hx
    · exact h.sturdy x (mem_cons_of_mem _ hv)
    · exact h.sturdy x (mem_cons_of_mem _ (mem_append_right _ hx))
  · rcases mem_cons.mp hx with rfl | hx
    · exact x.rollback_checkpoint
    · exact (pairwise_cons.mp (pairwise_append.mp htaken).2.1).1 x hx

end Traceable

theorem empty_sturdy (safe : Prop) : Sturdy safe (.ofGraph (.empty : ExplorationGraph V)) :=
  ⟨.ofGraph empty_tabulated, empty_counted, fun _ => empty_truthful⟩

theorem History.traceable (taken : List (WorkerGraph V)) (w : WorkerGraph V)
    (h : History SendsUnnamed taken w) : Traceable True taken w := by
  induction h with
  | empty => exact .fresh_history (empty_sturdy True)
  | checkpoint taken w _ ih => exact ih.checkpoint
  | addEvent taken w w' thread id label _ hallowed hadd ih => exact ih.addEvent hallowed hadd
  | setReadsFromSource taken w w' recv source _ hset ih => exact ih.setReadsFromSource hset
  | rollback newer older v w w' _ hroll ih => exact ih.rollback hroll

/-- What the graph layer does with a graph, whatever its entries name. -/
structure Withstands (taken : List (WorkerGraph V)) (w : WorkerGraph V) : Prop where
  setReadsFrom : ∀ receiveId source, receiveId < ReadsFromRelation.maxEntries →
    Orderly (w.setReadsFromSource receiveId source)
  rollback : ∀ v ∈ taken, Orderly (w.rollback v.checkpoint)
  restrict : ∀ keepSet, w.graph.Restrictable keepSet → Orderly (w.graph.restrict keepSet)
  withRf : ∀ recv send, recv < ReadsFromRelation.maxEntries → Orderly (w.graph.withRf recv send)
  threadTrace : ∀ tid, Orderly (w.graph.threadTrace tid)
  porfContains : ∀ fromId toId, Orderly (w.graph.porfContains fromId toId)
  hasCausalCycle : Orderly w.graph.hasCausalCycle
  hasCausalCycleWithoutCache : Orderly w.graph.hasCausalCycleWithoutCache
  formatGraph : ∀ valueFormatter, Orderly (w.graph.formatGraph valueFormatter)
  check : ∀ communicationModel, Orderly (checkConsistency w.graph communicationModel)
  -- `unread_send_event_ids` throws nothing; it reads the send ids and the mask
  tables : w.graph.InRange

/-- In every history whose sends get ids that nothing names, each call on the graph returns or throws
`precondition_error`, and the tables stay in range. -/
theorem malformed_entries_withstood (taken : List (WorkerGraph V)) (w : WorkerGraph V)
    (h : History SendsUnnamed taken w) : w.Withstands taken := by
  have htrace := h.traceable taken w
  obtain ⟨htables, hcounted, htruthful⟩ := htrace.sturdy w List.mem_cons_self
  refine
    { setReadsFrom := fun receiveId source hmax => ?_
      rollback := fun v hv => Or.inl ⟨v, (List.pairwise_cons.mp htrace.back).1 v hv⟩
      restrict := fun keepSet hkeep => w.graph.restrict_orderly htables.graph keepSet hkeep
      withRf := fun recv send hmax => ?_
      threadTrace := w.graph.threadTrace_orderly
      porfContains := w.graph.porfContains_orderly
      hasCausalCycle := w.graph.hasCausalCycle_orderly
      hasCausalCycleWithoutCache := w.graph.hasCausalCycleWithoutCache_orderly
      formatGraph := w.graph.formatGraph_orderly
      check := fun communicationModel => ?_
      tables := htables.graph.inRange w.graph }
  · rw [setReadsFromSource_eq]
    exact .bind _ _ (Or.inl (w.graph.assignReadsFrom_ok hcounted receiveId source hmax)) fun _ _ => .ok _
  · exact .bind _ _ (Or.inl (w.graph.assignReadsFrom_ok hcounted recv (.send send) hmax)) fun _ _ => .ok _
  · have hfresh := CachedGraph.fresh_of_none w
    obtain ⟨result, m', hcheck, -⟩ :=
      CachedGraph.Kept.check_agrees ⟨w, none⟩ ⟨htables, htruthful trivial, hfresh⟩ communicationModel
    obtain ⟨filled, -, -, hpure⟩ := hfresh.check ⟨w, none⟩ communicationModel
    obtain ⟨r, hr, -⟩ := (Except.map_ok_iff _ _ _).mp (hpure.symm.trans hcheck)
    exact Or.inl ⟨r, hr⟩

/-- A receive that reads from itself, and an entry for an event that does not exist. -/
theorem dangling_entry_withstood :
    ∃ w : WorkerGraph ℕ, w.graph.readsFrom.find 5 = some (.send 9) ∧ w.graph.eventCount = 1 ∧
      (∃ taken, History SendsUnnamed taken w ∧ taken ≠ [] ∧ w.Withstands taken) := by
  have hreceive : History SendsUnnamed [] _ :=
    .addEvent [] _ _ 0 0 (.receive ⟨.blocking, fun _ => true⟩) (History.empty (V := ℕ)) (fun hsend => nomatch hsend) rfl
  have hchecked := History.checkpoint [] _ hreceive
  have hself : History SendsUnnamed _ _ := .setReadsFromSource _ _ _ 0 (.send 0) hchecked rfl
  have hdangling : History SendsUnnamed _ _ := .setReadsFromSource _ _ _ 5 (.send 9) hself rfl
  exact ⟨_, rfl, rfl, _, hdangling, List.cons_ne_nil _ _, malformed_entries_withstood _ _ hdangling⟩

/-- Four ways out of the contract: a send takes an id that an entry names, and the reader count of that
send underflows when the entry changes; a restriction looks up a receive id past the events; an id past the
entry vector's `max_size()` is refused by the vector; the largest 64-bit id makes its size wrap to zero. -/
theorem malformed_entries_break :
    (∃ w : WorkerGraph ℕ, (∃ taken, History (fun _ _ => True) taken w) ∧
      w.setReadsFromSource 0 .bottom = .error (.internalError "send reader count underflow")) ∧
    (∃ w : WorkerGraph ℕ, (∃ taken, History (fun _ _ => True) taken w) ∧
      w.graph.restrict [0] = .error (.outOfRange "id_map read past the end")) ∧
    (∃ w : WorkerGraph ℕ, (∃ taken, History (fun _ _ => True) taken w) ∧
      w.setReadsFromSource (2 ^ 60) .bottom = .error (.lengthError "vector::_M_default_append")) ∧
    (∃ w : WorkerGraph ℕ, (∃ taken, History (fun _ _ => True) taken w) ∧
      w.setReadsFromSource (2 ^ 64 - 1) .bottom = .error (.outOfRange "reads-from entry past the end")) := by
  have hreceive : History (fun _ _ => True) [] _ :=
    .addEvent [] _ _ 0 0 (.receive ⟨.nonBlocking, fun _ => true⟩) (History.empty (V := ℕ)) trivial rfl
  have hread : History (fun _ _ => True) [] _ := .setReadsFromSource [] _ _ 0 (.send 1) hreceive rfl
  have hsend : History (fun _ _ => True) [] _ := .addEvent [] _ _ 1 1 (.send ⟨0, 7⟩) hread trivial rfl
  exact ⟨⟨_, ⟨[], hsend⟩, rfl⟩, ⟨_, ⟨[], hread⟩, rfl⟩, ⟨_, ⟨[], hreceive⟩, rfl⟩, ⟨_, ⟨[], hreceive⟩, rfl⟩⟩

end WorkerGraph
end MustDpor

import MustDpor.Model.CacheCoherence
import MustDpor.Model.ClosedRestriction

/-! # Restriction is a replay

The bulk path of `restrict_from_keep_mask` writes no undo records. What it builds is the graph that
`add_event` and `set_reads_from_source` build of the kept events and entries, on an object with rollback
history, up to that history and the acyclicity flag. -/

namespace MustDpor
set_option autoImplicit false
open List WorkerGraph

variable {V : Type}

namespace WorkerGraph

def addEvents : List (Event V) → WorkerGraph V → Except DporError (WorkerGraph V)
  | [], w => .ok w
  | e :: rest, w => do addEvents rest (← w.addEvent e.thread e.label).2

def setReadsFromSources : List (ℕ × ReadsFromSource) → WorkerGraph V → Except DporError (WorkerGraph V)
  | [], w => .ok w
  | (receiveId, source) :: rest, w => do setReadsFromSources rest (← w.setReadsFromSource receiveId source)

theorem addEvent_of_graph {w : WorkerGraph V} {g' : ExplorationGraph V} {thread id : ℕ} {label : EventLabel V}
    (h : w.graph.addEvent thread label = .ok (id, g')) :
    ∃ w', w.addEvent thread label = .ok (id, w') ∧ w'.graph = g' := by
  obtain ⟨index, hnext, rfl, rfl⟩ := ExplorationGraph.addEvent_inv h
  rw [addEvent_eq, hnext]
  exact ⟨_, rfl, rfl⟩

theorem addEvents_of_bulkBuild (events : List (Event V)) (w : WorkerGraph V) (built : ExplorationGraph V)
    (h : ExplorationGraph.bulkBuild events w.graph = .ok built) :
    ∃ w', addEvents events w = .ok w' ∧ w'.graph = built := by
  induction events generalizing w with
  | nil =>
    cases h
    exact ⟨w, rfl, rfl⟩
  | cons e rest ih =>
    rw [ExplorationGraph.bulkBuild_cons] at h
    obtain ⟨⟨id, g⟩, hg, h⟩ := Except.bind_ok_iff.mp h
    obtain ⟨v, hv, rfl⟩ := addEvent_of_graph hg
    obtain ⟨w', hw', hgraph⟩ := ih v h
    refine ⟨w', ?_, hgraph⟩
    show (w.addEvent e.thread e.label >>= _) = _
    rw [hv]
    exact hw'

end WorkerGraph

namespace ExplorationGraph

/-- The entries with both ends kept, under the new ids. -/
def keptEntries (keepMask : List Bool) (entries : List (ℕ × ReadsFromSource)) : List (ℕ × ReadsFromSource) :=
  entries.filterMap fun entry =>
    (remapId keepMask entry.1).bind fun receiveId =>
      (remapSource keepMask entry.2).map fun source => (receiveId, source)

theorem setReadsFromSources_of_remapReadsFrom (keepMask : List Bool) (entries : List (ℕ × ReadsFromSource))
    (w : WorkerGraph V) (g' : ExplorationGraph V) (h : remapReadsFrom keepMask entries w.graph = .ok g') :
    ∃ w', WorkerGraph.setReadsFromSources (keptEntries keepMask entries) w = .ok w' ∧ w'.graph = g' := by
  induction entries generalizing w with
  | nil =>
    cases h
    exact ⟨w, rfl, rfl⟩
  | cons entry rest ih =>
    obtain ⟨recvId, source⟩ := entry
    rcases remapReadsFrom_cons h with
      ⟨newId, newSource, a, hnew, hsource, ha, hrest⟩ | ⟨hnone, hrest⟩
    · have hkept : keptEntries keepMask ((recvId, source) :: rest) = (newId, newSource) :: keptEntries keepMask rest := by
        unfold keptEntries
        rw [filterMap_cons_some]
        show ((remapId keepMask recvId).bind _) = _
        rw [hnew]
        show (remapSource keepMask source).map _ = _
        rw [hsource]
        rfl
      obtain ⟨w', hw', hgraph⟩ := ih ⟨a, w.eventUndoLog, ⟨newId, w.graph.readsFrom.find newId⟩ :: w.rfUndoLog⟩ hrest
      refine ⟨w', ?_, hgraph⟩
      rw [hkept]
      show (w.setReadsFromSource newId newSource >>= _) = _
      rw [WorkerGraph.setReadsFromSource_eq, ha]
      exact hw'
    · have hdropped : keptEntries keepMask ((recvId, source) :: rest) = keptEntries keepMask rest := by
        unfold keptEntries
        rw [filterMap_cons_none]
        show ((remapId keepMask recvId).bind _) = _
        rcases hnone with hnone | hnone
        · rw [hnone]
          rfl
        · rw [hnone]
          cases remapId keepMask recvId <;> rfl
      rw [hdropped]
      exact ih w hrest

/-- The kept events in id order, then the kept entries, through the interface of a fresh object. -/
def replayKept (g : ExplorationGraph V) (keepMask : List Bool) : Except DporError (WorkerGraph V) := do
  let w ← WorkerGraph.addEvents (keptEvents g.events keepMask) (.ofGraph empty)
  WorkerGraph.setReadsFromSources (keptEntries keepMask g.readsFrom.entries) w

theorem replayKept_of_restrictMasked (g g' : ExplorationGraph V) (keepMask : List Bool)
    (h : g.restrictMasked keepMask = .ok g') :
    ∃ w, g.replayKept keepMask = .ok w ∧ g' = w.graph.withMetadata g.knownAcyclic none := by
  obtain ⟨-, built, remapped, hbuilt, hremapped, rfl⟩ := restrictMasked_inv h
  obtain ⟨v, hv, rfl⟩ := addEvents_of_bulkBuild _ (.ofGraph empty) built hbuilt
  obtain ⟨w, hw, rfl⟩ := setReadsFromSources_of_remapReadsFrom keepMask _ v remapped hremapped
  refine ⟨w, ?_, rfl⟩
  unfold replayKept
  rw [hv]
  exact hw

/-- The mask that `restrict` makes of a keep set. -/
def keepMask (g : ExplorationGraph V) (keepSet : List ℕ) : List Bool :=
  (List.range g.eventCount).map fun id => keepSet.contains id

theorem keepMask_getD (g : ExplorationGraph V) (keepSet : List ℕ) (id : ℕ) :
    (g.keepMask keepSet).getD id false = true ↔ id < g.eventCount ∧ id ∈ keepSet := by
  unfold keepMask
  rw [getD_eq_getElem?_getD, getElem?_map]
  by_cases hid : id < g.eventCount
  · rw [getElem?_range hid]
    simp [hid]
  · rw [getElem?_eq_none (by rw [length_range]; exact not_lt.mp hid)]
    simp [hid]

end ExplorationGraph

namespace CachedGraph

/-- What `restrict` gives: a new object without history, and the graph `g` cut down to the keep set. Old and
new ids correspond by `remapId`. -/
structure RestrictedTo (m : CachedGraph V) (keepSet : List ℕ) (m' : CachedGraph V) : Prop where
  replay : ∃ w, m.graph.replayKept (m.graph.keepMask keepSet) = .ok w ∧
    m'.worker = .ofGraph (w.graph.withMetadata m.graph.knownAcyclic none)
  kept : ∀ newId, newId < m'.graph.eventCount ↔
    ∃ id ∈ keepSet, ExplorationGraph.remapId (m.graph.keepMask keepSet) id = some newId
  order : ∀ a b newA newB, ExplorationGraph.remapId (m.graph.keepMask keepSet) a = some newA →
    ExplorationGraph.remapId (m.graph.keepMask keepSet) b = some newB →
      (newA < newB ↔ a < b) ∧
      (m'.executionGraph.ProgramOrder newA newB ↔ m.executionGraph.ProgramOrder a b)
  indices : (∀ a b, m.executionGraph.ProgramOrder a b → b ∈ keepSet → a ∈ keepSet) →
    ∀ id newId, ExplorationGraph.remapId (m.graph.keepMask keepSet) id = some newId →
      m'.executionGraph.events[newId]? = m.executionGraph.events[id]?
  acyclic : m.executionGraph.Acyclic → m'.executionGraph.Acyclic
  reaches : ∀ a b newA newB, ExplorationGraph.remapId (m.graph.keepMask keepSet) a = some newA →
    ExplorationGraph.remapId (m.graph.keepMask keepSet) b = some newB →
      (Relation.TransGen m'.executionGraph.Porf newA newB → Relation.TransGen m.executionGraph.Porf a b) ∧
      ((∀ x y, m.executionGraph.Porf x y → y ∈ keepSet → x ∈ keepSet) →
        (Relation.TransGen m'.executionGraph.Porf newA newB ↔ Relation.TransGen m.executionGraph.Porf a b))

/-- Restricting any object whose entries lie between existing events. -/
theorem restrict_is_induced (m : CachedGraph V) (h : m.Interleaved) (hreads : m.graph.ReadsExist)
    (keepSet : List ℕ) : ∃ m', m.apply (.restrict keepSet) = .ok m' ∧ m.RestrictedTo keepSet m' := by
  have htables := (h.keeps m).1.graph
  have hordered := htables.indexOrdered m.graph
  have hlen : (m.graph.keepMask keepSet).length = m.graph.eventCount := by
    unfold ExplorationGraph.keepMask
    rw [List.length_map, List.length_range]
  obtain ⟨g', hrestrict, hinduces⟩ := htables.restrictMasked_induces m.graph hreads _ hlen
  obtain ⟨w, hreplay, hg'⟩ := ExplorationGraph.replayKept_of_restrictMasked m.graph g' _ hrestrict
  have happly : m.apply (.restrict keepSet) = .ok ⟨.ofGraph g', none⟩ := by
    show ((m.graph.restrictMasked (m.graph.keepMask keepSet) >>= fun g => .ok (WorkerGraph.ofGraph g)) >>=
      fun w => .ok (⟨w, none⟩ : CachedGraph V)) = _
    rw [hrestrict]
    rfl
  refine ⟨_, happly, ⟨⟨w, hreplay, by rw [hg']⟩, fun newId => ⟨fun hnew => ?_, ?_⟩,
    fun a b newA newB ha hb => ⟨place_lt_iff _ a b newA newB ha hb, hinduces.programOrder_iff hordered a b newA newB ha hb⟩,
    fun hclosed => ?_, hinduces.acyclic hordered,
    fun a b newA newB ha hb => ⟨hinduces.reaches_of hordered a b newA newB ha hb, fun hclosed => ?_⟩⟩⟩
  · obtain ⟨id, -, hid⟩ := hinduces.exists_old newId hnew
    exact ⟨id, ((m.graph.keepMask_getD keepSet id).mp (marked_of_place _ id newId hid)).2, hid⟩
  · rintro ⟨id, -, hid⟩
    have hlt := ((m.graph.keepMask_getD keepSet id).mp (marked_of_place _ id newId hid)).1
    exact (place_lt_length m.graph.graph.events _ id newId hlt hid).trans_eq hinduces.eventCount_eq.symm
  · refine (hinduces.restrictsTo m.graph g' _ htables ?_).toSelects.event
    intro a b ea eb hlt ha hb hthread hkept
    rw [m.graph.keepMask_getD] at hkept ⊢
    exact ⟨(List.getElem?_eq_some_iff.mp ha).1,
      hclosed a b ((hordered.programOrder_iff m.graph.graph a b).mpr ⟨hlt, ea, eb, ha, hb, hthread⟩) hkept.2⟩
  · refine hinduces.reaches_iff hordered (fun x y hporf hkept => ?_) a b newA newB ha hb
    rw [m.graph.keepMask_getD] at hkept ⊢
    refine ⟨?_, hclosed x y hporf hkept.2⟩
    rcases hporf with hpo | hread
    · exact (ExecutionGraph.ProgramOrder.lt_length m.graph.graph x y hpo).1
    · exact (hreads y _ hread).2 x rfl

/-- A thread of two sends and a receive that reads the second, restricted to the second send, the receive
and an id that is no event. -/
theorem later_send_restricted :
    ∃ m : CachedGraph ℕ, m.Interleaved ∧ m.graph.ReadsExist ∧
      ∃ m', m.apply (.restrict [1, 2, 9]) = .ok m' ∧ m.RestrictedTo [1, 2, 9] m' := by
  obtain ⟨m, hread, hentries⟩ : ∃ m : CachedGraph ℕ, m.Interleaved ∧
      m.executionGraph.readsFrom.entries.all m.executionGraph.endpointsOk = true :=
    ⟨_, .run .empty [.op (.addEvent 0 (.send ⟨1, 7⟩)), .op (.addEvent 0 (.send ⟨1, 8⟩)),
      .op (.addEvent 1 (.receive ⟨.blocking, fun _ => true⟩)), .op (.setReadsFromSource 2 (.send 1))] rfl, rfl⟩
  have hendpoints := (ExecutionGraph.validEndpoints_iff m.executionGraph).mp (List.all_eq_true.mp hentries)
  have hreads := ExplorationGraph.readsExist_of_validEndpoints m.graph hendpoints
  exact ⟨m, hread, hreads, restrict_is_induced m hread hreads [1, 2, 9]⟩

end CachedGraph
end MustDpor

import MustDpor.Model.CachedGraph
import MustDpor.Model.Relation

/-! # Malformed reads-from entries

Four queries meet the shared edge validation: `rf_relation`, the two cycle queries and `porf_contains`. An
entry is malformed when its target is no receive of the graph or its source is neither bottom nor a send of
the graph. The cached queries do not validate a graph without events, so on such a graph an entry, which is
always malformed there, is rejected by two of the queries and passed over by a third. -/

namespace MustDpor
set_option autoImplicit false

variable {V : Type}

/-- `rf_relation`. The edges are added after all were validated; adding a validated edge does not throw. -/
def ExecutionGraph.rfRelation (g : ExecutionGraph V) : Except DporError ExplicitRelation := do
  let edges ← g.validatedRfEdges
  (ExplicitRelation.ofNodeCount g.events.length).addEdges edges

/-- What `for_each_validated_rf_edge` throws. -/
def malformedMessages : List String :=
  ["reads-from relation refers to an unknown receive event id",
    "reads-from relation target event is not a receive",
    "reads-from relation source refers to an unknown send event id",
    "reads-from relation source event is not a send"]

/-- A call that throws `precondition_error` because of an entry. -/
def RejectsMalformed {α : Type} (answer : Except DporError α) : Prop :=
  ∃ message ∈ malformedMessages, answer = .error (.preconditionError message)

section Rejections
variable {α β : Type}

theorem RejectsMalformed.bind (x : Except DporError α) (f : α → Except DporError β) (h : RejectsMalformed x) :
    RejectsMalformed (x >>= f) := by
  obtain ⟨message, hmem, rfl⟩ := h
  exact ⟨message, hmem, rfl⟩

theorem RejectsMalformed.map {x : Except DporError α} (f : α → β) (h : RejectsMalformed x) :
    RejectsMalformed (x.map f) := by
  obtain ⟨message, hmem, rfl⟩ := h
  exact ⟨message, hmem, rfl⟩

theorem not_rejectsMalformed_ok (a : α) : ¬ RejectsMalformed (.ok a : Except DporError α) := by
  rintro ⟨message, -, heq⟩
  cases heq

end Rejections

namespace ExecutionGraph

/-- Some entry's target is not an existing receive, or its source is not bottom and not an existing send. -/
def Malformed (g : ExecutionGraph V) : Prop :=
  ∃ receiveId source, g.readsFrom.find receiveId = some source ∧
    ((¬ ∃ e receive, g.events[receiveId]? = some e ∧ e.label = .receive receive) ∨
      ∃ sourceId, source = .send sourceId ∧ ¬ ∃ e send, g.events[sourceId]? = some e ∧ e.label = .send send)

theorem malformed_iff (g : ExecutionGraph V) : g.Malformed ↔ ¬ g.ValidEndpoints := by
  unfold Malformed ValidEndpoints
  simp only [not_forall, not_and_or, exists_prop]

theorem validatedRfEdgesOf_rejects {g : ExecutionGraph V} {entries : List (ℕ × ReadsFromSource)}
    (h : ∃ entry ∈ entries, g.endpointsOk entry = false) : RejectsMalformed (g.validatedRfEdgesOf entries) := by
  induction entries with
  | nil =>
    obtain ⟨entry, hmem, -⟩ := h
    cases hmem
  | cons entry rest ih =>
    -- either this entry is at fault, or the scan goes on to one that is
    have hnext : g.endpointsOk entry = true → RejectsMalformed (g.validatedRfEdgesOf rest) := by
      intro hok
      obtain ⟨bad, hmem, hbad⟩ := h
      rcases List.mem_cons.mp hmem with rfl | hmem
      · rw [hok] at hbad
        cases hbad
      · exact ih ⟨bad, hmem, hbad⟩
    obtain ⟨recv, source⟩ := entry
    unfold validatedRfEdgesOf
    split
    · exact ⟨"reads-from relation refers to an unknown receive event id", by simp [malformedMessages], rfl⟩
    · rename_i receive hreceive
      split
      · exact ⟨"reads-from relation target event is not a receive", by simp [malformedMessages], rfl⟩
      · rename_i hkind
        have hat : g.isReceiveAt recv = true := by
          unfold isReceiveAt
          rw [hreceive]
          simpa using hkind
        split
        · exact hnext hat
        · rename_i sourceId
          split
          · exact ⟨"reads-from relation source refers to an unknown send event id", by simp [malformedMessages], rfl⟩
          · rename_i send hsend
            split
            · exact ⟨"reads-from relation source event is not a send", by simp [malformedMessages], rfl⟩
            · rename_i hsource
              have hsendAt : g.isSendAt sourceId = true := by
                unfold isSendAt
                rw [hsend]
                simpa using hsource
              exact (hnext ((Bool.and_eq_true _ _).mpr ⟨hat, hsendAt⟩)).bind _ _

theorem validatedRfEdges_rejects (g : ExecutionGraph V) (h : g.Malformed) : RejectsMalformed g.validatedRfEdges := by
  refine validatedRfEdgesOf_rejects ?_
  rw [malformed_iff, ← validEndpoints_iff] at h
  simpa using h

end ExecutionGraph

/-! ## The queries -/

theorem ExecutionGraph.rfRelation_ok (g : ExecutionGraph V) (h : g.ValidEndpoints) :
    ∃ r, g.rfRelation = .ok r ∧ r.view.Faithful g.events.length g.ReadsFrom := by
  have hmem : ∀ s r, (s, r) ∈ g.readsFrom.entries.filterMap g.validRead ↔ g.ReadsFrom s r := mem_validRead h
  have hnodes : ∀ edge ∈ g.readsFrom.entries.filterMap g.validRead,
      edge.1 < g.events.length ∧ edge.2 < g.events.length := by
    intro edge hedge
    obtain ⟨⟨er, -, her, -⟩, hsource⟩ := h edge.2 _ ((hmem edge.1 edge.2).mp hedge)
    obtain ⟨es, -, hes, -⟩ := hsource edge.1 rfl
    exact ⟨lt_of_getElem? hes, lt_of_getElem? her⟩
  obtain ⟨r, hr, hholds⟩ := (ExplicitRelation.holds_ofNodeCount g.events.length).addEdges _ _ _ _ hnodes
  refine ⟨r, ?_, ?_⟩
  · unfold rfRelation
    rw [ExplorationGraph.validatedRfEdges_ok h]
    exact hr
  · have hfaithful := hholds.faithful
    simp only [List.nil_append, hmem] at hfaithful
    exact hfaithful

namespace ExplorationGraph
variable (g : ExplorationGraph V)

theorem hasCausalCycleWithoutCache_rejects (h : g.graph.Malformed) : RejectsMalformed g.hasCausalCycleWithoutCache :=
  (((g.graph.validatedRfEdges_rejects h).bind _ _).bind _ _).bind _ _

theorem ensurePorfCache_rejects (h : g.graph.Malformed) (hevents : g.eventCount ≠ 0) :
    RejectsMalformed g.ensurePorfCache := by
  unfold ensurePorfCache
  rw [if_neg hevents]
  exact ((g.graph.validatedRfEdges_rejects h).bind _ _).bind _ _ |>.bind _ _

section WellFormed
variable (h : g.graph.ValidEndpoints)
include h

theorem hasCausalCycleWithoutCache_returns : ∃ found, g.hasCausalCycleWithoutCache = .ok found := by
  unfold hasCausalCycleWithoutCache
  rw [buildPorfAdjacencyAndOrder_ok g h]
  exact ⟨_, rfl⟩

theorem ensurePorfCache_returns : ∃ cache, g.ensurePorfCache = .ok cache := by
  unfold ensurePorfCache
  split
  · exact ⟨_, rfl⟩
  · rw [buildPorfAdjacencyAndOrder_ok g h]
    by_cases horder : (TopologicalOrder.order g.eventCount g.immediateEdges).length = g.eventCount
    · exact ⟨_, if_neg (not_not.mpr horder)⟩
    · exact ⟨_, if_pos horder⟩

theorem porfContains_not_rejects (fromId toId : ℕ) : ¬ RejectsMalformed (g.porfContains fromId toId) := by
  obtain ⟨cache, hcache⟩ := g.ensurePorfCache_returns h
  rintro ⟨message, hmessage, heq⟩
  unfold porfContains at heq
  rw [hcache] at heq
  split at heq
  · cases heq
    simp [malformedMessages] at hmessage
  · cases hcycle : cache.hasCycle with
    | true =>
      simp only [bind, Except.bind, hcycle, if_true] at heq
      cases heq
      simp [malformedMessages] at hmessage
    | false =>
      simp only [bind, Except.bind, hcycle, Bool.false_eq_true, if_false] at heq
      split at heq
      · cases heq
      · split at heq
        · cases heq
        · cases heq

end WellFormed

end ExplorationGraph

/-! ## Built graphs -/

namespace CachedGraph

/-- The objects that added events and assigned entries lead to, whatever ids the entries name and also where an
assignment threw, with queries in between. -/
inductive Built : CachedGraph V → Prop
  | empty : Built empty
  | addEvent (m m' : CachedGraph V) (thread id : ℕ) (label : EventLabel V) :
    Built m → m.addEvent thread label = .ok (id, m') → Built m'
  | setReadsFromSource (m m' : CachedGraph V) (receiveId : ℕ) (source : ReadsFromSource) :
    Built m → m.setReadsFromSource receiveId source = .ok m' → Built m'
  | abandoned (m : CachedGraph V) (receiveId : ℕ) (source : ReadsFromSource) : Built m →
    m.setReadsFromSource receiveId source = .error (.internalError "send reader count underflow") →
    Built (m.attemptSetReadsFromSource receiveId source).2
  | hasCausalCycle (m m' : CachedGraph V) (found : Bool) :
    Built m → m.hasCausalCycle = .ok (found, m') → Built m'
  | porfContains (m m' : CachedGraph V) (fromId toId : ℕ) (found : Bool) :
    Built m → m.porfContains fromId toId = .ok (found, m') → Built m'

theorem Built.fresh (m : CachedGraph V) (h : m.Built) : m.Fresh := by
  induction h with
  | empty => exact fresh_of_none _
  | addEvent m m' thread id label _ hadd _ =>
    obtain ⟨⟨id', w⟩, -, hm'⟩ := Except.bind_ok_iff.mp hadd
    cases hm'
    exact fresh_of_none w
  | setReadsFromSource m m' recv source _ hset ih =>
    have hfresh := ih.attemptSetReadsFromSource recv source
    rwa [returned_inv hset] at hfresh
  | abandoned m recv source _ _ ih => exact ih.attemptSetReadsFromSource recv source
  | hasCausalCycle m _ _ _ hquery ih | porfContains m _ _ _ _ _ hquery ih =>
    simp only [ih.hasCausalCycle, ih.porfContains] at hquery
    obtain ⟨_, -, heq⟩ := (Except.map_ok_iff _ _ _).mp hquery
    cases heq
    exact m.warmed_fresh

/-- The four queries reject the malformed graphs and no others, and on the others the first three return. -/
structure RejectsUniformly (m : CachedGraph V) : Prop where
  rfRelation : RejectsMalformed m.executionGraph.rfRelation ↔ m.executionGraph.Malformed
  cold : RejectsMalformed m.graph.hasCausalCycleWithoutCache ↔ m.executionGraph.Malformed
  cached : RejectsMalformed m.hasCausalCycle ↔ m.executionGraph.Malformed
  porfContains : ∀ fromId toId, m.graph.isValidEventId fromId = true → m.graph.isValidEventId toId = true →
    (RejectsMalformed (m.porfContains fromId toId) ↔ m.executionGraph.Malformed)
  returns : ¬ m.executionGraph.Malformed → (∃ r, m.executionGraph.rfRelation = .ok r) ∧
    (∃ found, m.graph.hasCausalCycleWithoutCache = .ok found) ∧ ∃ answer, m.hasCausalCycle = .ok answer

section Uniform
variable (m : CachedGraph V) (h : m.Fresh)
include h

theorem Fresh.rejects_malformed (hmalformed : m.executionGraph.Malformed) (hevents : m.graph.eventCount ≠ 0) :
    m.RejectsUniformly := by
  have hcache := m.graph.ensurePorfCache_rejects hmalformed hevents
  refine ⟨iff_of_true ((m.executionGraph.validatedRfEdges_rejects hmalformed).bind _ _) hmalformed,
    iff_of_true (m.graph.hasCausalCycleWithoutCache_rejects hmalformed) hmalformed, iff_of_true ?_ hmalformed,
    fun fromId toId hfrom hto => iff_of_true ?_ hmalformed, fun hnot => absurd hmalformed hnot⟩
  · rw [h.hasCausalCycle]
    exact (hcache.bind _ _).map _
  · rw [h.porfContains]
    unfold ExplorationGraph.porfContains
    rw [hfrom, hto]
    exact (hcache.bind _ _).map _

theorem Fresh.accepts_wellFormed (hwell : ¬ m.executionGraph.Malformed) : m.RejectsUniformly := by
  have hends : m.executionGraph.ValidEndpoints := by
    rw [ExecutionGraph.malformed_iff] at hwell
    exact not_not.mp hwell
  obtain ⟨r, hr, -⟩ := m.executionGraph.rfRelation_ok hends
  obtain ⟨found, hfound⟩ := m.graph.hasCausalCycleWithoutCache_returns hends
  obtain ⟨cache, hcache⟩ := m.graph.ensurePorfCache_returns hends
  have hcached : m.hasCausalCycle = .ok (cache.hasCycle, m.warmed) := by
    rw [h.hasCausalCycle]
    unfold ExplorationGraph.hasCausalCycle
    rw [hcache]
    rfl
  refine ⟨iff_of_false (hr ▸ not_rejectsMalformed_ok r) hwell,
    iff_of_false (hfound ▸ not_rejectsMalformed_ok found) hwell,
    iff_of_false (hcached ▸ not_rejectsMalformed_ok _) hwell, fun fromId toId _ _ => iff_of_false ?_ hwell,
    fun _ => ⟨⟨r, hr⟩, ⟨found, hfound⟩, ⟨_, hcached⟩⟩⟩
  rw [h.porfContains]
  rintro ⟨message, hmessage, heq⟩
  refine m.graph.porfContains_not_rejects hends fromId toId ⟨message, hmessage, ?_⟩
  cases hanswer : m.graph.porfContains fromId toId with
  | error e =>
    rw [hanswer] at heq
    cases heq
    rfl
  | ok answer =>
    rw [hanswer] at heq
    cases heq

end Uniform

/-- The queries agree on a graph unless it has entries and no events. -/
theorem malformed_rejected_iff (m : CachedGraph V) (h : m.Built) :
    m.RejectsUniformly ↔ (m.graph.eventCount = 0 → ∀ receiveId, m.graph.readsFrom.find receiveId = none) := by
  have hfresh := h.fresh
  constructor
  · intro huniform hempty receiveId
    by_contra hentry
    obtain ⟨source, hsource⟩ := Option.ne_none_iff_exists'.mp hentry
    have hmalformed : m.executionGraph.Malformed := by
      refine ⟨receiveId, source, hsource, Or.inl ?_⟩
      rintro ⟨e, receive, he, -⟩
      have hlt := (List.getElem?_eq_some_iff.mp he).1
      exact absurd hlt (hempty ▸ Nat.not_lt_zero receiveId : ¬ receiveId < m.graph.eventCount)
    have hcached := huniform.cached.mpr hmalformed
    rw [hfresh.hasCausalCycle] at hcached
    unfold ExplorationGraph.hasCausalCycle ExplorationGraph.ensurePorfCache at hcached
    rw [if_pos hempty] at hcached
    exact not_rejectsMalformed_ok _ hcached
  · intro hentries
    by_cases hmalformed : m.executionGraph.Malformed
    · refine hfresh.rejects_malformed m hmalformed fun hempty => ?_
      obtain ⟨receiveId, source, hsource, -⟩ := hmalformed
      exact Option.some_ne_none source (hsource.symm.trans (hentries hempty receiveId))
    · exact hfresh.accepts_wellFormed m hmalformed

/-- A receive that reads from a receive, and an entry for an event that does not exist. -/
theorem nonempty_malformed_rejected :
    ∃ m : CachedGraph ℕ, m.Built ∧ m.executionGraph.Malformed ∧ m.graph.eventCount = 1 ∧ m.RejectsUniformly := by
  have hreceive : Built _ := .addEvent _ _ 0 0 (.receive ⟨.blocking, fun _ => true⟩) (Built.empty (V := ℕ)) rfl
  obtain ⟨m, hbuilt, hcount, hfind⟩ : ∃ m : CachedGraph ℕ, m.Built ∧ m.graph.eventCount = 1 ∧
      m.executionGraph.readsFrom.find 5 = some (.send 0) :=
    ⟨_, .setReadsFromSource _ _ 5 (.send 0) hreceive rfl, rfl, rfl⟩
  have hmalformed : m.executionGraph.Malformed := by
    refine ⟨5, .send 0, hfind, Or.inl ?_⟩
    rintro ⟨e, receive, he, -⟩
    have hlt : 5 < m.graph.eventCount := (List.getElem?_eq_some_iff.mp he).1
    omega
  exact ⟨m, hbuilt, hmalformed, hcount, (malformed_rejected_iff m hbuilt).mpr fun hempty => absurd hempty (by omega)⟩

/-- An entry before the first event: `rf_relation` and the cold query throw, the cached query finds no cycle. -/
theorem entry_without_events_passes :
    (∃ m : CachedGraph ℕ, m.Built ∧ RejectsMalformed m.executionGraph.rfRelation ∧
      RejectsMalformed m.graph.hasCausalCycleWithoutCache ∧ ∃ m', m.hasCausalCycle = .ok (false, m')) ∧
    ¬ ∀ m : CachedGraph ℕ, m.Built → m.RejectsUniformly := by
  obtain ⟨m, hbuilt, hrelation, hcold, hanswer⟩ : ∃ m : CachedGraph ℕ, m.Built ∧
      m.executionGraph.rfRelation = .error (.preconditionError
        "reads-from relation refers to an unknown receive event id") ∧
      m.graph.hasCausalCycleWithoutCache = .error (.preconditionError
        "reads-from relation refers to an unknown receive event id") ∧
      ∃ m', m.hasCausalCycle = .ok (false, m') :=
    ⟨_, .setReadsFromSource _ _ 5 (.send 3) Built.empty rfl, rfl, rfl, _, rfl⟩
  have hrejects : RejectsMalformed m.executionGraph.rfRelation := ⟨_, List.mem_cons_self, hrelation⟩
  refine ⟨⟨m, hbuilt, hrejects, ⟨_, List.mem_cons_self, hcold⟩, hanswer⟩, fun hall => ?_⟩
  have huniform := hall m hbuilt
  obtain ⟨m', hm'⟩ := hanswer
  have hcached := huniform.cached.mpr (huniform.rfRelation.mp hrejects)
  rw [hm'] at hcached
  exact not_rejectsMalformed_ok _ hcached

end CachedGraph

end MustDpor

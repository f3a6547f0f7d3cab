import MustDpor.Model.Acyclicity

/-! # Graph objects with their PORF cache

`ExplorationGraphT` as one object: the worker graph and `porf_cache_`. Mutators drop the cache, copies
share it, queries fill it. The check of an object has four routes: the fallback for malformed relations,
the flag, the warm cache and the cold topological sort. -/

namespace MustDpor
set_option autoImplicit false
open List ExplorationGraph ExecutionGraph WorkerGraph

variable {V : Type}

structure CachedGraph (V : Type) where
  worker : WorkerGraph V
  porfCache : Option ExplorationGraph.PorfCache

namespace CachedGraph

def empty : CachedGraph V := ⟨.ofGraph .empty, none⟩

def graph (m : CachedGraph V) : ExplorationGraph V := m.worker.graph

def executionGraph (m : CachedGraph V) : ExecutionGraph V := m.worker.graph.graph

def checkpoint (m : CachedGraph V) : Checkpoint := m.worker.checkpoint

def rollback (m : CachedGraph V) (cp : Checkpoint) : Except DporError (CachedGraph V) := do
  return ⟨← m.worker.rollback cp, none⟩

def addEvent (m : CachedGraph V) (thread : ℕ) (label : EventLabel V) :
    Except DporError (ℕ × CachedGraph V) := do
  let (id, worker) ← m.worker.addEvent thread label
  return (id, ⟨worker, none⟩)

/-- A call of `set_reads_from_source` and the object it leaves: the cache goes before the reader counts. -/
def attemptSetReadsFromSource (m : CachedGraph V) (receiveId : ℕ) (source : ReadsFromSource) :
    Except DporError Unit × CachedGraph V :=
  let (outcome, worker) := m.worker.attemptSetReadsFromSource receiveId source
  match m.executionGraph.setReadsFromSource receiveId source with
  | .error _ => (outcome, m)
  | .ok _ => (outcome, ⟨worker, none⟩)

def setReadsFromSource (m : CachedGraph V) (receiveId : ℕ) (source : ReadsFromSource) :
    Except DporError (CachedGraph V) :=
  returned (m.attemptSetReadsFromSource receiveId source)

/-- A call of `rebind_rf` and the object it leaves: here the cache goes last. -/
def attemptRebindRf (m : CachedGraph V) (recv send : ℕ) (preserveKnownAcyclicity : Bool) :
    Except DporError Unit × CachedGraph V :=
  match m.worker.attemptRebindRf recv send preserveKnownAcyclicity with
  | (.error e, worker) => (.error e, ⟨worker, m.porfCache⟩)
  | (.ok _, worker) => (.ok (), ⟨worker, none⟩)

/-- `rebind_rf`, where the caller says whether acyclicity is kept. -/
def rebindRf (m : CachedGraph V) (recv send : ℕ) (preserveKnownAcyclicity : Bool) :
    Except DporError (CachedGraph V) :=
  returned (m.attemptRebindRf recv send preserveKnownAcyclicity)

theorem rebindRf_inv {m m' : CachedGraph V} {recv send : ℕ} {preserve : Bool}
    (h : m.rebindRf recv send preserve = .ok m') :
    ∃ w, m.worker.rebindRf recv send preserve = .ok w ∧ m' = ⟨w, none⟩ := by
  have hcall := returned_inv h
  unfold attemptRebindRf at hcall
  unfold WorkerGraph.rebindRf
  split at hcall
  · cases hcall
  · rename_i worker hworker
    cases hcall
    exact ⟨worker, by rw [hworker]; rfl, rfl⟩

def ensurePorfCache (m : CachedGraph V) : Except DporError (ExplorationGraph.PorfCache × CachedGraph V) :=
  match m.porfCache with
  | some cache => .ok (cache, m)
  | none => do
    let cache ← m.graph.ensurePorfCache
    return (cache, { m with porfCache := some cache })

def hasCausalCycle (m : CachedGraph V) : Except DporError (Bool × CachedGraph V) := do
  let (cache, m) ← m.ensurePorfCache
  return (cache.hasCycle, m)

def porfContains (m : CachedGraph V) (fromId toId : ℕ) : Except DporError (Bool × CachedGraph V) :=
  if !m.graph.isValidEventId fromId || !m.graph.isValidEventId toId then
    .error (.preconditionError "event id not found in exploration graph")
  else do
    let (cache, m) ← m.ensurePorfCache
    if cache.hasCycle then
      throw (.preconditionError "porf_contains called on a graph with a causal cycle")
    if fromId = toId then return (false, m)
    else
      match cache.threadClockIndex (m.graph.threadOf fromId) with
      | none => return (false, m)
      | some column => return (decide (cache.positionInThread fromId + 1 ≤ cache.clocks toId column), m)

def markKnownAcyclic (m : CachedGraph V) : CachedGraph V := { m with worker := m.worker.markKnownAcyclic }

/-- The cycle question of the check: the flag, then a warm cache, then a cold sort. -/
def findCycle (m : CachedGraph V) : Except DporError (Bool × CachedGraph V) :=
  if m.graph.knownAcyclic then .ok (false, m)
  else if m.porfCache.isSome then m.hasCausalCycle
  else do return (← m.graph.hasCausalCycleWithoutCache, m)

def checkAsync (m : CachedGraph V) : Except DporError (ConsistencyResult × CachedGraph V) := do
  let validation := validateGraph m.executionGraph noMissingReadsTolerance
  if !validation.cycleQuerySafe then
    return (← checkAsyncExecutionGraph m.executionGraph noMissingReadsTolerance, m)
  else
    let (hasCycle, m) ← m.findCycle
    if hasCycle then return (validation.result.addCausalCycleIssue, m)
    else if validation.result.isConsistent then return (validation.result, m.markKnownAcyclic)
    else return (validation.result, m)

/-- `ConsistencyCheckerT::check` on an exploration graph. -/
def check (m : CachedGraph V) (communicationModel : CommunicationModel) :
    Except DporError (ConsistencyResult × CachedGraph V) := do
  let (result, m) ← m.checkAsync
  if communicationModel = .fifoP2P ∧ result.isConsistent then
    return (addFifoP2PIssues m.executionGraph result, m)
  else return (result, m)

/-! ## The cache is a memo -/

/-- A cache holds what a cold start would compute. -/
def Fresh (m : CachedGraph V) : Prop :=
  ∀ cache, m.porfCache = some cache → m.graph.ensurePorfCache = .ok cache

theorem fresh_of_none (worker : WorkerGraph V) : Fresh ⟨worker, none⟩ := nofun

theorem Fresh.attemptSetReadsFromSource {m : CachedGraph V} (h : m.Fresh) (recv : ℕ) (source : ReadsFromSource) :
    (m.attemptSetReadsFromSource recv source).2.Fresh := by
  unfold CachedGraph.attemptSetReadsFromSource
  dsimp only
  split
  · exact h
  · exact fresh_of_none _

/-- The object behind a query that returns. -/
def warmed (m : CachedGraph V) : CachedGraph V := ⟨m.worker, m.graph.ensurePorfCache.toOption⟩

theorem warmed_fresh (m : CachedGraph V) : m.warmed.Fresh := by
  intro cache hcache
  change m.graph.ensurePorfCache.toOption = some cache at hcache
  show m.graph.ensurePorfCache = .ok cache
  cases hensure : m.graph.ensurePorfCache with
  | error e =>
    rw [hensure] at hcache
    cases hcache
  | ok other =>
    rw [hensure] at hcache
    cases hcache
    rfl

section Queries
variable (m : CachedGraph V) (h : m.Fresh)
include h

theorem Fresh.ensurePorfCache :
    m.ensurePorfCache = m.graph.ensurePorfCache.map fun cache => (cache, m.warmed) := by
  unfold CachedGraph.ensurePorfCache warmed
  cases hcache : m.porfCache with
  | none => cases m.graph.ensurePorfCache <;> rfl
  | some cache =>
    rw [h cache hcache]
    simp only [Except.map, Except.toOption, ← hcache]

theorem Fresh.hasCausalCycle :
    m.hasCausalCycle = m.graph.hasCausalCycle.map fun found => (found, m.warmed) := by
  unfold CachedGraph.hasCausalCycle ExplorationGraph.hasCausalCycle
  rw [h.ensurePorfCache]
  cases m.graph.ensurePorfCache <;> rfl

theorem Fresh.porfContains (a b : ℕ) :
    m.porfContains a b = (m.graph.porfContains a b).map fun found => (found, m.warmed) := by
  unfold CachedGraph.porfContains ExplorationGraph.porfContains
  rw [h.ensurePorfCache]
  split
  · rfl
  · cases m.graph.ensurePorfCache with
    | error e => rfl
    | ok cache =>
      simp only [Except.map, bind, Except.bind]
      cases cache.hasCycle with
      | true => rfl
      | false =>
        by_cases hab : a = b
        · simp [hab, pure, Except.pure]
        · simp only [hab, if_false, show m.warmed.graph = m.graph from rfl]
          cases cache.threadClockIndex (m.graph.threadOf a) <;> rfl

end Queries

/-! ## Both checkers -/

structure Kept (m : CachedGraph V) : Prop where
  tables : m.worker.Tabulated
  truthful : m.graph.Truthful
  fresh : m.Fresh

section Check
variable (m : CachedGraph V) (h : m.Kept)
include h

theorem Kept.findCycle_ok (hends : m.executionGraph.ValidEndpoints) :
    ∃ found m', m.findCycle = .ok (found, m') ∧ (found = true ↔ ¬ m.executionGraph.Acyclic) ∧
      m'.worker = m.worker ∧ m'.Fresh := by
  unfold findCycle
  by_cases hknown : m.graph.knownAcyclic = true
  · rw [if_pos hknown]
    exact ⟨false, m, rfl, iff_of_false Bool.false_ne_true (not_not.mpr (h.truthful.sane hknown).acyclic), rfl,
      h.fresh⟩
  · rw [if_neg hknown]
    by_cases hwarm : m.porfCache.isSome = true
    · obtain ⟨cache, hcache, hiff⟩ := h.tables.graph.ensurePorfCache_ok m.graph hends
      rw [if_pos hwarm, h.fresh.hasCausalCycle]
      unfold ExplorationGraph.hasCausalCycle
      rw [hcache]
      exact ⟨cache.hasCycle, m.warmed, rfl, hiff, rfl, m.warmed_fresh⟩
    · obtain ⟨found, hfound, hiff⟩ := h.tables.graph.hasCausalCycleWithoutCache_ok m.graph hends
      rw [if_neg hwarm, hfound]
      exact ⟨found, m, rfl, hiff, rfl, h.fresh⟩

theorem Kept.checkAsync_agrees :
    ∃ result m', m.checkAsync = .ok (result, m') ∧
      checkAsyncExecutionGraph m.executionGraph noMissingReadsTolerance = .ok result ∧
      (m'.worker = m.worker ∨ m'.worker = m.worker.markKnownAcyclic) ∧ m'.Kept := by
  have hvalidated := validateGraph_validated m.executionGraph noMissingReadsTolerance
  have hslow := checkAsyncExecutionGraph_eq m.executionGraph
    (h.tables.graph.indexOrdered m.graph) noMissingReadsTolerance
  unfold checkAsync
  by_cases hsafe : (validateGraph m.executionGraph noMissingReadsTolerance).cycleQuerySafe = true
  · have hends : m.executionGraph.ValidEndpoints := by
      rw [hvalidated.safe, all_eq_true] at hsafe
      exact (validEndpoints_iff m.executionGraph).mp hsafe
    have hcycle := hasCausalCycle_validated m.executionGraph
      (h.tables.graph.indexOrdered m.graph) hends
    rw [← hvalidated.edges] at hcycle
    obtain ⟨found, m', hfind, hfound, hworker, hfresh⟩ := h.findCycle_ok m hends
    have hkept : m'.Kept := by
      refine ⟨hworker ▸ h.tables, ?_, hfresh⟩
      unfold graph
      rw [hworker]
      exact h.truthful
    have hsame : MustDpor.hasCausalCycle ⟨m.executionGraph.events.length, m.executionGraph.threadSequences⟩
        (validateGraph m.executionGraph noMissingReadsTolerance).validRfEdges
        m.executionGraph.events.length = found := by
      rw [Bool.eq_iff_iff, hcycle, hfound]
    rw [hsame] at hslow
    simp only [hsafe, Bool.not_true, Bool.false_eq_true, if_false, hfind]
    cases found with
    | true => exact ⟨_, m', rfl, hslow, .inl hworker, hkept⟩
    | false =>
      by_cases hconsistent : (validateGraph m.executionGraph noMissingReadsTolerance).result.isConsistent = true
      · refine ⟨_, m'.markKnownAcyclic, if_pos hconsistent, hslow, .inr (by rw [← hworker]; rfl), ?_⟩
        refine ⟨hkept.tables.withMetadata true none, ⟨fun _ => ?_, nofun⟩, hfresh⟩
        have hacyclic : m.executionGraph.Acyclic := by
          by_contra hnot
          exact Bool.false_ne_true (hfound.mpr hnot)
        have hgraph : m'.markKnownAcyclic.graph.graph = m.executionGraph := by
          unfold executionGraph
          rw [← hworker]
          rfl
        exact ⟨hgraph ▸ hends, hgraph ▸ hacyclic⟩
      · exact ⟨_, m', if_neg hconsistent, hslow, .inl hworker, hkept⟩
  · refine ⟨_, m, ?_, hslow, .inl rfl, h⟩
    rw [Bool.not_eq_true] at hsafe
    simp only [hsafe, Bool.not_false, if_true, hslow]
    rfl

theorem Kept.check_agrees (model : CommunicationModel) :
    ∃ result m', m.check model = .ok (result, m') ∧
      checkExecutionGraph m.executionGraph model noMissingReadsTolerance = .ok result ∧
      (m'.worker = m.worker ∨ m'.worker = m.worker.markKnownAcyclic) ∧ m'.Kept := by
  obtain ⟨result, m', hfast, hslow, hworker, hkept⟩ := h.checkAsync_agrees m
  have hgraph : m'.executionGraph = m.executionGraph := by
    unfold executionGraph
    rcases hworker with hw | hw <;> rw [hw]
    rfl
  unfold check checkExecutionGraph
  rw [hfast, hslow]
  by_cases hfifo : model = .fifoP2P ∧ result.isConsistent = true
  · exact ⟨_, m', if_pos hfifo, by rw [← hgraph]; exact if_pos hfifo, hworker, hkept⟩
  · exact ⟨result, m', if_neg hfifo, if_neg hfifo, hworker, hkept⟩

end Check

theorem validatedRfEdgesOf_congr {g g' : ExecutionGraph V}
    (h : ∀ id : ℕ, (g'.events[id]?).map (fun e => (e.label.isReceive, e.label.isSend))
      = (g.events[id]?).map (fun e => (e.label.isReceive, e.label.isSend))) (entries : List (ℕ × ReadsFromSource)) :
    g'.validatedRfEdgesOf entries = g.validatedRfEdgesOf entries := by
  have hcases : ∀ id : ℕ, (g.events[id]? = none ∧ g'.events[id]? = none) ∨
      ∃ e e', g.events[id]? = some e ∧ g'.events[id]? = some e' ∧ e'.label.isReceive = e.label.isReceive ∧
        e'.label.isSend = e.label.isSend := by
    intro id
    have hid := h id
    cases he : g.events[id]? with
    | none =>
      rw [he, Option.map_none, Option.map_eq_none_iff] at hid
      exact .inl ⟨rfl, hid⟩
    | some e =>
      rw [he] at hid
      obtain ⟨e', he', hkind⟩ := Option.map_eq_some_iff.mp hid
      exact .inr ⟨e, e', rfl, he', congrArg Prod.fst hkind, congrArg Prod.snd hkind⟩
  induction entries with
  | nil => rfl
  | cons entry rest ih =>
    obtain ⟨recv, source⟩ := entry
    unfold ExecutionGraph.validatedRfEdgesOf
    rcases hcases recv with ⟨hr, hr'⟩ | ⟨er, er', hr, hr', hreceive, -⟩
    · rw [hr, hr']
    · rw [hr, hr']
      simp only [hreceive]
      cases source with
      | bottom => rw [ih]
      | send sourceId =>
        rcases hcases sourceId with ⟨hs, hs'⟩ | ⟨es, es', hs, hs', -, hsend⟩
        · simp only [hs, hs']
        · simp only [hs, hs', hsend, ih]

variable {g' : ExplorationGraph V}

theorem ensurePorfCache_withNdValue {g : ExplorationGraph V} {ndEvent : ℕ} {value : V}
    (h : g.withNdValue ndEvent value = .ok g') : g'.ensurePorfCache = g.ensurePorfCache := by
  obtain ⟨e, nd, he, hlabel, rfl⟩ := withNdValue_inv h
  have hid := lt_of_getElem? he
  have hmap : ∀ {β : Type} (f : Event V → β) (e' : Event V), f e' = f e → ∀ id : ℕ,
      ((g.graph.events.set ndEvent e')[id]?).map f = (g.graph.events[id]?).map f := by
    intro β f e' hf id
    by_cases hset : ndEvent = id
    · rw [← hset, getElem?_set_self hid, he]
      exact congrArg some hf
    · rw [getElem?_set_ne hset]
  generalize hchosen : ({ e with label := .nondeterministicChoice { nd with value := value } } : Event V) = e'
  have hthread : e'.thread = e.thread := by rw [← hchosen]
  have hkind : (e'.label.isReceive, e'.label.isSend) = (e.label.isReceive, e.label.isSend) := by
    rw [← hchosen, hlabel]
    rfl
  have hslots : (g.graph.events.set ndEvent e').map (fun a => a.thread + 1)
      = g.graph.events.map (fun a => a.thread + 1) := by
    apply ext_getElem?
    intro id
    rw [getElem?_map, getElem?_map]
    exact hmap (fun a => a.thread + 1) e' (by rw [hthread]) id
  have hpo : poEdges { g with graph := { g.graph with events := g.graph.events.set ndEvent e' } }
      = g.poEdges := by
    unfold poEdges ExecutionGraph.threadSlots
    rw [hslots]
  have hrf : ExecutionGraph.validatedRfEdges { g.graph with events := g.graph.events.set ndEvent e' }
      = g.graph.validatedRfEdges :=
    validatedRfEdgesOf_congr (hmap (fun a => (a.label.isReceive, a.label.isSend)) e' hkind) _
  have hcount : eventCount
      { g with graph := { g.graph with events := g.graph.events.set ndEvent e' } } = g.eventCount :=
    length_set ..
  have hthreadOf : threadOf
      { g with graph := { g.graph with events := g.graph.events.set ndEvent e' } } = g.threadOf := by
    funext id
    unfold threadOf
    rw [hmap Event.thread e' hthread id]
  unfold ExplorationGraph.ensurePorfCache ExplorationGraph.buildPorfAdjacencyAndOrder ExplorationGraph.porfEdges
    clockColumn positionInThread poPred
  rw [hpo, hrf, hcount, hthreadOf]
  rfl

end CachedGraph
end MustDpor

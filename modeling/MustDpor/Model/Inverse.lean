import MustDpor.Model.CachedGraph

/-! # Rollback is an inverse

A rollback to a checkpoint gives back the worker graph of that moment, tables, logs and flags included,
so no sequence of calls can tell the two apart. Reads-from sources that do not exist yet are the
exception: a send that is added under such an id starts with no reader, and when the rollback restores
an entry that names it, it has one. -/

namespace MustDpor
set_option autoImplicit false
open List ExplorationGraph ExecutionGraph WorkerGraph

variable {V : Type}

/-! ## Calls and their answers -/

inductive GraphCall (V : Type) where
  | op (operation : GraphOp V)
  | checkpoint
  | porfContains (fromId toId : ℕ)
  | hasCausalCycle
  | hasCausalCycleWithoutCache
  | check (communicationModel : CommunicationModel)

/-- What a caller gets to see. After an operation that is the whole exploration graph, which every
accessor reads. -/
inductive GraphAnswer (V : Type) where
  | graph (g : ExplorationGraph V)
  | checkpoint (cp : Checkpoint)
  | truth (found : Bool)
  | verdict (result : ConsistencyResult)

/-- Copies share the cache; every other operation drops it. -/
def GraphOp.keepsCache : GraphOp V → Bool
  | .copy => true
  | .withNdValue _ _ => true
  | _ => false

namespace CachedGraph

def apply (m : CachedGraph V) (operation : GraphOp V) : Except DporError (CachedGraph V) := do
  return ⟨← operation.run m.worker, if operation.keepsCache then m.porfCache else none⟩

def step (m : CachedGraph V) : GraphCall V → Except DporError (GraphAnswer V × CachedGraph V)
  | .op operation => do
    let m ← m.apply operation
    return (.graph m.graph, m)
  | .checkpoint => .ok (.checkpoint m.checkpoint, m)
  | .porfContains fromId toId => do
    let (found, m) ← m.porfContains fromId toId
    return (.truth found, m)
  | .hasCausalCycle => do
    let (found, m) ← m.hasCausalCycle
    return (.truth found, m)
  | .hasCausalCycleWithoutCache => do return (.truth (← m.graph.hasCausalCycleWithoutCache), m)
  | .check communicationModel => do
    let (result, m) ← m.check communicationModel
    return (.verdict result, m)

/-- What a call other than a rollback leaves behind, whether it returns or throws. One that throws leaves the
object as it was, but an assignment may have stored its entry and `porf_contains` the cache of a cyclic graph. -/
def after (m : CachedGraph V) (call : GraphCall V) : CachedGraph V :=
  match m.step call with
  | .ok (_, m') => m'
  | .error _ =>
    match call with
    | .op (.setReadsFromSource receiveId source) => (m.attemptSetReadsFromSource receiveId source).2
    | .op (.rebindRf recv send preserveKnownAcyclicity) => (m.attemptRebindRf recv send preserveKnownAcyclicity).2
    | .op (.rebindRfPreservingKnownAcyclicity recv send) =>
      (m.attemptRebindRf recv send (m.graph.knownAcyclic && m.graph.isReceiveId recv && m.graph.isSendId send)).2
    | .porfContains fromId toId =>
      if m.graph.isValidEventId fromId && m.graph.isValidEventId toId then
        match m.ensurePorfCache with
        | .ok (_, m') => m'
        | .error _ => m
      else m
    | _ => m

/-- The answers to a sequence of calls, up to the first that throws. -/
def answers : List (GraphCall V) → CachedGraph V → List (Except DporError (GraphAnswer V))
  | [], _ => []
  | call :: rest, m =>
    match m.step call with
    | .error e => [.error e]
    | .ok (answer, m') => .ok answer :: answers rest m'

/-- The objects that calls lead to. -/
inductive Made : CachedGraph V → Prop
  | empty : Made empty
  | step (m m' : CachedGraph V) (call : GraphCall V) (answer : GraphAnswer V) :
    Made m → m.step call = .ok (answer, m') → Made m'

/-! ## The cache does not show -/

theorem hasCausalCycle_eq_withoutCache (g : ExplorationGraph V) (hends : g.graph.ValidEndpoints) :
    g.hasCausalCycle = g.hasCausalCycleWithoutCache := by
  have hbuild := buildPorfAdjacencyAndOrder_ok g hends
  unfold ExplorationGraph.hasCausalCycle ExplorationGraph.hasCausalCycleWithoutCache
    ExplorationGraph.ensurePorfCache
  rw [hbuild]
  by_cases hempty : g.eventCount = 0
  · rw [if_pos hempty, hempty]
    rfl
  · rw [if_neg hempty]
    show ((if _ then _ else _) >>= _) = _
    by_cases horder : (TopologicalOrder.order g.eventCount g.immediateEdges).length = g.eventCount
    · rw [if_neg (not_not.mpr horder)]
      exact congrArg Except.ok (decide_eq_false (not_not.mpr horder)).symm
    · rw [if_pos horder]
      exact congrArg Except.ok (decide_eq_true horder).symm

variable {m : CachedGraph V}

theorem Fresh.findCycle (h : m.Fresh) (hends : m.executionGraph.ValidEndpoints) :
    ∃ filled : CachedGraph V, filled.worker = m.worker ∧ filled.Fresh ∧
      m.findCycle = (if m.graph.knownAcyclic then pure false else m.graph.hasCausalCycleWithoutCache).map
        fun found => (found, filled) := by
  unfold CachedGraph.findCycle
  by_cases hknown : m.graph.knownAcyclic = true
  · rw [if_pos hknown, if_pos hknown]
    exact ⟨m, rfl, h, rfl⟩
  · rw [if_neg hknown, if_neg hknown]
    by_cases hwarm : m.porfCache.isSome = true
    · rw [if_pos hwarm, h.hasCausalCycle, hasCausalCycle_eq_withoutCache m.graph hends]
      exact ⟨m.warmed, rfl, m.warmed_fresh, rfl⟩
    · rw [if_neg hwarm]
      refine ⟨m, rfl, h, ?_⟩
      cases m.graph.hasCausalCycleWithoutCache <;> rfl

theorem Fresh.checkAsync (h : m.Fresh) : ∃ filled : CachedGraph V, filled.worker = m.worker ∧ filled.Fresh ∧
      m.checkAsync = (checkAsyncExplorationGraph m.graph noMissingReadsTolerance).map
        fun r => (r.1, if r.2 then filled.markKnownAcyclic else filled) := by
  unfold CachedGraph.checkAsync checkAsyncExplorationGraph
  by_cases hsafe : (validateGraph m.executionGraph noMissingReadsTolerance).cycleQuerySafe = true
  · have hends : m.executionGraph.ValidEndpoints := by
      rw [(validateGraph_validated m.executionGraph _).safe, all_eq_true] at hsafe
      exact (validEndpoints_iff m.executionGraph).mp hsafe
    obtain ⟨filled, hworker, hfresh, hfind⟩ := h.findCycle hends
    refine ⟨filled, hworker, hfresh, ?_⟩
    rw [hfind]
    simp only [executionGraph, graph] at hsafe ⊢
    simp only [hsafe, Bool.not_true, Bool.false_eq_true, if_false]
    by_cases hknown : m.worker.graph.knownAcyclic = true
    · by_cases hconsistent :
          (validateGraph m.worker.graph.graph noMissingReadsTolerance).result.isConsistent = true
      all_goals simp [Except.map, bind, Except.bind, pure, Except.pure, hknown, hconsistent]
    · simp only [hknown, if_false, Bool.false_eq_true]
      cases m.worker.graph.hasCausalCycleWithoutCache with
      | error e => rfl
      | ok found =>
        by_cases hconsistent :
          (validateGraph m.worker.graph.graph noMissingReadsTolerance).result.isConsistent = true
        all_goals
          cases found
          all_goals simp [Except.map, bind, Except.bind, pure, Except.pure, hconsistent]
  · rw [Bool.not_eq_true] at hsafe
    refine ⟨m, rfl, h, ?_⟩
    simp only [executionGraph, graph] at hsafe ⊢
    simp only [hsafe, Bool.not_false, if_true]
    cases checkAsyncExecutionGraph m.worker.graph.graph noMissingReadsTolerance <;> rfl

theorem Fresh.check (m : CachedGraph V) (h : m.Fresh) (model : CommunicationModel) :
    ∃ filled : CachedGraph V, filled.worker = m.worker ∧ filled.Fresh ∧
      m.check model = (checkConsistency m.graph model).map
        fun r => (r.1, if r.2 then filled.markKnownAcyclic else filled) := by
  obtain ⟨filled, hworker, hfresh, hasync⟩ := h.checkAsync
  refine ⟨filled, hworker, hfresh, ?_⟩
  unfold CachedGraph.check checkConsistency checkExplorationGraph
  rw [hasync]
  cases checkAsyncExplorationGraph m.graph noMissingReadsTolerance with
  | error e => rfl
  | ok r =>
    obtain ⟨result, marks⟩ := r
    have hgraph : CachedGraph.executionGraph (if marks then filled.markKnownAcyclic else filled) = m.graph.graph := by
      unfold executionGraph graph
      rw [← hworker]
      cases marks <;> rfl
    by_cases hfifo : model = .fifoP2P ∧ result.isConsistent = true
    · simp only [Except.map, bind, Except.bind, hfifo, and_self, if_true, hgraph, pure, Except.pure]
    · simp only [Except.map, bind, Except.bind, hfifo, if_false, pure, Except.pure]

/-- Two objects with one worker graph. -/
structure Twin (m n : CachedGraph V) : Prop where
  worker : n.worker = m.worker
  fresh : m.Fresh
  fresh' : n.Fresh

variable {m' : CachedGraph V}

theorem apply_fresh (h : m.Fresh) {operation : GraphOp V} (happly : m.apply operation = .ok m') : m'.Fresh := by
  obtain ⟨w, hw, hm'⟩ := Except.bind_ok_iff.mp happly
  cases hm'
  cases operation with
  | copy =>
    cases hw
    exact h
  | withNdValue ndEvent value =>
    obtain ⟨g', hg', hw⟩ := Except.bind_ok_iff.mp hw
    cases hw
    intro cache hcache
    show g'.ensurePorfCache = .ok cache
    rw [ensurePorfCache_withNdValue hg']
    exact h cache hcache
  | _ => exact fresh_of_none _

theorem Twin.step {n : CachedGraph V} (h : Twin m n) (call : GraphCall V) :
    (∃ e, m.step call = .error e ∧ n.step call = .error e) ∨
      ∃ answer m' n', m.step call = .ok (answer, m') ∧ n.step call = .ok (answer, n') ∧ Twin m' n' := by
  have hgraph : n.graph = m.graph := by
    unfold graph
    rw [h.worker]
  cases call with
  | op operation =>
    have hrun : operation.run n.worker = operation.run m.worker := by rw [h.worker]
    cases hw : operation.run m.worker with
    | error e =>
      refine .inl ⟨e, ?_, ?_⟩
      · simp only [CachedGraph.step, apply, hw]
        rfl
      · simp only [CachedGraph.step, apply, hrun, hw]
        rfl
    | ok w =>
      have hm : m.apply operation = .ok ⟨w, if operation.keepsCache then m.porfCache else none⟩ := by
        simp only [apply, hw]
        rfl
      have hn : n.apply operation = .ok ⟨w, if operation.keepsCache then n.porfCache else none⟩ := by
        simp only [apply, hrun, hw]
        rfl
      refine .inr ⟨.graph w.graph, ⟨w, if operation.keepsCache then m.porfCache else none⟩,
        ⟨w, if operation.keepsCache then n.porfCache else none⟩, ?_, ?_,
        ⟨rfl, apply_fresh h.fresh hm, apply_fresh h.fresh' hn⟩⟩
      · simp only [CachedGraph.step, hm]
        rfl
      · simp only [CachedGraph.step, hn]
        rfl
  | checkpoint =>
    refine .inr ⟨.checkpoint m.checkpoint, m, n, rfl, ?_, h⟩
    simp only [CachedGraph.step, CachedGraph.checkpoint, h.worker]
  | porfContains fromId toId =>
    simp only [CachedGraph.step, h.fresh.porfContains, h.fresh'.porfContains, hgraph]
    cases m.graph.porfContains fromId toId with
    | error e => exact .inl ⟨e, rfl, rfl⟩
    | ok found => exact .inr ⟨_, _, _, rfl, rfl, ⟨h.worker, m.warmed_fresh, n.warmed_fresh⟩⟩
  | hasCausalCycle =>
    simp only [CachedGraph.step, h.fresh.hasCausalCycle, h.fresh'.hasCausalCycle, hgraph]
    cases m.graph.hasCausalCycle with
    | error e => exact .inl ⟨e, rfl, rfl⟩
    | ok found => exact .inr ⟨_, _, _, rfl, rfl, ⟨h.worker, m.warmed_fresh, n.warmed_fresh⟩⟩
  | hasCausalCycleWithoutCache =>
    simp only [CachedGraph.step, hgraph]
    cases m.graph.hasCausalCycleWithoutCache with
    | error e => exact .inl ⟨e, rfl, rfl⟩
    | ok found => exact .inr ⟨_, _, _, rfl, rfl, h⟩
  | check model =>
    obtain ⟨filled, hworker, hfresh, hcheck⟩ := h.fresh.check m model
    obtain ⟨filled', hworker', hfresh', hcheck'⟩ := h.fresh'.check n model
    simp only [CachedGraph.step, hcheck, hcheck', hgraph]
    cases checkConsistency m.graph model with
    | error e => exact .inl ⟨e, rfl, rfl⟩
    | ok r =>
      obtain ⟨result, marks⟩ := r
      refine .inr ⟨_, _, _, rfl, rfl, ?_⟩
      have hworkers : filled'.worker = filled.worker := hworker'.trans (h.worker.trans hworker.symm)
      cases marks with
      | false => exact ⟨hworkers, hfresh, hfresh'⟩
      | true => exact ⟨congrArg WorkerGraph.markKnownAcyclic hworkers, hfresh, hfresh'⟩

theorem Twin.answers (m n : CachedGraph V) (h : Twin m n) (calls : List (GraphCall V)) :
    answers calls n = answers calls m := by
  induction calls generalizing m n with
  | nil => rfl
  | cons call rest ih =>
    unfold CachedGraph.answers
    rcases h.step call with ⟨e, hm, hn⟩ | ⟨answer, m', n', hm, hn, htwin⟩
    · rw [hm, hn]
    · rw [hm, hn]
      exact congrArg (_ :: ·) (ih m' n' htwin)

/-- What a call does to the object: an operation runs on the worker graph, a query leaves it alone or
marks it. -/
theorem step_cases (h : m.Fresh) {call : GraphCall V} {answer : GraphAnswer V}
    (hstep : m.step call = .ok (answer, m')) :
    m'.Fresh ∧ ((∃ operation, call = .op operation ∧ operation.run m.worker = .ok m'.worker) ∨
      (∀ operation, call ≠ .op operation) ∧
        (m'.worker = m.worker ∨ ∃ model result, m.check model = .ok (result, m')) ∧
        ∃ known pending, m'.worker = m.worker.withMetadata known pending) := by
  have hsame : m.worker = m.worker.withMetadata m.graph.knownAcyclic m.graph.pendingFreshReceiveId := rfl
  cases call with
  | op operation =>
    obtain ⟨u, hu, hanswer⟩ := Except.bind_ok_iff.mp hstep
    cases hanswer
    refine ⟨apply_fresh h hu, .inl ⟨operation, rfl, ?_⟩⟩
    obtain ⟨w, hw, hm'⟩ := Except.bind_ok_iff.mp hu
    cases hm'
    exact hw
  | checkpoint =>
    cases hstep
    exact ⟨h, .inr ⟨nofun, .inl rfl, _, _, hsame⟩⟩
  | porfContains | hasCausalCycle =>
    simp only [CachedGraph.step, h.porfContains, h.hasCausalCycle] at hstep
    obtain ⟨⟨found, u⟩, hu, hanswer⟩ := Except.bind_ok_iff.mp hstep
    cases hanswer
    obtain ⟨found, _, hfound⟩ := (Except.map_ok_iff _ _ _).mp hu
    cases hfound
    exact ⟨m.warmed_fresh, .inr ⟨nofun, .inl rfl, _, _, hsame⟩⟩
  | hasCausalCycleWithoutCache =>
    obtain ⟨found, _, hanswer⟩ := Except.bind_ok_iff.mp hstep
    cases hanswer
    exact ⟨h, .inr ⟨nofun, .inl rfl, _, _, hsame⟩⟩
  | check model =>
    obtain ⟨filled, hworker, hfresh, hcheck⟩ := h.check m model
    obtain ⟨⟨result, u⟩, hu, hanswer⟩ := Except.bind_ok_iff.mp hstep
    cases hanswer
    have hchecked := hu
    rw [hcheck] at hu
    obtain ⟨⟨result, marks⟩, _, hfilled⟩ := (Except.map_ok_iff _ _ _).mp hu
    cases hfilled
    cases marks with
    | false => exact ⟨hfresh, .inr ⟨nofun, .inl hworker, _, _, hworker.trans hsame⟩⟩
    | true =>
      refine ⟨hfresh, .inr ⟨nofun, .inr ⟨model, _, hchecked⟩, true, none, ?_⟩⟩
      show filled.worker.markKnownAcyclic = _
      rw [hworker]
      rfl

theorem step_keeps {call : GraphCall V} {answer : GraphAnswer V}
    (h : m.worker.Tabulated ∧ m.Fresh) (hstep : m.step call = .ok (answer, m')) :
    m'.worker.Tabulated ∧ m'.Fresh := by
  obtain ⟨hfresh, ⟨operation, _, hrun⟩ | ⟨-, -, known, pending, hworker⟩⟩ :=
    step_cases h.2 hstep
  · exact ⟨GraphOp.run_tabulated h.1 hrun, hfresh⟩
  · exact ⟨hworker ▸ h.1.withMetadata known pending, hfresh⟩

theorem after_of_ok {call : GraphCall V} {answer : GraphAnswer V} (h : m.step call = .ok (answer, m')) :
    m.after call = m' := by
  unfold after
  rw [h]

theorem step_op_error {operation : GraphOp V} {e : DporError} (h : m.step (.op operation) = .error e) :
    operation.run m.worker = .error e := by
  cases hrun : operation.run m.worker with
  | error e' =>
    simp only [CachedGraph.step, apply, hrun, bind, Except.bind] at h
    cases h
    rfl
  | ok w =>
    simp only [CachedGraph.step, apply, hrun, bind, Except.bind] at h
    cases h

section Thrown
variable (hc : m.graph.Counted) {e : DporError}
include hc

theorem attemptSetReadsFromSource_thrown {recv : ℕ} {source : ReadsFromSource}
    (h : m.worker.setReadsFromSource recv source = .error e) : (m.attemptSetReadsFromSource recv source).2 = m := by
  unfold attemptSetReadsFromSource
  rcases attemptSetReadsFromSource_cases hc recv source with ⟨e', hrefused⟩ | ⟨w, hreturned⟩
  · rw [show m.executionGraph.setReadsFromSource recv source = .error e' from hrefused]
  · cases hreturned.symm.trans h

theorem attemptRebindRf_thrown {recv send : ℕ} {preserve : Bool}
    (h : m.worker.rebindRf recv send preserve = .error e) : (m.attemptRebindRf recv send preserve).2 = m := by
  unfold attemptRebindRf
  rcases attemptRebindRf_cases hc recv send preserve with hsame | ⟨w, hreturned⟩
  · split
    · rename_i e' worker hattempt
      rw [hattempt] at hsame
      exact congrArg (CachedGraph.mk · m.porfCache) hsame
    · rename_i hattempt
      unfold WorkerGraph.rebindRf at h
      rw [hattempt] at h
      cases h
  · cases hreturned.symm.trans h

/-- On a graph with exact reader counts a call that throws changes at most the cache. -/
theorem after_of_error (hf : m.Fresh) {call : GraphCall V} (h : m.step call = .error e) :
    (m.after call).worker = m.worker ∧ (m.after call).Fresh := by
  have hkept : ∀ u : CachedGraph V, u = m → u.worker = m.worker ∧ u.Fresh := by
    rintro u rfl
    exact ⟨rfl, hf⟩
  unfold after
  rw [h]
  dsimp only
  split
  · exact hkept _ (attemptSetReadsFromSource_thrown hc (step_op_error h))
  · exact hkept _ (attemptRebindRf_thrown hc (step_op_error h))
  · exact hkept _ (attemptRebindRf_thrown hc (step_op_error h))
  · rw [hf.ensurePorfCache]
    split
    · cases m.graph.ensurePorfCache with
      | error e' => exact ⟨rfl, hf⟩
      | ok cache => exact ⟨rfl, m.warmed_fresh⟩
    · exact ⟨rfl, hf⟩
  · exact ⟨rfl, hf⟩

end Thrown

theorem empty_keeps : (empty : CachedGraph V).worker.Tabulated ∧ (empty : CachedGraph V).Fresh :=
  ⟨.ofGraph empty_tabulated, fresh_of_none _⟩

theorem Made.keeps (m : CachedGraph V) (h : m.Made) : m.worker.Tabulated ∧ m.Fresh := by
  induction h with
  | empty => exact empty_keeps
  | step m m' call answer _ hstep ih => exact step_keeps ih hstep

/-! ## Work after a checkpoint -/

/-- The calls between a checkpoint and its rollback: events, assignments from sources that exist, and
queries. `named` holds of the ids under which no send is added. -/
def Permitted (named : ℕ → Prop) (g : ExplorationGraph V) : GraphCall V → Prop
  | .op (.addEvent _ label) => label.isSend = true → ¬ named g.eventCount
  | .op (.setReadsFromSource _ source) => ∀ id, source = .send id → id < g.eventCount
  | .op _ => False
  | _ => True

/-- The objects that such calls, returning or throwing, and properly nested rollbacks make of `m`. -/
inductive Later (named : ℕ → Prop) : CachedGraph V → CachedGraph V → Prop
  | refl (m : CachedGraph V) : Later named m m
  | call (m u : CachedGraph V) (call : GraphCall V) :
    Later named m u → Permitted named u.graph call → Later named m (u.after call)
  | nested (m u v u' : CachedGraph V) :
    Later named m u → Later named u v → v.rollback u.checkpoint = .ok u' → Later named m u'

/-- Every source is an event or one of the ids `named`. -/
def SourcesKnown (named : ℕ → Prop) (g : ExplorationGraph V) : Prop :=
  ∀ receiveId id, g.readsFrom.find receiveId = some (.send id) → id < g.eventCount ∨ named id

/-- What holds of the object between a checkpoint of `start` and the rollback to it. -/
structure Undoable (named : ℕ → Prop) (start m : CachedGraph V) : Prop where
  tables : m.worker.Tabulated
  counted : m.graph.Counted
  fresh : m.Fresh
  sources : SourcesKnown named m.graph
  records : ∀ record ∈ m.worker.rfUndoLog.take (m.worker.rfUndoLog.length - start.worker.rfUndoLog.length),
    ∀ id, record.previousSource = some (.send id) → id < m.graph.eventCount ∨ named id
  back : m.worker.rollback start.checkpoint = .ok start.worker

variable {named : ℕ → Prop}

theorem Undoable.refl (ht : m.worker.Tabulated) (hc : m.graph.Counted) (hf : m.Fresh)
    (hs : SourcesKnown named m.graph) : Undoable named m m := by
  refine ⟨ht, hc, hf, hs, fun record hrecord => ?_, m.worker.rollback_checkpoint⟩
  rw [Nat.sub_self] at hrecord
  exact (nomatch hrecord)

variable {start : CachedGraph V}

theorem Undoable.marked (h : Undoable named start m) (hfresh : m'.Fresh) {known : Bool} {pending : Option ℕ}
    (hworker : m'.worker = m.worker.withMetadata known pending) : Undoable named start m' := by
  obtain ⟨worker, cache⟩ := m'
  cases hworker
  exact ⟨h.tables.withMetadata known pending, h.counted, hfresh, h.sources, h.records,
    (m.worker.rollback_withMetadata _ known pending).trans h.back⟩

theorem Undoable.addEvent (h : Undoable named start m) (hfresh : m'.Fresh) {thread : ℕ} {label : EventLabel V}
    (hsend : label.isSend = true → ¬ named m.graph.eventCount)
    (hrun : (GraphOp.addEvent thread label).run m.worker = .ok m'.worker) : Undoable named start m' := by
  obtain ⟨worker, cache⟩ := m'
  obtain ⟨⟨id, w⟩, hw, hworker⟩ := Except.bind_ok_iff.mp hrun
  cases hworker
  obtain ⟨index, hnext, -, rfl⟩ := addEvent_inv hw
  have hcount : (m.worker.appended thread index label).graph.eventCount = m.graph.eventCount + 1 :=
    length_append
  have hsource (id : ℕ) (hid : id < m.graph.eventCount ∨ named id) :
      id < (m.worker.appended thread index label).graph.eventCount ∨ named id :=
    hid.imp (fun hlt => hcount ▸ Nat.lt_succ_of_lt hlt) fun hnamed => hnamed
  have hunnamed (hlabel : label.isSend = true) : m.graph.NextUnnamed := fun recv hid =>
    (h.sources recv _ hid).elim (lt_irrefl _) (hsend hlabel)
  refine ⟨h.tables.appended label hnext, h.counted.appended h.tables.graph.sound thread index hunnamed, hfresh,
    fun recv id hid => hsource id (h.sources recv id hid),
    fun record hrecord id hid => hsource id (h.records record hrecord id hid),
    rollback_appended_older thread index label m.worker start.worker
      (h.tables.graph.sound) hnext _ (fun hlabel => ⟨hunnamed hlabel, fun record hrecord hid => ?_⟩)
      h.back⟩
  exact (h.records record hrecord _ hid).elim (lt_irrefl _) (hsend hlabel)

theorem Undoable.setReadsFromSource
    (h : Undoable named start m) (hfresh : m'.Fresh) {recv : ℕ} {source : ReadsFromSource}
    (hexists : ∀ id, source = .send id → id < m.graph.eventCount)
    (hrun : (GraphOp.setReadsFromSource recv source).run m.worker = .ok m'.worker) :
    Undoable named start m' := by
  obtain ⟨worker, cache⟩ := m'
  have htables := h.tables.setReadsFromSource hrun
  have hback := rollback_setReadsFromSource_older
    (h.tables.graph.sound) hrun h.back
  obtain ⟨g', hg', hworker⟩ := setReadsFromSource_inv hrun
  cases hworker
  have hcount : g'.eventCount = m.graph.eventCount :=
    congrArg length (assignReadsFrom_events hg')
  have hfind : g'.readsFrom = m.graph.readsFrom.set recv source := by
    obtain ⟨a, b, known, pending, _, _, rfl⟩ :=
      assignReadsFrom_inv hg'
    rfl
  refine ⟨htables, h.counted.assignReadsFrom h.tables.graph.sound hg', hfresh, fun j id hid => ?_,
    fun record hrecord id hid => ?_, hback⟩
  · show id < g'.eventCount ∨ _
    have hid : g'.readsFrom.find j = some (.send id) := hid
    rw [hfind, AscendingMap.find_set] at hid
    rw [hcount]
    split at hid
    · exact .inl (hexists id (Option.some.inj hid))
    · exact h.sources j id hid
  · show id < g'.eventCount ∨ _
    rw [hcount]
    -- the new record stands in front of those that were newer than the checkpoint
    have hle : start.worker.rfUndoLog.length ≤ m.worker.rfUndoLog.length := by
      have hback := h.back
      rw [rollback_eq] at hback
      split at hback
      · cases hback
      · rename_i hsizes
        exact Nat.le_of_not_lt fun hc => hsizes (.inr hc)
    rw [length_cons, Nat.succ_sub hle, take_succ_cons] at hrecord
    rcases mem_cons.mp hrecord with rfl | hrecord
    · exact h.sources recv id hid
    · exact h.records record hrecord id hid

theorem Later.undoable (named : ℕ → Prop) (start m : CachedGraph V) (h : Later named start m)
    (ht : start.worker.Tabulated) (hc : start.graph.Counted) (hf : start.Fresh)
    (hs : SourcesKnown named start.graph) : Undoable named start m := by
  induction h with
  | refl m => exact .refl ht hc hf hs
  | call m u call _ hcall ih =>
    have hu := ih ht hc hf hs
    cases hstep : u.step call with
    | error e =>
      obtain ⟨hworker, hfresh⟩ := after_of_error hu.counted hu.fresh hstep
      exact hu.marked hfresh hworker
    | ok stepped =>
      obtain ⟨answer, u'⟩ := stepped
      rw [after_of_ok hstep]
      obtain ⟨hfresh, ⟨operation, rfl, hrun⟩ | ⟨-, -, known, pending, hworker⟩⟩ :=
        step_cases hu.fresh hstep
      · cases operation with
        | addEvent thread label => exact hu.addEvent hfresh hcall hrun
        | setReadsFromSource recv source =>
          exact hu.setReadsFromSource hfresh hcall hrun
        | _ => exact hcall.elim
      · exact hu.marked hfresh hworker
  | nested m u v u' _ _ hroll ihu ihv =>
    have hu := ihu ht hc hf hs
    have hv := ihv hu.tables hu.counted hu.fresh hu.sources
    obtain ⟨w, hw, hu'⟩ := Except.bind_ok_iff.mp hroll
    cases hu'
    cases hv.back.symm.trans hw
    exact hu.marked (fresh_of_none _) rfl

/-- An id that a reads-from entry gives as source. -/
def Names (m : CachedGraph V) (id : ℕ) : Prop := ∃ receiveId, m.graph.readsFrom.find receiveId = some (.send id)

/-- Where the reader counts are exact at the checkpoint and no send takes an id that an entry named there, the
rollback returns, with the worker graph of the checkpoint and the same answers to every sequence of calls. -/
theorem rollback_is_inverse (m m' : CachedGraph V) (hm : m.Made) (hcounted : m.graph.Counted)
    (hlater : Later m.Names m m') :
    ∃ m'', m'.rollback m.checkpoint = .ok m'' ∧ m''.worker = m.worker ∧
      ∀ calls, answers calls m'' = answers calls m := by
  obtain ⟨htables, hfresh⟩ := hm.keeps m
  have h := hlater.undoable m.Names m m' htables hcounted hfresh fun receiveId id hid => Or.inr ⟨receiveId, hid⟩
  refine ⟨⟨m.worker, none⟩, ?_, rfl, Twin.answers m ⟨m.worker, none⟩ ⟨rfl, hfresh, fresh_of_none _⟩⟩
  unfold CachedGraph.rollback
  rw [show m'.worker.rollback m.checkpoint = _ from h.back]
  rfl

/-- A receive reads a send at the checkpoint. Then it is made to read bottom, another receive takes its send, and an
assignment throws because the entry vector cannot grow that far. -/
theorem matched_rollback_is_inverse :
    ∃ m m' : CachedGraph ℕ, m.Made ∧ m.graph.Counted ∧ m.graph.readsFrom.find 1 = some (.send 0) ∧
      Later m.Names m m' ∧ m'.graph.readsFrom.find 2 = some (.send 0) ∧
      ∃ m'', m'.rollback m.checkpoint = .ok m'' ∧ m''.worker = m.worker ∧
        ∀ calls, answers calls m'' = answers calls m := by
  have hexists : ∃ m m' : CachedGraph ℕ, m.Made ∧ m.graph.Counted ∧ m.graph.readsFrom.find 1 = some (.send 0) ∧
      Later m.Names m m' ∧ m'.graph.readsFrom.find 2 = some (.send 0) := by
    have hsend : Made _ := .step (V := ℕ) _ _ (.op (.addEvent 0 (.send ⟨1, 7⟩))) _ .empty rfl
    have hreceive : Made _ := .step _ _ (.op (.addEvent 1 (.receive ⟨.nonBlocking, fun _ => true⟩))) _ hsend rfl
    have hread : Made _ := .step _ _ (.op (.setReadsFromSource 1 (.send 0))) _ hreceive rfl
    refine ⟨_, _, hread, fun id hid => ?_, rfl,
      .call _ _ (.op (.setReadsFromSource (2 ^ 60) .bottom))
        (.call _ _ (.op (.setReadsFromSource 2 (.send 0)))
          (.call _ _ (.op (.addEvent 1 (.receive ⟨.blocking, fun _ => true⟩)))
            (.call _ _ (.op (.setReadsFromSource 1 .bottom)) (.refl _) nofun) nofun)
          fun id hid => by cases hid; decide)
        nofun, rfl⟩
    -- the only send is event 0, and one entry names it
    match id, hid with
    | 0, _ => rfl
    | 1, hid => cases hid
    | _ + 2, hid => cases hid
  obtain ⟨m, m', hmade, hcounted, hentry, hlater, hentry'⟩ := hexists
  exact ⟨m, m', hmade, hcounted, hentry, hlater, hentry', rollback_is_inverse m m' hmade hcounted hlater⟩

/-- A receive reads from id 1 before there is such an event. After the checkpoint it is made to read
bottom and a send takes the id; the rollback gives the send its reader back and then refuses to remove it. -/
theorem rollback_refuses_named_send :
    ¬ ∀ m m' : CachedGraph ℕ, m.Made → Later (fun _ => False) m m' →
      ∃ m'', m'.rollback m.checkpoint = .ok m'' := by
  intro h
  have hreceive : Made _ :=
    .step (V := ℕ) _ _ (.op (.addEvent 0 (.receive ⟨.nonBlocking, fun _ => true⟩))) _ .empty rfl
  have hread : Made _ := .step _ _ (.op (.setReadsFromSource 0 (.send 1))) _ hreceive rfl
  obtain ⟨m'', hroll⟩ := h _ _ hread
    (.call _ _ (.op (.addEvent 1 (.send ⟨0, 7⟩)))
      (.call _ _ (.op (.setReadsFromSource 0 .bottom)) (.refl _) (fun _ hid => (nomatch hid)))
      fun _ hnamed => hnamed)
  have hthrows : Except.error (DporError.internalError "rolled back send still appears to have readers")
      = Except.ok m'' := hroll
  exact (nomatch hthrows)

end CachedGraph
end MustDpor

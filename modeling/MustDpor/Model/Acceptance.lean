import MustDpor.Model.Acyclicity
import MustDpor.Model.Fifo

/-! # Accepted graphs

What the checker of a communication model accepts, on execution graphs and, through the known-acyclic
flag, on exploration graphs. -/

namespace MustDpor
set_option autoImplicit false
open List ExecutionGraph

namespace ExecutionGraph
variable {V : Type}

structure ConsistentUnder (g : ExecutionGraph V) (communicationModel : CommunicationModel) : Prop where
  async : g.AsyncConsistent
  fifo : communicationModel = .fifoP2P → g.FifoConsistent

/-- The same with receives that may be without a source. -/
structure ConsistentExcept (g : ExecutionGraph V) (communicationModel : CommunicationModel)
    (missingReadsTolerance : ℕ → Bool) : Prop where
  async : g.AsyncConsistentExcept missingReadsTolerance
  fifo : communicationModel = .fifoP2P → g.FifoConsistent

variable (g : ExecutionGraph V)

theorem consistentUnder_iff (model : CommunicationModel) :
    g.ConsistentUnder model ↔ g.ConsistentExcept model noMissingReadsTolerance :=
  ⟨fun h => ⟨h.async.except _, h.fifo⟩, fun h => ⟨g.asyncConsistent_iff.mpr h.async, h.fifo⟩⟩

/-- The checker of the model, started from scratch, reports no issue. -/
def Accepted (g : ExecutionGraph V) (communicationModel : CommunicationModel) : Prop :=
  ∃ result, checkExecutionGraph g communicationModel noMissingReadsTolerance = .ok result ∧
    result.isConsistent = true

theorem isConsistent_iff (result : ConsistencyResult) : result.isConsistent = true ↔ result.issues = [] := by
  unfold ConsistencyResult.isConsistent
  exact isEmpty_iff

theorem checkExecutionGraph_ok (h : g.IndexOrdered) (model : CommunicationModel) (tolerance : ℕ → Bool) :
    ∃ result, checkExecutionGraph g model tolerance = .ok result ∧
      (result.isConsistent = true ↔ g.ConsistentExcept model tolerance) := by
  have hasync := checkAsyncExecutionGraph_eq g h tolerance
  have hiff := g.checkAsync_nil_iff h _ _ hasync
  rw [← isConsistent_iff] at hiff
  unfold checkExecutionGraph
  rw [hasync]
  by_cases hfifo : model = .fifoP2P ∧
      (if hasCausalCycle ⟨g.events.length, g.threadSequences⟩
          (validateGraph g tolerance).validRfEdges g.events.length then
        (validateGraph g tolerance).result.addCausalCycleIssue
      else (validateGraph g tolerance).result).isConsistent = true
  · refine ⟨_, if_pos hfifo, ?_⟩
    have hconsistent := hiff.mp hfifo.2
    rw [isConsistent_iff, hconsistent.fifoIssues_nil_iff g h _ ((isConsistent_iff _).mp hfifo.2)]
    exact ⟨fun hf => ⟨hconsistent, fun _ => hf⟩, fun hc => hc.fifo hfifo.1⟩
  · refine ⟨_, if_neg hfifo, hiff.trans ⟨fun hc => ⟨hc, fun hmodel => ?_⟩, ConsistentExcept.async⟩⟩
    exact absurd ⟨hmodel, hiff.mpr hc⟩ hfifo

theorem ConsistentExcept.missing {g : ExecutionGraph V} {model : CommunicationModel}
    {tolerance : ℕ → Bool} (h : g.ConsistentExcept model tolerance)
    (hordered : g.IndexOrdered) {result : ConsistencyResult}
    (hcheck : checkExecutionGraph g model noMissingReadsTolerance = .ok result) :
    ∀ i ∈ result.issues, ∃ id, g.isReceiveAt id = true ∧ g.readsFrom.find id = none ∧
      i = ValidationPass.missingIssue id := by
  obtain ⟨first, hasync⟩ : ∃ first, checkAsyncExecutionGraph g noMissingReadsTolerance = .ok first :=
    ⟨_, checkAsyncExecutionGraph_eq g hordered noMissingReadsTolerance⟩
  have hmissing := h.async.missing hordered hasync
  have hiff := g.checkAsync_nil_iff hordered _ _ hasync
  unfold checkExecutionGraph at hcheck
  rw [hasync] at hcheck
  change (if _ then Except.ok _ else Except.ok _) = _ at hcheck
  split at hcheck
  · rename_i hfifo
    cases hcheck
    have hnone := (isConsistent_iff _).mp hfifo.2
    rw [((hiff.mp hnone).fifoIssues_nil_iff g hordered _ hnone).mpr (h.fifo hfifo.1)]
    exact fun i hi => absurd hi not_mem_nil
  · cases hcheck
    exact hmissing

theorem Accepted.indexOrdered (model : CommunicationModel) (h : g.Accepted model) : g.IndexOrdered := by
  obtain ⟨result, hcheck, -⟩ := h
  obtain ⟨_, hasync, -⟩ := Except.bind_ok_iff.mp hcheck
  obtain ⟨po, hpo, -⟩ := Except.bind_ok_iff.mp hasync
  exact g.indexOrdered_of_poRelation hpo

theorem accepted_iff (h : g.IndexOrdered) (model : CommunicationModel) :
    g.Accepted model ↔ g.ConsistentUnder model := by
  obtain ⟨result, hcheck, hiff⟩ := checkExecutionGraph_ok g h model noMissingReadsTolerance
  unfold Accepted
  rw [hcheck, consistentUnder_iff, ← hiff]
  constructor
  · rintro ⟨other, hother, hconsistent⟩
    cases hother
    exact hconsistent
  · exact fun hconsistent => ⟨result, rfl, hconsistent⟩

end ExecutionGraph

namespace ExplorationGraph
variable {V : Type}

variable {g : ExplorationGraph V}

theorem Tabulated.checkAsyncExplorationGraph_agrees (ht : g.Tabulated)
    (hflag : g.knownAcyclic = true → g.Sane) (tolerance : ℕ → Bool) :
    ∃ result marks, checkAsyncExplorationGraph g tolerance = .ok (result, marks) ∧
      checkAsyncExecutionGraph g.graph tolerance = .ok result ∧ (marks = true → g.Sane) := by
  have hordered := ht.indexOrdered g
  have hvalidated := validateGraph_validated g.graph tolerance
  have hslow := checkAsyncExecutionGraph_eq g.graph hordered tolerance
  unfold checkAsyncExplorationGraph
  by_cases hsafe : (validateGraph g.graph tolerance).cycleQuerySafe = true
  · have hends : g.graph.ValidEndpoints := by
      rw [hvalidated.safe, all_eq_true] at hsafe
      exact (validEndpoints_iff g.graph).mp hsafe
    have hcycle := hasCausalCycle_validated g.graph hordered hends
    rw [← hvalidated.edges] at hcycle
    obtain ⟨found, hfind, hfound⟩ : ∃ found,
        (∀ answer : Bool → Except DporError (ConsistencyResult × Bool),
          (if g.knownAcyclic = true then pure false >>= answer else g.hasCausalCycleWithoutCache >>= answer) =
            answer found) ∧ (found = true ↔ ¬ g.graph.Acyclic) := by
      by_cases hknown : g.knownAcyclic = true
      · exact ⟨false, fun _ => if_pos hknown, iff_of_false Bool.false_ne_true (not_not.mpr (hflag hknown).acyclic)⟩
      · obtain ⟨found, hcold, hfound⟩ := ht.hasCausalCycleWithoutCache_ok g hends
        refine ⟨found, fun _ => (if_neg hknown).trans ?_, hfound⟩
        rw [hcold]
        rfl
    have hsame : MustDpor.hasCausalCycle ⟨g.graph.events.length, g.graph.threadSequences⟩
        (validateGraph g.graph tolerance).validRfEdges g.graph.events.length = found := by
      rw [Bool.eq_iff_iff, hcycle, hfound]
    rw [hsame] at hslow
    simp only [hsafe, Bool.not_true, Bool.false_eq_true, if_false]
    rw [hfind]
    cases found with
    | true => exact ⟨_, false, rfl, hslow, (nomatch ·)⟩
    | false =>
      refine ⟨_, _, rfl, hslow, fun _ => ⟨hends, ?_⟩⟩
      by_contra hnot
      exact Bool.false_ne_true (hfound.mpr hnot)
  · rw [Bool.not_eq_true] at hsafe
    refine ⟨_, false, ?_, hslow, (nomatch ·)⟩
    simp only [hsafe, Bool.not_false, if_true, hslow]
    rfl

/-- The check of the explorer returns what the check from scratch returns, and marks only graphs that have
no cycle. -/
theorem Tabulated.checkExplorationGraph_agrees (ht : g.Tabulated)
    (hflag : g.knownAcyclic = true → g.Sane) (model : CommunicationModel) (tolerance : ℕ → Bool) :
    ∃ result marks, checkExplorationGraph g model tolerance = .ok (result, marks) ∧
      checkExecutionGraph g.graph model tolerance = .ok result ∧
      (marks = true → g.Sane) := by
  obtain ⟨result, marks, hfast, hslow, hmarks⟩ := ht.checkAsyncExplorationGraph_agrees hflag tolerance
  unfold checkExplorationGraph checkExecutionGraph
  rw [hfast, hslow]
  by_cases hfifo : model = .fifoP2P ∧ result.isConsistent = true
  · exact ⟨_, marks, if_pos hfifo, if_pos hfifo, hmarks⟩
  · exact ⟨result, marks, if_neg hfifo, if_neg hfifo, hmarks⟩

theorem Tabulated.checkExplorationGraph_ok (ht : g.Tabulated)
    (hflag : g.knownAcyclic = true → g.Sane) (model : CommunicationModel) (tolerance : ℕ → Bool) :
    ∃ result marks, checkExplorationGraph g model tolerance = .ok (result, marks) ∧
      (result.isConsistent = true ↔ g.graph.ConsistentExcept model tolerance) ∧
      (marks = true → g.Sane) := by
  obtain ⟨result, marks, hfast, hslow, hmarks⟩ :=
    ht.checkExplorationGraph_agrees hflag model tolerance
  obtain ⟨other, hother, hiff⟩ := checkExecutionGraph_ok g.graph (ht.indexOrdered g)
    model tolerance
  rw [hslow] at hother
  cases hother
  exact ⟨result, marks, hfast, hiff, hmarks⟩

theorem Truthful.checkConsistency_ok (h : g.Truthful) (ht : g.Tabulated) (model : CommunicationModel) :
    ∃ result marks, checkConsistency g model = .ok (result, marks) ∧
      (result.isConsistent = true ↔ g.graph.ConsistentUnder model) ∧
      (marks = true → g.Sane) := by
  rw [consistentUnder_iff]
  exact ht.checkExplorationGraph_ok h.sane model noMissingReadsTolerance

end ExplorationGraph
end MustDpor

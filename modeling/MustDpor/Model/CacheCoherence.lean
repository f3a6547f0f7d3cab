import MustDpor.Model.Inverse

/-! # Interleavings of calls

Any interleaving of mutations, derivations and queries that return leaves an object whose PORF cache, if it has
one, is the cache of its present graph. -/

namespace MustDpor
set_option autoImplicit false
open ExplorationGraph WorkerGraph

variable {V : Type}

namespace CachedGraph

/-- `operator=` between two objects: every member but the history, which is cleared. -/
def copyAssign (m other : CachedGraph V) : CachedGraph V :=
  { m with
    worker := { m.worker with graph := other.graph, eventUndoLog := [], rfUndoLog := [] }
    porfCache := other.porfCache }

/-- The objects that calls lead to, in any order. A call that throws ends its object's story. -/
inductive Interleaved : CachedGraph V → Prop
  | empty : Interleaved empty
  | call (m m' : CachedGraph V) (call : GraphCall V) (answer : GraphAnswer V) :
    Interleaved m → m.step call = .ok (answer, m') → Interleaved m'
  | rebindRf (m m' : CachedGraph V) (recv send : ℕ) (preserveKnownAcyclicity : Bool) :
    Interleaved m → m.rebindRf recv send preserveKnownAcyclicity = .ok m' → Interleaved m'
  | copyAssign (m other : CachedGraph V) : Interleaved m → Interleaved other → Interleaved (m.copyAssign other)

theorem Interleaved.run {m m' : CachedGraph V} (h : m.Interleaved) (calls : List (GraphCall V))
    (hrun : calls.foldlM (fun m call => (m.step call).map Prod.snd) m = .ok m') : m'.Interleaved := by
  induction calls generalizing m with
  | nil =>
    cases hrun
    exact h
  | cons call rest ih =>
    obtain ⟨next, hnext, hrest⟩ := Except.bind_ok_iff.mp hrun
    obtain ⟨⟨answer, next⟩, hstep, rfl⟩ := (Except.map_ok_iff _ _ _).mp hnext
    exact ih (.call m next call answer h hstep) hrest

theorem Interleaved.keeps (m : CachedGraph V) (h : m.Interleaved) : m.worker.Tabulated ∧ m.Fresh := by
  induction h with
  | empty => exact empty_keeps
  | call m m' call answer _ hstep ih => exact step_keeps ih hstep
  | rebindRf m m' recv send preserveKnownAcyclicity _ hrebind ih =>
    obtain ⟨w, hw, rfl⟩ := rebindRf_inv hrebind
    exact ⟨ih.1.rebindRf m.worker w recv send preserveKnownAcyclicity hw, fresh_of_none w⟩
  | copyAssign m other _ _ _ ih => exact ⟨.ofGraph ih.1.graph, ih.2⟩

theorem Interleaved.undercounted (m : CachedGraph V) (h : m.Interleaved) : m.graph.CountedBy (· ≤ ·) := by
  induction h with
  | empty => exact empty_counted.by tally_le
  | call m m' call answer hm hstep ih =>
    obtain ⟨htables, hfresh⟩ := hm.keeps m
    obtain ⟨-, ⟨operation, _, hrun⟩ | ⟨-, -, known, pending, hworker⟩⟩ := step_cases hfresh hstep
    · exact GraphOp.run_countedBy tally_le htables ih
        (.inr Nat.zero_le) hrun
    · unfold graph
      rw [hworker]
      exact ih
  | rebindRf m m' recv send preserveKnownAcyclicity hm hrebind ih =>
    obtain ⟨w, hw, rfl⟩ := rebindRf_inv hrebind
    exact countedBy_rebindRf tally_le ih
      ((hm.keeps m).1.graph.sound) hw
  | copyAssign m other _ _ _ ih => exact ih

end CachedGraph
end MustDpor

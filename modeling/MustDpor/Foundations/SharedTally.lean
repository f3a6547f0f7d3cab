import Mathlib.Algebra.BigOperators.Group.Finset.Basic
import Mathlib.Algebra.Ring.Nat
import Mathlib.Data.Fintype.Basic
import Mathlib.Tactic.Abel

/-! # Tallies with deferred updates

Workers count what they record in tallies of their own, and now and then fold these into shared ones: an
atomic addition for each key, then a loop of weak compare-and-exchange for the maximum, then the private
tallies are cleared. Workers interleave between any two of these operations. Whatever the schedule, the shared
tallies and what the workers still owe them add up to what has been recorded. -/

namespace MustDpor
set_option autoImplicit false
open List Function

theorem sum_update_add {n : ℕ} {α M : Type} [AddCommMonoid M] (f : α → M) (c : Fin n → α) (w : Fin n)
    (x : α) : (∑ v, f (update c w x v)) + f (c w) = (∑ v, f (c v)) + f x := by
  have hrest : ∑ v ∈ Finset.univ.erase w, f (update c w x v) =
      ∑ v ∈ Finset.univ.erase w, f (c v) := by
    apply Finset.sum_congr rfl
    intro v hv
    rw [update_of_ne (Finset.ne_of_mem_erase hv)]
  rw [← Finset.add_sum_erase _ (fun v => f (update c w x v)) (Finset.mem_univ w),
    ← Finset.add_sum_erase _ (fun v => f (c v)) (Finset.mem_univ w), hrest, update_self]
  abel

namespace SharedTally

variable {n : ℕ} {K : Type} [DecidableEq K]

/-- How far a worker is with folding in its tallies. -/
inductive Phase (K : Type) where
  | idle
  | adding (keys : List K)
  | loading
  | comparing (observed : ℕ)
  | merged

structure Worker (K : Type) where
  counts : K → ℕ
  deepest : ℕ
  pending : ℕ
  phase : Phase K

namespace Worker

def fresh : Worker K := ⟨fun _ => 0, 0, 0, .idle⟩

def record (worker : Worker K) (key : K) (depth : ℕ) : Worker K :=
  { worker with
    counts := Function.update worker.counts key (worker.counts key + 1)
    deepest := max worker.deepest depth
    pending := worker.pending + 1 }

/-- What the worker has not yet added under a key. -/
def owed (key : K) (worker : Worker K) : ℕ :=
  match worker.phase with
  | .idle => worker.counts key
  | .adding keys => if key ∈ keys then worker.counts key else 0
  | _ => 0

/-- The maximum that the worker has not yet folded in. -/
def owedDepth (worker : Worker K) : ℕ :=
  match worker.phase with
  | .merged => 0
  | _ => worker.deepest

end Worker

structure Tally (n : ℕ) (K : Type) where
  workers : Fin n → Worker K
  counts : K → ℕ
  deepest : ℕ

namespace Tally

def initial : Tally n K := ⟨fun _ => Worker.fresh, fun _ => 0, 0⟩

def setWorker (t : Tally n K) (w : Fin n) (worker : Worker K) : Tally n K :=
  { t with workers := Function.update t.workers w worker }

def setPhase (t : Tally n K) (w : Fin n) (phase : Phase K) : Tally n K :=
  t.setWorker w { t.workers w with phase := phase }

def record (t : Tally n K) (w : Fin n) (key : K) (depth : ℕ) : Tally n K :=
  t.setWorker w ((t.workers w).record key depth)

def clear (t : Tally n K) (w : Fin n) : Tally n K := t.setWorker w Worker.fresh

end Tally

open Tally

/-- One operation of a worker that folds in its tallies. -/
inductive Fold (w : Fin n) : Tally n K → Tally n K → Prop where
  | add (t) (key : K) (keys : List K) : (t.workers w).phase = .adding (key :: keys) →
      Fold w t { t.setPhase w (.adding keys) with
        counts := Function.update t.counts key (t.counts key + (t.workers w).counts key) }
  | added (t) : (t.workers w).phase = .adding [] → 0 < (t.workers w).deepest → Fold w t (t.setPhase w .loading)
  | shallow (t) : (t.workers w).phase = .adding [] → (t.workers w).deepest = 0 → Fold w t (t.setPhase w .merged)
  | load (t) : (t.workers w).phase = .loading → Fold w t (t.setPhase w (.comparing t.deepest))
  | exchange (t) : (t.workers w).phase = .comparing t.deepest → t.deepest < (t.workers w).deepest →
      Fold w t { t.setPhase w .merged with deepest := (t.workers w).deepest }
  /-- the exchange fails, for whatever reason, and reloads -/
  | retry (t) (observed : ℕ) : (t.workers w).phase = .comparing observed → observed < (t.workers w).deepest →
      Fold w t (t.setPhase w (.comparing t.deepest))
  | enough (t) (observed : ℕ) : (t.workers w).phase = .comparing observed → (t.workers w).deepest ≤ observed →
      Fold w t (t.setPhase w .merged)

/-- The shared tallies and what is owed to them are what has been recorded. -/
structure Balanced (t : Tally n K) (records : List (K × ℕ)) : Prop where
  counts : ∀ key, t.counts key + ∑ v, (t.workers v).owed key = records.countP fun r => decide (r.1 = key)
  deepest : ∀ d, (t.deepest ≤ d ∧ ∀ v, (t.workers v).owedDepth ≤ d) ↔ ∀ r ∈ records, r.2 ≤ d
  distinct : ∀ v keys, (t.workers v).phase = .adding keys → keys.Nodup
  observed : ∀ v observed, (t.workers v).phase = .comparing observed → observed ≤ t.deepest

theorem balanced_initial : Balanced (initial : Tally n K) [] where
  counts := by simp [initial, Worker.owed, Worker.fresh]
  deepest := by simp [initial, Worker.owedDepth, Worker.fresh]
  distinct := fun _ _ hphase => by cases hphase
  observed := fun _ _ hphase => by cases hphase

section Balanced
variable {t : Tally n K} {records : List (K × ℕ)} (h : Balanced t records) (w : Fin n)
include h

theorem Balanced.change (worker : Worker K) (counts : K → ℕ) (deepest : ℕ) (added : List (K × ℕ))
    (hcounts : ∀ key, counts key + worker.owed key =
      t.counts key + (t.workers w).owed key + added.countP fun r => decide (r.1 = key))
    (hdeepest : ∀ d, (deepest ≤ d ∧ worker.owedDepth ≤ d) ↔
      (t.deepest ≤ d ∧ (t.workers w).owedDepth ≤ d) ∧ ∀ r ∈ added, r.2 ≤ d)
    (hdistinct : ∀ keys, worker.phase = .adding keys → keys.Nodup)
    (hobserved : ∀ observed, worker.phase = .comparing observed → observed ≤ deepest) (hmono : t.deepest ≤ deepest) :
    Balanced ⟨update t.workers w worker, counts, deepest⟩ (records ++ added) where
  counts := by
    intro key
    have hsum := sum_update_add (Worker.owed key) t.workers w worker
    have hold := h.counts key
    have hnew := hcounts key
    rw [countP_append]
    dsimp only
    omega
  deepest := by
    intro d
    have hold := h.deepest d
    have hnew := hdeepest d
    have hothers : (∀ v, (update t.workers w worker v).owedDepth ≤ d) ↔
        worker.owedDepth ≤ d ∧ ∀ v, v ≠ w → (t.workers v).owedDepth ≤ d := by
      constructor
      · intro hall
        refine ⟨by simpa using hall w, fun v hv => ?_⟩
        rw [← update_of_ne hv worker t.workers]
        exact hall v
      · rintro ⟨hself, hrest⟩ v
        by_cases hv : v = w
        · rw [hv, update_self]
          exact hself
        · rw [update_of_ne hv]
          exact hrest v hv
    have hbefore : (∀ v, (t.workers v).owedDepth ≤ d) ↔
        (t.workers w).owedDepth ≤ d ∧ ∀ v, v ≠ w → (t.workers v).owedDepth ≤ d :=
      ⟨fun hall => ⟨hall w, fun v _ => hall v⟩, fun ⟨hself, hrest⟩ v => by
        by_cases hv : v = w
        · rw [hv]
          exact hself
        · exact hrest v hv⟩
    rw [forall_mem_append, ← hold, hothers, hbefore]
    tauto
  distinct := by
    intro v keys hphase
    dsimp only at hphase
    by_cases hv : v = w
    · rw [hv, update_self] at hphase
      exact hdistinct keys hphase
    · rw [update_of_ne hv] at hphase
      exact h.distinct v keys hphase
  observed := by
    intro v observed hphase
    dsimp only at hphase
    by_cases hv : v = w
    · rw [hv, update_self] at hphase
      exact hobserved observed hphase
    · rw [update_of_ne hv] at hphase
      exact (h.observed v observed hphase).trans hmono

theorem Balanced.record (hidle : (t.workers w).phase = .idle) (key : K) (depth : ℕ) :
    Balanced (t.record w key depth) (records ++ [(key, depth)]) := by
  refine h.change w _ t.counts t.deepest [(key, depth)] (fun other => ?_) (fun d => ?_) (fun keys hphase => ?_)
    (fun observed hphase => ?_) (le_refl _)
  · simp only [Worker.owed, Worker.record, hidle]
    by_cases hkey : key = other
    · subst hkey
      simp
      omega
    · simp [hkey, update_of_ne (Ne.symm hkey)]
  · simp only [Worker.owedDepth, Worker.record, hidle, forall_mem_singleton, max_le_iff]
    tauto
  · rw [Worker.record, hidle] at hphase
    cases hphase
  · rw [Worker.record, hidle] at hphase
    cases hphase

theorem Balanced.setPhase {phase : Phase K}
    (howed : ∀ key, Worker.owed key { t.workers w with phase := phase } = (t.workers w).owed key)
    (hdepth : Worker.owedDepth { t.workers w with phase := phase } = (t.workers w).owedDepth)
    (hdistinct : ∀ keys, phase = .adding keys → keys.Nodup)
    (hobserved : ∀ observed, phase = .comparing observed → observed ≤ t.deepest) :
    Balanced (t.setPhase w phase) records := by
  have hchange := h.change w { t.workers w with phase := phase } t.counts t.deepest [] (fun key => by simp [howed key])
    (fun d => by simp [hdepth]) hdistinct hobserved (le_refl _)
  rw [append_nil] at hchange
  exact hchange

theorem Balanced.begin (hidle : (t.workers w).phase = .idle) {keys : List K} (hall : ∀ key, key ∈ keys)
    (hnodup : keys.Nodup) : Balanced (t.setPhase w (.adding keys)) records := by
  refine h.setPhase w (fun key => ?_) ?_ (fun other hphase => ?_) fun _ hphase => ?_
  · simp only [Worker.owed, hidle, hall key, if_true]
  · simp only [Worker.owedDepth, hidle]
  · cases hphase
    exact hnodup
  · cases hphase

theorem Balanced.clear (hmerged : (t.workers w).phase = .merged) : Balanced (t.clear w) records := by
  have hchange := h.change w Worker.fresh t.counts t.deepest [] (fun key => by simp [Worker.owed, hmerged, Worker.fresh])
    (fun d => by simp [Worker.owedDepth, hmerged, Worker.fresh]) (fun _ hphase => by cases hphase)
    (fun _ hphase => by cases hphase) (le_refl _)
  rw [append_nil] at hchange
  exact hchange

theorem Balanced.merge {deepest : ℕ} (hphase : ∀ key, (t.workers w).owed key = 0)
    (hdepth : (t.workers w).owedDepth = (t.workers w).deepest)
    (hmax : deepest = max t.deepest (t.workers w).deepest) :
    Balanced { t.setPhase w .merged with deepest := deepest } records := by
  have hchange := h.change w { t.workers w with phase := .merged } t.counts deepest []
    (fun key => by rw [hphase key]; rfl)
    (fun d => by
      rw [hdepth, hmax]
      simp [Worker.owedDepth])
    (fun _ hphase => by cases hphase) (fun _ hphase => by cases hphase) (by rw [hmax]; exact Nat.le_max_left _ _)
  rw [append_nil] at hchange
  exact hchange

theorem Balanced.fold {t' : Tally n K} (hfold : Fold w t t') : Balanced t' records := by
  cases hfold with
  | add key keys hphase =>
    obtain ⟨hkey, hrest⟩ := nodup_cons.mp (h.distinct w _ hphase)
    have hchange := h.change w { t.workers w with phase := .adding keys }
      (update t.counts key (t.counts key + (t.workers w).counts key)) t.deepest [] (fun other => ?_)
      (fun d => by simp [Worker.owedDepth, hphase]) (fun other hother => by cases hother; exact hrest)
      (fun _ hother => by cases hother) (le_refl _)
    · rw [append_nil] at hchange
      exact hchange
    · simp only [Worker.owed, hphase, mem_cons, countP_nil, Nat.add_zero]
      by_cases hother : other = key
      · subst hother
        simp [hkey]
      · simp [hother]
  | added hphase hdeep =>
    refine h.setPhase w (fun key => ?_) ?_ (fun _ hother => by cases hother) fun _ hother => by cases hother
    · simp [Worker.owed, hphase]
    · simp [Worker.owedDepth, hphase]
  | shallow hphase hzero =>
    refine h.merge w (fun key => ?_) ?_ ?_
    · simp [Worker.owed, hphase]
    · simp [Worker.owedDepth, hphase]
    · rw [hzero, Nat.max_zero]
  | load hphase | retry _ hphase =>
    refine h.setPhase w (fun key => ?_) ?_ (fun _ hother => by cases hother) fun _ hother => ?_
    · simp [Worker.owed, hphase]
    · simp [Worker.owedDepth, hphase]
    · cases hother
      exact le_refl _
  | exchange hphase hlt =>
    refine h.merge w (fun key => ?_) ?_ ?_
    · simp [Worker.owed, hphase]
    · simp [Worker.owedDepth, hphase]
    · exact (Nat.max_eq_right (le_of_lt hlt)).symm
  | enough observed hphase hle =>
    refine h.merge w (fun key => ?_) ?_ ?_
    · simp [Worker.owed, hphase]
    · simp [Worker.owedDepth, hphase]
    · exact (Nat.max_eq_left (hle.trans (h.observed w observed hphase))).symm

omit w in
theorem Balanced.settled (hfresh : ∀ v, t.workers v = Worker.fresh) :
    (∀ key, t.counts key = records.countP fun r => decide (r.1 = key)) ∧
      ∀ d, t.deepest ≤ d ↔ ∀ r ∈ records, r.2 ≤ d := by
  refine ⟨fun key => ?_, fun d => ?_⟩
  · rw [← h.counts key]
    simp [hfresh, Worker.owed, Worker.fresh]
  · rw [← h.deepest d]
    simp [hfresh, Worker.owedDepth, Worker.fresh]

end Balanced

end SharedTally
end MustDpor

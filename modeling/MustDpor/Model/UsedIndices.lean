import MustDpor.Model.ExecutionGraph
import Mathlib.Data.List.Perm.Basic

/-! # Used event indices as a set

`UsedEventIndexSet` keeps a dense prefix as one counter and spills the rest into a vector without order.
Inserting the index at the end of the prefix absorbs the spilled indices that follow it; erasing inside the
prefix demotes all that was above the hole. The largest index stays outside the prefix: the counter could not
count past it. -/

namespace MustDpor
set_option autoImplicit false
open List

namespace UsedEventIndexSet

theorem contains_iff (s : UsedEventIndexSet) (j : ℕ) : s.contains j = true ↔ j < s.denseEnd ∨ j ∈ s.sparse := by
  unfold contains
  rw [Bool.or_eq_true, decide_eq_true_eq, contains_iff_mem]

variable {sparse : List ℕ} {index : ℕ}

theorem swapRemove_perm (h : index ∈ sparse) : (index :: swapRemove sparse index).Perm sparse := by
  have hlt := idxOf_lt_length_of_mem h
  have hget : sparse[sparse.idxOf index]? = some index := by
    rw [getElem?_eq_getElem hlt, getElem_idxOf hlt]
  unfold swapRemove
  generalize sparse.idxOf index = i at hlt hget ⊢
  rcases eq_nil_or_concat sparse with rfl | ⟨init, last, rfl⟩
  · cases h
  · rw [concat_eq_append] at hlt hget ⊢
    rw [getLast?_append, getLast?_singleton, Option.some_or, Option.getD_some]
    by_cases hinit : i < init.length
    -- the last entry takes the place of the index
    · rw [getElem?_append_left hinit, getElem?_eq_getElem hinit] at hget
      rw [set_append_left _ _ hinit, dropLast_concat]
      have hset := (set_perm_cons_eraseIdx hinit last).cons index
      have herase := getElem_cons_eraseIdx_perm hinit
      rw [Option.some.inj hget] at herase
      exact hset.trans ((List.Perm.swap last index _).trans
        ((herase.cons last).trans (perm_append_singleton last init).symm))
    -- the index is the last entry
    · rw [length_append, length_singleton] at hlt
      obtain rfl : i = init.length := by omega
      rw [getElem?_concat_length] at hget
      cases hget
      rw [set_append_right _ _ (le_refl _), Nat.sub_self, set_cons_zero, dropLast_concat]
      exact (perm_append_singleton index init).symm

theorem mem_swapRemove {index : ℕ} (j : ℕ) (h : index ∈ sparse) :
    j ∈ swapRemove sparse index ∨ j = index ↔ j ∈ sparse := by
  rw [← (swapRemove_perm h).mem_iff, mem_cons, or_comm]

theorem nodup_swapRemove (h : index ∈ sparse) (hnodup : sparse.Nodup) :
    (swapRemove sparse index).Nodup ∧ index ∉ swapRemove sparse index := by
  rw [← (swapRemove_perm h).nodup_iff, nodup_cons] at hnodup
  exact ⟨hnodup.2, hnodup.1⟩

/-! ## The absorb loop -/

/-- A round of the loop of `absorb_sparse` that absorbs an index. -/
def AbsorbRound (s t : UsedEventIndexSet) : Prop :=
  s.denseEnd ∈ s.sparse ∧ s.denseEnd ≠ maxEventIndex ∧ t = ⟨s.denseEnd + 1, swapRemove s.sparse s.denseEnd⟩

variable {t : UsedEventIndexSet}

theorem AbsorbRound.length {s : UsedEventIndexSet} (h : AbsorbRound s t) : s.sparse.length = t.sparse.length + 1 := by
  obtain ⟨hmem, -, rfl⟩ := h
  exact (swapRemove_perm hmem).length_eq.symm

theorem absorbSparse_ends (fuel : ℕ) (s : UsedEventIndexSet) (hfuel : s.sparse.length ≤ fuel) :
    Relation.ReflTransGen AbsorbRound s (absorbSparse fuel s) ∧ ∀ t, ¬ AbsorbRound (absorbSparse fuel s) t := by
  induction fuel generalizing s with
  | zero =>
    refine ⟨.refl, fun t h => ?_⟩
    have hround : s.sparse.length = t.sparse.length + 1 := h.length
    omega
  | succ fuel ih =>
    unfold absorbSparse
    split
    · rename_i habsorb
      have hround : AbsorbRound s ⟨s.denseEnd + 1, swapRemove s.sparse s.denseEnd⟩ := ⟨habsorb.1, habsorb.2, rfl⟩
      have hlength := hround.length
      obtain ⟨hrounds, hend⟩ := ih ⟨s.denseEnd + 1, swapRemove s.sparse s.denseEnd⟩ (by omega)
      exact ⟨.head hround hrounds, hend⟩
    · rename_i hend
      exact ⟨.refl, fun t h => hend ⟨h.1, h.2.1⟩⟩

theorem contains_absorbed {s : UsedEventIndexSet} (h : Relation.ReflTransGen AbsorbRound s t) (j : ℕ) :
    t.contains j = true ↔ s.contains j = true := by
  induction h with
  | refl => exact Iff.rfl
  | tail _ hround ih =>
    obtain ⟨hmem, -, rfl⟩ := hround
    rw [← ih, contains_iff, contains_iff, ← mem_swapRemove j hmem, Nat.lt_succ_iff_lt_or_eq, or_assoc,
      or_comm (a := j = _)]

/-! ## The calls -/

theorem contains_insert (s : UsedEventIndexSet) (index j : ℕ) :
    (s.insert index).contains j = true ↔ j = index ∨ s.contains j = true := by
  unfold insert
  split
  · rename_i hdense
    have hrounds := (absorbSparse_ends s.sparse.length ⟨s.denseEnd + 1, s.sparse⟩ (le_refl _)).1
    rw [contains_absorbed hrounds, contains_iff, contains_iff, Nat.lt_succ_iff_lt_or_eq, hdense.1, or_assoc,
      or_left_comm]
  · rw [contains_iff, contains_iff, mem_append, mem_singleton, ← or_assoc, or_comm]

theorem erase_count (s : UsedEventIndexSet) (index : ℕ) : (s.erase index).1 = if s.contains index then 1 else 0 := by
  have hiff := contains_iff s index
  unfold UsedEventIndexSet.erase
  split
  · rename_i hmem
    rw [if_pos (hiff.mpr (.inr hmem))]
  · rename_i hsparse
    split
    · rename_i hdense
      rw [if_neg fun hcontains => (hiff.mp hcontains).elim (by omega) hsparse]
    · rename_i hdense
      rw [if_pos (hiff.mpr (.inl (by omega)))]

/-- The sparse part has no duplicates and lies above the prefix; it holds the end of the prefix only where
that is the largest index. -/
structure Rep (s : UsedEventIndexSet) : Prop where
  dense : s.denseEnd ≤ maxEventIndex
  nodup : s.sparse.Nodup
  above : ∀ i ∈ s.sparse, s.denseEnd ≤ i ∧ i ≤ maxEventIndex
  gap : s.denseEnd ∈ s.sparse → s.denseEnd = maxEventIndex

theorem rep_empty : Rep empty :=
  ⟨Nat.zero_le _, nodup_nil, fun _ hi => absurd hi not_mem_nil, fun h => absurd h not_mem_nil⟩

theorem absorbed_above {s : UsedEventIndexSet} (h : Relation.ReflTransGen AbsorbRound s t)
    (hdense : s.denseEnd ≤ maxEventIndex) (hnodup : s.sparse.Nodup)
    (habove : ∀ i ∈ s.sparse, s.denseEnd ≤ i ∧ i ≤ maxEventIndex) :
    t.denseEnd ≤ maxEventIndex ∧ t.sparse.Nodup ∧ ∀ i ∈ t.sparse, t.denseEnd ≤ i ∧ i ≤ maxEventIndex := by
  induction h with
  | refl => exact ⟨hdense, hnodup, habove⟩
  | @tail u t _ hround ih =>
    obtain ⟨hmem, hmax, rfl⟩ := hround
    obtain ⟨hdense, hnodup, habove⟩ := ih
    obtain ⟨hrest, hgone⟩ := nodup_swapRemove hmem hnodup
    refine ⟨by dsimp only; omega, hrest, fun i hi => ?_⟩
    have hi' := habove i ((mem_swapRemove i hmem).mp (.inl hi))
    have hne : i ≠ u.denseEnd := fun heq => hgone (heq ▸ hi)
    exact ⟨by dsimp only; omega, hi'.2⟩

section Calls
variable (s : UsedEventIndexSet) (h : s.Rep)
include h

theorem Rep.insert (hindex : index ≤ maxEventIndex) (hfree : s.contains index = false) : (s.insert index).Rep := by
  rw [← Bool.not_eq_true, contains_iff] at hfree
  unfold UsedEventIndexSet.insert
  split
  · rename_i hdense
    have habove : ∀ i ∈ s.sparse, s.denseEnd + 1 ≤ i ∧ i ≤ maxEventIndex := by
      intro i hi
      have hi' := h.above i hi
      have hne : i ≠ index := fun heq => hfree (.inr (heq ▸ hi))
      omega
    obtain ⟨hrounds, hend⟩ := absorbSparse_ends s.sparse.length ⟨s.denseEnd + 1, s.sparse⟩ (le_refl _)
    obtain ⟨hdense', hnodup, habove'⟩ := absorbed_above hrounds (by dsimp only; omega) h.nodup habove
    refine ⟨hdense', hnodup, habove', fun hmem => ?_⟩
    by_contra hmax
    exact hend _ ⟨hmem, hmax, rfl⟩
  · rename_i hspill
    have hlow := Nat.le_of_not_lt fun hlt => hfree (.inl hlt)
    refine ⟨h.dense, ?_, fun i hi => ?_, fun hmem => ?_⟩
    · refine nodup_append.mpr ⟨h.nodup, nodup_singleton _, fun i hi j hj heq => ?_⟩
      exact hfree (.inr (mem_singleton.mp hj ▸ heq ▸ hi))
    · rcases mem_append.mp hi with hi | hi
      · exact h.above i hi
      · rw [mem_singleton.mp hi]
        exact ⟨hlow, hindex⟩
    · rcases mem_append.mp hmem with hmem | hmem
      · exact h.gap hmem
      · by_contra hmax
        have heq : s.denseEnd = index := mem_singleton.mp hmem
        exact hspill ⟨heq.symm, heq ▸ hmax⟩

theorem Rep.erase (index : ℕ) : (s.erase index).2.Rep := by
  unfold UsedEventIndexSet.erase
  split
  · rename_i hmem
    have hless : ∀ i ∈ swapRemove s.sparse index, i ∈ s.sparse :=
      fun i hi => (mem_swapRemove i hmem).mp (.inl hi)
    exact ⟨h.dense, (nodup_swapRemove hmem h.nodup).1, fun i hi => h.above i (hless i hi),
      fun hgap => h.gap (hless _ hgap)⟩
  · split
    · exact h
    · rename_i hsparse hdense
      have hmem : ∀ i, i ∈ s.sparse ++ range' (index + 1) (s.denseEnd - (index + 1)) →
          index < i ∧ i ≤ maxEventIndex := by
        intro i hi
        have hbound := h.dense
        rcases mem_append.mp hi with hi | hi
        · have hi' := h.above i hi
          omega
        · rw [mem_range'_1] at hi
          omega
      refine ⟨by have := h.dense; dsimp only; omega, ?_, fun i hi => ⟨(hmem i hi).1.le, (hmem i hi).2⟩,
        fun hgap => absurd (hmem index hgap).1 (lt_irrefl _)⟩
      refine nodup_append.mpr ⟨h.nodup, nodup_range', fun i hi j hj heq => ?_⟩
      have hi' := (h.above i hi).1
      rw [mem_range'_1] at hj
      omega

theorem Rep.contains_erase (index j : ℕ) :
    (s.erase index).2.contains j = true ↔ s.contains j = true ∧ j ≠ index := by
  unfold UsedEventIndexSet.erase
  split
  · rename_i hmem
    have hgone := (nodup_swapRemove hmem h.nodup).2
    have hindex := (h.above index hmem).1
    rw [contains_iff, contains_iff, ← mem_swapRemove j hmem]
    constructor
    · rintro (hj | hj)
      · exact ⟨.inl hj, by dsimp only at hj; omega⟩
      · exact ⟨.inr (.inl hj), fun heq => hgone (heq ▸ hj)⟩
    · rintro ⟨hj | hj | hj, hne⟩
      · exact .inl hj
      · exact .inr hj
      · exact absurd hj hne
  · rename_i hsparse
    split
    · rename_i hdense
      refine ⟨fun hj => ⟨hj, fun heq => ?_⟩, fun hj => hj.1⟩
      rcases (contains_iff s j).mp hj with hj | hj
      · omega
      · exact hsparse (heq ▸ hj)
    · rename_i hdense
      rw [contains_iff, contains_iff, mem_append, mem_range'_1]
      have hne : j ∈ s.sparse → j ≠ index := fun hj heq => hsparse (heq ▸ hj)
      constructor
      · rintro (hj | hj | hj)
        · dsimp only at hj
          exact ⟨.inl (by omega), by omega⟩
        · exact ⟨.inr hj, hne hj⟩
        · exact ⟨.inl (by omega), by omega⟩
      · rintro ⟨hj | hj, hindex⟩
        · dsimp only
          by_cases hlow : j < index
          · exact .inl hlow
          · exact .inr (.inr (by omega))
        · exact .inr (.inl hj)

end Calls

/-! ## Histories -/

inductive IndexCall where
  | insert (index : Fin (maxEventIndex + 1))
  | erase (index : Fin (maxEventIndex + 1))
  deriving DecidableEq

/-- The states that calls lead to, oldest call first; `insert` is called with an index that is free. -/
inductive After : List IndexCall → UsedEventIndexSet → Prop
  | start : After [] empty
  | insert (calls : List IndexCall) (s : UsedEventIndexSet) (index : Fin (maxEventIndex + 1)) (h : After calls s)
      (hfree : s.contains index = false) : After (calls ++ [.insert index]) (s.insert index)
  | erase (calls : List IndexCall) (s : UsedEventIndexSet) (index : Fin (maxEventIndex + 1)) (h : After calls s) :
      After (calls ++ [.erase index]) (s.erase index).2

/-- The index was inserted and not erased since. -/
def InsertedNotErased (calls : List IndexCall) (index : Fin (maxEventIndex + 1)) : Prop :=
  ∃ earlier later, calls = earlier ++ .insert index :: later ∧ IndexCall.erase index ∉ later

variable (calls : List IndexCall)

theorem insertedNotErased_insert (index j : Fin (maxEventIndex + 1)) :
    InsertedNotErased (calls ++ [.insert index]) j ↔ j = index ∨ InsertedNotErased calls j := by
  constructor
  · rintro ⟨earlier, later, hcalls, hlater⟩
    rcases eq_nil_or_concat later with rfl | ⟨later, last, rfl⟩
    · have hlast := (append_inj' hcalls rfl).2
      cases hlast
      exact .inl rfl
    · rw [concat_eq_append] at hcalls hlater
      rw [← cons_append, ← append_assoc] at hcalls
      have hfirst := (append_inj' hcalls rfl).1
      exact .inr ⟨earlier, later, hfirst, fun hmem => hlater (mem_append_left _ hmem)⟩
  · rintro (rfl | ⟨earlier, later, rfl, hlater⟩)
    · exact ⟨calls, [], rfl, not_mem_nil⟩
    · refine ⟨earlier, later ++ [.insert index], by simp, fun hmem => ?_⟩
      rcases mem_append.mp hmem with hmem | hmem
      · exact hlater hmem
      · cases mem_singleton.mp hmem

theorem insertedNotErased_erase (index j : Fin (maxEventIndex + 1)) :
    InsertedNotErased (calls ++ [.erase index]) j ↔ InsertedNotErased calls j ∧ j ≠ index := by
  constructor
  · rintro ⟨earlier, later, hcalls, hlater⟩
    rcases eq_nil_or_concat later with rfl | ⟨later, last, rfl⟩
    · cases (append_inj' hcalls rfl).2
    · rw [concat_eq_append] at hcalls hlater
      rw [← cons_append, ← append_assoc] at hcalls
      obtain ⟨hfirst, hlast⟩ := append_inj' hcalls rfl
      cases hlast
      refine ⟨⟨earlier, later, hfirst, fun hmem => hlater (mem_append_left _ hmem)⟩, fun heq => ?_⟩
      exact hlater (mem_append_right _ (heq ▸ mem_singleton_self _))
  · rintro ⟨⟨earlier, later, rfl, hlater⟩, hne⟩
    refine ⟨earlier, later ++ [.erase index], by simp, fun hmem => ?_⟩
    rcases mem_append.mp hmem with hmem | hmem
    · exact hlater hmem
    · cases mem_singleton.mp hmem
      exact hne rfl

theorem After.rep (s : UsedEventIndexSet) (h : After calls s) : s.Rep := by
  induction h with
  | start => exact rep_empty
  | insert calls s index _ hfree ih => exact ih.insert s (Nat.le_of_lt_succ index.isLt) hfree
  | erase calls s index _ ih => exact ih.erase s index

theorem After.contains_iff (s : UsedEventIndexSet) (h : After calls s)
    (j : Fin (maxEventIndex + 1)) : s.contains j = true ↔ InsertedNotErased calls j := by
  induction h with
  | start =>
    refine iff_of_false Bool.false_ne_true ?_
    rintro ⟨earlier, later, hcalls, -⟩
    cases earlier <;> cases hcalls
  | insert calls s index _ _ ih => rw [contains_insert, insertedNotErased_insert, ih, Fin.ext_iff]
  | erase calls s index hafter ih =>
    rw [hafter.rep.contains_erase, insertedNotErased_erase, ih, Ne, Ne, Fin.ext_iff]

end UsedEventIndexSet

open UsedEventIndexSet in
/-- After any calls, `contains` answers for the finite set they describe, `erase` says whether it removes
something, the loop behind an insertion ends, and the representation is sound. -/
theorem used_indices_are_a_set (calls : List IndexCall) (s : UsedEventIndexSet) (h : After calls s) :
    (∀ index : Fin (maxEventIndex + 1), s.contains index = true ↔ InsertedNotErased calls index) ∧
    (∀ index : Fin (maxEventIndex + 1), (s.erase index).1 = if s.contains index then 1 else 0) ∧
    (∃ t, Relation.ReflTransGen AbsorbRound ⟨s.denseEnd + 1, s.sparse⟩ t ∧ (∀ u, ¬ AbsorbRound t u) ∧
      (s.denseEnd ≠ maxEventIndex → s.insert s.denseEnd = t)) ∧ s.Rep := by
  refine ⟨h.contains_iff, fun index => erase_count s index, ?_, h.rep⟩
  obtain ⟨hrounds, hend⟩ := absorbSparse_ends s.sparse.length ⟨s.denseEnd + 1, s.sparse⟩ (Nat.le_refl _)
  exact ⟨_, hrounds, hend, fun hmax => if_pos ⟨rfl, hmax⟩⟩

open UsedEventIndexSet in
/-- An absorbed index, the largest one, and a hole at the start of the prefix. -/
theorem used_indices_after_hole : ∃ s, After [.insert 1, .insert 0, .insert (Fin.last _), .erase 0] s ∧
    s = ⟨0, [maxEventIndex, 1]⟩ ∧ s.contains 1 = true ∧ s.contains maxEventIndex = true ∧ (s.erase 0).1 = 0 := by
  have hafter : After [.insert 1, .insert 0, .insert (Fin.last _), .erase 0] ⟨0, [maxEventIndex, 1]⟩ :=
    .erase [.insert 1, .insert 0, .insert (Fin.last _)] ⟨2, [maxEventIndex]⟩ 0
      (.insert [.insert 1, .insert 0] ⟨2, []⟩ (Fin.last _)
        (.insert [.insert 1] ⟨0, [1]⟩ 0 (.insert [] empty 1 .start rfl) rfl) rfl)
  obtain ⟨hcontains, herase, -, -⟩ := used_indices_are_a_set _ _ hafter
  refine ⟨_, hafter, rfl, (hcontains 1).mpr ⟨[], [.insert 0, .insert (Fin.last _), .erase 0], rfl, ?_⟩,
    (hcontains (Fin.last _)).mpr ⟨[.insert 1, .insert 0], [.erase 0], rfl, ?_⟩, (herase 0).trans rfl⟩
  · decide
  · decide

end MustDpor

import Mathlib.Data.List.Induction
import Mathlib.Data.List.Count
import Mathlib.Tactic.Common

/-! # Positions of the elements that satisfy a predicate

A table that lists, in ascending order, where a sequence has elements of one kind: what it is, and how
it changes when the sequence grows at its end. -/

namespace MustDpor
set_option autoImplicit false
open List

variable {α : Type}

def positions (l : List α) (p : α → Bool) : List ℕ :=
  (List.range l.length).filter (fun i => l[i]?.any p)
theorem lt_of_getElem? {l : List α} {i : ℕ} {a : α} (h : l[i]? = some a) : i < l.length :=
  (List.getElem?_eq_some_iff.mp h).1

theorem mem_positions (l : List α) (p : α → Bool) (i : ℕ) :
    i ∈ positions l p ↔ ∃ a, l[i]? = some a ∧ p a = true := by
  unfold positions
  rw [mem_filter, mem_range]
  constructor
  · rintro ⟨hi, hp⟩
    rw [getElem?_eq_getElem hi] at hp ⊢
    exact ⟨l[i], rfl, hp⟩
  · rintro ⟨a, ha, hp⟩
    refine ⟨lt_of_getElem? ha, ?_⟩
    rw [ha]
    exact hp

theorem lt_of_mem_positions {l : List α} {p : α → Bool} {i : ℕ} (h : i ∈ positions l p) :
    i < l.length :=
  mem_range.mp (mem_filter.mp h).1

theorem positions_ascending (l : List α) (p : α → Bool) : (positions l p).Pairwise (· < ·) :=
  List.Pairwise.filter _ pairwise_lt_range

theorem positions_nodup (l : List α) (p : α → Bool) : (positions l p).Nodup :=
  (positions_ascending l p).imp fun h => Nat.ne_of_lt h

theorem positions_concat (l : List α) (a : α) (p : α → Bool) :
    positions (l ++ [a]) p = positions l p ++ if p a then [l.length] else [] := by
  unfold positions
  rw [length_append, length_singleton, range_succ, filter_append]
  congr 1
  · refine filter_congr fun i hi => ?_
    rw [getElem?_append_left (mem_range.mp hi)]
  · by_cases hp : p a = true
    · rw [if_pos hp, filter_cons_of_pos (by rw [getElem?_concat_length]; exact hp),
        filter_nil]
    · rw [if_neg hp, filter_cons_of_neg (by rw [getElem?_concat_length]; exact hp),
        filter_nil]

theorem length_positions (l : List α) (p : α → Bool) : (positions l p).length = l.countP p := by
  induction l using reverseRecOn with
  | nil => rfl
  | append_singleton l a ih =>
    rw [positions_concat, length_append, ih, countP_append]
    by_cases hp : p a = true
    · simp [hp]
    · simp [hp]

theorem positions_congr {l l' : List α} {p q : α → Bool}
    (h : ∀ i : ℕ, (l[i]?.any p) = (l'[i]?.any q)) (hlen : l.length = l'.length) :
    positions l p = positions l' q := by
  unfold positions
  rw [hlen]
  exact filter_congr fun i _ => h i

theorem positions_set {l : List α} {p : α → Bool} {id : ℕ} {a b : α} (ha : l[id]? = some a)
    (hp : p a = p b) : positions (l.set id b) p = positions l p := by
  refine positions_congr (fun i => ?_) (length_set ..)
  by_cases hi : id = i
  · subst hi
    rw [getElem?_set_self (lt_of_getElem? ha), ha]
    exact hp.symm
  · rw [getElem?_set_ne hi]

theorem countP_set {l : List α} {p : α → Bool} {id : ℕ} {a b : α} (ha : l[id]? = some a)
    (hp : p a = p b) : (l.set id b).countP p = l.countP p := by
  rw [← length_positions, ← length_positions, positions_set ha hp]

theorem mem_drop_idxOf_succ {l : List ℕ} (h : l.Pairwise (· < ·)) (a b : ℕ) (ha : a ∈ l) :
    b ∈ l.drop (l.idxOf a + 1) ↔ b ∈ l ∧ a < b := by
  induction l with
  | nil => cases ha
  | cons x rest ih =>
    have hx : ∀ y ∈ rest, x < y := fun y => rel_of_pairwise_cons h
    rw [drop_succ_cons]
    by_cases hxa : x = a
    · subst hxa
      rw [idxOf_cons_self, drop_zero, mem_cons]
      constructor
      · exact fun hb => ⟨.inr hb, hx b hb⟩
      · rintro ⟨rfl | hb, hlt⟩
        · exact absurd hlt (Nat.lt_irrefl _)
        · exact hb
    · have hmem : a ∈ rest := (mem_cons.mp ha).resolve_left fun heq => hxa heq.symm
      rw [idxOf_cons, cond_eq_ite, if_neg (by simpa using hxa), ih h.of_cons hmem, mem_cons]
      constructor
      · exact fun ⟨hb, hlt⟩ => ⟨.inr hb, hlt⟩
      · rintro ⟨rfl | hb, hlt⟩
        · exact absurd (hx a hmem) (Nat.lt_asymm hlt)
        · exact ⟨hb, hlt⟩

end MustDpor

import Mathlib.Data.List.Sort
import Mathlib.Tactic.Common

/-! # Finite maps on the naturals, iterated in ascending key order

A vector of optional slots, read through its lookups and its in-order iteration, is a finite
map whose iteration is ascending. `AscendingMap` is the canonical such map: an association list
with strictly increasing keys, so that two maps with the same lookups are equal
(`AscendingMap.ext_find`). That is what makes an undo an equality and not only an equivalence.
-/

namespace MustDpor
set_option autoImplicit false
open List

structure AscendingMap (α : Type) where
  entries : List (ℕ × α)
  ascending : entries.Pairwise (fun a b => a.1 < b.1)

namespace AscendingMap
variable {α : Type}

def empty : AscendingMap α := ⟨[], List.Pairwise.nil⟩

def findEntry (k : ℕ) : List (ℕ × α) → Option α
  | [] => none
  | (i, a) :: rest => if i = k then some a else findEntry k rest

def find (m : AscendingMap α) (k : ℕ) : Option α := findEntry k m.entries

def setEntry (k : ℕ) (a : α) : List (ℕ × α) → List (ℕ × α)
  | [] => [(k, a)]
  | (i, b) :: rest =>
    if k < i then (k, a) :: (i, b) :: rest
    else if k = i then (k, a) :: rest
    else (i, b) :: setEntry k a rest

theorem mem_setEntry {k : ℕ} {a : α} {l : List (ℕ × α)} {x : ℕ × α} (h : x ∈ setEntry k a l) :
    x = (k, a) ∨ x ∈ l := by
  induction l with
  | nil => simpa [setEntry] using h
  | cons y l ih =>
    obtain ⟨i, b⟩ := y
    unfold setEntry at h
    split at h
    · simpa using h
    · split at h
      · rcases mem_cons.mp h with h | h
        · exact .inl h
        · exact .inr (mem_cons_of_mem _ h)
      · rcases mem_cons.mp h with h | h
        · exact .inr (h ▸ mem_cons_self)
        · rcases ih h with h | h
          · exact .inl h
          · exact .inr (mem_cons_of_mem _ h)

variable (k : ℕ)

theorem setEntry_ascending (a : α) (l : List (ℕ × α)) (h : l.Pairwise (fun a b => a.1 < b.1)) :
    (setEntry k a l).Pairwise (fun a b => a.1 < b.1) := by
  induction l with
  | nil => simp [setEntry]
  | cons y l ih =>
    obtain ⟨i, b⟩ := y
    obtain ⟨hhead, htail⟩ := pairwise_cons.mp h
    unfold setEntry
    split
    · rename_i hk
      refine pairwise_cons.mpr ⟨?_, h⟩
      intro x hx
      rcases mem_cons.mp hx with rfl | hx
      · exact hk
      · exact hk.trans (hhead x hx)
    · split
      · rename_i hk
        exact pairwise_cons.mpr ⟨fun x hx => hk ▸ hhead x hx, htail⟩
      · rename_i h1 h2
        refine pairwise_cons.mpr ⟨?_, ih htail⟩
        intro x hx
        rcases mem_setEntry hx with rfl | hx
        · show i < k
          omega
        · exact hhead x hx

def set (m : AscendingMap α) (k : ℕ) (a : α) : AscendingMap α :=
  ⟨setEntry k a m.entries, setEntry_ascending k a m.entries m.ascending⟩

def clear (m : AscendingMap α) (k : ℕ) : AscendingMap α :=
  ⟨m.entries.filter (fun e => decide (e.1 ≠ k)), m.ascending.filter _⟩

/-! ## Lookups -/

theorem findEntry_none_of_lt {l : List (ℕ × α)} (h : ∀ x ∈ l, k < x.1) : findEntry k l = none := by
  induction l with
  | nil => rfl
  | cons y l ih =>
    have hy := h y mem_cons_self
    rw [findEntry, if_neg (by omega)]
    exact ih (fun x hx => h x (mem_cons_of_mem _ hx))

theorem findEntry_setEntry (k j : ℕ) (a : α) {l : List (ℕ × α)} (h : l.Pairwise (fun a b => a.1 < b.1)) :
    findEntry j (setEntry k a l) = if j = k then some a else findEntry j l := by
  induction l with
  | nil =>
    by_cases hjk : j = k
    · simp [setEntry, findEntry, hjk]
    · simp [setEntry, findEntry, hjk, Ne.symm hjk]
  | cons y l ih =>
    obtain ⟨i, b⟩ := y
    have htail := (pairwise_cons.mp h).2
    unfold setEntry
    split
    · by_cases hjk : j = k
      · simp [findEntry, hjk]
      · simp [findEntry, hjk, Ne.symm hjk]
    · split
      · rename_i h1 hk
        subst hk
        by_cases hjk : j = k
        · simp [findEntry, hjk]
        · simp [findEntry, hjk, Ne.symm hjk]
      · rename_i h1 h2
        by_cases hij : i = j
        · have hjk : j ≠ k := fun hjk => h2 (hjk ▸ hij.symm)
          simp [findEntry, hij, hjk]
        · rw [findEntry, if_neg hij, ih htail, findEntry, if_neg hij]

@[simp] theorem find_set (m : AscendingMap α) (k j : ℕ) (a : α) :
    (m.set k a).find j = if j = k then some a else m.find j :=
  findEntry_setEntry k j a m.ascending

theorem findEntry_filter_ne (k j : ℕ) (l : List (ℕ × α)) :
    findEntry j (l.filter (fun e => decide (e.1 ≠ k))) = if j = k then none else findEntry j l := by
  induction l with
  | nil => simp [findEntry]
  | cons y l ih =>
    obtain ⟨i, b⟩ := y
    by_cases hik : i = k
    · rw [filter_cons_of_neg (by simp [hik]), ih]
      by_cases hjk : j = k
      · simp [hjk]
      · rw [if_neg hjk, if_neg hjk, findEntry, if_neg (by omega)]
    · rw [filter_cons_of_pos (by simp [hik]), findEntry, ih]
      by_cases hij : i = j
      · rw [if_pos hij, if_neg (by omega), findEntry, if_pos hij]
      · rw [if_neg hij, findEntry, if_neg hij]

@[simp] theorem find_clear (m : AscendingMap α) (k j : ℕ) :
    (m.clear k).find j = if j = k then none else m.find j :=
  findEntry_filter_ne k j m.entries
theorem findEntry_eq_some (a : α) {l : List (ℕ × α)}
    (h : l.Pairwise (fun a b => a.1 < b.1)) : findEntry k l = some a ↔ (k, a) ∈ l := by
  induction l with
  | nil => simp [findEntry]
  | cons y l ih =>
    obtain ⟨i, b⟩ := y
    obtain ⟨hhead, htail⟩ := pairwise_cons.mp h
    by_cases hik : i = k
    · subst hik
      rw [findEntry, if_pos rfl]
      constructor
      · intro hb
        obtain rfl := Option.some.inj hb
        exact mem_cons_self
      · intro hmem
        rcases mem_cons.mp hmem with hmem | hmem
        · rw [(Prod.mk.inj hmem).2]
        · exact absurd (hhead _ hmem) (lt_irrefl _)
    · rw [findEntry, if_neg hik, ih htail]
      constructor
      · exact mem_cons_of_mem _
      · intro hmem
        rcases mem_cons.mp hmem with hmem | hmem
        · exact absurd (Prod.mk.inj hmem).1.symm hik
        · exact hmem

theorem mem_entries {m : AscendingMap α} {k : ℕ} {a : α} : (k, a) ∈ m.entries ↔ m.find k = some a :=
  (findEntry_eq_some k a m.ascending).symm

/-! ## Canonicity -/

theorem entries_eq_of_find {l₁ l₂ : List (ℕ × α)} (h₁ : l₁.Pairwise (fun a b => a.1 < b.1))
    (h₂ : l₂.Pairwise (fun a b => a.1 < b.1)) (h : ∀ k, findEntry k l₁ = findEntry k l₂) :
    l₁ = l₂ := by
  have hsub : ∀ x : ℕ × α, x ∈ l₁ ↔ x ∈ l₂ := by
    rintro ⟨k, a⟩
    rw [← findEntry_eq_some k a h₁, ← findEntry_eq_some k a h₂, h k]
  have hnd : ∀ l : List (ℕ × α), l.Pairwise (fun a b => a.1 < b.1) → l.Nodup := by
    intro l hl
    exact hl.imp (fun hab heq => absurd hab (by rw [heq]; exact lt_irrefl _))
  have hperm : l₁.Perm l₂ := (perm_ext_iff_of_nodup (hnd l₁ h₁) (hnd l₂ h₂)).mpr hsub
  exact hperm.eq_of_pairwise (fun a b _ _ hab hba => absurd (hab.trans hba) (lt_irrefl _)) h₁ h₂

theorem ext_find {m₁ m₂ : AscendingMap α} (h : ∀ k, m₁.find k = m₂.find k) : m₁ = m₂ := by
  have he := entries_eq_of_find m₁.ascending m₂.ascending h
  cases m₁
  cases m₂
  cases he
  rfl

/-! ## Counting entries

How many entries satisfy a predicate, before and after one key is assigned or cleared. -/

def weight (p : ℕ × α → Bool) (k : ℕ) (a : Option α) : ℕ :=
  if a.any (fun b => p (k, b)) then 1 else 0

theorem countP_setEntry (p : ℕ × α → Bool) (k : ℕ) (a : α) {l : List (ℕ × α)}
    (h : l.Pairwise (fun a b => a.1 < b.1)) :
    (setEntry k a l).countP p + weight p k (findEntry k l) = l.countP p + weight p k (some a) := by
  induction l with
  | nil => simp [setEntry, findEntry, weight, countP_cons]
  | cons y l ih =>
    obtain ⟨i, b⟩ := y
    obtain ⟨hhead, htail⟩ := pairwise_cons.mp h
    unfold setEntry
    split
    · rename_i hk
      have hnone : findEntry k ((i, b) :: l) = none := by
        refine findEntry_none_of_lt k fun x hx => ?_
        rcases mem_cons.mp hx with rfl | hx
        · exact hk
        · exact hk.trans (hhead x hx)
      rw [hnone]
      simp [weight, countP_cons]
    · split
      · rename_i hk
        subst hk
        simp only [findEntry, if_pos, weight, Option.any_some, countP_cons]
        omega
      · rename_i h1 h2
        have hrest := ih htail
        have hfind : findEntry k ((i, b) :: l) = findEntry k l := by
          rw [findEntry, if_neg (by omega)]
        rw [countP_cons, countP_cons, hfind]
        omega

theorem countP_set (p : ℕ × α → Bool) (m : AscendingMap α) (k : ℕ) (a : α) :
    (m.set k a).entries.countP p + weight p k (m.find k) = m.entries.countP p + weight p k (some a) :=
  countP_setEntry p k a m.ascending

theorem countP_clear (p : ℕ × α → Bool) (m : AscendingMap α) (k : ℕ) :
    (m.clear k).entries.countP p + weight p k (m.find k) = m.entries.countP p := by
  cases h : m.find k with
  | none =>
    have hclear : m.clear k = m := by
      apply ext_find
      intro j
      rw [find_clear]
      split
      · rename_i hj
        rw [hj, h]
      · rfl
    rw [hclear]
    rfl
  | some a =>
    have hset := countP_set p (m.clear k) k a
    have hback : (m.clear k).set k a = m := by
      apply ext_find
      intro j
      rw [find_set, find_clear]
      split
      · rename_i hj
        rw [hj, h]
      · rfl
    rw [hback, find_clear, if_pos rfl] at hset
    exact hset.symm

end AscendingMap
end MustDpor

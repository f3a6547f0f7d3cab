import Mathlib.Data.List.Basic
import Mathlib.Data.List.Induction
import Mathlib.Tactic.Common

/-! # Selecting by a mask

The elements of a list that a list of flags marks, in order, and the place each of them moves to. -/

namespace MustDpor
set_option autoImplicit false
open List

variable {α β : Type}

theorem exists_split_of_getElem? {l : List α} {i : ℕ} {a : α} (h : l[i]? = some a) :
    ∃ before after, l = before ++ a :: after ∧ before.length = i := by
  obtain ⟨hlt, rfl⟩ := List.getElem?_eq_some_iff.mp h
  refine ⟨l.take i, l.drop (i + 1), ?_, List.length_take_of_le (Nat.le_of_lt hlt)⟩
  rw [← List.drop_eq_getElem_cons hlt, List.take_append_drop]

def select (l : List α) (mask : List Bool) : List α :=
  ((l.zip mask).filter (fun p => p.2)).map Prod.fst

/-- The place of a marked element among the marked ones. -/
def place (mask : List Bool) (i : ℕ) : Option ℕ :=
  if mask.getD i false then some ((mask.take i).countP (fun b => b)) else none

variable (mask : List Bool)
@[simp] theorem select_nil_left : select ([] : List α) mask = [] := rfl

@[simp] theorem select_nil_right (l : List α) : select l [] = [] := by
  unfold select
  rw [zip_nil_right]
  rfl

@[simp] theorem select_cons_true (a : α) (l : List α) (mask : List Bool) :
    select (a :: l) (true :: mask) = a :: select l mask := rfl

@[simp] theorem select_cons_false (a : α) (l : List α) (mask : List Bool) :
    select (a :: l) (false :: mask) = select l mask := rfl

theorem place_cons_zero (b : Bool) (mask : List Bool) : place (b :: mask) 0 = if b then some 0 else none := by
  unfold place
  cases b <;> rfl

theorem place_cons_succ (b : Bool) (mask : List Bool) (i : ℕ) :
    place (b :: mask) (i + 1) = (place mask i).map fun n => if b then n + 1 else n := by
  unfold place
  rw [getD_cons_succ, take_succ_cons, countP_cons]
  cases hi : mask.getD i false with
  | false => rfl
  | true => cases b <;> rfl

theorem place_isSome (i : ℕ) : (place mask i).isSome = mask.getD i false := by
  unfold place
  cases mask.getD i false <;> rfl

theorem exists_place (i : ℕ) (h : mask.getD i false = true) : ∃ n, place mask i = some n := by
  rw [← place_isSome] at h
  exact Option.isSome_iff_exists.mp h

theorem marked_of_place (i n : ℕ) (h : place mask i = some n) : mask.getD i false = true := by
  rw [← place_isSome, h]
  rfl

theorem getElem?_select (l : List α) (mask : List Bool) (i n : ℕ) (h : place mask i = some n) :
    (select l mask)[n]? = l[i]? := by
  induction mask generalizing l i n with
  | nil => cases h
  | cons b mask ih =>
    cases l with
    | nil => simp
    | cons a l =>
      cases i with
      | zero =>
        rw [place_cons_zero] at h
        cases b with
        | true =>
          cases h
          rfl
        | false => cases h
      | succ i =>
        rw [place_cons_succ] at h
        obtain ⟨m, hm, rfl⟩ := Option.map_eq_some_iff.mp h
        cases b with
        | true | false => exact ih l i m hm

theorem exists_of_lt_select (l : List α) (mask : List Bool) (n : ℕ) (h : n < (select l mask).length) :
    ∃ i, i < l.length ∧ place mask i = some n := by
  induction mask generalizing l n with
  | nil => simp at h
  | cons b mask ih =>
    cases l with
    | nil => simp at h
    | cons a l =>
      cases b with
      | true =>
        cases n with
        | zero => exact ⟨0, Nat.succ_pos _, rfl⟩
        | succ n =>
          obtain ⟨i, hi, hplace⟩ := ih l n (by simpa using h)
          exact ⟨i + 1, Nat.succ_lt_succ hi, by rw [place_cons_succ, hplace]; rfl⟩
      | false =>
        obtain ⟨i, hi, hplace⟩ := ih l n (by simpa using h)
        exact ⟨i + 1, Nat.succ_lt_succ hi, by rw [place_cons_succ, hplace]; rfl⟩

theorem place_lt_length (l : List α) (mask : List Bool) (i n : ℕ) (hi : i < l.length)
    (h : place mask i = some n) : n < (select l mask).length := by
  have hget := getElem?_select l mask i n h
  rw [List.getElem?_eq_getElem hi] at hget
  exact (List.getElem?_eq_some_iff.mp hget).1

theorem place_lt_rank (i j n m : ℕ) (hi : place mask i = some n) (hj : place mask j = some m)
    (hlt : i < j) : n < m := by
  induction mask generalizing i j n m with
  | nil => cases hi
  | cons b mask ih =>
    cases j with
    | zero => exact absurd hlt (Nat.not_lt_zero _)
    | succ j =>
      rw [place_cons_succ] at hj
      obtain ⟨m', hm', rfl⟩ := Option.map_eq_some_iff.mp hj
      cases i with
      | zero =>
        rw [place_cons_zero] at hi
        cases b with
        | true =>
          cases hi
          exact Nat.succ_pos _
        | false => cases hi
      | succ i =>
        rw [place_cons_succ] at hi
        obtain ⟨n', hn', rfl⟩ := Option.map_eq_some_iff.mp hi
        have := ih i j n' m' hn' hm' (Nat.lt_of_succ_lt_succ hlt)
        cases b with
        | true => exact Nat.succ_lt_succ this
        | false => exact this

theorem place_lt_iff (i j n m : ℕ) (hi : place mask i = some n) (hj : place mask j = some m) : n < m ↔ i < j := by
  refine ⟨fun hlt => ?_, place_lt_rank mask i j n m hi hj⟩
  rcases Nat.lt_trichotomy i j with h | rfl | h
  · exact h
  · rw [hi] at hj
    exact absurd (Option.some.inj hj) (Nat.ne_of_lt hlt)
  · exact absurd (place_lt_rank mask j i m n hj hi h) (Nat.lt_asymm hlt)

theorem place_injective {mask : List Bool} {i j n : ℕ} (hi : place mask i = some n) (hj : place mask j = some n) :
    i = j := by
  rcases Nat.lt_trichotomy i j with h | h | h
  · exact absurd (place_lt_rank mask i j n n hi hj h) (Nat.lt_irrefl _)
  · exact h
  · exact absurd (place_lt_rank mask j i n n hj hi h) (Nat.lt_irrefl _)

theorem select_concat {l : List α} {mask : List Bool} (a : α) (b : Bool) (h : l.length = mask.length) :
    select (l ++ [a]) (mask ++ [b]) = select l mask ++ if b then [a] else [] := by
  unfold select
  rw [zip_append h, filter_append, map_append]
  cases b <;> rfl

theorem select_sublist (l : List α) (mask : List Bool) : (select l mask).Sublist l := by
  induction l generalizing mask with
  | nil => exact List.Sublist.slnil
  | cons a l ih =>
    cases mask with
    | nil => simp
    | cons b mask =>
      cases b with
      | true => exact (ih mask).cons_cons a
      | false => exact (ih mask).cons a

theorem select_append (l l' : List α) (mask mask' : List Bool) (h : l.length = mask.length) :
    select (l ++ l') (mask ++ mask') = select l mask ++ select l' mask' := by
  unfold select
  rw [zip_append h, filter_append, map_append]

theorem select_all (l : List α) (mask : List Bool) (h : ∀ i, i < l.length → mask.getD i false = true) :
    select l mask = l := by
  induction l generalizing mask with
  | nil => rfl
  | cons a l ih =>
    cases mask with
    | nil => exact nomatch h 0 (Nat.zero_lt_succ _)
    | cons b mask =>
      obtain rfl : b = true := h 0 (Nat.zero_lt_succ _)
      rw [select_cons_true, ih mask fun i hi => h (i + 1) (Nat.succ_lt_succ hi)]

theorem mem_select (l : List α) (mask : List Bool) (a : α) :
    a ∈ select l mask ↔ ∃ i, l[i]? = some a ∧ mask.getD i false = true := by
  constructor
  · intro ha
    obtain ⟨n, hn⟩ := List.getElem?_of_mem ha
    obtain ⟨i, -, hi⟩ := exists_of_lt_select l mask n (List.getElem?_eq_some_iff.mp hn).1
    exact ⟨i, (getElem?_select l mask i n hi).symm.trans hn, marked_of_place mask i n hi⟩
  · rintro ⟨i, hi, hmask⟩
    obtain ⟨n, hn⟩ := exists_place mask i hmask
    exact List.mem_of_getElem? ((getElem?_select l mask i n hn).trans hi)

theorem filter_select (l : List α) (mask : List Bool) (p : α → Bool)
    (h : ∀ i a, l[i]? = some a → p a = true → mask.getD i false = true) :
    (select l mask).filter p = l.filter p := by
  induction l generalizing mask with
  | nil => rfl
  | cons a l ih =>
    have hrest (mask' : List Bool) (b : Bool) (hmask : mask = b :: mask') :
        (select l mask').filter p = l.filter p := by
      subst hmask
      exact ih mask' fun i a' hget hp => h (i + 1) a' hget hp
    cases mask with
    | nil =>
      rw [select_nil_right, filter_nil, eq_comm, filter_eq_nil_iff]
      intro x hx hp
      obtain ⟨i, hi⟩ := getElem?_of_mem hx
      exact nomatch h i x hi hp
    | cons b mask =>
      cases b with
      | true => rw [select_cons_true, filter_cons, filter_cons, hrest mask true rfl]
      | false =>
        rw [select_cons_false, filter_cons_of_neg (fun hp => nomatch h 0 a rfl hp), hrest mask false rfl]

theorem countP_select {l : List α} {mask : List Bool} {p : α → Bool}
    (h : ∀ i a, l[i]? = some a → p a = true → mask.getD i false = true) :
    (select l mask).countP p = l.countP p := by
  rw [countP_eq_length_filter, filter_select l mask p h, countP_eq_length_filter]

end MustDpor

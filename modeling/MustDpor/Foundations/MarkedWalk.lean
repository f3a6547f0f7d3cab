import MustDpor.Foundations.PendingSearch

/-! # Walks that mark the nodes they have been to

The marks are a bit vector over the nodes. `fresh` drops from a list of nodes what is marked already or has
come before; `walk` takes pending nodes first come, first served, and queues the unmarked successors of each
unmarked one. Both list every node at most once. -/

namespace MustDpor.MarkedWalk
set_option autoImplicit false
open List Function Relation

def marked (marks : List Bool) (x : ℕ) : Bool := marks.getD x false

variable {marks : List Bool} {x : ℕ}

theorem marked_of_get {b : Bool} (h : marks[x]? = some b) : marked marks x = b := by
  unfold marked
  rw [getD_eq_getElem?_getD, h]
  rfl

theorem get_of_lt (h : x < marks.length) : marks[x]? = some (marked marks x) := by
  unfold marked
  rw [getD_eq_getElem?_getD, getElem?_eq_getElem h]
  rfl

theorem marked_set (h : x < marks.length) : marked (marks.set x true) = update (marked marks) x true := by
  funext y
  unfold marked
  by_cases hy : y = x
  · rw [hy, update_self, getD_eq_getElem?_getD, getElem?_set_self h]
    rfl
  · rw [update_of_ne hy, getD_eq_getElem?_getD, getD_eq_getElem?_getD,
      getElem?_set_ne (Ne.symm hy)]

theorem marked_replicate (n x : ℕ) : marked (replicate n false) x = false := by
  unfold marked
  rw [getD_eq_getElem?_getD, getElem?_replicate]
  split <;> rfl

theorem count_set_lt (marks : List Bool) (x : ℕ) (h : marks[x]? = some false) :
    (marks.set x true).count false < marks.count false := by
  induction marks generalizing x with
  | nil => cases h
  | cons mark marks ih =>
    cases x with
    | zero =>
      cases h
      rw [set_cons_zero, count_cons_self, count_cons_of_ne (Bool.false_ne_true.symm)]
      exact Nat.lt_succ_self _
    | succ x =>
      rw [set_cons_succ, count_cons, count_cons]
      exact Nat.add_lt_add_right (ih x h) _

/-! ## First occurrences -/

def fresh : List Bool → List ℕ → List ℕ
  | _, [] => []
  | marks, x :: rest =>
    if marked marks x then fresh marks rest else x :: fresh (marks.set x true) rest

theorem mem_fresh (marks : List Bool) (l : List ℕ) (hl : ∀ x ∈ l, x < marks.length) (y : ℕ) :
    y ∈ fresh marks l ↔ y ∈ l ∧ marked marks y = false := by
  induction l generalizing marks with
  | nil => simp [fresh]
  | cons x l ih =>
    have hx := hl x mem_cons_self
    have hrest : ∀ x ∈ l, x < marks.length := fun x hx => hl x (mem_cons_of_mem _ hx)
    unfold fresh
    cases hmark : marked marks x with
    | true =>
      rw [if_pos rfl, ih marks hrest, mem_cons]
      constructor
      · rintro ⟨hy, hun⟩
        exact ⟨.inr hy, hun⟩
      · rintro ⟨rfl | hy, hun⟩
        · rw [hmark] at hun
          cases hun
        · exact ⟨hy, hun⟩
    | false =>
      rw [if_neg Bool.false_ne_true, mem_cons, ih _ (by simpa using hrest), marked_set hx,
        mem_cons]
      by_cases hy : y = x
      · rw [hy, hmark]
        simp
      · rw [update_of_ne hy]
        simp [hy]

theorem nodup_fresh (marks : List Bool) (l : List ℕ) (hl : ∀ x ∈ l, x < marks.length) : (fresh marks l).Nodup := by
  induction l generalizing marks with
  | nil => exact nodup_nil
  | cons x l ih =>
    have hx := hl x mem_cons_self
    have hrest : ∀ x ∈ l, x < marks.length := fun x hx => hl x (mem_cons_of_mem _ hx)
    have hset : ∀ y ∈ l, y < (marks.set x true).length := by simpa using hrest
    unfold fresh
    split
    · exact ih marks hrest
    · refine nodup_cons.mpr ⟨fun hmem => ?_, ih _ hset⟩
      rw [mem_fresh _ _ hset, marked_set hx, update_self] at hmem
      cases hmem.2

/-! ## The walk -/

section Walk
variable (successors : ℕ → List ℕ)

/-- What the walk queues behind `current`: the successors that are not marked, `current` being so now. -/
def queued (marks : List Bool) (current : ℕ) : List ℕ :=
  (successors current).filter fun x => !marked (marks.set current true) x

def walk (marks : List Bool) (pending : List ℕ) : List ℕ :=
  match pending with
  | [] => []
  | current :: rest =>
    if _h : marks[current]? = some false then
      current :: walk (marks.set current true) (rest ++ queued successors marks current)
    else walk marks rest
termination_by (marks.count false, pending.length)
decreasing_by
  · exact Prod.Lex.left _ _ (count_set_lt marks current _h)
  · exact Prod.Lex.right _ (Nat.lt_succ_self _)

theorem walk_nil (marks : List Bool) : walk successors marks [] = [] := by
  rw [walk]

theorem walk_skip {current : ℕ} (rest : List ℕ) (h : marks[current]? ≠ some false) :
    walk successors marks (current :: rest) = walk successors marks rest := by
  rw [walk, dif_neg h]

theorem walk_expand {current : ℕ} (rest : List ℕ) (h : marks[current]? = some false) :
    walk successors marks (current :: rest) =
      current :: walk successors (marks.set current true) (rest ++ queued successors marks current) := by
  rw [walk, dif_pos h]

theorem walk_induction {motive : List Bool → List ℕ → Prop} (nil : ∀ marks, motive marks [])
    (skip : ∀ marks current rest, marks[current]? ≠ some false → motive marks rest →
      motive marks (current :: rest)) (expand : ∀ marks current rest, marks[current]? = some false →
      motive (marks.set current true) (rest ++ queued successors marks current) → motive marks (current :: rest))
    (marks : List Bool) (pending : List ℕ) : motive marks pending := by
  induction marks, pending using walk.induct successors with
  | case1 marks => exact nil marks
  | case2 marks current rest h ih => exact expand marks current rest h ih
  | case3 marks current rest h ih => exact skip marks current rest h ih

theorem unmarked_of_mem_walk {pending : List ℕ} (h : x ∈ walk successors marks pending) : marks[x]? = some false := by
  induction marks, pending using walk_induction successors with
  | nil marks =>
    rw [walk_nil] at h
    cases h
  | skip marks current rest hskip ih =>
    rw [walk_skip successors rest hskip] at h
    exact ih h
  | expand marks current rest hexpand ih =>
    rw [walk_expand successors rest hexpand] at h
    rcases List.mem_cons.mp h with rfl | h
    · exact hexpand
    · have hx := ih h
      by_cases hne : current = x
      · rw [← hne, List.getElem?_set_self (List.getElem?_eq_some_iff.mp hexpand).1] at hx
        cases hx
      · rwa [List.getElem?_set_ne hne] at hx

theorem nodup_walk (marks : List Bool) (pending : List ℕ) : (walk successors marks pending).Nodup := by
  induction marks, pending using walk_induction successors with
  | nil marks =>
    rw [walk_nil]
    exact List.nodup_nil
  | skip marks current rest hskip ih =>
    rw [walk_skip successors rest hskip]
    exact ih
  | expand marks current rest hexpand ih =>
    rw [walk_expand successors rest hexpand]
    refine List.nodup_cons.mpr ⟨fun hmem => ?_, ih⟩
    have hmark := unmarked_of_mem_walk successors hmem
    rw [List.getElem?_set_self (List.getElem?_eq_some_iff.mp hexpand).1] at hmark
    cases hmark

variable (n : ℕ) (hbounded : ∀ x < n, ∀ y ∈ successors x, y < n)
include hbounded

theorem mem_walk {marks : List Bool} {pending : List ℕ} (hlength : marks.length = n) (hpending : ∀ p ∈ pending, p < n)
    (hclosed : PendingSearch.Closed successors (marked marks) pending) (x : ℕ) :
    x ∈ walk successors marks pending ↔
      PendingSearch.Reached successors (marked marks) pending x ∧ marked marks x = false := by
  induction marks, pending using walk_induction successors with
  | nil marks =>
    rw [walk_nil]
    simp [PendingSearch.Reached]
  | skip marks current rest hskip ih =>
    have hcurrent : marked marks current = true := by
      have hget := get_of_lt (hlength ▸ hpending current mem_cons_self)
      rw [hget] at hskip
      exact Bool.of_not_eq_false fun h => hskip (congrArg some h)
    rw [walk_skip successors rest hskip,
      ih hlength (fun p hp => hpending p (mem_cons_of_mem _ hp)) (hclosed.skip hcurrent),
      hclosed.reached_skip hcurrent]
  | expand marks current rest hexpand ih =>
    have hcurrent : current < n := hpending current mem_cons_self
    have hset := marked_set (hlength ▸ hcurrent)
    have hkeep : ∀ p ∈ rest, p ∈ rest ++ queued successors marks current := fun p hp => mem_append_left _ hp
    have hqueue : ∀ z ∈ successors current, update (marked marks) current true z = true ∨
        z ∈ rest ++ queued successors marks current := by
      intro z hz
      rw [← hset]
      by_cases hmark : marked (marks.set current true) z = true
      · exact .inl hmark
      · exact .inr (mem_append_right _ (mem_filter.mpr ⟨hz, by simpa using hmark⟩))
    have honly : ∀ p ∈ rest ++ queued successors marks current, p ∈ rest ∨ p ∈ successors current := by
      intro p hp
      exact (mem_append.mp hp).imp_right fun hp => (mem_filter.mp hp).1
    have hpending' : ∀ p ∈ rest ++ queued successors marks current, p < n := by
      intro p hp
      rcases honly p hp with hp | hp
      · exact hpending p (mem_cons_of_mem _ hp)
      · exact hbounded current hcurrent p hp
    have hexpanded := hclosed.expand _ hkeep hqueue
    have hiff := ih ((length_set).trans hlength) hpending' (hset ▸ hexpanded)
    rw [walk_expand successors rest hexpand, mem_cons, hiff, hset,
      hclosed.reached_expand _ hkeep hqueue honly]
    by_cases hx : x = current
    · rw [hx, marked_of_get hexpand]
      exact iff_of_true (.inl rfl) ⟨.inr ⟨current, mem_cons_self, .refl⟩, rfl⟩
    · rw [update_of_ne hx]
      exact or_iff_right hx

theorem mem_walk_from {start : ℕ} (hstart : start < n) (x : ℕ) :
    x ∈ walk successors (replicate n false) (successors start) ↔
      TransGen (fun a b => b ∈ successors a) start x := by
  rw [mem_walk successors n hbounded length_replicate (hbounded start hstart)
    (fun y hy => absurd ((marked_replicate n y).symm.trans hy) Bool.false_ne_true) x, marked_replicate,
    TransGen.head'_iff]
  simp [PendingSearch.Reached, marked_replicate]

end Walk

end MustDpor.MarkedWalk

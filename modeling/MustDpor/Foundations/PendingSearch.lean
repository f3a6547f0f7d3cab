import Mathlib.Algebra.Order.BigOperators.Group.List
import Mathlib.Algebra.Ring.Nat
import Mathlib.Logic.Function.Basic
import Mathlib.Logic.Relation

/-! # Searches with a list of pending nodes

A search takes the first pending node. A node that it has seen is skipped, any other is marked and its
successors are queued. With one unit of fuel for every entry that can ever be pending, the marked nodes are
those that the first pending ones lead to. -/

namespace MustDpor.PendingSearch
set_option autoImplicit false
open List Function Relation

variable {α : Type} [DecidableEq α] (successors : α → List α)

def search : ℕ → List α → (α → Bool) → α → Bool
  | 0, _, seen => seen
  | _ + 1, [], seen => seen
  | fuel + 1, current :: pending, seen =>
    if seen current then search fuel pending seen
    else search fuel (pending ++ successors current) (Function.update seen current true)

/-- The entries that expanding the unseen nodes will queue. -/
def work (nodes : List α) (seen : α → Bool) : ℕ :=
  ((nodes.filter fun node => !seen node).map fun node => (successors node).length).sum

omit [DecidableEq α] in
theorem work_cons (node : α) (nodes : List α) (seen : α → Bool) :
    work successors (node :: nodes) seen =
      (if seen node then 0 else (successors node).length) + work successors nodes seen := by
  unfold work
  cases hseen : seen node <;> simp [hseen]

theorem work_update_le (nodes : List α) (seen : α → Bool) (current : α) :
    work successors nodes (update seen current true) ≤ work successors nodes seen := by
  induction nodes with
  | nil => exact le_refl _
  | cons node nodes ih =>
    rw [work_cons, work_cons]
    by_cases hnode : node = current
    · rw [hnode, update_self, if_pos rfl]
      omega
    · rw [update_of_ne hnode]
      omega

theorem work_update {nodes : List α} {seen : α → Bool} {current : α} (hmem : current ∈ nodes)
    (hunseen : seen current = false) :
    (successors current).length + work successors nodes (update seen current true) ≤
      work successors nodes seen := by
  induction nodes with
  | nil => cases hmem
  | cons node nodes ih =>
    rw [work_cons, work_cons]
    by_cases hnode : node = current
    · have hrest := work_update_le successors nodes seen current
      rw [hnode, update_self, if_pos rfl, hunseen, if_neg Bool.false_ne_true]
      omega
    · have hrest := ih ((mem_cons.mp hmem).resolve_left (Ne.symm hnode))
      rw [update_of_ne hnode]
      omega

/-! ## What is seen and what is pending -/

/-- Seen, or behind something pending. -/
def Reached (seen : α → Bool) (pending : List α) (x : α) : Prop :=
  seen x = true ∨ ∃ p ∈ pending, Relation.ReflTransGen (fun a b => b ∈ successors a) p x

/-- The successors of what is seen are seen or pending. -/
def Closed (seen : α → Bool) (pending : List α) : Prop :=
  ∀ y, seen y = true → ∀ z ∈ successors y, seen z = true ∨ z ∈ pending

section Reached
variable {successors} {seen : α → Bool} {current : α} {pending : List α}

omit [DecidableEq α] in
theorem Closed.reached (h : Closed successors seen pending) {y x : α} (hy : seen y = true)
    (hpath : ReflTransGen (fun a b => b ∈ successors a) y x) : Reached successors seen pending x := by
  induction hpath with
  | refl => exact .inl hy
  | tail _ hstep ih =>
    rcases ih with hseen | ⟨p, hp, hpath⟩
    · rcases h _ hseen _ hstep with hseen | hp
      · exact .inl hseen
      · exact .inr ⟨_, hp, .refl⟩
    · exact .inr ⟨p, hp, hpath.tail hstep⟩

omit [DecidableEq α] in
theorem Closed.skip (h : Closed successors seen (current :: pending)) (hseen : seen current = true) :
    Closed successors seen pending := by
  intro y hy z hz
  rcases h y hy z hz with hz | hz
  · exact .inl hz
  · rcases mem_cons.mp hz with rfl | hz
    · exact .inl hseen
    · exact .inr hz

omit [DecidableEq α] in
theorem Closed.reached_skip (h : Closed successors seen (current :: pending)) (hseen : seen current = true) (x : α) :
    Reached successors seen pending x ↔ Reached successors seen (current :: pending) x := by
  constructor
  · rintro (hx | ⟨p, hp, hpath⟩)
    · exact .inl hx
    · exact .inr ⟨p, mem_cons_of_mem _ hp, hpath⟩
  · rintro (hx | ⟨p, hp, hpath⟩)
    · exact .inl hx
    · rcases mem_cons.mp hp with rfl | hp
      · exact (h.skip hseen).reached hseen hpath
      · exact .inr ⟨p, hp, hpath⟩

variable (h : Closed successors seen (current :: pending)) (queue : List α) (hkeep : ∀ p ∈ pending, p ∈ queue)
  (hqueue : ∀ z ∈ successors current, Function.update seen current true z = true ∨ z ∈ queue)
include h hkeep hqueue

theorem Closed.expand : Closed successors (update seen current true) queue := by
  intro y hy z hz
  by_cases hyc : y = current
  · exact hqueue z (hyc ▸ hz)
  · rw [update_of_ne hyc] at hy
    by_cases hzc : z = current
    · rw [hzc, update_self]
      exact .inl rfl
    · rw [update_of_ne hzc]
      rcases h y hy z hz with hz | hz
      · exact .inl hz
      · exact .inr (hkeep z ((mem_cons.mp hz).resolve_left hzc))

theorem Closed.reached_expand (honly : ∀ p ∈ queue, p ∈ pending ∨ p ∈ successors current) (x : α) :
    Reached successors (update seen current true) queue x ↔
      Reached successors seen (current :: pending) x := by
  constructor
  · rintro (hx | ⟨p, hp, hpath⟩)
    · by_cases hxc : x = current
      · exact .inr ⟨current, mem_cons_self, hxc ▸ .refl⟩
      · rw [update_of_ne hxc] at hx
        exact .inl hx
    · rcases honly p hp with hp | hp
      · exact .inr ⟨p, mem_cons_of_mem _ hp, hpath⟩
      · exact .inr ⟨current, mem_cons_self, .head hp hpath⟩
  · rintro (hx | ⟨p, hp, hpath⟩)
    · by_cases hxc : x = current
      · rw [hxc]
        exact .inl (update_self _ _ _)
      · exact .inl ((update_of_ne hxc _ _).trans hx)
    · rcases mem_cons.mp hp with rfl | hp
      · exact (h.expand queue hkeep hqueue).reached (update_self _ _ _) hpath
      · exact .inr ⟨p, hkeep p hp, hpath⟩

end Reached

/-! ## The search -/

theorem search_iff (nodes : List α) (hsuccessors : ∀ y ∈ nodes, ∀ z ∈ successors y, z ∈ nodes) (fuel : ℕ)
    (pending : List α) (seen : α → Bool) (hpending : ∀ p ∈ pending, p ∈ nodes)
    (hclosed : Closed successors seen pending) (hfuel : pending.length + work successors nodes seen ≤ fuel) (x : α) :
    search successors fuel pending seen x = true ↔ Reached successors seen pending x := by
  induction fuel generalizing pending seen with
  | zero =>
    obtain rfl : pending = [] := length_eq_zero_iff.mp (by omega)
    simp [search, Reached]
  | succ fuel ih =>
    cases pending with
    | nil => simp [search, Reached]
    | cons current pending =>
      rw [length_cons] at hfuel
      have hcurrent := hpending current mem_cons_self
      have hrest : ∀ p ∈ pending, p ∈ nodes := fun p hp => hpending p (mem_cons_of_mem _ hp)
      unfold search
      cases hseen : seen current with
      | true =>
        rw [if_pos rfl, ih pending seen hrest (hclosed.skip hseen) (by omega)]
        exact hclosed.reached_skip hseen x
      | false =>
        have hwork := work_update successors hcurrent hseen
        have hkeep : ∀ p ∈ pending, p ∈ pending ++ successors current := fun p hp => mem_append_left _ hp
        have hqueue : ∀ z ∈ successors current, update seen current true z = true ∨
            z ∈ pending ++ successors current := fun z hz => .inr (mem_append_right _ hz)
        rw [if_neg Bool.false_ne_true, ih _ _ ?_ (hclosed.expand _ hkeep hqueue) ?_]
        · exact hclosed.reached_expand _ hkeep hqueue (fun p hp => mem_append.mp hp) x
        · intro p hp
          rcases mem_append.mp hp with hp | hp
          · exact hrest p hp
          · exact hsuccessors current hcurrent p hp
        · rw [length_append]
          omega

theorem search_from {nodes : List α} (hsuccessors : ∀ y ∈ nodes, ∀ z ∈ successors y, z ∈ nodes) {start : α}
    (hstart : start ∈ nodes) (x : α) :
    search successors
        ((successors start).length + (nodes.map fun node => (successors node).length).sum)
        (successors start) (fun _ => false) x = true ↔
      TransGen (fun a b => b ∈ successors a) start x := by
  have hiff := search_iff successors nodes hsuccessors
    ((successors start).length + (nodes.map fun node => (successors node).length).sum) (successors start)
    (fun _ => false) (hsuccessors start hstart) (fun _ hy => absurd hy Bool.false_ne_true) (by simp [work]) x
  rw [hiff, TransGen.head'_iff]
  simp [Reached]

end MustDpor.PendingSearch

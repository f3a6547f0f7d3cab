import Mathlib.Logic.Relation
import Mathlib.Data.List.Induction
import Mathlib.Logic.Function.Basic
import Mathlib.Order.Lattice
import Mathlib.Tactic.Common

/-! # Vector clocks along a topological order

Events lie on chains: `column` names the chain and `position` the place on it, `pred` is the event
before on the same chain and `source` one further incoming edge. Clock rows are filled in the given
order. `clock_iff`: an entry has passed a position exactly when the event at that position reaches
the row's event. -/

namespace MustDpor.VectorClock
set_option autoImplicit false
open List Function Relation

section
variable (pred source : ℕ → Option ℕ) (column position : ℕ → ℕ)

/-- The row of `node`: the predecessor's row joined with the source's, then its own entry. -/
def row (clocks : ℕ → ℕ → ℕ) (node : ℕ) : ℕ → ℕ :=
  let base := match pred node with
    | some p => clocks p
    | none => fun _ => 0
  let joined := match source node with
    | some s => fun c => max (base c) (clocks s c)
    | none => base
  Function.update joined (column node) (position node + 1)

def tick (clocks : ℕ → ℕ → ℕ) (node : ℕ) : ℕ → ℕ → ℕ :=
  Function.update clocks node (row pred source column position clocks node)

def clocks (order : List ℕ) : ℕ → ℕ → ℕ :=
  order.foldl (tick pred source column position) (fun _ _ => 0)

def Edge (u v : ℕ) : Prop := pred v = some u ∨ source v = some u

/-- The chains are as the names say, and the order puts both incoming edges of a node before it. -/
structure Chained (order : List ℕ) : Prop where
  nodup : order.Nodup
  pred_column : ∀ v ∈ order, ∀ u, pred v = some u → column u = column v ∧ position v = position u + 1
  pred_none : ∀ v ∈ order, pred v = none → position v = 0
  unique : ∀ u ∈ order, ∀ v ∈ order, column u = column v → position u = position v → u = v
  precedes : ∀ pre v post, order = pre ++ v :: post → ∀ u, Edge pred source u v → u ∈ pre

variable {order : List ℕ} {node : ℕ}

theorem Chained.dropLast (h : Chained pred source column position (order ++ [node])) :
    Chained pred source column position order where
  nodup := (nodup_append.mp h.nodup).1
  pred_column := fun v hv => h.pred_column v (mem_append_left _ hv)
  pred_none := fun v hv => h.pred_none v (mem_append_left _ hv)
  unique := fun u hu v hv => h.unique u (mem_append_left _ hu) v (mem_append_left _ hv)
  precedes := by
    intro pre v post heq u hu
    exact h.precedes pre v (post ++ [node]) (by rw [heq]; simp) u hu

variable {u : ℕ}

theorem Chained.incoming_mem (h : Chained pred source column position (order ++ [node]))
    (hu : Edge pred source u node) : u ∈ order :=
  h.precedes order node [] rfl u hu

theorem Chained.mem_of_reaches (h : Chained pred source column position order)
    {v : ℕ} (hv : v ∈ order) (huv : ReflTransGen (Edge pred source) u v) : u ∈ order := by
  induction huv using ReflTransGen.head_induction_on with
  | refl => exact hv
  | head he _ ih =>
    obtain ⟨pre, post, heq⟩ := append_of_mem ih
    rw [heq]
    exact mem_append_left _ (h.precedes pre _ post heq _ he)

theorem reaches_last_iff {v : ℕ} (hne : u ≠ v) : ReflTransGen (Edge pred source) u v ↔
      ∃ w, Edge pred source w v ∧ ReflTransGen (Edge pred source) u w := by
  constructor
  · intro h
    rcases ReflTransGen.cases_tail h with heq | ⟨w, huw, hwv⟩
    · exact absurd heq.symm hne
    · exact ⟨w, hwv, huw⟩
  · rintro ⟨w, hwv, huw⟩
    exact huw.tail hwv

theorem exists_at_position (h : Chained pred source column position order)
    (k : ℕ) : ∀ d v, v ∈ order → position v = k + d →
      ∃ u ∈ order, column u = column v ∧ position u = k ∧ ReflTransGen (Edge pred source) u v := by
  intro d
  induction d with
  | zero => exact fun v hv hp => ⟨v, hv, rfl, by omega, ReflTransGen.refl⟩
  | succ d ih =>
    intro v hv hp
    cases hpred : pred v with
    | none =>
      have := h.pred_none v hv hpred
      omega
    | some p =>
      obtain ⟨hcol, hpos⟩ := h.pred_column v hv p hpred
      have hedge : Edge pred source p v := Or.inl hpred
      have hmem : p ∈ order := h.mem_of_reaches _ _ _ _ hv (ReflTransGen.single hedge)
      obtain ⟨u, hu, hcu, hpu, hup⟩ := ih p hmem (by omega)
      exact ⟨u, hu, hcu.trans hcol, hpu, hup.tail hedge⟩

theorem position_le_of_reaches (h : Chained pred source column position (order ++ [node]))
    (hcol : column u = column node) (hreach : ReflTransGen (Edge pred source) u node) :
    position u ≤ position node := by
  by_contra hlt
  have hmem : u ∈ order ++ [node] :=
    h.mem_of_reaches _ _ _ _ (by simp) hreach
  obtain ⟨w, hw, hwcol, hwpos, hwu⟩ := exists_at_position pred source column position h (position node) (position u - position node) u hmem (by omega)
  have hwnode : w = node := h.unique w hw node (by simp) (hwcol.trans hcol) hwpos
  subst hwnode
  have hune : u ≠ w := fun heq => hlt (by rw [heq])
  -- `u` lies before `w` in the order, but is reached from it
  have hu : u ∈ order := by
    rcases mem_append.mp hmem with hu | hu
    · exact hu
    · exact absurd (mem_singleton.mp hu) hune
  have hback := (h.dropLast pred source column position).mem_of_reaches pred source column
    position hu hwu
  have hnodup := h.nodup
  rw [nodup_append] at hnodup
  exact hnodup.2.2 w hback w (by simp) rfl

theorem row_eq (clocks : ℕ → ℕ → ℕ) (node c k : ℕ) (hc : c ≠ column node) :
    k + 1 ≤ row pred source column position clocks node c ↔
      ∃ u, Edge pred source u node ∧ k + 1 ≤ clocks u c := by
  unfold row Edge
  rw [update_of_ne hc]
  cases hp : pred node <;> cases hs : source node <;> simp

theorem clock_iff (order : List ℕ) (h : Chained pred source column position order) (v : ℕ)
    (hv : v ∈ order) (c k : ℕ) :
    k + 1 ≤ clocks pred source column position order v c ↔
      ∃ u, column u = c ∧ position u = k ∧ ReflTransGen (Edge pred source) u v := by
  induction order using reverseRecOn generalizing v c k with
  | nil => simp at hv
  | append_singleton order node ih =>
    have hdrop := h.dropLast pred source column position
    have hnot : node ∉ order := fun hm => by
      have hnodup := h.nodup
      rw [nodup_append] at hnodup
      exact hnodup.2.2 node hm node (by simp) rfl
    have hclocks : clocks pred source column position (order ++ [node]) =
        tick pred source column position (clocks pred source column position order) node := by
      unfold clocks
      rw [foldl_append]
      rfl
    rw [hclocks]
    unfold tick
    by_cases hvn : v = node
    · subst hvn
      rw [update_self]
      by_cases hc : c = column v
      · subst hc
        have hrow : row pred source column position (clocks pred source column position order) v
            (column v) = position v + 1 := by
          unfold row
          rw [update_self]
        rw [hrow]
        constructor
        · intro hle
          obtain ⟨u, _, hcu, hpu, huv⟩ := exists_at_position pred source column position h k (position v - k) v (by simp) (by omega)
          exact ⟨u, hcu, hpu, huv⟩
        · rintro ⟨u, hcu, hpu, huv⟩
          have := position_le_of_reaches pred source column position h hcu huv
          omega
      · rw [row_eq pred source column position _ v c k hc]
        constructor
        · rintro ⟨w, hw, hle⟩
          have hwm := h.incoming_mem pred source column position hw
          obtain ⟨u, hcu, hpu, huw⟩ := (ih hdrop w hwm c k).mp hle
          exact ⟨u, hcu, hpu, huw.tail hw⟩
        · rintro ⟨u, hcu, hpu, huv⟩
          have hne : u ≠ v := fun heq => hc (by rw [← hcu, heq])
          obtain ⟨w, hw, huw⟩ := (reaches_last_iff pred source hne).mp huv
          have hwm := h.incoming_mem pred source column position hw
          exact ⟨w, hw, (ih hdrop w hwm c k).mpr ⟨u, hcu, hpu, huw⟩⟩
    · rw [update_of_ne hvn]
      have hvm : v ∈ order := by
        rcases mem_append.mp hv with hv | hv
        · exact hv
        · exact absurd (mem_singleton.mp hv) hvn
      exact ih hdrop v hvm c k

end
end MustDpor.VectorClock

import Mathlib.Logic.Relation
import Mathlib.Data.List.Nodup
import Mathlib.Data.Fintype.EquivFin
import Mathlib.Data.Fintype.Pigeonhole
import Mathlib.Tactic.Common

/-! # Kahn's algorithm on an edge list

Nodes `0 … n-1`, edges with repeats. In-degrees are counted over the edge list and given back edge
by edge; the ready set is a stack. `order_length_iff` is the cycle test: the order has length `n`
exactly when no node reaches itself. -/

namespace MustDpor.TopologicalOrder
set_option autoImplicit false
open List Function Relation

def successors (edges : List (ℕ × ℕ)) (u : ℕ) : List ℕ :=
  (edges.filter (fun e => decide (e.1 = u))).map Prod.snd

def inDegree (edges : List (ℕ × ℕ)) (v : ℕ) : ℕ := edges.countP (fun e => decide (e.2 = v))

/-- Gives back the out-edges of one node; a target whose count reaches zero is pushed. -/
def release : List ℕ → (ℕ → ℕ) → List ℕ → (ℕ → ℕ) × List ℕ
  | [], degree, ready => (degree, ready)
  | v :: vs, degree, ready =>
    release vs (Function.update degree v (degree v - 1))
      (if degree v - 1 = 0 then v :: ready else ready)

def drain (edges : List (ℕ × ℕ)) : ℕ → (ℕ → ℕ) → List ℕ → List ℕ → List ℕ
  | 0, _, _, order => order
  | _ + 1, _, [], order => order
  | fuel + 1, degree, node :: ready, order =>
    let released := release (successors edges node) degree ready
    drain edges fuel released.1 released.2 (order ++ [node])

def initialReady (edges : List (ℕ × ℕ)) (n : ℕ) : List ℕ :=
  ((List.range n).filter (fun v => decide (inDegree edges v = 0))).reverse

/-- Every round orders one node, so `n` rounds are enough. -/
def order (n : ℕ) (edges : List (ℕ × ℕ)) : List ℕ :=
  drain edges n (inDegree edges) (initialReady edges n) []

/-! ## Giving back the out-edges of one node -/

theorem release_degree (vs : List ℕ) (degree : ℕ → ℕ) (ready : List ℕ) (v : ℕ) :
    (release vs degree ready).1 v = degree v - vs.count v := by
  induction vs generalizing degree ready with
  | nil => simp [release]
  | cons w vs ih =>
    rw [release, ih]
    by_cases h : v = w
    · subst h
      rw [update_self, count_cons_self]
      omega
    · rw [update_of_ne h, count_cons_of_ne (Ne.symm h)]

theorem mem_release_ready (vs : List ℕ) (degree : ℕ → ℕ) (ready : List ℕ) (hle : ∀ v, vs.count v ≤ degree v) (v : ℕ) :
    v ∈ (release vs degree ready).2 ↔ v ∈ ready ∨ (v ∈ vs ∧ degree v = vs.count v) := by
  induction vs generalizing degree ready with
  | nil => simp [release]
  | cons w vs ih =>
    have hle' : ∀ x, vs.count x ≤ update degree w (degree w - 1) x := by
      intro x
      have hx := hle x
      by_cases h : x = w
      · subst h
        rw [update_self]
        rw [count_cons_self] at hx
        omega
      · rw [update_of_ne h]
        rwa [count_cons_of_ne (Ne.symm h)] at hx
    have hw := hle w
    rw [count_cons_self] at hw
    rw [release, ih _ _ hle']
    by_cases hvw : v = w
    · subst hvw
      rw [update_self, count_cons_self]
      by_cases hzero : degree v - 1 = 0
      · rw [if_pos hzero]
        have hcount : vs.count v = 0 := by omega
        simp only [mem_cons, true_or, true_and, true_iff]
        right
        omega
      · rw [if_neg hzero]
        constructor
        · rintro (h | ⟨_, h⟩)
          · exact .inl h
          · exact .inr ⟨mem_cons_self, by omega⟩
        · rintro (h | ⟨_, h⟩)
          · exact .inl h
          · have hpos : 0 < vs.count v := by omega
            exact .inr ⟨count_pos_iff.mp hpos, by omega⟩
    · rw [update_of_ne hvw, count_cons_of_ne (Ne.symm hvw), mem_cons]
      have hready : v ∈ (if degree w - 1 = 0 then w :: ready else ready) ↔ v ∈ ready := by
        split
        · simp [hvw]
        · exact Iff.rfl
      rw [hready]
      simp [hvw]

variable {degree : ℕ → ℕ}

theorem release_ready_nodup {vs : List ℕ} {ready : List ℕ}
    (hle : ∀ v, vs.count v ≤ degree v) (hready : ready.Nodup) (hopen : ∀ v ∈ ready, degree v = 0) :
    (release vs degree ready).2.Nodup := by
  induction vs generalizing degree ready with
  | nil => exact hready
  | cons w vs ih =>
    have hw := hle w
    rw [count_cons_self] at hw
    have hnot : w ∉ ready := fun h => by
      have := hopen w h
      omega
    rw [release]
    apply ih
    · intro x
      have hx := hle x
      by_cases h : x = w
      · subst h
        rw [update_self]
        omega
      · rw [update_of_ne h]
        rwa [count_cons_of_ne (Ne.symm h)] at hx
    · split
      · exact nodup_cons.mpr ⟨hnot, hready⟩
      · exact hready
    · intro v hv
      by_cases hvw : v = w
      · subst hvw
        rw [update_self]
        split at hv
        · assumption
        · exact absurd hv hnot
      · rw [update_of_ne hvw]
        split at hv
        · exact hopen v ((mem_cons.mp hv).resolve_left hvw)
        · exact hopen v hv

/-! ## The loop invariant -/

/-- `degree` counts the in-edges whose source is not ordered yet; the ready nodes are the unordered
ones with none left; and every ordered node has all its predecessors before it. -/
structure Invariant (n : ℕ) (edges : List (ℕ × ℕ)) (degree : ℕ → ℕ) (ready done : List ℕ) : Prop where
  nodup : (done ++ ready).Nodup
  bound : ∀ v ∈ done ++ ready, v < n
  counts : ∀ v, degree v = edges.countP (fun e => decide (e.2 = v ∧ e.1 ∉ done))
  open_iff : ∀ v < n, degree v = 0 ↔ v ∈ done ++ ready
  precedes : ∀ pre v post, done = pre ++ v :: post → ∀ u, (u, v) ∈ edges → u ∈ pre

theorem invariant_initial (n : ℕ) (edges : List (ℕ × ℕ)) :
    Invariant n edges (inDegree edges) (initialReady edges n) [] where
  nodup := by
    rw [nil_append, initialReady, nodup_reverse]
    exact List.Nodup.filter _ nodup_range
  bound := by
    intro v hv
    simp only [nil_append, initialReady, mem_reverse, mem_filter, mem_range] at hv
    exact hv.1
  counts := by
    intro v
    simp [inDegree]
  open_iff := by
    intro v hv
    simp [initialReady, hv]
  precedes := by
    intro pre v post h
    simp at h

theorem count_successors (edges : List (ℕ × ℕ)) (u v : ℕ) :
    (successors edges u).count v = edges.countP (fun e => decide (e.2 = v ∧ e.1 = u)) := by
  unfold successors
  rw [count, countP_map, countP_filter]
  congr 1
  funext e
  simp only [Function.comp_apply, Bool.decide_and]
  rfl

variable {done : List ℕ}

theorem countP_split (edges : List (ℕ × ℕ)) (node v : ℕ) (hnot : node ∉ done) :
    edges.countP (fun e => decide (e.2 = v ∧ e.1 ∉ done)) =
      edges.countP (fun e => decide (e.2 = v ∧ e.1 ∉ done ++ [node]))
        + edges.countP (fun e => decide (e.2 = v ∧ e.1 = node)) := by
  induction edges with
  | nil => rfl
  | cons e edges ih =>
    rw [countP_cons, countP_cons, countP_cons, ih]
    by_cases hv : e.2 = v
    · by_cases hn : e.1 = node
      · simp [hv, hn, hnot]
        omega
      · by_cases hd : e.1 ∈ done
        · simp [hv, hn, hd]
        · simp [hv, hn, hd]
          omega
    · simp [hv]

variable {n : ℕ} {edges : List (ℕ × ℕ)}

theorem invariant_step (hedges : ∀ e ∈ edges, e.1 < n ∧ e.2 < n) {node : ℕ} {ready : List ℕ}
    (h : Invariant n edges degree (node :: ready) done) :
    Invariant n edges (release (successors edges node) degree ready).1
      (release (successors edges node) degree ready).2 (done ++ [node]) := by
  have hnodup := h.nodup
  rw [nodup_append] at hnodup
  obtain ⟨hdone, hready, hdisj⟩ := hnodup
  obtain ⟨hnode, hready⟩ := nodup_cons.mp hready
  have hnd : node ∉ done := fun hm => hdisj node hm node mem_cons_self rfl
  have hle : ∀ v, (successors edges node).count v ≤ degree v := by
    intro v
    rw [count_successors, h.counts v, countP_split edges node v hnd]
    omega
  have hdegree : ∀ v, (release (successors edges node) degree ready).1 v =
      edges.countP (fun e => decide (e.2 = v ∧ e.1 ∉ done ++ [node])) := by
    intro v
    rw [release_degree, count_successors, h.counts v, countP_split edges node v hnd]
    omega
  have hzero : ∀ v ∈ ready, degree v = 0 := fun v hv =>
    (h.open_iff v (h.bound v (by simp [hv]))).mpr (by simp [hv])
  have hmem := mem_release_ready (successors edges node) degree ready hle
  have hedge : ∀ v, v ∈ successors edges node ↔ (node, v) ∈ edges := by
    intro v
    simp [successors]
  have hfresh : ∀ v, v ∈ successors edges node → v ∉ done ++ (node :: ready) := by
    intro v hv hm
    have hz := (h.open_iff v (hedges _ ((hedge v).mp hv)).2).mpr hm
    have hc := hle v
    have hp : 0 < (successors edges node).count v := count_pos_iff.mpr hv
    omega
  refine ⟨?_, ?_, hdegree, ?_, ?_⟩
  · rw [nodup_append]
    refine ⟨?_, release_ready_nodup hle hready hzero, ?_⟩
    · rw [nodup_append]
      refine ⟨hdone, nodup_singleton node, ?_⟩
      intro a ha b hb hab
      rw [mem_singleton] at hb
      exact hnd (hb ▸ hab ▸ ha)
    · intro a ha b hb hab
      subst hab
      rcases (hmem a).mp hb with hb | ⟨hb, _⟩
      · rcases mem_append.mp ha with ha | ha
        · exact hdisj a ha a (mem_cons_of_mem _ hb) rfl
        · rw [mem_singleton] at ha
          exact hnode (ha ▸ hb)
      · refine hfresh a hb ?_
        rcases mem_append.mp ha with ha | ha
        · exact mem_append_left _ ha
        · rw [mem_singleton] at ha
          simp [ha]
  · intro v hv
    rcases mem_append.mp hv with hv | hv
    · apply h.bound
      rcases mem_append.mp hv with hv | hv
      · exact mem_append_left _ hv
      · rw [mem_singleton] at hv
        simp [hv]
    · rcases (hmem v).mp hv with hv | ⟨hv, _⟩
      · exact h.bound v (by simp [hv])
      · exact (hedges _ ((hedge v).mp hv)).2
  · intro v hv
    rw [release_degree, mem_append, hmem v]
    have hopen := h.open_iff v hv
    constructor
    · intro hz
      by_cases hs : v ∈ successors edges node
      · exact .inr (.inr ⟨hs, by have := hle v; omega⟩)
      · rw [count_eq_zero_of_not_mem hs, Nat.sub_zero] at hz
        rcases mem_append.mp (hopen.mp hz) with hm | hm
        · exact .inl (mem_append_left _ hm)
        · rcases mem_cons.mp hm with hm | hm
          · exact .inl (by simp [hm])
          · exact .inr (.inl hm)
    · rintro (hm | hm | ⟨_, hm⟩)
      · have hz : degree v = 0 := by
          apply hopen.mpr
          rcases mem_append.mp hm with hm | hm
          · exact mem_append_left _ hm
          · rw [mem_singleton] at hm
            simp [hm]
        omega
      · have hz := hzero v hm
        omega
      · omega
  · intro pre v post heq u hu
    rcases eq_nil_or_concat post with hp | ⟨post', w, hp⟩
    · subst hp
      have hsplit := append_inj' heq rfl
      obtain ⟨hpre, hv⟩ := hsplit
      obtain rfl : node = v := by simpa using hv
      -- all in-edges of an open node come from ordered nodes
      have hz := (h.open_iff node (h.bound node (by simp))).mpr (by simp)
      rw [h.counts node, countP_eq_zero] at hz
      have := hz (u, node) hu
      rw [← hpre]
      simpa using this
    · subst hp
      have heq' : done ++ [node] = (pre ++ v :: post') ++ [w] := by simpa using heq
      obtain ⟨hd, _⟩ := append_inj' heq' rfl
      exact h.precedes pre v post' hd u hu

/-! ## The result -/

theorem drain_invariant (n : ℕ) (edges : List (ℕ × ℕ)) (hedges : ∀ e ∈ edges, e.1 < n ∧ e.2 < n)
    (fuel : ℕ) (degree : ℕ → ℕ) (ready done : List ℕ) (h : Invariant n edges degree ready done)
    (hfuel : n ≤ done.length + fuel) :
    ∃ degree', Invariant n edges degree' [] (drain edges fuel degree ready done) := by
  induction fuel generalizing degree ready done with
  | zero =>
    -- `n` distinct nodes below `n` are ordered, so nothing can be ready
    have hready : ready = [] := by
      rcases ready with _ | ⟨w, ready⟩
      · rfl
      · exfalso
        have hsub : (done ++ w :: ready) ⊆ range n := fun v hv => mem_range.mpr (h.bound v hv)
        have hlen := (subperm_of_subset h.nodup hsub).length_le
        simp only [length_append, length_cons, length_range] at hlen
        omega
    subst hready
    exact ⟨degree, h⟩
  | succ fuel ih =>
    cases ready with
    | nil => exact ⟨degree, h⟩
    | cons node ready =>
      rw [drain]
      apply ih _ _ _ (invariant_step hedges h)
      simp only [length_append, length_singleton]
      omega

theorem order_invariant (hedges : ∀ e ∈ edges, e.1 < n ∧ e.2 < n) :
    ∃ degree, Invariant n edges degree [] (order n edges) :=
  drain_invariant n edges hedges n _ _ [] (invariant_initial n edges) (by simp)

def Edge (edges : List (ℕ × ℕ)) (u v : ℕ) : Prop := (u, v) ∈ edges

theorem transGen_bound (hedges : ∀ e ∈ edges, e.1 < n ∧ e.2 < n)
    {u v : ℕ} (h : TransGen (Edge edges) u v) : u < n ∧ v < n := by
  induction h with
  | single h => exact ⟨(hedges _ h).1, (hedges _ h).2⟩
  | tail _ h ih => exact ⟨ih.1, (hedges _ h).2⟩

theorem transGen_precedes (n : ℕ) (edges : List (ℕ × ℕ)) (degree : ℕ → ℕ) (done : List ℕ)
    (h : Invariant n edges degree [] done) (u v : ℕ) (huv : TransGen (Edge edges) u v)
    (pre post : List ℕ) (hd : done = pre ++ v :: post) : u ∈ pre := by
  induction huv generalizing pre post with
  | single he => exact h.precedes pre _ post hd u he
  | @tail b c _ he ih =>
    have hb := h.precedes pre c post hd b he
    obtain ⟨pre', mid, hpre⟩ := append_of_mem hb
    have := ih pre' (mid ++ c :: post) (by rw [hd, hpre]; simp)
    rw [hpre]
    exact mem_append_left _ this

theorem not_cyclic_of_ordered (h : Invariant n edges degree [] done) {v : ℕ} (hv : v ∈ done) :
    ¬ TransGen (Edge edges) v v := by
  intro hcycle
  obtain ⟨pre, post, hd⟩ := append_of_mem hv
  have hpre := transGen_precedes n edges degree done h v v hcycle pre post hd
  have hnodup := h.nodup
  rw [append_nil, hd, nodup_append] at hnodup
  exact hnodup.2.2 v hpre v mem_cons_self rfl

theorem exists_cycle_of_predecessors (n : ℕ) (R : ℕ → ℕ → Prop) (S : ℕ → Prop)
    (hS : ∀ v, S v → v < n) (hpred : ∀ v, S v → ∃ u, S u ∧ R u v) (v : ℕ) (hv : S v) :
    ∃ u, TransGen R u u := by
  choose! pred hpredS hpredR using hpred
  -- walking backwards from `v` stays in `S`, so two of the first `n + 1` nodes coincide
  let walk : ℕ → ℕ := fun k => Nat.iterate pred k v
  have hwalkS : ∀ k, S (walk k) := by
    intro k
    induction k with
    | zero => exact hv
    | succ k ih =>
      show S (Nat.iterate pred (k + 1) v)
      rw [Function.iterate_succ_apply']
      exact hpredS _ ih
  have hstep : ∀ k, R (walk (k + 1)) (walk k) := by
    intro k
    show R (Nat.iterate pred (k + 1) v) (walk k)
    rw [Function.iterate_succ_apply']
    exact hpredR _ (hwalkS k)
  have hpath : ∀ i d, TransGen R (walk (i + d + 1)) (walk i) := by
    intro i d
    induction d with
    | zero => exact TransGen.single (hstep i)
    | succ d ih => exact TransGen.head (hstep (i + d + 1)) ih
  obtain ⟨i, j, hij, heq⟩ := (Finite.exists_ne_map_eq_of_infinite
    (fun k : ℕ => (⟨walk k, hS _ (hwalkS k)⟩ : Fin n)))
  have heq' : walk i = walk j := by simpa using heq
  rcases Nat.lt_or_gt_of_ne hij with hlt | hlt
  · obtain ⟨d, rfl⟩ := Nat.exists_eq_add_of_lt hlt
    have hp := hpath i d
    rw [← heq'] at hp
    exact ⟨walk i, hp⟩
  · obtain ⟨d, rfl⟩ := Nat.exists_eq_add_of_lt hlt
    have hp := hpath j d
    rw [heq'] at hp
    exact ⟨walk j, hp⟩

theorem order_complete_of_acyclic (hacyclic : ∀ v, ¬ TransGen (Edge edges) v v)
    (h : Invariant n edges degree [] done) (hedges : ∀ e ∈ edges, e.1 < n ∧ e.2 < n)
    (v : ℕ) (hv : v < n) : v ∈ done := by
  by_contra hnot
  obtain ⟨u, hu⟩ := exists_cycle_of_predecessors n (Edge edges) (fun w => w < n ∧ w ∉ done)
    (fun w hw => hw.1) (fun w hw => by
      -- an unordered node has an open in-edge
      have hpos : degree w ≠ 0 := fun hz => hw.2 (by simpa using (h.open_iff w hw.1).mp hz)
      rw [h.counts w] at hpos
      obtain ⟨e, he, hprop⟩ := countP_pos_iff.mp (Nat.pos_of_ne_zero hpos)
      simp only [decide_eq_true_eq] at hprop
      refine ⟨e.1, ⟨(hedges e he).1, hprop.2⟩, ?_⟩
      show (e.1, w) ∈ edges
      rw [← hprop.1]
      exact he) v ⟨hv, hnot⟩
  exact hacyclic u hu

theorem order_perm_of_acyclic (hedges : ∀ e ∈ edges, e.1 < n ∧ e.2 < n)
    (hacyclic : ∀ v, ¬ TransGen (Edge edges) v v) : (order n edges).Perm (range n) := by
  obtain ⟨degree, h⟩ := order_invariant hedges
  refine (perm_ext_iff_of_nodup (by simpa using h.nodup) nodup_range).mpr fun v => ?_
  rw [mem_range]
  exact ⟨fun hv => h.bound v (by simp [hv]), order_complete_of_acyclic hacyclic h hedges v⟩

theorem order_length_iff (hedges : ∀ e ∈ edges, e.1 < n ∧ e.2 < n) :
    (order n edges).length = n ↔ ∀ v, ¬ TransGen (Edge edges) v v := by
  obtain ⟨degree, h⟩ := order_invariant hedges
  constructor
  · intro hlen v hcycle
    have hv := (transGen_bound hedges hcycle).1
    have hnodup : (order n edges).Nodup := by simpa using h.nodup
    have hsub : order n edges ⊆ range n := fun v hv => mem_range.mpr (h.bound v (by simp [hv]))
    have hperm : (order n edges).Perm (range n) :=
      (subperm_of_subset hnodup hsub).perm_of_length_le (by rw [length_range, hlen])
    exact not_cyclic_of_ordered h (hperm.mem_iff.mpr (mem_range.mpr hv)) hcycle
  · intro hacyclic
    rw [(order_perm_of_acyclic hedges hacyclic).length_eq, length_range]

open Classical in
theorem exists_linear_extension {R : ℕ → ℕ → Prop} (hbound : ∀ a b, R a b → a < n ∧ b < n)
    (hacyclic : ∀ v, ¬ TransGen R v v) :
    ∃ order : List ℕ, order.Perm (range n) ∧ order.Pairwise fun a b => ¬ R b a := by
  let edges : List (ℕ × ℕ) :=
    ((range n).flatMap fun a => (range n).map fun b => (a, b)).filter fun e => decide (R e.1 e.2)
  have hmem (a b : ℕ) : (a, b) ∈ edges ↔ R a b := by
    simp only [edges, mem_filter, mem_flatMap, mem_map, mem_range, decide_eq_true_eq]
    refine ⟨fun h => h.2, fun h => ⟨⟨a, (hbound a b h).1, b, (hbound a b h).2, rfl⟩, h⟩⟩
  have hedges : ∀ e ∈ edges, e.1 < n ∧ e.2 < n := fun e he => hbound e.1 e.2 ((hmem e.1 e.2).mp he)
  have hperm := order_perm_of_acyclic hedges fun v hcycle =>
    hacyclic v (TransGen.mono (fun a b h => (hmem a b).mp h) v v hcycle)
  obtain ⟨degree, h⟩ := order_invariant hedges
  refine ⟨order n edges, hperm, pairwise_iff_getElem.mpr fun i j hi hj hij hR => ?_⟩
  -- the predecessor `order[j]` of `order[i]` stands before it
  have hpre := h.precedes ((order n edges).take i) (order n edges)[i] ((order n edges).drop (i + 1))
    (by rw [getElem_cons_drop, take_append_drop]) _ ((hmem _ _).mpr hR)
  obtain ⟨k, hk, heq⟩ := mem_take_iff_getElem.mp hpre
  have hnodup : (order n edges).Nodup := hperm.nodup_iff.mpr nodup_range
  have hkj : k = j := (hnodup.getElem_inj_iff).mp heq
  omega

end MustDpor.TopologicalOrder

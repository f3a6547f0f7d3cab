import Mathlib.Logic.Relation
import Mathlib.Logic.Function.Basic
import Mathlib.Tactic.Common

/-! # Depth-first cycle search with three colours

A node is grey while the search is below it and black once every successor has been finished.
`hasCycle_iff`: over nodes `0 … n-1`, meeting a grey successor is the same as having a cycle. -/

namespace MustDpor.ColourSearch
set_option autoImplicit false
open List Function Relation

inductive Colour where
  | white
  | grey
  | black
  deriving DecidableEq, Repr

abbrev Colouring := ℕ → Colour

/-- The loop over the successors of one node, with the recursive call as a parameter. -/
def scan (visit : ℕ → Colouring → Bool × Colouring) : List ℕ → Colouring → Bool × Colouring
  | [], colour => (false, colour)
  | node :: rest, colour =>
    if colour node = .grey then (true, colour)
    else if colour node = .white then
      match visit node colour with
      | (true, colour') => (true, colour')
      | (false, colour') => scan visit rest colour'
    else scan visit rest colour

def visit (successors : ℕ → List ℕ) : ℕ → ℕ → Colouring → Bool × Colouring
  | 0, _, colour => (false, colour)
  | fuel + 1, node, colour =>
    match scan (visit successors fuel) (successors node) (Function.update colour node .grey) with
    | (true, colour') => (true, colour')
    | (false, colour') => (false, Function.update colour' node .black)

def searchAll (successors : ℕ → List ℕ) (fuel : ℕ) : List ℕ → Colouring → Bool
  | [], _ => false
  | node :: rest, colour =>
    if colour node = .white then
      match visit successors fuel node colour with
      | (true, _) => true
      | (false, colour') => searchAll successors fuel rest colour'
    else searchAll successors fuel rest colour

/-- The recursion is at most `n` deep: every level turns one white node grey. -/
def hasCycle (n : ℕ) (successors : ℕ → List ℕ) : Bool :=
  searchAll successors n (List.range n) (fun _ => .white)

/-! ## The invariant of the search -/

section Invariant
variable (n : ℕ) (successors : ℕ → List ℕ)

def Edge (u v : ℕ) : Prop := v ∈ successors u

def whites (colour : Colouring) : ℕ := (List.range n).countP (fun v => decide (colour v = .white))

/-- Finished nodes only lead to finished nodes, and lie on no cycle. -/
structure Settled (colour : Colouring) : Prop where
  closed : ∀ v, colour v = .black → ∀ w ∈ successors v, colour w = .black
  acyclic : ∀ v, colour v = .black → ¬ Relation.TransGen (Edge successors) v v

/-- What a search that found no cycle leaves behind: grey nodes are as before, black ones stay. -/
structure Progress (before after : Colouring) : Prop where
  settled : Settled successors after
  grey_iff : ∀ v, after v = .grey ↔ before v = .grey
  black_of : ∀ v, before v = .black → after v = .black
  fewer : whites n after ≤ whites n before

/-- Every grey node leads to `node`. -/
def GreyPath (colour : Colouring) (node : ℕ) : Prop :=
  ∀ v, colour v = .grey → Relation.ReflTransGen (Edge successors) v node

def Spec (before : Colouring) (result : Bool × Colouring) (finished : List ℕ) : Prop :=
  (result.1 = true → ∃ v, Relation.TransGen (Edge successors) v v) ∧
    (result.1 = false → Progress n successors before result.2 ∧ ∀ v ∈ finished, result.2 v = .black)

variable {colour : Colouring}

theorem Progress.refl (h : Settled successors colour) : Progress n successors colour colour :=
  ⟨h, fun _ => Iff.rfl, fun _ hv => hv, Nat.le_refl _⟩

theorem Progress.trans {a b c : Colouring} (hab : Progress n successors a b)
    (hbc : Progress n successors b c) : Progress n successors a c :=
  ⟨hbc.settled, fun v => (hbc.grey_iff v).trans (hab.grey_iff v),
    fun v hv => hbc.black_of v (hab.black_of v hv), Nat.le_trans hbc.fewer hab.fewer⟩

theorem reflTransGen_black (h : Settled successors colour) {v w : ℕ}
    (hv : colour v = .black) (hvw : ReflTransGen (Edge successors) v w) :
    colour w = .black := by
  induction hvw with
  | refl => exact hv
  | tail _ he ih => exact h.closed _ ih _ he

/-- Scanning the successors of a grey `node`: the induction is on the list, and every call of
`visit` only has to be right on white nodes. -/
theorem scan_spec (visitOne : ℕ → Colouring → Bool × Colouring) (node bound : ℕ)
    (hvisit : ∀ w colour, w < n → colour w = .white → whites n colour ≤ bound →
      Settled successors colour → GreyPath successors colour w →
      Spec n successors colour (visitOne w colour) [w])
    (list : List ℕ) (hlist : ∀ w ∈ list, w ∈ successors node ∧ w < n) (colour : Colouring)
    (hbound : whites n colour ≤ bound) (hsettled : Settled successors colour)
    (hgrey : GreyPath successors colour node) :
    Spec n successors colour (scan visitOne list colour) list := by
  induction list generalizing colour with
  | nil =>
    refine ⟨fun h => (by simp [scan] at h), fun _ => ⟨?_, by simp⟩⟩
    exact Progress.refl n successors hsettled
  | cons w rest ih =>
    obtain ⟨hw, hwn⟩ := hlist w mem_cons_self
    have hrest : ∀ x ∈ rest, x ∈ successors node ∧ x < n := fun x hx =>
      hlist x (mem_cons_of_mem _ hx)
    have hedge : Edge successors node w := hw
    cases hcolour : colour w with
    | grey =>
      rw [scan, if_pos hcolour]
      refine ⟨fun _ => ⟨w, ?_⟩, fun h => (by simp at h)⟩
      exact (TransGen.tail' (hgrey w hcolour) hedge)
    | black =>
      rw [scan, if_neg (by simp [hcolour]), if_neg (by simp [hcolour])]
      obtain ⟨hcycle, hdone⟩ := ih hrest colour hbound hsettled hgrey
      refine ⟨hcycle, fun hfalse => ?_⟩
      obtain ⟨hprogress, hblack⟩ := hdone hfalse
      refine ⟨hprogress, fun x hx => ?_⟩
      rcases mem_cons.mp hx with rfl | hx
      · exact hprogress.black_of _ hcolour
      · exact hblack x hx
    | white =>
      rw [scan, if_neg (by simp [hcolour]), if_pos hcolour]
      have hpath : GreyPath successors colour w := fun v hv => (hgrey v hv).tail hedge
      obtain ⟨hcycle, hdone⟩ := hvisit w colour hwn hcolour hbound hsettled hpath
      rcases hcall : visitOne w colour with ⟨found, colour'⟩
      rw [hcall] at hcycle hdone
      cases found with
      | true => exact ⟨fun _ => hcycle rfl, fun h => (by simp at h)⟩
      | false =>
        obtain ⟨hprogress, hblack⟩ := hdone rfl
        have hgrey' : GreyPath successors colour' node := fun v hv =>
          hgrey v ((hprogress.grey_iff v).mp hv)
        obtain ⟨hcycle', hdone'⟩ := ih hrest colour' (Nat.le_trans hprogress.fewer hbound)
          hprogress.settled hgrey'
        refine ⟨hcycle', fun hfalse => ?_⟩
        obtain ⟨hprogress', hblack'⟩ := hdone' hfalse
        refine ⟨Progress.trans n successors hprogress hprogress', fun x hx => ?_⟩
        rcases mem_cons.mp hx with rfl | hx
        · exact hprogress'.black_of _ (hblack _ mem_cons_self)
        · exact hblack' x hx

variable {node : ℕ}

theorem whites_update_grey (hn : node < n) (hwhite : colour node = .white) :
    whites n (update colour node .grey) + 1 = whites n colour := by
  unfold whites
  have hmem : node ∈ range n := mem_range.mpr hn
  have hnodup : (range n).Nodup := nodup_range
  generalize range n = nodes at hmem hnodup
  induction nodes with
  | nil => simp at hmem
  | cons v rest ih =>
    obtain ⟨hv, hrest⟩ := nodup_cons.mp hnodup
    rw [countP_cons, countP_cons]
    rcases mem_cons.mp hmem with rfl | hmem
    · have hsame : rest.countP (fun x => decide (update colour node .grey x = .white)) =
          rest.countP (fun x => decide (colour x = .white)) := by
        apply countP_congr
        intro x hx
        have hne : x ≠ node := fun h => hv (h ▸ hx)
        rw [update_of_ne hne]
      rw [hsame, update_self, hwhite]
      simp
    · have hne : v ≠ node := fun h => hv (h ▸ hmem)
      rw [update_of_ne hne, ← ih hmem hrest]
      omega

theorem whites_update_black_le (colour : Colouring) (node : ℕ) :
    whites n (update colour node .black) ≤ whites n colour := by
  unfold whites
  apply countP_mono_left
  intro v _ hv
  by_cases h : v = node
  · subst h
    simp at hv
  · rwa [update_of_ne h] at hv

theorem Settled.update_grey (h : Settled successors colour) (hwhite : colour node = .white) :
    Settled successors (update colour node .grey) := by
  have hblack : ∀ v, update colour node .grey v = .black ↔ colour v = .black := by
    intro v
    by_cases hv : v = node
    · subst hv
      simp [hwhite]
    · rw [update_of_ne hv]
  refine ⟨fun v hv w hw => ?_, fun v hv => h.acyclic v ((hblack v).mp hv)⟩
  exact (hblack w).mpr (h.closed v ((hblack v).mp hv) w hw)

theorem Settled.update_black (h : Settled successors colour)
    (hgrey : colour node = .grey) (hsucc : ∀ w ∈ successors node, colour w = .black) :
    Settled successors (update colour node .black) := by
  have hof : ∀ v, colour v = .black → update colour node .black v = .black := by
    intro v hv
    by_cases hvn : v = node
    · subst hvn
      simp
    · rwa [update_of_ne hvn]
  refine ⟨fun v hv w hw => ?_, fun v hv => ?_⟩
  · by_cases hvn : v = node
    · subst hvn
      exact hof w (hsucc w hw)
    · rw [update_of_ne hvn] at hv
      exact hof w (h.closed v hv w hw)
  · by_cases hvn : v = node
    · subst hvn
      intro hcycle
      -- the first step of a cycle enters the black set, which never leads back to a grey node
      obtain ⟨w, hw, hback⟩ := TransGen.head'_iff.mp hcycle
      have := reflTransGen_black successors h (hsucc w hw) hback
      rw [hgrey] at this
      cases this
    · rw [update_of_ne hvn] at hv
      exact h.acyclic v hv

theorem visit_spec (hbound : ∀ v < n, ∀ w ∈ successors v, w < n) {fuel : ℕ} :
    ∀ node colour, node < n → colour node = .white → whites n colour ≤ fuel →
      Settled successors colour → GreyPath successors colour node →
      Spec n successors colour (visit successors fuel node colour) [node] := by
  induction fuel with
  | zero =>
    intro node colour hn hwhite hle _ _
    have := whites_update_grey n hn hwhite
    omega
  | succ fuel ih =>
    intro node colour hn hwhite hle hsettled hgrey
    have hcount := whites_update_grey n hn hwhite
    have hgrey' : GreyPath successors (update colour node .grey) node := by
      intro v hv
      by_cases hvn : v = node
      · subst hvn
        exact ReflTransGen.refl
      · rw [update_of_ne hvn] at hv
        exact hgrey v hv
    obtain ⟨hcycle, hdone⟩ := scan_spec n successors (visit successors fuel) node fuel ih
      (successors node) (fun w hw => ⟨hw, hbound node hn w hw⟩) (update colour node .grey)
      (by omega) (Settled.update_grey successors hsettled hwhite) hgrey'
    rcases hcall : scan (visit successors fuel) (successors node) (update colour node .grey)
      with ⟨found, colour'⟩
    rw [hcall] at hcycle hdone
    rw [visit, hcall]
    cases found with
    | true => exact ⟨fun _ => hcycle rfl, fun h => (by simp at h)⟩
    | false =>
      obtain ⟨hprogress, hblack⟩ := hdone rfl
      have hnode : colour' node = .grey := (hprogress.grey_iff node).mpr (by simp)
      refine ⟨fun h => (by simp at h), fun _ => ⟨⟨?_, ?_, ?_, ?_⟩, ?_⟩⟩
      all_goals dsimp only
      · exact Settled.update_black successors hprogress.settled hnode hblack
      · intro v
        by_cases hvn : v = node
        · subst hvn
          simp [hwhite]
        · rw [update_of_ne hvn, hprogress.grey_iff v, update_of_ne hvn]
      · intro v hv
        by_cases hvn : v = node
        · subst hvn
          simp
        · rw [update_of_ne hvn]
          apply hprogress.black_of
          rwa [update_of_ne hvn]
      · have h1 := whites_update_black_le n colour' node
        have h2 : whites n colour' ≤ whites n (update colour node .grey) := hprogress.fewer
        omega
      · intro v hv
        rw [mem_singleton] at hv
        subst hv
        simp

/-- All edges run between nodes below `n`. -/
def InRange : Prop := ∀ v, ∀ w ∈ successors v, v < n ∧ w < n

theorem searchAll_spec (hrange : InRange n successors) (nodes : List ℕ)
    (hnodes : ∀ v ∈ nodes, v < n) (colour : Colouring) (hsettled : Settled successors colour)
    (hgrey : ∀ v, colour v ≠ .grey) (hwhites : whites n colour ≤ n) (hrest : ∀ v < n, v ∉ nodes → colour v = .black) :
    searchAll successors n nodes colour = true ↔ ∃ v, TransGen (Edge successors) v v := by
  induction nodes generalizing colour with
  | nil =>
    refine ⟨fun h => (by simp [searchAll] at h), ?_⟩
    rintro ⟨v, hcycle⟩
    obtain ⟨w, hw, _⟩ := TransGen.head'_iff.mp hcycle
    exact absurd hcycle (hsettled.acyclic v (hrest v (hrange v w hw).1 (by simp)))
  | cons node rest ih =>
    have hnodes' : ∀ v ∈ rest, v < n := fun v hv => hnodes v (mem_cons_of_mem _ hv)
    by_cases hwhite : colour node = .white
    · obtain ⟨hcycle, hdone⟩ := visit_spec n successors (fun v _ w hw => (hrange v w hw).2) node
        colour (hnodes node mem_cons_self) hwhite hwhites hsettled
        (fun v hv => absurd hv (hgrey v))
      rw [searchAll, if_pos hwhite]
      rcases hcall : visit successors n node colour with ⟨found, colour'⟩
      rw [hcall] at hcycle hdone
      cases found with
      | true => exact ⟨fun _ => hcycle rfl, fun _ => rfl⟩
      | false =>
        obtain ⟨hprogress, hblack⟩ := hdone rfl
        apply ih hnodes' colour' hprogress.settled
        · exact fun v hv => hgrey v ((hprogress.grey_iff v).mp hv)
        · exact Nat.le_trans hprogress.fewer hwhites
        · intro v hv hvr
          by_cases hvn : v = node
          · subst hvn
            exact hblack v mem_cons_self
          · exact hprogress.black_of v (hrest v hv (by simp [hvn, hvr]))
    · rw [searchAll, if_neg hwhite]
      apply ih hnodes' colour hsettled hgrey hwhites
      intro v hv hvr
      by_cases hvn : v = node
      · subst hvn
        cases hc : colour v with
        | white => exact absurd hc hwhite
        | grey => exact absurd hc (hgrey v)
        | black => rfl
      · exact hrest v hv (by simp [hvn, hvr])

theorem hasCycle_iff (hrange : InRange n successors) :
    hasCycle n successors = true ↔ ∃ v, TransGen (Edge successors) v v := by
  apply searchAll_spec n successors hrange
  · exact fun v hv => mem_range.mp hv
  · exact ⟨fun v hv => (by cases hv), fun v hv => (by cases hv)⟩
  · exact fun v hv => (by cases hv)
  · exact Nat.le_trans countP_le_length (by simp)
  · exact fun v hv hn => absurd (mem_range.mpr hv) hn

end Invariant
end MustDpor.ColourSearch

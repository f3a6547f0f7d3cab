import Mathlib.Algebra.Order.Group.Multiset
import Mathlib.Tactic.Common

/-! # Search forests

The calls of a recursive search in the order it makes them: a node is a call with its inner calls, a
leaf is an answer, and a `fail` is where the search raises. `run` is what a caller sees, namely the
answers up to the first failure; `leaves` and `nodes` list everything that is there. -/

namespace MustDpor
set_option autoImplicit false
open List

inductive Forest (N A E : Type) where
  | nil
  | leaf (answer : A) (rest : Forest N A E)
  | fail (error : E) (rest : Forest N A E)
  | node (call : N) (inner rest : Forest N A E)

namespace Forest
variable {N A E : Type}

def append : Forest N A E → Forest N A E → Forest N A E
  | nil, g => g
  | leaf a rest, g => leaf a (append rest g)
  | fail e rest, g => fail e (append rest g)
  | node n inner rest, g => node n inner (append rest g)

instance : Append (Forest N A E) := ⟨append⟩

/-- Answers, and the exception that ended them. -/
structure Trace (A E : Type) where
  answers : List A
  raised : Option E

/-- Sequential composition: nothing follows an exception. -/
def Trace.andThen (t u : Trace A E) : Trace A E :=
  match t.raised with
  | some e => ⟨t.answers, some e⟩
  | none => ⟨t.answers ++ u.answers, u.raised⟩

def run : Forest N A E → Trace A E
  | nil => ⟨[], none⟩
  | leaf a rest => ⟨a :: rest.run.answers, rest.run.raised⟩
  | fail e _ => ⟨[], some e⟩
  | node _ inner rest => inner.run.andThen rest.run

def leaves : Forest N A E → List A
  | nil => []
  | leaf a rest => a :: rest.leaves
  | fail _ rest => rest.leaves
  | node _ inner rest => inner.leaves ++ rest.leaves

def fails : Forest N A E → List E
  | nil => []
  | leaf _ rest => rest.fails
  | fail e rest => e :: rest.fails
  | node _ inner rest => inner.fails ++ rest.fails

def nodes : Forest N A E → List N
  | nil => []
  | leaf _ rest => rest.nodes
  | fail _ rest => rest.nodes
  | node n inner rest => n :: (inner.nodes ++ rest.nodes)

/-- The number of calls. -/
def size : Forest N A E → ℕ
  | nil => 0
  | leaf _ rest => rest.size
  | fail _ rest => rest.size
  | node _ inner rest => inner.size + rest.size + 1

/-! ## Append -/

variable (f : Forest N A E)
@[simp] theorem nil_append : nil ++ f = f := rfl

@[simp] theorem leaf_append (a : A) (rest f : Forest N A E) :
    leaf a rest ++ f = leaf a (rest ++ f) := rfl

variable (e : E)

@[simp] theorem fail_append (rest f : Forest N A E) : fail e rest ++ f = fail e (rest ++ f) := rfl

variable (n : N)

@[simp] theorem node_append (inner rest f : Forest N A E) : node n inner rest ++ f = node n inner (rest ++ f) := rfl

@[simp] theorem append_nil : f ++ nil = f := by
  induction f with
  | nil => rfl
  | leaf a rest ih => rw [leaf_append, ih]
  | fail e rest ih => rw [fail_append, ih]
  | node n inner rest _ ih => rw [node_append, ih]

theorem append_assoc (f g h : Forest N A E) : f ++ g ++ h = f ++ (g ++ h) := by
  induction f with
  | nil => rfl
  | leaf a rest ih => simp only [leaf_append, ih]
  | fail e rest ih => simp only [fail_append, ih]
  | node n inner rest _ ih => simp only [node_append, ih]

@[simp] theorem leaves_append (f g : Forest N A E) : (f ++ g).leaves = f.leaves ++ g.leaves := by
  induction f with
  | nil => rfl
  | leaf _ _ ih | fail _ _ ih | node _ _ _ _ ih => simp [leaves, ih]

@[simp] theorem fails_append (f g : Forest N A E) : (f ++ g).fails = f.fails ++ g.fails := by
  induction f with
  | nil => rfl
  | leaf _ _ ih | fail _ _ ih | node _ _ _ _ ih => simp [fails, ih]

@[simp] theorem nodes_append (f g : Forest N A E) : (f ++ g).nodes = f.nodes ++ g.nodes := by
  induction f with
  | nil => rfl
  | leaf _ _ ih | fail _ _ ih | node _ _ _ _ ih => simp [nodes, ih]

@[simp] theorem size_append (f g : Forest N A E) : (f ++ g).size = f.size + g.size := by
  induction f with
  | nil => simp [size]
  | leaf _ _ ih | fail _ _ ih => simp [size, ih]
  | node n inner rest _ ih =>
    simp only [node_append, size, ih]
    omega

/-! ## Running -/

theorem Trace.andThen_assoc (t u v : Trace A E) : (t.andThen u).andThen v = t.andThen (u.andThen v) := by
  obtain ⟨ta, tr⟩ := t
  obtain ⟨ua, ur⟩ := u
  cases tr <;> cases ur <;> simp [andThen]

@[simp] theorem Trace.andThen_empty (t : Trace A E) : t.andThen ⟨[], none⟩ = t := by
  obtain ⟨ta, tr⟩ := t
  cases tr <;> simp [andThen]

@[simp] theorem run_append (f g : Forest N A E) : (f ++ g).run = f.run.andThen g.run := by
  induction f with
  | nil | fail => simp [run, Trace.andThen]
  | leaf a rest ih =>
    simp only [leaf_append, run, ih]
    unfold Trace.andThen
    cases rest.run.raised <;> simp
  | node n inner rest _ ih =>
    simp only [node_append, run, ih]
    exact (Trace.andThen_assoc _ _ _).symm

theorem run_of_fails_eq_nil (h : f.fails = []) : f.run = ⟨f.leaves, none⟩ := by
  induction f with
  | nil => rfl
  | leaf a rest ih =>
    have hr := ih h
    simp [run, leaves, hr]
  | fail e rest ih => simp [fails] at h
  | node n inner rest ihi ihr =>
    have hsplit := append_eq_nil_iff.mp h
    rw [run, ihi hsplit.1, ihr hsplit.2]
    rfl

theorem run_raised_none_iff : f.run.raised = none ↔ f.fails = [] := by
  induction f with
  | nil | fail => simp [run, fails]
  | leaf a rest ih => simpa [run, fails] using ih
  | node n inner rest ihi ihr =>
    simp only [run, fails, append_eq_nil_iff]
    unfold Trace.andThen
    cases h : inner.run.raised with
    | none =>
      have hi := ihi.mp h
      simp [hi, ihr]
    | some e =>
      have hi : inner.fails ≠ [] := fun hn => by
        rw [ihi.mpr hn] at h
        cases h
      simp [hi]

theorem answers_isPrefix : f.run.answers.IsPrefix f.leaves := by
  induction f with
  | nil | fail => exact nil_prefix
  | leaf a rest ih => exact (prefix_cons_inj a).mpr ih
  | node n inner rest ihi ihr =>
    rw [run, leaves]
    unfold Trace.andThen
    cases h : inner.run.raised with
    | none =>
      rw [run_of_fails_eq_nil inner ((run_raised_none_iff inner).mp h)]
      exact (prefix_append_right_inj _).mpr ihr
    | some e => exact ihi.trans (prefix_append _ _)

/-! ## Properties of everything in a forest -/

structure All (P : N → Prop) (Q : A → Prop) (R : E → Prop) (f : Forest N A E) : Prop where
  nodes : ∀ n ∈ f.nodes, P n
  leaves : ∀ a ∈ f.leaves, Q a
  fails : ∀ e ∈ f.fails, R e

variable {g : Forest N A E}

section All
variable {P : N → Prop} {Q : A → Prop} {R : E → Prop}

theorem all_nil : (nil : Forest N A E).All P Q R :=
  ⟨nofun, nofun, nofun⟩

theorem all_leaf {a : A} (ha : Q a) : (leaf a nil : Forest N A E).All P Q R :=
  ⟨nofun, fun _ h => mem_singleton.mp h ▸ ha, nofun⟩

theorem all_fail (he : R e) : (fail e nil : Forest N A E).All P Q R :=
  ⟨nofun, nofun, fun _ h => mem_singleton.mp h ▸ he⟩

theorem all_node {inner : Forest N A E} (hn : P n) (hinner : inner.All P Q R) :
    (node n inner nil : Forest N A E).All P Q R where
  nodes := by
    intro m hm
    rw [nodes, nodes, List.append_nil] at hm
    rcases List.mem_cons.mp hm with rfl | hm
    · exact hn
    · exact hinner.nodes m hm
  leaves := by
    intro a ha
    rw [leaves, leaves, List.append_nil] at ha
    exact hinner.leaves a ha
  fails := by
    intro e he
    rw [fails, fails, List.append_nil] at he
    exact hinner.fails e he

theorem All.append {f g : Forest N A E} (hf : f.All P Q R) (hg : g.All P Q R) : (f ++ g).All P Q R where
  nodes := by
    intro n hn
    rw [nodes_append] at hn
    exact (mem_append.mp hn).elim (hf.nodes n) (hg.nodes n)
  leaves := by
    intro a ha
    rw [leaves_append] at ha
    exact (mem_append.mp ha).elim (hf.leaves a) (hg.leaves a)
  fails := by
    intro e he
    rw [fails_append] at he
    exact (mem_append.mp he).elim (hf.fails e) (hg.fails e)

theorem All.of_append {f : Forest N A E} (h : (f ++ g).All P Q R) : f.All P Q R ∧ g.All P Q R := by
  refine ⟨⟨fun n hn => h.nodes n ?_, fun a ha => h.leaves a ?_, fun e he => h.fails e ?_⟩,
    ⟨fun n hn => h.nodes n ?_, fun a ha => h.leaves a ?_, fun e he => h.fails e ?_⟩⟩
  · rw [nodes_append]
    exact mem_append_left _ hn
  · rw [leaves_append]
    exact mem_append_left _ ha
  · rw [fails_append]
    exact mem_append_left _ he
  · rw [nodes_append]
    exact mem_append_right _ hn
  · rw [leaves_append]
    exact mem_append_right _ ha
  · rw [fails_append]
    exact mem_append_right _ he

theorem All.of_node {n : N} {inner rest : Forest N A E} (h : (node n inner rest).All P Q R) :
    P n ∧ inner.All P Q R ∧ rest.All P Q R := by
  have hsplit : (inner ++ rest).All P Q R := by
    refine ⟨fun m hm => h.nodes m (mem_cons_of_mem _ ?_), fun a ha => h.leaves a ?_, fun e he => h.fails e ?_⟩
    · rwa [nodes_append] at hm
    · rwa [leaves_append] at ha
    · rwa [fails_append] at he
  exact ⟨h.nodes n mem_cons_self, hsplit.of_append⟩

end All

/-! ## Renaming answers -/

def mapAnswers {B : Type} (u : A → B) : Forest N A E → Forest N B E
  | nil => nil
  | leaf a rest => leaf (u a) (mapAnswers u rest)
  | fail e rest => fail e (mapAnswers u rest)
  | node n inner rest => node n (mapAnswers u inner) (mapAnswers u rest)

section Renaming
variable {B : Type} (u : A → B)

theorem mapAnswers_append (f g : Forest N A E) : (f ++ g).mapAnswers u = f.mapAnswers u ++ g.mapAnswers u := by
  induction f with
  | nil => rfl
  | leaf a rest ih => rw [leaf_append, mapAnswers, ih, mapAnswers, leaf_append]
  | fail e rest ih => rw [fail_append, mapAnswers, ih, mapAnswers, fail_append]
  | node n inner rest _ ih => rw [node_append, mapAnswers, ih, mapAnswers, node_append]

theorem run_mapAnswers (f : Forest N A E) : (f.mapAnswers u).run = ⟨f.run.answers.map u, f.run.raised⟩ := by
  induction f with
  | nil => rfl
  | leaf a rest ih => simp only [mapAnswers, run, ih, map_cons]
  | fail e rest ih => rfl
  | node n inner rest ihi ihr =>
    simp only [mapAnswers, run, ihi, ihr, Trace.andThen]
    cases inner.run.raised with
    | none => simp only [map_append]
    | some e => rfl

end Renaming

/-! ## Forests with calls cut off -/

section Pruning
variable (stops : N → Bool)

/-- The run when the calls that are stopped at make nothing. -/
def keptRun : Forest N A E → Trace A E
  | nil => ⟨[], none⟩
  | leaf a rest => ⟨a :: rest.keptRun.answers, rest.keptRun.raised⟩
  | fail e _ => ⟨[], some e⟩
  | node n inner rest => if stops n then rest.keptRun else inner.keptRun.andThen rest.keptRun

/-- The answers below the calls that are stopped at. -/
def lost : Forest N A E → List A
  | nil => []
  | leaf _ rest => rest.lost
  | fail _ rest => rest.lost
  | node n inner rest => if stops n then inner.leaves ++ rest.lost else inner.lost ++ rest.lost

theorem keptRun_append (f g : Forest N A E) : (f ++ g).keptRun stops = (f.keptRun stops).andThen (g.keptRun stops) := by
  induction f with
  | nil | fail => simp [keptRun, Trace.andThen]
  | leaf a rest ih =>
    simp only [leaf_append, keptRun, ih]
    unfold Trace.andThen
    cases (rest.keptRun stops).raised <;> simp
  | node n inner rest _ ih =>
    simp only [node_append, keptRun, ih]
    by_cases hn : stops n = true
    · rw [if_pos hn, if_pos hn]
    · rw [if_neg hn, if_neg hn]
      exact (Trace.andThen_assoc _ _ _).symm

theorem keptRun_raised_of_fails_eq_nil {f : Forest N A E} (h : f.fails = []) : (f.keptRun stops).raised = none := by
  induction f with
  | nil => rfl
  | leaf a rest ih => exact ih h
  | fail e rest ih => simp [fails] at h
  | node n inner rest ihi ihr =>
    obtain ⟨hinner, hrest⟩ := append_eq_nil_iff.mp h
    unfold keptRun
    split
    · exact ihr hrest
    · unfold Trace.andThen
      rw [ihi hinner]
      exact ihr hrest

theorem lost_append (f g : Forest N A E) : (f ++ g).lost stops = f.lost stops ++ g.lost stops := by
  induction f with
  | nil => rfl
  | leaf a rest ih => exact ih
  | fail e rest ih => exact ih
  | node n inner rest _ ih =>
    simp only [node_append, lost, ih]
    split <;> rw [List.append_assoc]

theorem kept_or_lost (f : Forest N A E) (a : A) (h : a ∈ f.run.answers) :
    a ∈ (f.keptRun stops).answers ∨ a ∈ f.lost stops := by
  induction f with
  | nil => cases h
  | leaf b rest ih =>
    rcases mem_cons.mp h with rfl | h
    · exact .inl mem_cons_self
    · exact (ih h).imp_left (mem_cons_of_mem _)
  | fail e rest ih => cases h
  | node n inner rest ihi ihr =>
    have hsplit : a ∈ inner.run.answers ∨ (inner.run.raised = none ∧ a ∈ rest.run.answers) := by
      rw [run] at h
      unfold Trace.andThen at h
      cases hraised : inner.run.raised with
      | none =>
        rw [hraised] at h
        exact (mem_append.mp h).imp_right fun h => ⟨rfl, h⟩
      | some e =>
        rw [hraised] at h
        exact .inl h
    unfold keptRun lost
    by_cases hn : stops n = true
    · rw [if_pos hn, if_pos hn]
      rcases hsplit with h | ⟨-, h⟩
      · exact .inr (mem_append_left _ ((answers_isPrefix inner).subset h))
      · exact (ihr h).imp_right (mem_append_right _)
    · rw [if_neg hn, if_neg hn]
      unfold Trace.andThen
      rcases hsplit with h | ⟨hraised, h⟩
      · refine (ihi h).imp (fun h => ?_) (mem_append_left _)
        cases (inner.keptRun stops).raised with
        | none => exact mem_append_left _ h
        | some e => exact h
      · rw [keptRun_raised_of_fails_eq_nil stops ((run_raised_none_iff inner).mp hraised)]
        exact (ihr h).imp (mem_append_right _) (mem_append_right _)

theorem kept_append_lost_subperm (f : Forest N A E) : ((f.keptRun stops).answers ++ f.lost stops).Subperm f.leaves := by
  rw [← Multiset.coe_le, ← Multiset.coe_add]
  induction f with
  | nil => exact le_refl _
  | leaf a rest ih =>
    show (↑(a :: (rest.keptRun stops).answers) + ↑(rest.lost stops) : Multiset A) ≤ ↑(a :: rest.leaves)
    rw [← Multiset.cons_coe, ← Multiset.cons_coe, Multiset.cons_add]
    exact Multiset.cons_le_cons a ih
  | fail e rest ih =>
    show (↑([] : List A) + ↑(rest.lost stops) : Multiset A) ≤ ↑rest.leaves
    rw [Multiset.coe_nil, zero_add]
    exact le_trans (Multiset.le_add_left _ _) ih
  | node n inner rest ihi ihr =>
    rw [keptRun, lost, leaves, ← Multiset.coe_add]
    by_cases hn : stops n = true
    · rw [if_pos hn, if_pos hn, ← Multiset.coe_add, add_left_comm]
      exact add_le_add_right ihr _
    · rw [if_neg hn, if_neg hn, ← Multiset.coe_add]
      unfold Trace.andThen
      cases (inner.keptRun stops).raised with
      | none =>
        dsimp only
        rw [← Multiset.coe_add, add_add_add_comm]
        exact add_le_add ihi ihr
      | some e =>
        dsimp only
        rw [← add_assoc]
        exact add_le_add ihi (le_trans (Multiset.le_add_left _ _) ihr)

end Pruning

/-! ## Forests with something in them -/

/-- Somewhere an answer or a failure. -/
def Fruitful (f : Forest N A E) : Prop := f.leaves ≠ [] ∨ f.fails ≠ []

theorem fruitful_leaf (a : A) (rest : Forest N A E) : (leaf a rest).Fruitful := Or.inl (cons_ne_nil _ _)

theorem fruitful_fail (rest : Forest N A E) : (fail e rest).Fruitful := Or.inr (cons_ne_nil _ _)

theorem Fruitful.append_left (f g : Forest N A E) (h : f.Fruitful) : (f ++ g).Fruitful := by
  unfold Fruitful
  rw [leaves_append, fails_append]
  exact h.imp (append_ne_nil_of_left_ne_nil · _) (append_ne_nil_of_left_ne_nil · _)

theorem Fruitful.append_right (f g : Forest N A E) (h : g.Fruitful) : (f ++ g).Fruitful := by
  unfold Fruitful
  rw [leaves_append, fails_append]
  exact h.imp (append_ne_nil_of_right_ne_nil _) (append_ne_nil_of_right_ne_nil _)

theorem Fruitful.node (inner rest : Forest N A E) (h : inner.Fruitful) : (Forest.node n inner rest).Fruitful :=
  h.imp (append_ne_nil_of_left_ne_nil · _) (append_ne_nil_of_left_ne_nil · _)

theorem Fruitful.answers (h : f.Fruitful) (hraised : f.run.raised = none) : f.run.answers ≠ [] := by
  have hfails := (run_raised_none_iff f).mp hraised
  rw [run_of_fails_eq_nil f hfails]
  exact h.resolve_right (not_not_intro hfails)

/-! ## Opening calls at the front -/

/-- Entering the first call, then perhaps the first call inside it, and so on. -/
inductive Opens : Forest N A E → List N → Forest N A E → Prop where
  | refl (f : Forest N A E) : Opens f [] f
  | node (n : N) (inner rest g : Forest N A E) (calls : List N) :
      Opens (inner ++ rest) calls g → Opens (node n inner rest) (n :: calls) g

theorem Opens.single (inner rest : Forest N A E) : Opens (.node n inner rest) [n] (inner ++ rest) :=
  .node n inner rest _ [] (.refl _)

variable {calls : List N}

theorem Opens.trans {f h : Forest N A E} {calls' : List N} (hfg : Opens f calls g)
    (hgh : Opens g calls' h) : Opens f (calls ++ calls') h := by
  induction hfg with
  | refl f => exact hgh
  | node n inner rest g calls _ ih => exact .node n inner rest h (calls ++ calls') (ih hgh)

theorem Opens.append (f g h : Forest N A E) (hfg : Opens f calls g) : Opens (f ++ h) calls (g ++ h) := by
  induction hfg with
  | refl f => exact .refl _
  | node n inner rest g calls _ ih =>
    rw [append_assoc] at ih
    exact .node n inner (rest ++ h) _ calls ih

theorem Opens.run_eq (f g : Forest N A E) (calls : List N) (h : Opens f calls g) : f.run = g.run := by
  induction h with
  | refl f => rfl
  | node n inner rest g calls _ ih => rw [← ih, run_append, run]

theorem Opens.leaves_eq (f g : Forest N A E) (calls : List N) (h : Opens f calls g) :
    f.leaves = g.leaves := by
  induction h with
  | refl f => rfl
  | node n inner rest g calls _ ih => rw [← ih, leaves_append, leaves]

theorem Opens.fails_eq (f g : Forest N A E) (calls : List N) (h : Opens f calls g) :
    f.fails = g.fails := by
  induction h with
  | refl f => rfl
  | node n inner rest g calls _ ih => rw [← ih, fails_append, fails]

theorem Opens.nodes_eq (f g : Forest N A E) (calls : List N) (h : Opens f calls g) :
    f.nodes = calls ++ g.nodes := by
  induction h with
  | refl f => rfl
  | node n inner rest g calls _ ih => rw [cons_append, ← ih, nodes_append, nodes]

theorem Opens.all {P : N → Prop} {Q : A → Prop} {R : E → Prop} {f : Forest N A E}
    (h : Opens f calls g) (hall : f.All P Q R) : g.All P Q R where
  nodes := fun n hn => hall.nodes n (by rw [h.nodes_eq]; exact mem_append_right calls hn)
  leaves := fun a ha => hall.leaves a (by rw [h.leaves_eq]; exact ha)
  fails := fun e he => hall.fails e (by rw [h.fails_eq]; exact he)

theorem Opens.size_eq (f g : Forest N A E) (calls : List N) (h : Opens f calls g) :
    f.size = calls.length + g.size := by
  induction h with
  | refl f => simp
  | node n inner rest g calls _ ih =>
    rw [size_append] at ih
    rw [size, length_cons]
    omega

/-- At most one answer. -/
def ofAnswer : Option A → Forest N A E
  | none => nil
  | some a => leaf a nil

variable (a : Option A)

@[simp] theorem leaves_ofAnswer : (ofAnswer a : Forest N A E).leaves = a.toList := by
  cases a <;> rfl

@[simp] theorem fails_ofAnswer : (ofAnswer a : Forest N A E).fails = [] := by
  cases a <;> rfl

@[simp] theorem size_ofAnswer : (ofAnswer a : Forest N A E).size = 0 := by
  cases a <;> rfl

end Forest
end MustDpor

import MustDpor.Foundations.MarkedWalk
import MustDpor.Model.ExecutionGraph

/-! # The relation algebra

`include/dpor/model/relation.hpp`. The concept `Relation` is a record: a node count, a membership test and a
traversal. A traversal hands the successors to a callback one by one; the callback is a function of the state
it captures and may throw. The adapters are lazy: each of their queries runs the queries of their operands.
`emitted` and `visited` are read without a bounds check, so a read past their end is `outOfRange`. `kNoThread`
is `none`. -/

namespace MustDpor
set_option autoImplicit false
open List Function Relation

structure RelationView where
  nodeCount : ℕ
  contains : ℕ → ℕ → Except DporError Bool
  forEachSuccessor : {σ : Type} → ℕ → (σ → ℕ → Except DporError σ) → σ → Except DporError σ

def validateNode (nodeCount node : ℕ) : Except DporError Unit :=
  if node < nodeCount then .ok () else .error (.preconditionError "relation node id is out of bounds")

def readMark (marks : List Bool) (node : ℕ) : Except DporError Bool :=
  match marks[node]? with
  | some mark => .ok mark
  | none => .error (.outOfRange "node mark past the end")

/-! ## Storage -/

structure ExplicitRelation where
  successors : List (List ℕ)

namespace ExplicitRelation

def ofNodeCount (nodeCount : ℕ) : ExplicitRelation := ⟨List.replicate nodeCount []⟩

def nodeCount (r : ExplicitRelation) : ℕ := r.successors.length

def addEdge (r : ExplicitRelation) (fromNode toNode : ℕ) : Except DporError ExplicitRelation := do
  validateNode r.nodeCount fromNode
  validateNode r.nodeCount toNode
  let successors := r.successors.getD fromNode []
  return if toNode ∈ successors then r else ⟨r.successors.set fromNode (successors ++ [toNode])⟩

def addEdges (r : ExplicitRelation) (edges : List (ℕ × ℕ)) : Except DporError ExplicitRelation :=
  edges.foldlM (fun r edge => r.addEdge edge.1 edge.2) r

def contains (r : ExplicitRelation) (fromNode toNode : ℕ) : Bool :=
  if r.nodeCount ≤ fromNode ∨ r.nodeCount ≤ toNode then false
  else (r.successors.getD fromNode []).contains toNode

def view (r : ExplicitRelation) : RelationView where
  nodeCount := r.nodeCount
  contains := fun fromNode toNode => .ok (r.contains fromNode toNode)
  forEachSuccessor := fun fromNode func s => do
    validateNode r.nodeCount fromNode
    (r.successors.getD fromNode []).foldlM func s

end ExplicitRelation

/-- The two tables `rebuild_index` fills; it refuses unknown nodes and nodes in two sequences. -/
structure ProgramOrderIndex where
  threadOf : ℕ → Option ℕ
  positionInThread : ℕ → ℕ

namespace ProgramOrderIndex

def initial : ProgramOrderIndex := ⟨fun _ => none, fun _ => 0⟩

/-- The inner loop of `rebuild_index`. -/
def indexThread (nodeCount thread : ℕ) :
    ℕ → List ℕ → ProgramOrderIndex → Except DporError ProgramOrderIndex
  | _, [], index => .ok index
  | position, event :: rest, index =>
    if nodeCount ≤ event then .error (.preconditionError "relation node id is out of bounds")
    else if (index.threadOf event).isSome then
      .error (.preconditionError "event appears in more than one thread sequence")
    else indexThread nodeCount thread (position + 1) rest
      ⟨Function.update index.threadOf event (some thread), Function.update index.positionInThread event position⟩

def rebuildIndex (nodeCount : ℕ) :
    ℕ → List (List ℕ) → ProgramOrderIndex → Except DporError ProgramOrderIndex
  | _, [], index => .ok index
  | thread, events :: rest, index => do
    rebuildIndex nodeCount (thread + 1) rest (← indexThread nodeCount thread 0 events index)

def contains (nodeCount : ℕ) (index : ProgramOrderIndex) (fromId toId : ℕ) : Bool :=
  if nodeCount ≤ fromId ∨ nodeCount ≤ toId then false
  else
    match index.threadOf fromId with
    | none => false
    | some thread =>
      if index.threadOf toId ≠ some thread then false
      else decide (index.positionInThread fromId < index.positionInThread toId)

/-- The events `for_each_successor` walks over. -/
def laterEvents (threadEvents : List (List ℕ)) (index : ProgramOrderIndex) (fromId : ℕ) : List ℕ :=
  match index.threadOf fromId with
  | none => []
  | some thread => (threadEvents.getD thread []).drop (index.positionInThread fromId + 1)

end ProgramOrderIndex

def ExecutionGraph.ProgramOrderRelation.view (po : ExecutionGraph.ProgramOrderRelation) :
    Except DporError RelationView :=
  match ProgramOrderIndex.rebuildIndex po.nodeCount 0 po.threadEvents .initial with
  | .error e => .error e
  | .ok index => .ok
    { nodeCount := po.nodeCount
      contains := fun fromNode toNode => .ok (index.contains po.nodeCount fromNode toNode)
      forEachSuccessor := fun fromNode func s => do
        validateNode po.nodeCount fromNode
        (ProgramOrderIndex.laterEvents po.threadEvents index fromNode).foldlM func s }

/-! ## Adapters -/

/-- `if (!emitted[successor]) { emitted[successor] = true; func(successor); }`. -/
def emitOnce {σ : Type} (func : σ → ℕ → Except DporError σ) (state : List Bool × σ) (successor : ℕ) :
    Except DporError (List Bool × σ) := do
  if ← readMark state.1 successor then return state
  else return (state.1.set successor true, ← func state.2 successor)

def composeRelation (left right : RelationView) : Except DporError RelationView :=
  if left.nodeCount ≠ right.nodeCount then
    .error (.preconditionError "cannot compose relations with different node counts")
  else .ok
    { nodeCount := left.nodeCount
      contains := fun fromNode toNode => do
        validateNode left.nodeCount fromNode
        validateNode left.nodeCount toNode
        left.forEachSuccessor fromNode (fun found intermediate =>
          if found then .ok found else right.contains intermediate toNode) false
      forEachSuccessor := fun fromNode func s => do
        validateNode left.nodeCount fromNode
        let state ← left.forEachSuccessor fromNode (fun state intermediate =>
          right.forEachSuccessor intermediate (emitOnce func) state) (List.replicate left.nodeCount false, s)
        return state.2 }

/-- The loop of `TransitiveClosureRelation::for_each_successor`. The entries of `pending` before the cursor are
not read again and are left out. -/
def closureRounds (relation : RelationView) {σ : Type} (func : σ → ℕ → Except DporError σ) (visited : List Bool)
    (pending : List ℕ) (s : σ) : Except DporError σ :=
  match pending with
  | [] => .ok s
  | current :: rest =>
    if _h : visited[current]? = some false then do
      let s ← func s current
      let pending ← relation.forEachSuccessor current (fun pending successor => do
        if ← readMark (visited.set current true) successor then return pending
        else return pending ++ [successor]) rest
      closureRounds relation func (visited.set current true) pending s
    else do
      let _ ← readMark visited current
      closureRounds relation func visited rest s
termination_by (visited.count false, pending.length)
decreasing_by
  · exact Prod.Lex.left _ _ (MarkedWalk.count_set_lt visited current _h)
  · exact Prod.Lex.right _ (Nat.lt_succ_self _)

def closureForEachSuccessor (relation : RelationView) {σ : Type} (fromNode : ℕ)
    (func : σ → ℕ → Except DporError σ) (s : σ) : Except DporError σ := do
  validateNode relation.nodeCount fromNode
  let pending ← relation.forEachSuccessor fromNode (fun pending successor => return pending ++ [successor]) []
  closureRounds relation func (List.replicate relation.nodeCount false) pending s

def transitiveClosure (relation : RelationView) : RelationView where
  nodeCount := relation.nodeCount
  contains := fun fromNode toNode => do
    validateNode relation.nodeCount fromNode
    validateNode relation.nodeCount toNode
    closureForEachSuccessor relation fromNode (fun found successor => return found || successor == toNode) false
  forEachSuccessor := closureForEachSuccessor relation

def relationUnion (left right : RelationView) : Except DporError RelationView :=
  if left.nodeCount ≠ right.nodeCount then
    .error (.preconditionError "cannot union relations with different node counts")
  else .ok
    { nodeCount := left.nodeCount
      contains := fun fromNode toNode => do
        validateNode left.nodeCount fromNode
        validateNode left.nodeCount toNode
        if ← left.contains fromNode toNode then return true
        else right.contains fromNode toNode
      forEachSuccessor := fun fromNode func s => do
        validateNode left.nodeCount fromNode
        let state ← left.forEachSuccessor fromNode (emitOnce func) (List.replicate left.nodeCount false, s)
        let state ← right.forEachSuccessor fromNode (emitOnce func) state
        return state.2 }

/-! ## What it means to be faithful -/

/-- The traversal of `a` calls back with the nodes of `l`, in that order. -/
def RelationView.Enumerates (view : RelationView) (a : ℕ) (l : List ℕ) : Prop :=
  ∀ (σ : Type) (func : σ → ℕ → Except DporError σ) (s : σ), view.forEachSuccessor a func s = l.foldlM func s

/-- The view is over `n` nodes, and on these its two queries answer for `rel`: the membership test decides it,
and the traversal calls back once with each successor and with nothing else. -/
structure RelationView.Faithful (view : RelationView) (n : ℕ) (rel : ℕ → ℕ → Prop) : Prop where
  nodes : view.nodeCount = n
  contains : ∀ a < n, ∀ b < n, ∃ found, view.contains a b = .ok found ∧ (found = true ↔ rel a b)
  successors : ∀ a < n, ∃ l : List ℕ, l.Nodup ∧ (∀ b, b ∈ l ↔ rel a b) ∧ view.Enumerates a l

theorem validateNode_ok {nodeCount node : ℕ} (h : node < nodeCount) : validateNode nodeCount node = .ok () :=
  if_pos h

theorem readMark_ok {marks : List Bool} {node : ℕ} (h : node < marks.length) :
    readMark marks node = .ok (MarkedWalk.marked marks node) := by
  unfold readMark
  rw [MarkedWalk.get_of_lt h]

/-! ### Callbacks -/

section Callbacks
variable {σ : Type}

theorem foldlM_collect (l start : List ℕ) :
    l.foldlM (fun collected x => (return collected ++ [x] : Except DporError (List ℕ))) start = .ok (start ++ l) := by
  induction l generalizing start with
  | nil =>
    rw [append_nil]
    rfl
  | cons x l ih =>
    rw [foldlM_cons]
    show l.foldlM _ (start ++ [x]) = _
    rw [ih, append_assoc]
    rfl

theorem foldlM_collect_unmarked {marks : List Bool} (l start : List ℕ) (hl : ∀ x ∈ l, x < marks.length) :
    l.foldlM (fun collected x => (do
        if ← readMark marks x then return collected
        else return collected ++ [x] : Except DporError (List ℕ))) start =
      .ok (start ++ l.filter fun x => !MarkedWalk.marked marks x) := by
  induction l generalizing start with
  | nil =>
    rw [filter_nil, append_nil]
    rfl
  | cons x l ih =>
    have hrest : ∀ x ∈ l, x < marks.length := fun x hx => hl x (mem_cons_of_mem _ hx)
    rw [foldlM_cons, readMark_ok (hl x mem_cons_self)]
    cases hmark : MarkedWalk.marked marks x with
    | true =>
      rw [filter_cons_of_neg (by simp [hmark])]
      exact ih start hrest
    | false =>
      rw [filter_cons_of_pos (by simp [hmark])]
      refine (ih (start ++ [x]) hrest).trans ?_
      rw [append_assoc]
      rfl

theorem foldlM_found {l : List ℕ} {test : ℕ → Except DporError Bool} {holds : ℕ → Prop}
    (htest : ∀ x ∈ l, ∃ found, test x = .ok found ∧ (found = true ↔ holds x)) :
    ∃ found, l.foldlM (fun found x => if found then .ok found else test x) false = .ok found ∧
      (found = true ↔ ∃ x ∈ l, holds x) := by
  have hstop : ∀ l : List ℕ, l.foldlM (fun found x => if found then .ok found else test x) true = .ok true := by
    intro l
    induction l with
    | nil => rfl
    | cons x l ih => exact ih
  induction l with
  | nil => exact ⟨false, rfl, by simp⟩
  | cons x l ih =>
    obtain ⟨first, hfirst, hiff⟩ := htest x mem_cons_self
    rw [foldlM_cons, if_neg Bool.false_ne_true, hfirst]
    cases first with
    | true =>
      refine ⟨true, hstop l, iff_of_true rfl ⟨x, mem_cons_self, hiff.mp rfl⟩⟩
    | false =>
      obtain ⟨found, hfound, hrest⟩ := ih fun y hy => htest y (mem_cons_of_mem _ hy)
      refine ⟨found, hfound, ?_⟩
      rw [hrest, exists_mem_cons_iff, ← hiff]
      simp

theorem foldlM_equals (l : List ℕ) (target : ℕ) (found : Bool) :
    l.foldlM (fun found x => (return found || x == target : Except DporError Bool)) found =
      .ok (found || l.contains target) := by
  induction l generalizing found with
  | nil =>
    rw [contains_nil, Bool.or_false]
    rfl
  | cons x l ih =>
    refine (ih (found || x == target)).trans ?_
    rw [contains_cons, Bool.or_assoc, BEq.comm]

theorem foldlM_emitOnce (func : σ → ℕ → Except DporError σ) (l : List ℕ) (marks : List Bool) (s : σ)
    (hl : ∀ x ∈ l, x < marks.length) :
    (do let state ← l.foldlM (emitOnce func) (marks, s); return state.2) =
      (MarkedWalk.fresh marks l).foldlM func s := by
  induction l generalizing marks s with
  | nil => rfl
  | cons x l ih =>
    have hrest : ∀ x ∈ l, x < marks.length := fun x hx => hl x (mem_cons_of_mem _ hx)
    rw [foldlM_cons]
    unfold emitOnce MarkedWalk.fresh
    dsimp only
    rw [readMark_ok (hl x mem_cons_self)]
    cases hmark : MarkedWalk.marked marks x with
    | true => exact ih marks s hrest
    | false =>
      rw [if_neg Bool.false_ne_true, foldlM_cons]
      cases hcall : func s x with
      | error e => rfl
      | ok next => exact ih (marks.set x true) next (by simpa using hrest)

theorem foldlM_flatMap {f each : σ → ℕ → Except DporError σ} {l : List ℕ} {next : ℕ → List ℕ} (s : σ)
    (heach : ∀ x ∈ l, ∀ s, each s x = (next x).foldlM f s) : l.foldlM each s = (l.flatMap next).foldlM f s := by
  induction l generalizing s with
  | nil => rfl
  | cons x l ih =>
    rw [foldlM_cons, flatMap_cons, foldlM_append, heach x mem_cons_self]
    exact congrArg _ (funext fun s => ih s fun y hy => heach y (mem_cons_of_mem _ hy))

end Callbacks

/-! ### Explicit relations -/

namespace ExplicitRelation

/-- The edges that have been added, each listed once. -/
structure Holds (r : ExplicitRelation) (n : ℕ) (edges : List (ℕ × ℕ)) : Prop where
  nodes : r.nodeCount = n
  nodup : ∀ a, (r.successors.getD a []).Nodup
  mem : ∀ a b, b ∈ r.successors.getD a [] ↔ (a, b) ∈ edges

theorem holds_ofNodeCount (n : ℕ) : (ofNodeCount n).Holds n [] := by
  have hrow : ∀ a, (ofNodeCount n).successors.getD a [] = [] := by
    intro a
    unfold ofNodeCount
    rw [getD_eq_getElem?_getD, getElem?_replicate]
    split <;> rfl
  refine ⟨length_replicate, fun a => ?_, fun a b => ?_⟩
  · rw [hrow]
    exact nodup_nil
  · rw [hrow]
    exact iff_of_false not_mem_nil not_mem_nil

section Edges
variable (r : ExplicitRelation) (n : ℕ) (edges : List (ℕ × ℕ)) (h : r.Holds n edges)
include h

theorem Holds.addEdge {fromNode toNode : ℕ} (hfrom : fromNode < n) (hto : toNode < n) :
    ∃ r', r.addEdge fromNode toNode = .ok r' ∧ r'.Holds n (edges ++ [(fromNode, toNode)]) := by
  refine ⟨if toNode ∈ r.successors.getD fromNode [] then r
    else ⟨r.successors.set fromNode (r.successors.getD fromNode [] ++ [toNode])⟩, ?_, ?_⟩
  · unfold ExplicitRelation.addEdge
    rw [h.nodes, validateNode_ok hfrom, validateNode_ok hto]
    rfl
  · split
    · rename_i hmem
      refine ⟨h.nodes, h.nodup, fun a b => ?_⟩
      rw [h.mem, mem_append, mem_singleton, Prod.mk.injEq]
      refine ⟨.inl, fun hab => hab.elim id ?_⟩
      rintro ⟨rfl, rfl⟩
      exact (h.mem _ _).mp hmem
    · rename_i hfresh
      have hrow : ∀ a, (r.successors.set fromNode (r.successors.getD fromNode [] ++ [toNode])).getD a [] =
          if a = fromNode then r.successors.getD fromNode [] ++ [toNode] else r.successors.getD a [] := by
        intro a
        rw [getD_eq_getElem?_getD]
        split
        · rename_i heq
          rw [heq, getElem?_set_self (hfrom.trans_eq h.nodes.symm)]
          rfl
        · rename_i hne
          rw [getElem?_set_ne (Ne.symm hne), getD_eq_getElem?_getD]
      refine ⟨length_set.trans h.nodes, fun a => ?_, fun a b => ?_⟩
      · rw [hrow]
        split
        · exact nodup_append.mpr ⟨h.nodup fromNode, nodup_singleton _, fun x hx y hy heq =>
            hfresh (mem_singleton.mp hy ▸ heq ▸ hx)⟩
        · exact h.nodup a
      · rw [hrow, mem_append, mem_singleton, Prod.mk.injEq, ← h.mem]
        split
        · rename_i heq
          rw [heq, mem_append, mem_singleton]
          simp
        · rename_i hne
          simp [hne]

theorem Holds.addEdges (more : List (ℕ × ℕ)) (hmore : ∀ edge ∈ more, edge.1 < n ∧ edge.2 < n) :
    ∃ r', r.addEdges more = .ok r' ∧ r'.Holds n (edges ++ more) := by
  induction more generalizing r edges with
  | nil =>
    rw [append_nil]
    exact ⟨r, rfl, h⟩
  | cons edge more ih =>
    have hedge := hmore edge mem_cons_self
    obtain ⟨r', hr', hholds⟩ := h.addEdge r n edges hedge.1 hedge.2
    obtain ⟨r'', hr'', hdone⟩ := ih r' _ hholds fun edge hmem => hmore edge (mem_cons_of_mem _ hmem)
    rw [append_assoc] at hdone
    refine ⟨r'', ?_, hdone⟩
    unfold ExplicitRelation.addEdges
    rw [foldlM_cons, hr']
    exact hr''

theorem Holds.faithful : r.view.Faithful n fun a b => (a, b) ∈ edges := by
  refine ⟨h.nodes, fun a ha b hb => ⟨_, rfl, ?_⟩, fun a ha => ⟨r.successors.getD a [], h.nodup a, h.mem a, ?_⟩⟩
  · unfold ExplicitRelation.contains
    rw [h.nodes, if_neg (by omega), contains_iff_mem, h.mem]
  · intro σ func s
    show (do validateNode r.nodeCount a; (r.successors.getD a []).foldlM func s) = _
    rw [h.nodes, validateNode_ok ha]
    rfl

end Edges

end ExplicitRelation

/-! ### Program order -/

namespace ProgramOrderIndex

theorem indexThread_ok (nodeCount thread position : ℕ) {events : List ℕ} (index : ProgramOrderIndex)
    (hnodup : events.Nodup) (hfree : ∀ e ∈ events, e < nodeCount ∧ index.threadOf e = none) :
    ∃ index', indexThread nodeCount thread position events index = .ok index' ∧
      (∀ i e, events[i]? = some e → index'.threadOf e = some thread ∧ index'.positionInThread e = position + i) ∧
      ∀ e, e ∉ events →
        index'.threadOf e = index.threadOf e ∧ index'.positionInThread e = index.positionInThread e := by
  induction events generalizing position index with
  | nil => exact ⟨index, rfl, nofun, fun _ _ => ⟨rfl, rfl⟩⟩
  | cons event rest ih =>
    obtain ⟨hnotin, hnodup⟩ := nodup_cons.mp hnodup
    obtain ⟨hlt, hnone⟩ := hfree event mem_cons_self
    have hother : ∀ e, e ≠ event →
        update index.threadOf event (some thread) e = index.threadOf e ∧
          update index.positionInThread event position e = index.positionInThread e :=
      fun e he => ⟨update_of_ne he _ _, update_of_ne he _ _⟩
    obtain ⟨index', hok, hin, hout⟩ := ih (position + 1)
      ⟨update index.threadOf event (some thread), update index.positionInThread event position⟩
      hnodup fun e he => by
        obtain ⟨hlt, hnone⟩ := hfree e (mem_cons_of_mem _ he)
        exact ⟨hlt, (hother e fun heq => hnotin (heq ▸ he)).1.trans hnone⟩
    refine ⟨index', ?_, fun i e he => ?_, fun e he => ?_⟩
    · rw [indexThread, if_neg (not_le.mpr hlt), hnone]
      exact hok
    · cases i with
      | zero =>
        cases he
        obtain ⟨hthread, hposition⟩ := hout event hnotin
        exact ⟨hthread.trans (update_self ..), hposition.trans (update_self ..)⟩
      | succ i =>
        obtain ⟨hthread, hposition⟩ := hin i e he
        exact ⟨hthread, hposition.trans (by omega)⟩
    · rw [mem_cons, not_or] at he
      obtain ⟨hne, hnot⟩ := he
      obtain ⟨hthread, hposition⟩ := hout e hnot
      exact ⟨hthread.trans (hother e hne).1, hposition.trans (hother e hne).2⟩

theorem rebuildIndex_ok (nodeCount thread : ℕ) {sequences : List (List ℕ)} (index : ProgramOrderIndex)
    (hnodup : sequences.flatten.Nodup) (hfree : ∀ e ∈ sequences.flatten, e < nodeCount ∧ index.threadOf e = none) :
    ∃ index', rebuildIndex nodeCount thread sequences index = .ok index' ∧
      (∀ k i e evts, sequences[k]? = some evts → evts[i]? = some e →
        index'.threadOf e = some (thread + k) ∧ index'.positionInThread e = i) ∧
      ∀ e, e ∉ sequences.flatten →
        index'.threadOf e = index.threadOf e ∧ index'.positionInThread e = index.positionInThread e := by
  induction sequences generalizing thread index with
  | nil => exact ⟨index, rfl, nofun, fun _ _ => ⟨rfl, rfl⟩⟩
  | cons events rest ih =>
    rw [flatten_cons] at hnodup hfree
    obtain ⟨hevents, hrest, hdisjoint⟩ := nodup_append'.mp hnodup
    obtain ⟨a, ha, hin, hout⟩ := indexThread_ok nodeCount thread 0 index hevents
      fun e he => hfree e (mem_append_left _ he)
    obtain ⟨b, hb, hinRest, houtRest⟩ := ih (thread + 1) a hrest fun e he => by
      obtain ⟨hlt, hnone⟩ := hfree e (mem_append_right _ he)
      exact ⟨hlt, (hout e fun hmem => hdisjoint hmem he).1.trans hnone⟩
    refine ⟨b, ?_, fun k i e evts hk hi => ?_, fun e he => ?_⟩
    · rw [rebuildIndex, ha]
      exact hb
    · cases k with
      | zero =>
        cases hk
        obtain ⟨hthread, hposition⟩ := hin i e hi
        obtain ⟨hsame, hsame'⟩ := houtRest e fun hmem => hdisjoint (mem_of_getElem? hi) hmem
        exact ⟨hsame.trans hthread, hsame'.trans (hposition.trans (Nat.zero_add i))⟩
      | succ k =>
        obtain ⟨hthread, hposition⟩ := hinRest k i e evts hk hi
        exact ⟨hthread.trans (congrArg some (by omega)), hposition⟩
    · rw [flatten_cons, mem_append, not_or] at he
      obtain ⟨hthread, hposition⟩ := houtRest e he.2
      exact ⟨hthread.trans (hout e he.1).1, hposition.trans (hout e he.1).2⟩

/-- One sequence has `a` before `b`. -/
def Before (threadEvents : List (List ℕ)) (a b : ℕ) : Prop :=
  ∃ events ∈ threadEvents, ∃ i j : ℕ, i < j ∧ events[i]? = some a ∧ events[j]? = some b

/-- The tables say where in the sequences an event is. -/
structure Places (index : ProgramOrderIndex) (threadEvents : List (List ℕ)) : Prop where
  lookup : ∀ (thread position event : ℕ) (events : List ℕ), threadEvents[thread]? = some events →
    events[position]? = some event → index.threadOf event = some thread ∧ index.positionInThread event = position
  absent : ∀ event, event ∉ threadEvents.flatten → index.threadOf event = none

section Lookup
variable (threadEvents : List (List ℕ)) (index : ProgramOrderIndex) (h : index.Places threadEvents)
include h

theorem Places.placed {thread event : ℕ} (hthread : index.threadOf event = some thread) :
    ∃ events, threadEvents[thread]? = some events ∧ events[index.positionInThread event]? = some event := by
  have hmem : event ∈ threadEvents.flatten := by
    by_contra habsent
    rw [h.absent event habsent] at hthread
    cases hthread
  obtain ⟨events, hevents, hevent⟩ := mem_flatten.mp hmem
  obtain ⟨k, hk⟩ := mem_iff_getElem?.mp hevents
  obtain ⟨i, hi⟩ := mem_iff_getElem?.mp hevent
  obtain ⟨hthread', hposition⟩ := h.lookup k i event events hk hi
  rw [hthread'] at hthread
  cases hthread
  exact ⟨events, hk, hposition ▸ hi⟩

theorem Places.mem_laterEvents (a b : ℕ) : b ∈ laterEvents threadEvents index a ↔ Before threadEvents a b := by
  unfold laterEvents
  constructor
  · intro hb
    split at hb
    · cases hb
    · rename_i thread hthread
      obtain ⟨events, hevents, ha⟩ := h.placed threadEvents index hthread
      rw [getD_eq_getElem?_getD, hevents] at hb
      obtain ⟨j, hj⟩ := mem_iff_getElem?.mp hb
      rw [Option.getD_some, getElem?_drop] at hj
      exact ⟨events, mem_of_getElem? hevents, _, _, by omega, ha, hj⟩
  · rintro ⟨events, hmem, i, j, hij, ha, hb⟩
    obtain ⟨thread, hevents⟩ := mem_iff_getElem?.mp hmem
    obtain ⟨hthread, hposition⟩ := h.lookup thread i a events hevents ha
    simp only [hthread, hposition, getD_eq_getElem?_getD, hevents, Option.getD_some]
    refine mem_iff_getElem?.mpr ⟨j - (i + 1), ?_⟩
    rw [getElem?_drop, ← hb]
    congr 1
    omega

theorem Places.contains_iff {n a b : ℕ} (ha : a < n) (hb : b < n) :
    index.contains n a b = true ↔ Before threadEvents a b := by
  unfold contains
  rw [if_neg (by omega)]
  constructor
  · intro hcontains
    split at hcontains
    · cases hcontains
    · rename_i thread hthread
      split at hcontains
      · cases hcontains
      · rename_i hsame
        obtain ⟨events, hevents, hfrom⟩ := h.placed threadEvents index hthread
        obtain ⟨others, hothers, hto⟩ := h.placed threadEvents index (not_not.mp hsame)
        rw [hevents] at hothers
        cases hothers
        exact ⟨events, mem_of_getElem? hevents, _, _, of_decide_eq_true hcontains, hfrom, hto⟩
  · rintro ⟨events, hmem, i, j, hij, hfrom, hto⟩
    obtain ⟨thread, hevents⟩ := mem_iff_getElem?.mp hmem
    obtain ⟨hthread, hposition⟩ := h.lookup thread i a events hevents hfrom
    obtain ⟨hthread', hposition'⟩ := h.lookup thread j b events hevents hto
    simp [hthread, hthread', hposition, hposition', hij]

theorem Places.nodup_laterEvents (hdisjoint : threadEvents.flatten.Nodup) (a : ℕ) :
    (laterEvents threadEvents index a).Nodup := by
  unfold laterEvents
  split
  · exact nodup_nil
  · rename_i thread hthread
    obtain ⟨events, hevents, -⟩ := h.placed threadEvents index hthread
    rw [getD_eq_getElem?_getD, hevents]
    exact ((nodup_flatten.mp hdisjoint).1 events (mem_of_getElem? hevents)).sublist (drop_sublist _ _)

end Lookup

end ProgramOrderIndex

theorem ExecutionGraph.ProgramOrderRelation.view_faithful (po : ExecutionGraph.ProgramOrderRelation)
    (hdisjoint : po.threadEvents.flatten.Nodup) (hbound : ∀ event ∈ po.threadEvents.flatten, event < po.nodeCount) :
    ∃ v, po.view = .ok v ∧ v.Faithful po.nodeCount (ProgramOrderIndex.Before po.threadEvents) := by
  obtain ⟨index, hindex, hlookup, habsent⟩ := ProgramOrderIndex.rebuildIndex_ok po.nodeCount 0 .initial
    hdisjoint fun event hmem => ⟨hbound event hmem, rfl⟩
  have h : index.Places po.threadEvents := by
    refine ⟨fun thread position event events hevents hevent => ?_, fun event hmem => (habsent event hmem).1⟩
    obtain ⟨hthread, hposition⟩ := hlookup thread position event events hevents hevent
    exact ⟨hthread.trans (congrArg some (Nat.zero_add thread)), hposition⟩
  unfold ExecutionGraph.ProgramOrderRelation.view
  rw [hindex]
  refine ⟨_, rfl, rfl, fun a ha b hb => ⟨_, rfl, h.contains_iff po.threadEvents index ha hb⟩,
    fun a ha => ⟨ProgramOrderIndex.laterEvents po.threadEvents index a, ?_, ?_, ?_⟩⟩
  · exact h.nodup_laterEvents po.threadEvents index hdisjoint a
  · exact h.mem_laterEvents po.threadEvents index a
  · intro σ func s
    dsimp only
    rw [validateNode_ok ha]
    rfl

/-! ### Adapters -/

namespace RelationView
variable (left right : RelationView) (n : ℕ) (relLeft relRight : ℕ → ℕ → Prop)

/-- Nodes lead to nodes only. -/
def Bounded (n : ℕ) (rel : ℕ → ℕ → Prop) : Prop := ∀ a < n, ∀ b, rel a b → b < n

section Two
variable (hleft : left.Faithful n relLeft) (hright : right.Faithful n relRight)
  (hboundLeft : Bounded n relLeft) (hboundRight : Bounded n relRight)
include hleft hright hboundLeft hboundRight

theorem Faithful.composeRelation :
    ∃ v, MustDpor.composeRelation left right = .ok v ∧ v.Faithful n (Relation.Comp relLeft relRight) := by
  unfold MustDpor.composeRelation
  rw [if_neg (not_not.mpr (hleft.nodes.trans hright.nodes.symm)), hleft.nodes]
  refine ⟨_, rfl, rfl, fun a ha b hb => ?_, fun a ha => ?_⟩
  · obtain ⟨l, -, hmem, henum⟩ := hleft.successors a ha
    obtain ⟨found, hfound, hiff⟩ := foldlM_found fun x hx =>
      hright.contains x (hboundLeft a ha x ((hmem x).mp hx)) b hb
    refine ⟨found, ?_, ?_⟩
    · dsimp only
      rw [validateNode_ok ha, validateNode_ok hb]
      exact (henum _ _ _).trans hfound
    · rw [hiff]
      simp only [hmem]
      exact Iff.rfl
  · obtain ⟨l, -, hmem, henum⟩ := hleft.successors a ha
    choose! next hnext using hright.successors
    have hnode : ∀ x ∈ l, x < n := fun x hx => hboundLeft a ha x ((hmem x).mp hx)
    have hmark : ∀ b ∈ l.flatMap next, b < (replicate n false).length := by
      intro b hb
      obtain ⟨x, hx, hb⟩ := mem_flatMap.mp hb
      rw [length_replicate]
      exact hboundRight x (hnode x hx) b (((hnext x (hnode x hx)).2.1 b).mp hb)
    refine ⟨MarkedWalk.fresh (replicate n false) (l.flatMap next), MarkedWalk.nodup_fresh _ _ hmark,
      fun b => ?_, fun σ func s => ?_⟩
    · rw [MarkedWalk.mem_fresh _ _ hmark, MarkedWalk.marked_replicate, mem_flatMap]
      constructor
      · rintro ⟨⟨x, hx, hb⟩, -⟩
        exact ⟨x, (hmem x).mp hx, ((hnext x (hnode x hx)).2.1 b).mp hb⟩
      · rintro ⟨x, hx, hb⟩
        have hx := (hmem x).mpr hx
        exact ⟨⟨x, hx, ((hnext x (hnode x hx)).2.1 b).mpr hb⟩, rfl⟩
    · dsimp only
      rw [validateNode_ok ha, henum, foldlM_flatMap _ fun x hx =>
        (hnext x (hnode x hx)).2.2 _ _]
      exact foldlM_emitOnce func _ _ s hmark

theorem Faithful.relationUnion :
    ∃ v, MustDpor.relationUnion left right = .ok v ∧ v.Faithful n fun a b => relLeft a b ∨ relRight a b := by
  unfold MustDpor.relationUnion
  rw [if_neg (not_not.mpr (hleft.nodes.trans hright.nodes.symm)), hleft.nodes]
  refine ⟨_, rfl, rfl, fun a ha b hb => ?_, fun a ha => ?_⟩
  · obtain ⟨inLeft, hinLeft, hiffLeft⟩ := hleft.contains a ha b hb
    obtain ⟨inRight, hinRight, hiffRight⟩ := hright.contains a ha b hb
    refine ⟨inLeft || inRight, ?_, ?_⟩
    · dsimp only
      rw [validateNode_ok ha, validateNode_ok hb, hinLeft, hinRight]
      cases inLeft <;> rfl
    · rw [Bool.or_eq_true, hiffLeft, hiffRight]
  · obtain ⟨l, -, hmemLeft, henumLeft⟩ := hleft.successors a ha
    obtain ⟨r, -, hmemRight, henumRight⟩ := hright.successors a ha
    have hmark : ∀ b ∈ l ++ r, b < (replicate n false).length := by
      intro b hb
      rw [length_replicate]
      rcases mem_append.mp hb with hb | hb
      · exact hboundLeft a ha b ((hmemLeft b).mp hb)
      · exact hboundRight a ha b ((hmemRight b).mp hb)
    refine ⟨MarkedWalk.fresh (replicate n false) (l ++ r), MarkedWalk.nodup_fresh _ _ hmark,
      fun b => ?_, fun σ func s => ?_⟩
    · rw [MarkedWalk.mem_fresh _ _ hmark, MarkedWalk.marked_replicate, mem_append, hmemLeft, hmemRight]
      exact and_iff_left rfl
    · dsimp only
      rw [validateNode_ok ha, ← foldlM_emitOnce func _ _ s hmark, foldlM_append, henumLeft]
      cases l.foldlM (emitOnce func) (replicate n false, s) with
      | error e => rfl
      | ok state =>
        show (do let state ← right.forEachSuccessor a (emitOnce func) state; return state.2) = _
        rw [henumRight]
        rfl

end Two

section Closure
variable (view : RelationView) (next : ℕ → List ℕ) (hbounded : ∀ x < n, ∀ y ∈ next x, y < n)
  (hnext : ∀ x < n, view.Enumerates x (next x))
include hbounded hnext

theorem closureRounds_eq {σ : Type} (func : σ → ℕ → Except DporError σ) {visited : List Bool} {pending : List ℕ}
    (hlength : visited.length = n) (hpending : ∀ p ∈ pending, p < n) (s : σ) :
    closureRounds view func visited pending s = (MarkedWalk.walk next visited pending).foldlM func s := by
  induction visited, pending using MarkedWalk.walk_induction next generalizing s with
  | nil visited =>
    rw [closureRounds, MarkedWalk.walk_nil]
    rfl
  | skip visited current rest hskip ih =>
    rw [closureRounds, dif_neg hskip, MarkedWalk.walk_skip next rest hskip,
      readMark_ok (hlength ▸ hpending current mem_cons_self)]
    exact ih hlength (fun p hp => hpending p (mem_cons_of_mem _ hp)) s
  | expand visited current rest hexpand ih =>
    have hcurrent : current < n := hpending current mem_cons_self
    have hset : (visited.set current true).length = n := length_set.trans hlength
    have hqueued := foldlM_collect_unmarked (next current) rest
      fun y hy => (hbounded current hcurrent y hy).trans_eq hset.symm
    have hpending' : ∀ p ∈ rest ++ MarkedWalk.queued next visited current, p < n := by
      intro p hp
      rcases mem_append.mp hp with hp | hp
      · exact hpending p (mem_cons_of_mem _ hp)
      · exact hbounded current hcurrent p (mem_filter.mp hp).1
    rw [closureRounds, dif_pos hexpand, MarkedWalk.walk_expand next rest hexpand, foldlM_cons]
    refine congrArg _ (funext fun s => ?_)
    rw [hnext current hcurrent, hqueued]
    exact ih hset hpending' s

end Closure

omit n in
/-- On a set of nodes that one relation does not leave, relations that agree there have the same closure. -/
theorem transGen_congr {n : ℕ} {r r' : ℕ → ℕ → Prop} (hiff : ∀ x < n, ∀ y, r x y ↔ r' x y) (hbound : Bounded n r')
    {a : ℕ} (ha : a < n) (b : ℕ) : TransGen r a b ↔ TransGen r' a b := by
  have hgo : ∀ r r' : ℕ → ℕ → Prop, (∀ x < n, ∀ y, r x y → r' x y) → Bounded n r → ∀ b,
      TransGen r a b → b < n ∧ TransGen r' a b := by
    intro r r' hsub hbound b hab
    induction hab with
    | single hstep => exact ⟨hbound a ha _ hstep, .single (hsub a ha _ hstep)⟩
    | tail _ hstep ih => exact ⟨hbound _ ih.1 _ hstep, ih.2.tail (hsub _ ih.1 _ hstep)⟩
  constructor
  · exact fun hab => (hgo r r' (fun x hx y => (hiff x hx y).mp)
      (fun x hx y hxy => hbound x hx y ((hiff x hx y).mp hxy)) b hab).2
  · exact fun hab => (hgo r' r (fun x hx y => (hiff x hx y).mpr) hbound b hab).2

theorem Faithful.transitiveClosure (view : RelationView) (rel : ℕ → ℕ → Prop) (h : view.Faithful n rel)
    (hbound : Bounded n rel) : (MustDpor.transitiveClosure view).Faithful n (TransGen rel) := by
  choose! next hnext using h.successors
  have hbounded : ∀ x < n, ∀ y ∈ next x, y < n := fun x hx y hy => hbound x hx y (((hnext x hx).2.1 y).mp hy)
  have henum : ∀ a < n, (MustDpor.transitiveClosure view).Enumerates a
      (MarkedWalk.walk next (replicate n false) (next a)) := by
    intro a ha σ func s
    show closureForEachSuccessor view a func s = _
    unfold closureForEachSuccessor
    rw [h.nodes, validateNode_ok ha, (hnext a ha).2.2, foldlM_collect]
    exact closureRounds_eq n view next hbounded (fun x hx => (hnext x hx).2.2) func length_replicate
      (hbounded a ha) s
  have hmem : ∀ a < n, ∀ b, b ∈ MarkedWalk.walk next (replicate n false) (next a) ↔ TransGen rel a b :=
    fun a ha b => (MarkedWalk.mem_walk_from next n hbounded ha b).trans
      (transGen_congr (fun x hx y => (hnext x hx).2.1 y) hbound ha b)
  refine ⟨h.nodes, fun a ha b hb => ?_, fun a ha => ⟨_, MarkedWalk.nodup_walk next _ _, hmem a ha, henum a ha⟩⟩
  refine ⟨(MarkedWalk.walk next (replicate n false) (next a)).contains b, ?_, ?_⟩
  · show (do validateNode view.nodeCount a; validateNode view.nodeCount b; closureForEachSuccessor view a _ false) = _
    rw [h.nodes, validateNode_ok ha, validateNode_ok hb]
    refine (henum a ha _ _ _).trans ((foldlM_equals _ b false).trans ?_)
    rw [Bool.false_or]
  · rw [contains_iff_mem, hmem a ha]

end RelationView

/-! ## Expressions -/

/-- The relations that the two storages and the three adapters build. -/
inductive RelationExpr where
  | explicit (nodeCount : ℕ) (edges : List (ℕ × ℕ))
  | programOrder (nodeCount : ℕ) (threadEvents : List (List ℕ))
  | compose (left right : RelationExpr)
  | union (left right : RelationExpr)
  | transitiveClosure (relation : RelationExpr)

namespace RelationExpr

def build : RelationExpr → Except DporError RelationView
  | .explicit nodeCount edges => ((ExplicitRelation.ofNodeCount nodeCount).addEdges edges).map ExplicitRelation.view
  | .programOrder nodeCount threadEvents => ExecutionGraph.ProgramOrderRelation.view ⟨nodeCount, threadEvents⟩
  | .compose left right => do composeRelation (← left.build) (← right.build)
  | .union left right => do relationUnion (← left.build) (← right.build)
  | .transitiveClosure relation => do return MustDpor.transitiveClosure (← relation.build)

/-- The relation that is meant. -/
def denote : RelationExpr → ℕ → ℕ → Prop
  | .explicit _ edges => fun a b => (a, b) ∈ edges
  | .programOrder _ threadEvents => ProgramOrderIndex.Before threadEvents
  | .compose left right => Relation.Comp left.denote right.denote
  | .union left right => fun a b => left.denote a b ∨ right.denote a b
  | .transitiveClosure relation => Relation.TransGen relation.denote

/-- All parts are over the nodes below `n`; thread sequences are disjoint. -/
def Over (n : ℕ) : RelationExpr → Prop
  | .explicit nodeCount edges => nodeCount = n ∧ ∀ edge ∈ edges, edge.1 < n ∧ edge.2 < n
  | .programOrder nodeCount threadEvents =>
    nodeCount = n ∧ threadEvents.flatten.Nodup ∧ ∀ event ∈ threadEvents.flatten, event < n
  | .compose left right => left.Over n ∧ right.Over n
  | .union left right => left.Over n ∧ right.Over n
  | .transitiveClosure relation => relation.Over n

theorem Over.bounded (n : ℕ) (e : RelationExpr) (h : e.Over n) : RelationView.Bounded n e.denote := by
  induction e with
  | explicit nodeCount edges => exact fun a _ b hab => (h.2 (a, b) hab).2
  | programOrder nodeCount threadEvents =>
    rintro a - b ⟨events, hevents, i, j, -, -, hb⟩
    exact h.2.2 b (mem_flatten.mpr ⟨events, hevents, mem_of_getElem? hb⟩)
  | compose left right ihLeft ihRight =>
    rintro a ha b ⟨c, hac, hcb⟩
    exact ihRight h.2 c (ihLeft h.1 a ha c hac) b hcb
  | union left right ihLeft ihRight =>
    rintro a ha b (hab | hab)
    · exact ihLeft h.1 a ha b hab
    · exact ihRight h.2 a ha b hab
  | transitiveClosure relation ih =>
    intro a ha b hab
    induction hab with
    | single hstep => exact ih h a ha _ hstep
    | tail _ hstep hmiddle => exact ih h _ hmiddle _ hstep

end RelationExpr

/-- Every expression over a common node count can be built, and both queries of what is built answer for the
relation that is meant, also where the relation has cycles. -/
theorem relation_algebra_faithful (n : ℕ) (e : RelationExpr) (h : e.Over n) :
    ∃ v, e.build = .ok v ∧ v.Faithful n e.denote := by
  induction e with
  | explicit nodeCount edges =>
    obtain ⟨rfl, hedges⟩ := h
    obtain ⟨r, hr, hholds⟩ := (ExplicitRelation.holds_ofNodeCount nodeCount).addEdges _ _ _ edges hedges
    refine ⟨r.view, ?_, hholds.faithful⟩
    unfold RelationExpr.build
    rw [hr]
    rfl
  | programOrder nodeCount threadEvents =>
    obtain ⟨rfl, hdisjoint, hbound⟩ := h
    exact ExecutionGraph.ProgramOrderRelation.view_faithful ⟨nodeCount, threadEvents⟩ hdisjoint hbound
  | compose left right ihLeft ihRight =>
    obtain ⟨l, hl, hleft⟩ := ihLeft h.1
    obtain ⟨r, hr, hright⟩ := ihRight h.2
    obtain ⟨v, hv, hfaithful⟩ := hleft.composeRelation l r n _ _ hright (h.1.bounded n left) (h.2.bounded n right)
    refine ⟨v, ?_, hfaithful⟩
    unfold RelationExpr.build
    rw [hl, hr]
    exact hv
  | union left right ihLeft ihRight =>
    obtain ⟨l, hl, hleft⟩ := ihLeft h.1
    obtain ⟨r, hr, hright⟩ := ihRight h.2
    obtain ⟨v, hv, hfaithful⟩ := hleft.relationUnion l r n _ _ hright (h.1.bounded n left) (h.2.bounded n right)
    refine ⟨v, ?_, hfaithful⟩
    unfold RelationExpr.build
    rw [hl, hr]
    exact hv
  | transitiveClosure relation ih =>
    obtain ⟨v, hv, hfaithful⟩ := ih h
    refine ⟨transitiveClosure v, ?_, hfaithful.transitiveClosure n v _ (RelationExpr.Over.bounded n relation h)⟩
    unfold RelationExpr.build
    rw [hv]
    rfl

/-- The closure of program order with a reads-from edge that goes back: two threads of two events, a cycle. -/
theorem cyclic_closure_faithful :
    ∃ v, (RelationExpr.transitiveClosure (.union (.programOrder 4 [[0, 1], [2, 3]])
        (.explicit 4 [(1, 2), (3, 0), (1, 2)]))).build = .ok v ∧ v.contains 0 0 = .ok true := by
  obtain ⟨v, hv, hfaithful⟩ := relation_algebra_faithful 4
    (.transitiveClosure (.union (.programOrder 4 [[0, 1], [2, 3]]) (.explicit 4 [(1, 2), (3, 0), (1, 2)])))
    (by simp [RelationExpr.Over])
  obtain ⟨found, hfound, hiff⟩ := hfaithful.contains 0 (by decide) 0 (by decide)
  refine ⟨v, hv, ?_⟩
  have hcycle : Relation.TransGen (RelationExpr.union (.programOrder 4 [[0, 1], [2, 3]])
      (.explicit 4 [(1, 2), (3, 0), (1, 2)])).denote 0 0 :=
    .tail (.tail (.tail (.single (Or.inl ⟨[0, 1], by simp, 0, 1, by decide, rfl, rfl⟩))
      (Or.inr (by simp : (1, 2) ∈ _))) (Or.inl ⟨[2, 3], by simp, 0, 1, by decide, rfl, rfl⟩))
      (Or.inr (by simp : (3, 0) ∈ _))
  rw [hfound, hiff.mpr hcycle]

end MustDpor

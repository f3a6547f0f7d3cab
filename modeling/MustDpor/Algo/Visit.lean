import MustDpor.Foundations.SearchForest
import MustDpor.Algo.Explorer

/-! # Algorithm 1 as a recursive procedure

VISIT and VISITIFCONSISTENT on immutable graphs, written as the forest of their calls: a node is a
call, a leaf a published terminal, and a `fail` an exception. Every branch follows the recursive
presentation of Algorithm 1; the children of a call are one level deeper, except that a graph with
one Block event taken out is visited at the same depth. The recursion is cut by a number of nested
calls; `visitCalls` is always enough (`visit_eq`). -/

namespace MustDpor
set_option autoImplicit false
open ExplorationGraph

structure Call (V : Type) where
  graph : ExplorationGraph V
  dporTreeDepth : ℕ
  mode : ExplorationTaskMode

abbrev Search (V : Type) := Forest (Call V) (Terminal V) Raised

section Visit
variable {V : Type} (queries : Queries V) (threadIds : List ℕ) (maxDepth : ℕ)

/-- A receive added together with its source. -/
def ExplorationGraph.withReceive (graph : ExplorationGraph V) (tid : ℕ) (label : EventLabel V)
    (source : ReadsFromSource) : Except DporError (ExplorationGraph V) := do
  let (recvId, child) ← graph.addEvent tid label
  child.assignReadsFrom recvId source

/-- The reschedule loop when nobody requests a stop. -/
def rescheduleChild (graph : ExplorationGraph V) :
    List ℕ → Except DporError (Option (ExplorationGraph V))
  | [] => .ok none
  | tid :: rest => do
    match ← queries.rescheduleThread graph tid with
    | some child => return some child
    | none => rescheduleChild graph rest

section Children
variable (recur : ExplorationGraph V → ℕ → Search V)

/-- VISITIFCONSISTENT around a given VISIT. -/
def guarded (graph : ExplorationGraph V) (depth : ℕ) : Search V :=
  .node ⟨graph, depth, .visitIfConsistent⟩
    (match queries.checkConsistency graph with
      | .error e => .fail (.query e) .nil
      | .ok (result, marks) =>
        if result.isConsistent then recur (if marks then graph.markKnownAcyclic else graph) depth
        else .nil)
    .nil

def extended (graph : ExplorationGraph V) (depth : ℕ) (tid : ℕ) (label : EventLabel V) :
    Search V :=
  match graph.addEvent tid label with
  | .error e => .fail (.engine e) .nil
  | .ok (_, child) => recur child (depth + 1)

def choiceChildren (graph : ExplorationGraph V) (depth : ℕ) (tid : ℕ)
    (nd : NondeterministicChoiceLabel V) : List V → Search V
  | [] => .nil
  | choice :: rest =>
    extended recur graph depth tid (nd.choose choice) ++ choiceChildren graph depth tid nd rest

def receiveChild (graph : ExplorationGraph V) (depth : ℕ) (tid : ℕ)
    (receive : ReceiveLabel V) (source : ReadsFromSource) : Search V :=
  match graph.withReceive tid (.receive receive) source with
  | .error e => .fail (.engine e) .nil
  | .ok child => guarded queries recur child (depth + 1)

def candidateChildren (graph : ExplorationGraph V) (depth : ℕ) (tid : ℕ)
    (receive : ReceiveLabel V) : List ℕ → Search V
  | [] => .nil
  | sendId :: rest =>
    receiveChild queries recur graph depth tid receive (.send sendId)
      ++ candidateChildren graph depth tid receive rest

def bottomChild (graph : ExplorationGraph V) (depth : ℕ) (tid : ℕ)
    (receive : ReceiveLabel V) : Search V :=
  if receive.isNonblocking then receiveChild queries recur graph depth tid receive .bottom else .nil

def revisitChildren (graph : ExplorationGraph V) (depth : ℕ) (sendId : ℕ) :
    List ℕ → Search V
  | [] => .nil
  | recvId :: rest =>
    match queries.revisitReceive graph sendId recvId with
    | .error e => .fail (.query e) .nil
    | .ok none => revisitChildren graph depth sendId rest
    | .ok (some child) =>
      guarded queries recur child (depth + 1) ++ revisitChildren graph depth sendId rest

def sendChildren (graph : ExplorationGraph V) (depth : ℕ) (tid : ℕ) (send : SendLabel V) :
    Search V :=
  match graph.addEvent tid (.send send) with
  | .error e => .fail (.engine e) .nil
  | .ok (sendId, child) =>
    revisitChildren queries recur child depth sendId (child.receiveEventIdsByThread send.destination)
      ++ recur child (depth + 1)

variable [DecidableEq V]

def eventChildren (graph : ExplorationGraph V) (depth : ℕ) (tid : ℕ) (label : EventLabel V) :
    Search V :=
  match label with
  | .error _ =>
    match graph.addEvent tid label with
    | .error e => .fail (.engine e) .nil
    | .ok (_, child) => .leaf ⟨child, .error⟩ .nil
  | .nondeterministicChoice nd =>
    if nd.choices.isEmpty then extended recur graph depth tid label
    else
      choiceChildren recur graph depth tid
        { nd with choices := eraseDuplicateNdChoices nd.choices } (eraseDuplicateNdChoices nd.choices)
  | .receive receive =>
    match queries.compatibleUnreadSendIds graph tid receive with
    | .error e => .fail (.query e) .nil
    | .ok candidates =>
      candidateChildren queries recur graph depth tid receive candidates
        ++ bottomChild queries recur graph depth tid receive
  | .send send => sendChildren queries recur graph depth tid send
  | .block => extended recur graph depth tid label

def maximalKind (graph : ExplorationGraph V) (suppressed : Bool) : TerminalExecutionKind :=
  if suppressed then .threadEventLimit else if graph.hasBlockedThread then .blocked else .full

def visitBody (graph : ExplorationGraph V) (depth : ℕ) : Search V :=
  if maxDepth ≤ depth then .leaf ⟨graph, .depthLimit⟩ .nil
  else
    match queries.computeNextEvent graph with
    | .error e => .fail (.query e) .nil
    | .ok ⟨none, suppressed⟩ =>
      match rescheduleChild queries graph threadIds with
      | .error e => .fail (.query e) .nil
      | .ok (some child) => recur child depth
      | .ok none => .leaf ⟨graph, maximalKind graph suppressed⟩ .nil
    | .ok ⟨some (tid, label), _⟩ => eventChildren queries recur graph depth tid label

end Children

variable [DecidableEq V]

/-- VISIT with at most `calls` nested calls. -/
def visitWithin : ℕ → ExplorationGraph V → ℕ → Search V
  | 0, _, _ => .nil
  | calls + 1, graph, depth =>
    .node ⟨graph, depth, .visit⟩
      (visitBody queries threadIds maxDepth (visitWithin calls) graph depth) .nil

/-- A child is one level deeper and has at most one more Block; a rescheduled graph has one less. -/
def visitCalls (graph : ExplorationGraph V) (depth : ℕ) : ℕ :=
  2 * (maxDepth - depth) + graph.blockCount + 1

def visit (graph : ExplorationGraph V) (depth : ℕ) : Search V :=
  visitWithin queries threadIds maxDepth (visitCalls maxDepth graph depth) graph depth

def visitIfConsistent (graph : ExplorationGraph V) (depth : ℕ) : Search V :=
  guarded queries (visit queries threadIds maxDepth) graph depth

/-- The call a task stands for. -/
def visitTask (graph : ExplorationGraph V) (depth : ℕ) : ExplorationTaskMode → Search V
  | .visit => visit queries threadIds maxDepth graph depth
  | .visitIfConsistent => visitIfConsistent queries threadIds maxDepth graph depth

/-! ## The recursion is never cut -/

omit [DecidableEq V] in
theorem visitCalls_deeper {graph child : ExplorationGraph V} {depth : ℕ} (h : depth < maxDepth)
    (hblocks : child.blockCount ≤ graph.blockCount + 1) :
    visitCalls maxDepth child (depth + 1) < visitCalls maxDepth graph depth := by
  unfold visitCalls
  omega

variable {child : ExplorationGraph V}

omit [DecidableEq V] in
theorem addEvent_blockCount_le {graph : ExplorationGraph V} {tid id : ℕ} {label : EventLabel V}
    (h : graph.addEvent tid label = .ok (id, child)) : child.blockCount ≤ graph.blockCount + 1 := by
  obtain ⟨index, _, _, rfl⟩ := addEvent_inv h
  exact graph.appended_blockCount_le tid index label

omit [DecidableEq V] in
theorem withReceive_blockCount_le {graph : ExplorationGraph V} {tid : ℕ} {label : EventLabel V}
    {source : ReadsFromSource} (h : graph.withReceive tid label source = .ok child) :
    child.blockCount ≤ graph.blockCount + 1 := by
  obtain ⟨⟨recvId, added⟩, hadd, hassign⟩ := Except.bind_ok_iff.mp h
  have hevents := assignReadsFrom_events hassign
  have hadded := addEvent_blockCount_le hadd
  unfold ExplorationGraph.blockCount at hadded ⊢
  rw [hevents]
  exact hadded

omit [DecidableEq V] in
theorem rescheduleChild_inv {graph : ExplorationGraph V} {tids : List ℕ}
    (h : rescheduleChild queries graph tids = .ok (some child)) :
    ∃ tid ∈ tids, queries.rescheduleThread graph tid = .ok (some child) := by
  induction tids with
  | nil => cases h
  | cons tid tids ih =>
    obtain ⟨found, hfound, h⟩ := Except.bind_ok_iff.mp h
    cases found with
    | none =>
      obtain ⟨other, hother, hready⟩ := ih h
      exact ⟨other, List.mem_cons_of_mem _ hother, hready⟩
    | some ready =>
      cases h
      exact ⟨tid, List.mem_cons_self, hfound⟩

omit [DecidableEq V] in
theorem rescheduleChild_blockCount_lt {graph : ExplorationGraph V} {tids : List ℕ}
    (h : rescheduleChild queries graph tids = .ok (some child)) : child.blockCount < graph.blockCount := by
  obtain ⟨tid, -, hready⟩ := rescheduleChild_inv queries h
  exact (queries.reschedule_rebuilt graph tid child hready).2

/-! ## Two searches side by side

A relation between forests that holds between the children's calls holds between the lists of children, as long as it
does not mind putting forests one after the other. What the searches ask the program for is left to the callers. -/

/-- Searches that answer the questions about graphs alike. -/
structure SameChecks (queries queries' : Queries V) : Prop where
  consistency : ∀ g, queries'.checkConsistency g = queries.checkConsistency g
  candidates : ∀ g tid receive, queries'.compatibleUnreadSendIds g tid receive =
    queries.compatibleUnreadSendIds g tid receive
  revisits : ∀ g sendId recvId, queries'.revisitReceive g sendId recvId = queries.revisitReceive g sendId recvId

/-- A graph that a call on `g` with this next event hands to a child call. -/
inductive Child (queries : Queries V) (g : ExplorationGraph V) (tid : ℕ) (label : EventLabel V) :
    ExplorationGraph V → Prop where
  | added (added : EventLabel V) (id : ℕ) (child : ExplorationGraph V) : g.addEvent tid added = .ok (id, child) →
      Child queries g tid label child
  | received (receive : ReceiveLabel V) (source : ReadsFromSource) (child : ExplorationGraph V) :
      g.withReceive tid (.receive receive) source = .ok child → Child queries g tid label child
  | revisited (send : SendLabel V) (sendId recvId : ℕ) (extended child : ExplorationGraph V) : label = .send send →
      g.addEvent tid (.send send) = .ok (sendId, extended) →
      recvId ∈ extended.receiveEventIdsByThread send.destination →
      queries.revisitReceive extended sendId recvId = .ok (some child) → Child queries g tid label child
  | marked (child : ExplorationGraph V) : Child queries g tid label child →
      Child queries g tid label child.markKnownAcyclic

omit [DecidableEq V] in
theorem Child.blockCount_le {g : ExplorationGraph V} {tid : ℕ} {label : EventLabel V} (h : Child queries g tid label child) :
    child.blockCount ≤ g.blockCount + 1 := by
  induction h with
  | added added id child hadd => exact addEvent_blockCount_le hadd
  | received receive source child hadd => exact withReceive_blockCount_le hadd
  | revisited send sendId recvId extended child _ hadd _ hrevisit =>
    exact le_trans (queries.revisit_rebuilt extended sendId recvId child hrevisit).2 (addEvent_blockCount_le hadd)
  | marked child _ ih => exact ih

/-- A relation between the forests of two searches, where those of the first have a property. -/
structure Pairs (C : Search V → Prop) (R : Search V → Search V → Prop) : Prop where
  nil : R .nil .nil
  fail : ∀ e, R (.fail e .nil) (.fail e .nil)
  append : ∀ f g f' g', R f f' → R g g' → R (f ++ g) (f' ++ g')
  guarded : ∀ g d f f', R f f' → R (.node ⟨g, d, .visitIfConsistent⟩ f .nil) (.node ⟨g, d, .visitIfConsistent⟩ f' .nil)
  of_append : ∀ f g, C (f ++ g) → C f ∧ C g
  of_node : ∀ call f, C (.node call f .nil) → C f

section Pairs
variable {queries queries' : Queries V} (hsame : SameChecks queries queries') {C : Search V → Prop}
  {R : Search V → Search V → Prop} (hpairs : Pairs C R) {recur recur' : ExplorationGraph V → ℕ → Search V}
  {g : ExplorationGraph V} {depth tid : ℕ} {label : EventLabel V} (hrecur : ∀ child, Child queries g tid label child →
    C (recur child (depth + 1)) → R (recur child (depth + 1)) (recur' child (depth + 1)))
include hpairs hrecur

omit [DecidableEq V] in
theorem extended_pairs {event : EventLabel V} (h : C (extended recur g depth tid event)) :
    R (extended recur g depth tid event) (extended recur' g depth tid event) := by
  unfold extended at h ⊢
  cases hadd : g.addEvent tid event with
  | error e => exact hpairs.fail _
  | ok added =>
    rw [hadd] at h
    exact hrecur _ (.added event _ _ hadd) h

omit [DecidableEq V] in
theorem choiceChildren_pairs {nd : NondeterministicChoiceLabel V}
    {choices : List V} (h : C (choiceChildren recur g depth tid nd choices)) :
    R (choiceChildren recur g depth tid nd choices) (choiceChildren recur' g depth tid nd choices) := by
  induction choices with
  | nil => exact hpairs.nil
  | cons choice rest ih =>
    unfold choiceChildren at h ⊢
    obtain ⟨hfirst, hrest⟩ := hpairs.of_append _ _ h
    exact hpairs.append _ _ _ _ (extended_pairs hpairs hrecur hfirst) (ih hrest)

include hsame

omit [DecidableEq V] in
theorem guarded_pairs (hchild : Child queries g tid label child) (h : C (guarded queries recur child (depth + 1))) :
    R (guarded queries recur child (depth + 1)) (guarded queries' recur' child (depth + 1)) := by
  unfold guarded at h ⊢
  have hinner := hpairs.of_node _ _ h
  refine hpairs.guarded _ _ _ _ ?_
  rw [hsame.consistency]
  revert hinner
  cases queries.checkConsistency child with
  | error e => exact fun _ => hpairs.fail _
  | ok answer =>
    obtain ⟨result, marks⟩ := answer
    dsimp only
    by_cases hconsistent : result.isConsistent = true
    · rw [if_pos hconsistent, if_pos hconsistent]
      refine hrecur _ ?_
      cases marks with
      | true => exact .marked child hchild
      | false => exact hchild
    · rw [if_neg hconsistent, if_neg hconsistent]
      exact fun _ => hpairs.nil

omit [DecidableEq V] in
theorem receiveChild_pairs {receive : ReceiveLabel V}
    {source : ReadsFromSource} (h : C (receiveChild queries recur g depth tid receive source)) :
    R (receiveChild queries recur g depth tid receive source)
      (receiveChild queries' recur' g depth tid receive source) := by
  unfold receiveChild at h ⊢
  cases hadd : g.withReceive tid (.receive receive) source with
  | error e => exact hpairs.fail _
  | ok child =>
    rw [hadd] at h
    exact guarded_pairs hsame hpairs hrecur (.received receive source child hadd) h

omit [DecidableEq V] in
theorem candidateChildren_pairs {receive : ReceiveLabel V}
    {candidates : List ℕ} (h : C (candidateChildren queries recur g depth tid receive candidates)) :
    R (candidateChildren queries recur g depth tid receive candidates)
      (candidateChildren queries' recur' g depth tid receive candidates) := by
  induction candidates with
  | nil => exact hpairs.nil
  | cons sendId rest ih =>
    unfold candidateChildren at h ⊢
    obtain ⟨hfirst, hrest⟩ := hpairs.of_append _ _ h
    exact hpairs.append _ _ _ _ (receiveChild_pairs hsame hpairs hrecur hfirst) (ih hrest)

omit [DecidableEq V] in
theorem receive_pairs {receive : ReceiveLabel V} {candidates : List ℕ}
    (h : C (candidateChildren queries recur g depth tid receive candidates ++
      bottomChild queries recur g depth tid receive)) :
    R (candidateChildren queries recur g depth tid receive candidates ++
        bottomChild queries recur g depth tid receive)
      (candidateChildren queries' recur' g depth tid receive candidates ++
        bottomChild queries' recur' g depth tid receive) := by
  obtain ⟨hfirst, hrest⟩ := hpairs.of_append _ _ h
  refine hpairs.append _ _ _ _ (candidateChildren_pairs hsame hpairs hrecur hfirst) ?_
  unfold bottomChild at hrest ⊢
  by_cases hmode : receive.isNonblocking = true
  · rw [if_pos hmode] at hrest
    rw [if_pos hmode, if_pos hmode]
    exact receiveChild_pairs hsame hpairs hrecur hrest
  · rw [if_neg hmode, if_neg hmode]
    exact hpairs.nil

omit [DecidableEq V] in
theorem revisitChildren_pairs {send : SendLabel V} {sendId : ℕ} (hlabel : label = .send send)
    (hadd : g.addEvent tid (.send send) = .ok (sendId, child)) {receives : List ℕ}
    (hreceives : receives ⊆ child.receiveEventIdsByThread send.destination)
    (h : C (revisitChildren queries recur child depth sendId receives)) :
    R (revisitChildren queries recur child depth sendId receives)
      (revisitChildren queries' recur' child depth sendId receives) := by
  induction receives with
  | nil => exact hpairs.nil
  | cons recvId rest ih =>
    obtain ⟨hrecv, hreceives⟩ := List.cons_subset.mp hreceives
    unfold revisitChildren at h ⊢
    rw [hsame.revisits]
    revert h
    cases hchild : queries.revisitReceive child sendId recvId with
    | error e => exact fun _ => hpairs.fail _
    | ok found =>
      cases found with
      | none => exact ih hreceives
      | some revisited =>
        intro h
        obtain ⟨hfirst, hrest⟩ := hpairs.of_append _ _ h
        refine hpairs.append _ _ _ _ (guarded_pairs hsame hpairs hrecur ?_ hfirst) (ih hreceives hrest)
        exact .revisited send sendId recvId child revisited hlabel hadd hrecv hchild

omit [DecidableEq V] in
theorem sendChildren_pairs {send : SendLabel V} (hlabel : label = .send send) (h : C (sendChildren queries recur g depth tid send)) :
    R (sendChildren queries recur g depth tid send) (sendChildren queries' recur' g depth tid send) := by
  unfold sendChildren at h ⊢
  cases hadd : g.addEvent tid (.send send) with
  | error e => exact hpairs.fail _
  | ok added =>
    rw [hadd] at h
    obtain ⟨hfirst, hrest⟩ := hpairs.of_append _ _ h
    exact hpairs.append _ _ _ _ (revisitChildren_pairs hsame hpairs hrecur hlabel hadd (List.Subset.refl _) hfirst)
      (hrecur _ (.added _ _ _ hadd) hrest)

theorem eventChildren_pairs
    (herror : ∀ error, label = .error error → R (eventChildren queries recur g depth tid (.error error))
      (eventChildren queries' recur' g depth tid (.error error)))
    (h : C (eventChildren queries recur g depth tid label)) :
    R (eventChildren queries recur g depth tid label) (eventChildren queries' recur' g depth tid label) := by
  cases label with
  | error error => exact herror error rfl
  | nondeterministicChoice nd =>
    unfold eventChildren at h ⊢
    dsimp only at h ⊢
    by_cases hempty : nd.choices.isEmpty = true
    · rw [if_pos hempty] at h
      rw [if_pos hempty, if_pos hempty]
      exact extended_pairs hpairs hrecur h
    · rw [if_neg hempty] at h
      rw [if_neg hempty, if_neg hempty]
      exact choiceChildren_pairs hpairs hrecur h
  | receive receive =>
    unfold eventChildren at h ⊢
    dsimp only at h ⊢
    rw [hsame.candidates]
    revert h
    cases queries.compatibleUnreadSendIds g tid receive with
    | error e => exact fun _ => hpairs.fail _
    | ok candidates => exact receive_pairs hsame hpairs hrecur
  | send send => exact sendChildren_pairs hsame hpairs hrecur rfl h
  | block => exact extended_pairs hpairs hrecur h

omit hrecur in
/-- Two calls on a graph whose next events differ in the flag only. -/
theorem visitBody_pairs {tids : List ℕ} (relabel : Bool → Bool)
    (hnext : depth < maxDepth → queries'.computeNextEvent g =
      (queries.computeNextEvent g).map fun result => ⟨result.next, relabel result.suppressedByThreadEventLimit⟩)
    (hwoken : rescheduleChild queries' g tids = rescheduleChild queries g tids)
    (hdeep : R (.leaf ⟨g, .depthLimit⟩ .nil) (.leaf ⟨g, .depthLimit⟩ .nil))
    (hmaximal : ∀ suppressed, R (.leaf ⟨g, maximalKind g suppressed⟩ .nil)
      (.leaf ⟨g, maximalKind g (relabel suppressed)⟩ .nil))
    (hwakes : ∀ child, rescheduleChild queries g tids = .ok (some child) → C (recur child depth) →
      R (recur child depth) (recur' child depth))
    (hevents : depth < maxDepth → ∀ tid label flag, queries.computeNextEvent g = .ok ⟨some (tid, label), flag⟩ →
      (∀ child, Child queries g tid label child → C (recur child (depth + 1)) →
        R (recur child (depth + 1)) (recur' child (depth + 1))) ∧
      ∀ error, label = .error error → R (eventChildren queries recur g depth tid (.error error))
        (eventChildren queries' recur' g depth tid (.error error)))
    (h : C (visitBody queries tids maxDepth recur g depth)) :
    R (visitBody queries tids maxDepth recur g depth) (visitBody queries' tids maxDepth recur' g depth) := by
  unfold visitBody at h ⊢
  by_cases hdepth : maxDepth ≤ depth
  · rw [if_pos hdepth, if_pos hdepth]
    exact hdeep
  rw [if_neg hdepth] at h
  rw [if_neg hdepth, if_neg hdepth, hnext (Nat.lt_of_not_le hdepth), hwoken]
  cases hresult : queries.computeNextEvent g with
  | error e => exact hpairs.fail _
  | ok result =>
    rw [hresult] at h
    obtain ⟨next, suppressed⟩ := result
    cases next with
    | none =>
      dsimp only [Except.map] at h ⊢
      cases hfound : rescheduleChild queries g tids with
      | error e => exact hpairs.fail _
      | ok found =>
        rw [hfound] at h
        cases found with
        | none => exact hmaximal suppressed
        | some child => exact hwakes child hfound h
    | some event =>
      obtain ⟨hchildren, herror⟩ := hevents (Nat.lt_of_not_le hdepth) event.1 event.2 suppressed hresult
      exact eventChildren_pairs hsame hpairs hchildren herror h

end Pairs

omit [DecidableEq V] in
theorem rescheduleChild_congr {queries queries' : Queries V} {g : ExplorationGraph V} {ids : List ℕ}
    (h : ∀ tid, queries'.rescheduleThread g tid = queries.rescheduleThread g tid) :
    rescheduleChild queries' g ids = rescheduleChild queries g ids := by
  induction ids with
  | nil => rfl
  | cons tid rest ih =>
    unfold rescheduleChild
    rw [h tid, ih]

omit [DecidableEq V] in
theorem sameChecks_self : SameChecks queries queries := ⟨fun _ => rfl, fun _ _ _ => rfl, fun _ _ _ => rfl⟩

omit [DecidableEq V] in
theorem sameNext_self (g : ExplorationGraph V) : queries.computeNextEvent g =
    (queries.computeNextEvent g).map fun result => ⟨result.next, id result.suppressedByThreadEventLimit⟩ := by
  cases queries.computeNextEvent g <;> rfl

omit [DecidableEq V] in
theorem equal_pairs : Pairs (fun _ : Search V => True) Eq where
  nil := rfl
  fail := fun _ => rfl
  append := by
    rintro f g _ _ rfl rfl
    rfl
  guarded := by
    rintro g d f _ rfl
    rfl
  of_append := fun _ _ _ => ⟨trivial, trivial⟩
  of_node := fun _ _ _ => trivial

theorem visitBody_congr {recur recur' : ExplorationGraph V → ℕ → Search V} {graph : ExplorationGraph V} {depth : ℕ}
    (h : ∀ child d, visitCalls maxDepth child d < visitCalls maxDepth graph depth →
      recur child d = recur' child d) :
    visitBody queries threadIds maxDepth recur graph depth =
      visitBody queries threadIds maxDepth recur' graph depth := by
  refine visitBody_pairs maxDepth (sameChecks_self queries) equal_pairs id (fun _ => sameNext_self queries graph) rfl
    rfl (fun _ => rfl) (fun child hchild _ => h child depth ?_)
    (fun hdepth tid label flag _ => ⟨fun child hchild _ => ?_, fun _ _ => rfl⟩) trivial
  · have hblocks := rescheduleChild_blockCount_lt queries hchild
    unfold visitCalls
    omega
  · exact h child _ (visitCalls_deeper maxDepth hdepth (hchild.blockCount_le queries))

theorem visitWithin_enough (calls calls' : ℕ) (graph : ExplorationGraph V) (depth : ℕ)
    (h : visitCalls maxDepth graph depth ≤ calls) (h' : visitCalls maxDepth graph depth ≤ calls') :
    visitWithin queries threadIds maxDepth calls graph depth =
      visitWithin queries threadIds maxDepth calls' graph depth := by
  induction calls generalizing calls' graph depth with
  | zero => exact absurd h (by unfold visitCalls; omega)
  | succ calls ih =>
    cases calls' with
    | zero => exact absurd h' (by unfold visitCalls; omega)
    | succ calls' =>
      unfold visitWithin
      rw [visitBody_congr queries threadIds maxDepth]
      intro child d hless
      exact ih calls' child d (by omega) (by omega)

theorem visit_eq (graph : ExplorationGraph V) (depth : ℕ) :
    visit queries threadIds maxDepth graph depth =
      .node ⟨graph, depth, .visit⟩
        (visitBody queries threadIds maxDepth (visit queries threadIds maxDepth) graph depth) .nil := by
  have hcalls : visitCalls maxDepth graph depth =
      (2 * (maxDepth - depth) + graph.blockCount) + 1 := rfl
  unfold visit
  rw [hcalls, visitWithin]
  congr 1
  apply visitBody_congr
  intro child d hless
  exact visitWithin_enough queries threadIds maxDepth _ _ child d (by omega) (le_refl _)

theorem size_visitTask_pos (graph : ExplorationGraph V) (depth : ℕ) (mode : ExplorationTaskMode) :
    0 < (visitTask queries threadIds maxDepth graph depth mode).size := by
  cases mode with
  | visit =>
    show 0 < (visit queries threadIds maxDepth graph depth).size
    rw [visit_eq, Forest.size]
    omega
  | visitIfConsistent =>
    show 0 < (guarded queries _ graph depth).size
    unfold guarded
    rw [Forest.size]
    omega

end Visit
end MustDpor

import MustDpor.Algo.Visit
import MustDpor.Algo.Unwinding

/-! # The explorer refines Algorithm 1

The frames of a context stand for the calls of VISIT that are still to be made (`Pending`): the top
frame for a call or the rest of its children, every frame underneath for the children it has left
once its checkpoint is restored. One round opens at least one call, or hands a child on, or moves to a
smaller frame (`Refines`); a run of the sequential executor therefore ends, and publishes what the
forest of the call has at its leaves. -/

namespace MustDpor
set_option autoImplicit false
open List

variable {V : Type}

/-! ## Pending calls -/

/-- The graph under a frame's checkpoint. -/
structure Rolls (graph : WorkerGraph V) (frame : Frame V) (below : WorkerGraph V) : Prop where
  rollback : graph.rollback frame.checkpoint = .ok below
  checkpoint : below.checkpoint = frame.checkpoint
  sound : below.graph.Sound

theorem Rolls.withMetadata {graph below : WorkerGraph V} {frame : Frame V} (h : Rolls graph frame below)
    (known : Bool) (pending : Option ℕ) : Rolls (graph.withMetadata known pending) frame below :=
  ⟨(graph.rollback_withMetadata frame.checkpoint known pending).trans h.rollback, h.checkpoint, h.sound⟩

theorem Rolls.self {graph : WorkerGraph V} {frame : Frame V} (h : graph.graph.Sound)
    (hcp : frame.checkpoint = graph.checkpoint) : Rolls graph frame graph :=
  ⟨by rw [hcp]; exact graph.rollback_checkpoint, hcp.symm, h⟩

/-- A frame that restores its checkpoint before it does anything else. -/
def Frame.Rolling (frame : Frame V) : Prop :=
  match frame.kind with
  | .exitLinearChild => True
  | .resumeNd => ∃ nd, frame.label = some (.nondeterministicChoice nd) ∧ nd.choices ≠ []
  | .resumeReceive => ∃ receive, frame.label = some (.receive receive)
  | .enter => False
  | .resumeSendRevisits => False

section Pending
variable [DecidableEq V] (queries : Queries V) (tids : List ℕ) (maxDepth : ℕ)

/-- The children a rolling frame has left. -/
def Frame.remaining (frame : Frame V) (graph : ExplorationGraph V) : Search V :=
  match frame.kind, frame.label with
  | .resumeNd, some (.nondeterministicChoice nd) =>
    choiceChildren (visit queries tids maxDepth) graph frame.dporTreeDepth frame.threadId nd
      (nd.choices.drop frame.cursor)
  | .resumeReceive, some (.receive receive) =>
    candidateChildren queries (visit queries tids maxDepth) graph frame.dporTreeDepth
        frame.threadId receive (frame.candidateEventIds.drop frame.cursor) ++
      if frame.flag then
        receiveChild queries (visit queries tids maxDepth) graph frame.dporTreeDepth
          frame.threadId receive .bottom
      else .nil
  | _, _ => .nil

inductive Waiting : WorkerGraph V → List (Frame V) → Search V → Prop where
  | bottom (graph : WorkerGraph V) : Waiting graph [] .nil
  | frame (graph below : WorkerGraph V) (frame : Frame V) (rest : List (Frame V)) (calls : Search V) :
      frame.Rolling → Rolls graph frame below → Waiting below rest calls →
      Waiting graph (frame :: rest)
        (frame.remaining queries tids maxDepth below.graph ++ calls)

inductive Pending : WorkerGraph V → List (Frame V) → Search V → Prop where
  | rolling (graph : WorkerGraph V) (frame : Frame V) (rest : List (Frame V)) (calls : Search V) :
      Waiting queries tids maxDepth graph (frame :: rest) calls →
      Pending graph (frame :: rest) calls
  | enter (graph : WorkerGraph V) (frame : Frame V) (rest : List (Frame V)) (calls : Search V) :
      frame.kind = .enter → Waiting queries tids maxDepth graph rest calls →
      Pending graph (frame :: rest)
        (visitTask queries tids maxDepth graph.graph frame.dporTreeDepth frame.mode ++ calls)
  | revisits (graph below : WorkerGraph V) (frame : Frame V) (rest : List (Frame V)) (sendId : ℕ)
      (calls : Search V) :
      frame.kind = .resumeSendRevisits → frame.eventId = some sendId →
      graph.graph.isSendId sendId = true → Rolls graph frame below →
      Waiting queries tids maxDepth below rest calls →
      Pending graph (frame :: rest)
        (revisitChildren queries (visit queries tids maxDepth) graph.graph frame.dporTreeDepth sendId
            (frame.candidateEventIds.drop frame.cursor) ++
          (visit queries tids maxDepth graph.graph (frame.dporTreeDepth + 1) ++ calls))

inductive PendingContexts (borrowed : WorkerGraph V) : List (Context V) → Search V → Prop where
  | done : PendingContexts borrowed [] .nil
  | borrowed (frames : List (Frame V)) (calls : Search V) :
      borrowed.graph.Sound → Pending queries tids maxDepth borrowed frames calls →
      PendingContexts borrowed [⟨none, frames⟩] calls
  | owned (graph : WorkerGraph V) (frames : List (Frame V)) (below : List (Context V))
      (calls later : Search V) :
      graph.graph.Sound → Pending queries tids maxDepth graph frames calls →
      PendingContexts borrowed below later →
      PendingContexts borrowed (⟨some graph, frames⟩ :: below) (calls ++ later)

variable {queries tids maxDepth}

theorem Waiting.withMetadata {graph : WorkerGraph V} {frames : List (Frame V)} {calls : Search V}
    (h : Waiting queries tids maxDepth graph frames calls) (known : Bool) (pending : Option ℕ) :
    Waiting queries tids maxDepth (graph.withMetadata known pending) frames calls := by
  cases h with
  | bottom => exact .bottom _
  | frame _ below frame rest calls hrolling hrolls hrest =>
    exact .frame _ below frame rest calls hrolling (hrolls.withMetadata known pending) hrest

end Pending

/-! ## What a handler does to the pending calls -/

/-- Answers of a round in which nobody stops and nothing throws. -/
structure ExecutorAnswers.Calm (answers : ExecutorAnswers V) : Prop where
  onEntry : answers.stopOnEntry = false
  beforeCheck : answers.stopBeforeCheck = false
  progress : answers.progress = none
  afterProgress : answers.stopAfterProgress = false
  atThread : ∀ tid, answers.stopAtThread tid = false
  published : answers.publishDeclined = false
  observer : ∀ terminal, answers.observer terminal = none

/-- How much is left to do for a top frame besides its calls: leaving it again costs one, and going on
to its next child costs the slack. -/
def Frame.load (slack : ℕ) (frame : Frame V) : ℕ := if frame.kind = .enter then 0 else slack + 1

def Disposition.load (slack : ℕ) : Disposition V → ℕ
  | .keep _ => slack + 1
  | .push _ _ => 1
  | .pop => slack
  | .replaceByOwned _ _ => 0
  | .pushOwned _ _ _ => 1

variable {disposition : Disposition V}

section Refines
variable [DecidableEq V] (queries : Queries V) (tids : List ℕ) (maxDepth slack : ℕ)

def handedOn : Option (ExplorationTask V) → Search V
  | none => .nil
  | some task => visitTask queries tids maxDepth task.graph.graph task.dporTreeDepth task.mode

/-- The calls left after a handler has disposed of the top frame. -/
def Left (rest : List (Frame V)) (graph : WorkerGraph V) (calls : Search V) : Disposition V → Prop
  | .keep frame =>
    frame.kind ≠ .enter ∧ Pending queries tids maxDepth graph (frame :: rest) calls
  | .push frame child =>
    frame.kind ≠ .enter ∧ child.kind = .enter ∧
      Pending queries tids maxDepth graph (child :: frame :: rest) calls
  | .pop => Waiting queries tids maxDepth graph rest calls
  | .replaceByOwned child depth => child.Sound ∧
    ∃ later, calls = visit queries tids maxDepth child depth ++ later ∧
      Waiting queries tids maxDepth graph rest later
  | .pushOwned frame child depth => child.Sound ∧ frame.kind ≠ .enter ∧
    ∃ later, calls = visitIfConsistent queries tids maxDepth child depth ++ later ∧
      Pending queries tids maxDepth graph (frame :: rest) later

/-- What `Left` says of the calls, whatever the kinds of the frames. -/
def Remains (rest : List (Frame V)) (graph : WorkerGraph V) (calls : Search V) : Disposition V → Prop
  | .keep frame => Pending queries tids maxDepth graph (frame :: rest) calls
  | .push frame child => Pending queries tids maxDepth graph (child :: frame :: rest) calls
  | .pop => Waiting queries tids maxDepth graph rest calls
  | .replaceByOwned child depth => child.Sound ∧
    ∃ later, calls = visit queries tids maxDepth child depth ++ later ∧
      Waiting queries tids maxDepth graph rest later
  | .pushOwned frame child depth => child.Sound ∧
    ∃ later, calls = visitIfConsistent queries tids maxDepth child depth ++ later ∧
      Pending queries tids maxDepth graph (frame :: rest) later

theorem Left.remains {rest : List (Frame V)} {graph : WorkerGraph V} {calls : Search V}
    (h : Left queries tids maxDepth rest graph calls disposition) :
    Remains queries tids maxDepth rest graph calls disposition := by
  cases disposition with
  | keep frame => exact h.2
  | push frame child => exact h.2.2
  | pop => exact h
  | replaceByOwned child depth => exact h
  | pushOwned frame child depth => exact ⟨h.1, h.2.2⟩

/-- A step that opens calls at the front of `before`: it runs into a failure, or it publishes the
first answer, hands on the first child, and leaves what follows. -/
inductive Refines (rest : List (Frame V)) (before : Search V) (load : ℕ) (step : FrameStep V) : Prop
    where
  | raises (raised : Raised) (opened : List (Call V)) (later : Search V) :
      step.raised = some raised → step.published = none → before.Opens opened (.fail raised later) →
      Refines rest before load step
  | moves (opened : List (Call V)) (after : Search V) :
      step.raised = none → step.graph.graph.Sound →
      (∀ task, step.spawned = some task → task.graph.graph.Sound) →
      before.Opens opened (Forest.ofAnswer step.published ++
        (handedOn queries tids maxDepth step.spawned ++ after)) →
      Left queries tids maxDepth rest step.graph after step.disposition →
      step.disposition.load slack + (if step.spawned.isNone then 1 else 0) ≤
        (slack + 2) * opened.length + load →
      Refines rest before load step

variable {queries tids maxDepth slack}

theorem Refines.of_opens {rest : List (Frame V)} {before opened : Search V} {calls : List (Call V)}
    {load : ℕ} {step : FrameStep V} (hopens : before.Opens calls opened)
    (h : Refines queries tids maxDepth slack rest opened ((slack + 2) * calls.length + load) step) :
    Refines queries tids maxDepth slack rest before load step := by
  cases h with
  | raises raised more later hraised hpublished hfail =>
    exact .raises raised (calls ++ more) later hraised hpublished
      (Forest.Opens.trans hopens hfail)
  | moves more after hraised hsound hspawned hmore hleft hload =>
    refine .moves (calls ++ more) after hraised hsound hspawned
      (Forest.Opens.trans hopens hmore) hleft ?_
    rw [length_append, Nat.mul_add]
    omega

theorem Refines.of_call {rest : List (Frame V)} (call : Call V) {inner later : Search V} {step : FrameStep V}
    (h : Refines queries tids maxDepth slack rest (inner ++ later) (slack + 2) step) :
    Refines queries tids maxDepth slack rest (.node call inner .nil ++ later) 0 step := by
  refine Refines.of_opens (Forest.Opens.single call inner later) ?_
  rw [length_singleton, Nat.mul_one, Nat.add_zero]
  exact h

theorem Refines.mono (rest : List (Frame V)) (before : Search V) (load load' : ℕ) (step : FrameStep V)
    (hload : load ≤ load') (h : Refines queries tids maxDepth slack rest before load step) :
    Refines queries tids maxDepth slack rest before load' step := by
  cases h with
  | raises raised opened later hraised hpublished hfail =>
    exact .raises raised opened later hraised hpublished hfail
  | moves opened after hraised hsound hspawned hopens hleft hless =>
    exact .moves opened after hraised hsound hspawned hopens hleft (by omega)

theorem Refines.fail (rest : List (Frame V)) (graph : WorkerGraph V) (frame : Frame V) (raised : Raised)
    (later : Search V) (load : ℕ) :
    Refines queries tids maxDepth slack rest (.fail raised later) load (.raise graph frame raised) :=
  .raises raised [] later rfl rfl (.refl _)

theorem Refines.silent {rest : List (Frame V)} {graph : WorkerGraph V} {disposition : Disposition V}
    {calls : Search V} {load : ℕ} (hsound : graph.graph.Sound)
    (hleft : Left queries tids maxDepth rest graph calls disposition) (hload : disposition.load slack < load) :
    Refines queries tids maxDepth slack rest calls load (.silent graph disposition) :=
  .moves [] calls rfl hsound nofun (.refl _) hleft (by
    show disposition.load slack + 1 ≤ (slack + 2) * 0 + load
    omega)

variable (answers : ExecutorAnswers V) (hcalm : answers.Calm) (graph : WorkerGraph V)
  (hsound : graph.graph.Sound) (rest : List (Frame V)) (calls : Search V)
  (hwaiting : Waiting queries tids maxDepth graph rest calls)
include hcalm

omit [DecidableEq V] in
theorem publishAndPop_calm (frame : Frame V) (kind : TerminalExecutionKind) :
    publishAndPop answers graph frame kind = ⟨graph, .pop, some ⟨graph.graph, kind⟩, none, none⟩ := by
  unfold publishAndPop
  rw [hcalm.published, hcalm.observer]
  rfl

omit [DecidableEq V] in
theorem find_reschedule_calm (g : ExplorationGraph V) (ids : List ℕ) :
    findBlockedReceiveRescheduleChild queries answers g ids =
      (rescheduleChild queries g ids).map fun
        | some child => .ready child
        | none => .none := by
  induction ids with
  | nil => rfl
  | cons tid ids ih =>
    unfold findBlockedReceiveRescheduleChild rescheduleChild
    rw [hcalm.atThread tid, if_neg Bool.false_ne_true, ih]
    cases queries.rescheduleThread g tid with
    | error e => rfl
    | ok found => cases found <;> rfl

include hsound hwaiting

theorem refines_publishAndPop (frame : Frame V) (kind : TerminalExecutionKind) :
    Refines queries tids maxDepth slack rest (.leaf ⟨graph.graph, kind⟩ calls) (slack + 2)
      (publishAndPop answers graph frame kind) := by
  rw [publishAndPop_calm answers hcalm]
  exact .moves [] calls rfl hsound nofun (.refl _) hwaiting (by simp [Disposition.load])

omit hcalm hsound in
theorem waiting_exitLinearChild {above : WorkerGraph V} {frame : Frame V}
    (hkind : frame.kind = .exitLinearChild) (hrolls : Rolls above frame graph) :
    Waiting queries tids maxDepth above (frame :: rest) calls := by
  have h := Waiting.frame above graph frame rest calls (by unfold Frame.Rolling; rw [hkind]; trivial) hrolls hwaiting
  have hnil : frame.remaining queries tids maxDepth graph.graph = .nil := by
    unfold Frame.remaining
    rw [hkind]
  rw [hnil] at h
  exact h

omit hcalm in
theorem refines_enterLinearChild (frame : Frame V) (tid : ℕ) (label : EventLabel V) :
    Refines queries tids maxDepth slack rest
      (extended (visit queries tids maxDepth) graph.graph frame.dporTreeDepth tid label ++ calls) (slack + 2)
      (enterLinearChild graph frame tid label) := by
  unfold extended enterLinearChild
  rw [ExplorationGraph.addEvent_eq, WorkerGraph.addEvent_eq]
  cases hnext : graph.graph.graph.nextEventIndex tid with
  | error e => exact Refines.fail rest graph frame (.engine e) _ (slack + 2)
  | ok index =>
    apply Refines.silent
    · exact hsound.appended label hnext
    · refine ⟨by simp, rfl, ?_⟩
      apply Pending.enter _ (Frame.enter (frame.dporTreeDepth + 1) .visit) _ _ rfl
      refine waiting_exitLinearChild graph rest calls hwaiting rfl ?_
      exact ⟨graph.rollback_appended hsound label hnext, rfl, hsound⟩
    · simp [Disposition.load]

theorem refines_enterError (frame : Frame V) (tid : ℕ) (l : ErrorLabel) :
    Refines queries tids maxDepth slack rest
      (eventChildren queries (visit queries tids maxDepth) graph.graph frame.dporTreeDepth tid
        (.error l) ++ calls) (slack + 2)
      (enterError answers graph frame tid (.error l)) := by
  unfold eventChildren enterError
  rw [ExplorationGraph.addEvent_eq, WorkerGraph.addEvent_eq]
  cases hnext : graph.graph.graph.nextEventIndex tid with
  | error e => exact Refines.fail rest graph frame (.engine e) _ (slack + 2)
  | ok index =>
    have hroll := graph.rollback_appended hsound (.error l) hnext
    simp only [Except.map, publishAndPop_calm answers hcalm, hroll]
    exact .moves [] calls rfl hsound nofun (.refl _) hwaiting (by simp [Disposition.load])

omit hcalm in
theorem refines_enterReceive (frame : Frame V) (tid : ℕ) (receive : ReceiveLabel V) :
    Refines queries tids maxDepth slack rest
      (eventChildren queries (visit queries tids maxDepth) graph.graph frame.dporTreeDepth tid
        (.receive receive) ++ calls) (slack + 2)
      (enterReceive queries graph frame tid receive) := by
  unfold eventChildren enterReceive
  dsimp only
  cases hcandidates : queries.compatibleUnreadSendIds graph.graph tid receive with
  | error e => exact Refines.fail rest graph _ (.query e) _ (slack + 2)
  | ok candidates =>
    apply Refines.silent hsound
    · refine ⟨by simp, Pending.rolling _ _ _ _ ?_⟩
      exact Waiting.frame graph graph _ rest calls ⟨receive, rfl⟩ (Rolls.self hsound rfl) hwaiting
    · simp [Disposition.load]

omit hcalm in
theorem refines_enterNondeterministicChoice (frame : Frame V) (tid : ℕ) (nd : NondeterministicChoiceLabel V) :
    Refines queries tids maxDepth slack rest
      (eventChildren queries (visit queries tids maxDepth) graph.graph frame.dporTreeDepth tid
        (.nondeterministicChoice nd) ++ calls) (slack + 2)
      (enterNondeterministicChoice graph frame tid nd) := by
  unfold eventChildren enterNondeterministicChoice
  by_cases hempty : nd.choices.isEmpty = true
  · simp only [if_pos hempty]
    exact refines_enterLinearChild graph hsound rest calls hwaiting frame tid _
  · simp only [if_neg hempty]
    apply Refines.silent hsound
    · refine ⟨by simp, Pending.rolling _ _ _ _ ?_⟩
      refine Waiting.frame graph graph _ rest calls ⟨_, rfl, ?_⟩ (Rolls.self hsound rfl) hwaiting
      exact eraseDuplicateNdChoices_ne_nil nd.choices (by simpa using hempty)
    · simp [Disposition.load]

omit hcalm in
theorem refines_enterSend (frame : Frame V) (tid : ℕ) (send : SendLabel V) :
    Refines queries tids maxDepth slack rest
      (eventChildren queries (visit queries tids maxDepth) graph.graph frame.dporTreeDepth tid
        (.send send) ++ calls) (slack + 2)
      (enterSend answers graph frame tid send) := by
  unfold eventChildren sendChildren enterSend
  dsimp only
  rw [ExplorationGraph.addEvent_eq, WorkerGraph.addEvent_eq]
  cases hnext : graph.graph.graph.nextEventIndex tid with
  | error e => exact Refines.fail rest graph frame (.engine e) _ (slack + 2)
  | ok index =>
    have hsend : (graph.graph.appended tid index (.send send)).isSendId graph.graph.eventCount = true := by
      unfold ExplorationGraph.isSendId
      rw [ExplorationGraph.label?_appended_self]
      rfl
    apply Refines.silent
    · exact hsound.appended _ hnext
    · refine ⟨by simp, ?_⟩
      simp only [Except.map, Forest.append_assoc]
      exact Pending.revisits _ graph _ rest graph.graph.eventCount calls rfl rfl hsend
        ⟨graph.rollback_appended hsound _ hnext, rfl, hsound⟩ hwaiting
    · simp [Disposition.load]

theorem refines_enterEvent (frame : Frame V) (tid : ℕ) (label : EventLabel V) :
    Refines queries tids maxDepth slack rest
      (eventChildren queries (visit queries tids maxDepth) graph.graph frame.dporTreeDepth tid
        label ++ calls) (slack + 2)
      (enterEvent queries answers graph frame tid label) := by
  cases label with
  | receive receive => exact refines_enterReceive graph hsound rest calls hwaiting frame tid receive
  | send send => exact refines_enterSend answers graph hsound rest calls hwaiting frame tid send
  | nondeterministicChoice nd =>
    exact refines_enterNondeterministicChoice graph hsound rest calls hwaiting frame tid nd
  | block => exact refines_enterLinearChild graph hsound rest calls hwaiting frame tid _
  | error l => exact refines_enterError answers hcalm graph hsound rest calls hwaiting frame tid l

theorem refines_enterMaximal (frame : Frame V) (suppressed : Bool) :
    Refines queries tids maxDepth slack rest
      ((match rescheduleChild queries graph.graph tids with
        | .error e => .fail (.query e) .nil
        | .ok (some child) => visit queries tids maxDepth child frame.dporTreeDepth
        | .ok none => .leaf ⟨graph.graph, maximalKind graph.graph suppressed⟩ .nil) ++ calls) (slack + 2)
      (enterMaximal queries tids answers graph frame suppressed) := by
  unfold enterMaximal
  rw [find_reschedule_calm answers hcalm]
  cases hfind : rescheduleChild queries graph.graph tids with
  | error e => exact Refines.fail rest graph frame (.query e) _ (slack + 2)
  | ok found =>
    cases found with
    | none =>
      exact refines_publishAndPop answers hcalm graph hsound rest calls hwaiting frame
        (maximalKind graph.graph suppressed)
    | some child =>
      have hchild : findBlockedReceiveRescheduleChild queries answers graph.graph tids =
          .ok (.ready child) := by
        rw [find_reschedule_calm answers hcalm, hfind]
        rfl
      apply Refines.silent hsound
      · exact ⟨(find_reschedule_rebuilt queries answers hchild).1,
          calls, rfl, hwaiting⟩
      · simp [Disposition.load]

theorem refines_enterVisit (frame : Frame V) :
    Refines queries tids maxDepth slack rest
      (visit queries tids maxDepth graph.graph frame.dporTreeDepth ++ calls) 0
      (enterVisit queries tids maxDepth answers graph frame) := by
  rw [visit_eq]
  refine Refines.of_call _ ?_
  unfold enterVisit visitBody
  simp only [hcalm.progress, hcalm.afterProgress, Bool.false_eq_true, if_false]
  by_cases hdepth : maxDepth ≤ frame.dporTreeDepth
  · simp only [if_pos hdepth]
    exact refines_publishAndPop answers hcalm graph hsound rest calls hwaiting frame .depthLimit
  · simp only [if_neg hdepth]
    cases hnext : queries.computeNextEvent graph.graph with
    | error e => exact Refines.fail rest graph frame (.query e) _ (slack + 2)
    | ok next =>
      obtain ⟨next, suppressed⟩ := next
      cases next with
      | none => exact refines_enterMaximal answers hcalm graph hsound rest calls hwaiting frame suppressed
      | some event =>
        exact refines_enterEvent answers hcalm graph hsound rest calls hwaiting frame event.1 event.2

theorem refines_handleEnterFrame (frame : Frame V) :
    Refines queries tids maxDepth slack rest
      (visitTask queries tids maxDepth graph.graph frame.dporTreeDepth frame.mode ++ calls) 0
      (handleEnterFrame queries tids maxDepth answers graph frame) := by
  unfold handleEnterFrame
  cases frame.mode with
  | visit => exact refines_enterVisit answers hcalm graph hsound rest calls hwaiting frame
  | visitIfConsistent =>
    show Refines queries tids maxDepth slack rest (guarded queries _ _ _ ++ calls) 0 _
    unfold guarded
    refine Refines.of_call _ ?_
    simp only [hcalm.beforeCheck, Bool.false_eq_true, if_false]
    cases hcheck : queries.checkConsistency graph.graph with
    | error e => exact Refines.fail rest graph frame (.query e) _ (slack + 2)
    | ok checked =>
      obtain ⟨result, marks⟩ := checked
      obtain ⟨known, pending, hchecked⟩ : ∃ known pending,
          (if marks then graph.markKnownAcyclic else graph) = graph.withMetadata known pending := by
        cases marks with
        | true => exact ⟨true, none, rfl⟩
        | false => exact ⟨graph.graph.knownAcyclic, graph.graph.pendingFreshReceiveId, rfl⟩
      have hgraph : (if marks then graph.graph.markKnownAcyclic else graph.graph) =
          (graph.withMetadata known pending).graph := by
        rw [← hchecked]
        cases marks <;> rfl
      have hwaiting' := hwaiting.withMetadata known pending
      have hsound' := hsound.withMetadata known pending
      dsimp only
      rw [hchecked, hgraph]
      by_cases hconsistent : result.isConsistent = true
      · simp only [hconsistent, Bool.not_true, Bool.false_eq_true, if_false, if_true]
        refine Refines.mono rest _ 0 (slack + 2) _ (by omega) ?_
        exact refines_enterVisit answers hcalm (graph.withMetadata known pending) hsound' rest calls
          hwaiting' { frame with mode := .visit }
      · simp only [hconsistent, Bool.not_false, if_true, Bool.false_eq_true, if_false]
        exact Refines.silent hsound' hwaiting' (by simp [Disposition.load])

end Refines

/-! ## Resumed frames -/

section Resumed
variable [DecidableEq V] {queries : Queries V} {tids : List ℕ} {maxDepth slack : ℕ}
  (answers : ExecutorAnswers V) (graph below : WorkerGraph V) (frame : Frame V) (rest : List (Frame V))
  (calls : Search V)

theorem refines_rollbackAndPopTopFrame (hkind : frame.kind = .exitLinearChild)
    (hrolls : Rolls graph frame below) (hwaiting : Waiting queries tids maxDepth below rest calls) :
    Refines queries tids maxDepth slack rest
      (frame.remaining queries tids maxDepth below.graph ++ calls) (slack + 1)
      (rollbackAndPopTopFrame graph frame) := by
  have hnil : frame.remaining queries tids maxDepth below.graph = .nil := by
    unfold Frame.remaining
    rw [hkind]
  unfold rollbackAndPopTopFrame
  rw [hrolls.rollback, hnil]
  exact Refines.silent hrolls.sound hwaiting (by simp [Disposition.load])

theorem refines_spawn (hrolls : Rolls below frame below) (hrolling : frame.Rolling)
    (hkind : frame.kind ≠ .enter) (task : ExplorationTask V) (hsound : task.graph.graph.Sound)
    (hwaiting : Waiting queries tids maxDepth below rest calls) :
    Refines queries tids maxDepth slack rest
      (visitTask queries tids maxDepth task.graph.graph task.dporTreeDepth task.mode ++
        (frame.remaining queries tids maxDepth below.graph ++ calls)) (slack + 1)
      (.spawn below frame task) := by
  refine .moves [] _ rfl hrolls.sound ?_ (.refl _) ?_ ?_
  · intro t ht
    cases ht
    exact hsound
  · exact ⟨hkind, .rolling _ _ _ _ (.frame below below frame rest calls hrolling hrolls hwaiting)⟩
  · show slack + 1 + 0 ≤ (slack + 2) * 0 + (slack + 1)
    omega

/-! ### Choices -/

theorem remaining_choice {nd : NondeterministicChoiceLabel V} {choice : V} (g : ExplorationGraph V)
    (hkind : frame.kind = .resumeNd) (hlabel : frame.label = some (.nondeterministicChoice nd))
    (hchoice : nd.choices[frame.cursor]? = some choice) :
    frame.remaining queries tids maxDepth g =
      extended (visit queries tids maxDepth) g frame.dporTreeDepth frame.threadId
          (nd.choose choice) ++
        frame.advance.remaining queries tids maxDepth g := by
  obtain ⟨hlt, hget⟩ := List.getElem?_eq_some_iff.mp hchoice
  unfold Frame.remaining Frame.advance Frame.resumeAt
  simp only [hkind, hlabel]
  rw [List.drop_eq_getElem_cons hlt, hget, choiceChildren]

theorem remaining_no_choice {nd : NondeterministicChoiceLabel V} (g : ExplorationGraph V)
    (hkind : frame.kind = .resumeNd) (hlabel : frame.label = some (.nondeterministicChoice nd))
    (hchoice : nd.choices[frame.cursor]? = none) :
    frame.remaining queries tids maxDepth g = .nil := by
  unfold Frame.remaining
  simp only [hkind, hlabel]
  rw [drop_eq_nil_of_le (getElem?_eq_none_iff.mp hchoice), choiceChildren]

theorem refines_resumeNdLocal (hslack : 0 < slack) (nd : NondeterministicChoiceLabel V) (choice : V)
    (hkind : frame.kind = .resumeNd) (hrolling : frame.Rolling)
    (hrolls : Rolls graph frame below) (hwaiting : Waiting queries tids maxDepth below rest calls) :
    Refines queries tids maxDepth slack rest
      (extended (visit queries tids maxDepth) below.graph frame.dporTreeDepth frame.threadId
          (nd.choose choice) ++
        (frame.advance.remaining queries tids maxDepth below.graph ++ calls)) (slack + 1)
      (resumeNdLocal below frame (nd.choose choice)) := by
  unfold extended resumeNdLocal
  rw [ExplorationGraph.addEvent_eq, WorkerGraph.addEvent_eq]
  cases hnext : below.graph.graph.nextEventIndex frame.threadId with
  | error e => exact Refines.fail rest below frame.advance (.engine e) _ (slack + 1)
  | ok index =>
    apply Refines.silent
    · exact hrolls.sound.appended _ hnext
    · refine ⟨by simp [Frame.advance, Frame.resumeAt, hkind], rfl, ?_⟩
      apply Pending.enter _ (Frame.enter (frame.dporTreeDepth + 1) .visit) _ _ rfl
      refine .frame _ below frame.advance rest calls hrolling ⟨?_, hrolls.checkpoint, hrolls.sound⟩ hwaiting
      show (below.appended _ index _).rollback frame.checkpoint = .ok below
      rw [← hrolls.checkpoint]
      exact below.rollback_appended hrolls.sound _ hnext
    · simp [Disposition.load, hslack]

theorem refines_handleResumeNdFrame (hslack : 0 < slack) (hkind : frame.kind = .resumeNd) (hrolling : frame.Rolling)
    (hrolls : Rolls graph frame below) (hwaiting : Waiting queries tids maxDepth below rest calls) :
    Refines queries tids maxDepth slack rest
      (frame.remaining queries tids maxDepth below.graph ++ calls) (slack + 1)
      (handleResumeNdFrame answers graph frame) := by
  obtain ⟨nd, hlabel, hchoices⟩ : ∃ nd, frame.label = some (.nondeterministicChoice nd) ∧
      nd.choices ≠ [] := by
    have h := hrolling
    unfold Frame.Rolling at h
    rw [hkind] at h
    exact h
  have hempty : ¬ nd.choices.isEmpty = true := by simpa using hchoices
  unfold handleResumeNdFrame
  simp only [hrolls.rollback, hlabel, if_neg hempty]
  cases hchoice : nd.choices[frame.cursor]? with
  | none =>
    rw [remaining_no_choice frame below.graph hkind hlabel hchoice]
    exact Refines.silent hrolls.sound hwaiting (by simp [Disposition.load])
  | some choice =>
    rw [remaining_choice frame below.graph hkind hlabel hchoice, Forest.append_assoc]
    have hlocal := refines_resumeNdLocal graph below frame rest calls hslack nd choice hkind hrolling hrolls
      hwaiting
    dsimp only
    unfold resumeNdChoice
    split
    · have hadd := (WorkerGraph.ofGraph below.graph).addEvent_eq frame.threadId (nd.choose choice)
      change _ = (below.graph.graph.nextEventIndex frame.threadId).map _ at hadd
      have hgraph := below.graph.addEvent_eq frame.threadId (nd.choose choice)
      cases hnext : below.graph.graph.nextEventIndex frame.threadId with
      | error e =>
        rw [hnext] at hadd hgraph
        rw [hadd]
        unfold extended
        rw [hgraph]
        exact Refines.fail rest below frame (.engine e) _ (slack + 1)
      | ok index =>
        rw [hnext] at hadd hgraph
        rw [hadd]
        dsimp only [Except.map]
        split
        · unfold extended
          rw [hgraph]
          exact refines_spawn below frame.advance rest calls
            (Rolls.self hrolls.sound hrolls.checkpoint.symm) hrolling
            (by simp [Frame.advance, Frame.resumeAt, hkind])
            ⟨(WorkerGraph.ofGraph below.graph).appended frame.threadId index (nd.choose choice),
              frame.dporTreeDepth + 1, .visit⟩
            (hrolls.sound.appended _ hnext) hwaiting
        · exact hlocal
    · exact hlocal

/-! ### Receives -/

omit [DecidableEq V] in
theorem addReceive_graph (w : WorkerGraph V) (tid : ℕ) (label : EventLabel V) (source : ReadsFromSource) :
    w.graph.withReceive tid label source = (addReceive w tid label source).map WorkerGraph.graph := by
  unfold ExplorationGraph.withReceive addReceive
  rw [ExplorationGraph.addEvent_eq, WorkerGraph.addEvent_eq]
  cases w.graph.graph.nextEventIndex tid with
  | error e => rfl
  | ok index =>
    show (w.graph.appended tid index label).assignReadsFrom w.graph.eventCount source =
      ((w.appended tid index label).setReadsFromSource w.graph.eventCount source).map WorkerGraph.graph
    rw [WorkerGraph.setReadsFromSource_eq]
    show _ = ((w.graph.appended tid index label).assignReadsFrom w.graph.eventCount source >>= _).map _
    cases (w.graph.appended tid index label).assignReadsFrom w.graph.eventCount source <;> rfl

omit [DecidableEq V] in
theorem addReceive_sound (w w' : WorkerGraph V) (h : w.graph.Sound) (tid : ℕ) (label : EventLabel V)
    (source : ReadsFromSource) (hadd : addReceive w tid label source = .ok w') : w'.graph.Sound := by
  obtain ⟨index, hnext, hset⟩ := addReceive_inv hadd
  obtain ⟨g', hg', rfl⟩ := WorkerGraph.setReadsFromSource_inv hset
  exact (h.appended label hnext).assignReadsFrom hg'

theorem remaining_candidate {receive : ReceiveLabel V} {sendId : ℕ} (g : ExplorationGraph V)
    (hkind : frame.kind = .resumeReceive) (hlabel : frame.label = some (.receive receive))
    (hcandidate : frame.candidateEventIds[frame.cursor]? = some sendId) :
    frame.remaining queries tids maxDepth g =
      receiveChild queries (visit queries tids maxDepth) g frame.dporTreeDepth frame.threadId
          receive (.send sendId) ++
        frame.advance.remaining queries tids maxDepth g := by
  obtain ⟨hlt, hget⟩ := List.getElem?_eq_some_iff.mp hcandidate
  unfold Frame.remaining Frame.advance Frame.resumeAt
  simp only [hkind, hlabel]
  rw [List.drop_eq_getElem_cons hlt, hget, candidateChildren, Forest.append_assoc]

theorem remaining_bottom {receive : ReceiveLabel V} (g : ExplorationGraph V)
    (hkind : frame.kind = .resumeReceive) (hlabel : frame.label = some (.receive receive))
    (hcandidate : frame.candidateEventIds[frame.cursor]? = none) :
    frame.remaining queries tids maxDepth g =
      (if frame.flag then
        receiveChild queries (visit queries tids maxDepth) g frame.dporTreeDepth frame.threadId
          receive .bottom
      else .nil) ++ frame.bottomDone.remaining queries tids maxDepth g := by
  unfold Frame.remaining Frame.bottomDone
  simp only [hkind, hlabel]
  rw [drop_eq_nil_of_le (getElem?_eq_none_iff.mp hcandidate), candidateChildren]
  simp

theorem refines_resumeReceiveLocal (hslack : 0 < slack) (receive : ReceiveLabel V) (source : ReadsFromSource)
    {advanced : Frame V} (hkind : advanced.kind ≠ .enter) (hrolling : advanced.Rolling)
    (hcp : advanced.checkpoint = below.checkpoint) (hsound : below.graph.Sound)
    (hwaiting : Waiting queries tids maxDepth below rest calls) :
    Refines queries tids maxDepth slack rest
      (receiveChild queries (visit queries tids maxDepth) below.graph frame.dporTreeDepth
          frame.threadId receive source ++
        (advanced.remaining queries tids maxDepth below.graph ++ calls)) (slack + 1)
      (resumeReceiveLocal below frame (.receive receive) source advanced) := by
  unfold receiveChild resumeReceiveLocal
  rw [addReceive_graph]
  cases hadd : addReceive below frame.threadId (.receive receive) source with
  | error e => exact Refines.fail rest below advanced (.engine e) _ (slack + 1)
  | ok child =>
    obtain ⟨index, hnext, hset⟩ := addReceive_inv hadd
    apply Refines.silent
    · exact addReceive_sound below child hsound frame.threadId _ source hadd
    · refine ⟨hkind, rfl, ?_⟩
      apply Pending.enter _ (Frame.enter (frame.dporTreeDepth + 1) .visitIfConsistent) _ _ rfl
      refine .frame _ below advanced rest calls hrolling ⟨?_, hcp.symm, hsound⟩ hwaiting
      rw [hcp]
      exact below.rollback_appended_setReadsFromSource child hsound hnext hset
    · simp [Disposition.load, hslack]

theorem refines_resumeReceiveCandidate (hslack : 0 < slack) (receive : ReceiveLabel V) (sendId : ℕ)
    (hkind : frame.kind = .resumeReceive) (hrolling : frame.Rolling) (hrolls : Rolls graph frame below)
    (hwaiting : Waiting queries tids maxDepth below rest calls) :
    Refines queries tids maxDepth slack rest
      (receiveChild queries (visit queries tids maxDepth) below.graph frame.dporTreeDepth
          frame.threadId receive (.send sendId) ++
        (frame.advance.remaining queries tids maxDepth below.graph ++ calls)) (slack + 1)
      (resumeReceiveCandidate answers below frame (.receive receive) sendId) := by
  have hne : frame.advance.kind ≠ .enter := by simp [Frame.advance, Frame.resumeAt, hkind]
  have hlocal := refines_resumeReceiveLocal below frame rest calls hslack receive (.send sendId)
    hne hrolling hrolls.checkpoint.symm hrolls.sound hwaiting
  unfold resumeReceiveCandidate
  split
  · have hgraph := addReceive_graph (WorkerGraph.ofGraph below.graph) frame.threadId (.receive receive)
      (.send sendId)
    change below.graph.withReceive _ _ _ = _ at hgraph
    cases hadd : addReceive (WorkerGraph.ofGraph below.graph) frame.threadId (.receive receive)
        (.send sendId) with
    | error e =>
      unfold receiveChild
      rw [hgraph, hadd]
      exact Refines.fail rest below frame (.engine e) _ (slack + 1)
    | ok child =>
      dsimp only
      split
      · unfold receiveChild
        rw [hgraph, hadd]
        exact refines_spawn below frame.advance rest calls
          (Rolls.self hrolls.sound hrolls.checkpoint.symm) hrolling hne
          ⟨child, frame.dporTreeDepth + 1, .visitIfConsistent⟩
          (addReceive_sound (WorkerGraph.ofGraph below.graph) child hrolls.sound _ _ _ hadd) hwaiting
      · exact hlocal
  · exact hlocal

theorem refines_handleResumeReceiveFrame (hslack : 0 < slack) (hkind : frame.kind = .resumeReceive)
    (hrolling : frame.Rolling) (hrolls : Rolls graph frame below)
    (hwaiting : Waiting queries tids maxDepth below rest calls) :
    Refines queries tids maxDepth slack rest
      (frame.remaining queries tids maxDepth below.graph ++ calls) (slack + 1)
      (handleResumeReceiveFrame answers graph frame) := by
  obtain ⟨receive, hlabel⟩ : ∃ receive, frame.label = some (.receive receive) := by
    have h := hrolling
    unfold Frame.Rolling at h
    rw [hkind] at h
    exact h
  unfold handleResumeReceiveFrame
  simp only [hrolls.rollback, hlabel]
  cases hcandidate : frame.candidateEventIds[frame.cursor]? with
  | some sendId =>
    rw [remaining_candidate frame below.graph hkind hlabel hcandidate,
      Forest.append_assoc]
    exact refines_resumeReceiveCandidate answers graph below frame rest calls hslack receive sendId hkind
      hrolling hrolls hwaiting
  | none =>
    by_cases hflag : frame.flag = true
    · rw [remaining_bottom frame below.graph hkind hlabel hcandidate, Forest.append_assoc]
      simp only [if_pos hflag]
      exact refines_resumeReceiveLocal below frame rest calls hslack receive .bottom
        (by simp [Frame.bottomDone, hkind]) hrolling hrolls.checkpoint.symm hrolls.sound hwaiting
    · have hnil : frame.remaining queries tids maxDepth below.graph = .nil := by
        unfold Frame.remaining
        simp only [hkind, hlabel, if_neg hflag]
        rw [drop_eq_nil_of_le (getElem?_eq_none_iff.mp hcandidate), candidateChildren]
        rfl
      simp only [if_neg hflag]
      rw [hnil]
      exact Refines.silent hrolls.sound hwaiting (by simp [Disposition.load])

/-! ### Backward revisits -/

section Revisits
variable (recur : ExplorationGraph V → ℕ → Search V) (g : ExplorationGraph V) (depth sendId : ℕ)

omit [DecidableEq V] in
theorem revisitChildren_cons (recvId : ℕ) (receives : List ℕ) :
    revisitChildren queries recur g depth sendId (recvId :: receives) =
      match queries.revisitReceive g sendId recvId with
      | .error e => .fail (.query e) .nil
      | .ok none => revisitChildren queries recur g depth sendId receives
      | .ok (some child) =>
        guarded queries recur child (depth + 1) ++
          revisitChildren queries recur g depth sendId receives := rfl

omit [DecidableEq V] in
theorem revisitChildren_of_error (receives : List ℕ) (index : ℕ) (e : DporError)
    (h : nextBackwardRevisitChild queries g sendId receives index = .error e) :
    revisitChildren queries recur g depth sendId receives = .fail (.query e) .nil := by
  induction receives generalizing index with
  | nil => cases h
  | cons recvId receives ih =>
    unfold nextBackwardRevisitChild at h
    rw [revisitChildren_cons]
    cases hrevisit : queries.revisitReceive g sendId recvId with
    | error e' =>
      rw [hrevisit] at h
      cases h
      rfl
    | ok found =>
      rw [hrevisit] at h
      cases found with
      | some child => cases h
      | none => exact ih (index + 1) h

omit [DecidableEq V] in
theorem revisitChildren_of_none (receives : List ℕ) (index next : ℕ)
    (h : nextBackwardRevisitChild queries g sendId receives index = .ok (next, none)) :
    revisitChildren queries recur g depth sendId receives = .nil := by
  induction receives generalizing index with
  | nil => rfl
  | cons recvId receives ih =>
    obtain ⟨found, hfound, h⟩ := Except.bind_ok_iff.mp h
    rw [revisitChildren_cons, hfound]
    cases found with
    | some child => cases h
    | none => exact ih (index + 1) h

omit [DecidableEq V] in
theorem revisitChildren_of_some (receives : List ℕ) (index next : ℕ) (child : ExplorationGraph V)
    (h : nextBackwardRevisitChild queries g sendId receives index = .ok (next, some child)) :
    index ≤ next ∧ revisitChildren queries recur g depth sendId receives =
      guarded queries recur child (depth + 1) ++
        revisitChildren queries recur g depth sendId (receives.drop (next - index)) := by
  induction receives generalizing index with
  | nil => cases h
  | cons recvId receives ih =>
    obtain ⟨found, hfound, h⟩ := Except.bind_ok_iff.mp h
    rw [revisitChildren_cons, hfound]
    cases found with
    | some revisited =>
      cases h
      exact ⟨Nat.le_succ index, by rw [show index + 1 - index = 1 by omega, drop_one, tail_cons]⟩
    | none =>
      obtain ⟨hle, heq⟩ := ih (index + 1) h
      refine ⟨by omega, ?_⟩
      rw [show next - index = (next - (index + 1)) + 1 by omega, drop_succ_cons]
      exact heq

end Revisits

theorem refines_handleResumeSendRevisitsFrame (hslack : 0 < slack) {sendId : ℕ} (hsound : graph.graph.Sound)
    (hkind : frame.kind = .resumeSendRevisits) (heventId : frame.eventId = some sendId)
    (hsend : graph.graph.isSendId sendId = true) (hrolls : Rolls graph frame below)
    (hwaiting : Waiting queries tids maxDepth below rest calls) :
    Refines queries tids maxDepth slack rest
      (revisitChildren queries (visit queries tids maxDepth) graph.graph frame.dporTreeDepth sendId
          (frame.candidateEventIds.drop frame.cursor) ++
        (visit queries tids maxDepth graph.graph (frame.dporTreeDepth + 1) ++ calls)) (slack + 1)
      (handleResumeSendRevisitsFrame queries answers graph frame) := by
  unfold handleResumeSendRevisitsFrame
  simp only [heventId, hsend, Bool.not_true, Bool.false_eq_true, if_false]
  cases hloop : nextBackwardRevisitChild queries graph.graph sendId
      (frame.candidateEventIds.drop frame.cursor) frame.cursor with
  | error e =>
    rw [revisitChildren_of_error _ graph.graph frame.dporTreeDepth sendId _ _ e hloop]
    exact Refines.fail rest graph frame (.query e) _ (slack + 1)
  | ok result =>
    obtain ⟨next, found⟩ := result
    cases found with
    | none =>
      rw [revisitChildren_of_none _ graph.graph frame.dporTreeDepth sendId _ _ next hloop]
      apply Refines.silent hsound
      · refine ⟨by simp, rfl, ?_⟩
        apply Pending.enter graph (Frame.enter (frame.dporTreeDepth + 1) .visit) _ _ rfl
        exact waiting_exitLinearChild below rest calls hwaiting rfl
          ⟨hrolls.rollback, hrolls.checkpoint, hrolls.sound⟩
      · simp [Disposition.load, hslack]
    | some child =>
      obtain ⟨hle, heq⟩ := revisitChildren_of_some (visit queries tids maxDepth) graph.graph
        frame.dporTreeDepth sendId _ _ next child hloop
      rw [drop_drop, show frame.cursor + (next - frame.cursor) = next by omega] at heq
      have hchild := (nextBackwardRevisitChild_ready queries graph.graph child sendId next _ _ hloop).1
      have hpending := Pending.revisits graph below (frame.resumeAt next) rest sendId calls hkind
        heventId hsend ⟨hrolls.rollback, hrolls.checkpoint, hrolls.sound⟩ hwaiting
      rw [heq, Forest.append_assoc]
      dsimp only
      split
      · refine .moves [] _ rfl hsound ?_ (.refl _) ⟨by simp [Frame.resumeAt, hkind], hpending⟩ ?_
        · intro task htask
          cases htask
          exact hchild
        · show slack + 1 + 0 ≤ (slack + 2) * 0 + (slack + 1)
          omega
      · apply Refines.silent hsound
        · exact ⟨hchild, by simp [Frame.resumeAt, hkind], _, rfl, hpending⟩
        · simp [Disposition.load, hslack]

theorem refines_handleFrame (hslack : 0 < slack) (hcalm : answers.Calm) (hsound : graph.graph.Sound)
    (hpending : Pending queries tids maxDepth graph (frame :: rest) calls) :
    Refines queries tids maxDepth slack rest calls (frame.load slack)
      (handleFrame queries tids maxDepth answers graph frame) := by
  unfold handleFrame
  rw [hcalm.onEntry, if_neg Bool.false_ne_true]
  cases hpending with
  | enter _ _ calls hkind hwaiting =>
    rw [Frame.load, if_pos hkind, hkind]
    exact refines_handleEnterFrame answers hcalm graph hsound rest calls hwaiting frame
  | revisits below _ _ sendId calls hkind heventId hsend hrolls hwaiting =>
    rw [Frame.load, if_neg (by simp [hkind]), hkind]
    exact refines_handleResumeSendRevisitsFrame answers graph below frame rest calls hslack hsound hkind
      heventId hsend hrolls hwaiting
  | rolling _ _ _ hwaiting =>
    cases hwaiting with
    | frame _ below _ _ calls hrolling hrolls hwaiting =>
      cases hkind : frame.kind with
      | enter | resumeSendRevisits =>
        unfold Frame.Rolling at hrolling
        rw [hkind] at hrolling
        exact hrolling.elim
      | exitLinearChild =>
        rw [Frame.load, if_neg (by simp [hkind])]
        exact refines_rollbackAndPopTopFrame graph below frame rest calls hkind hrolls hwaiting
      | resumeNd =>
        rw [Frame.load, if_neg (by simp [hkind])]
        exact refines_handleResumeNdFrame answers graph below frame rest calls hslack hkind hrolling hrolls
          hwaiting
      | resumeReceive =>
        rw [Frame.load, if_neg (by simp [hkind])]
        exact refines_handleResumeReceiveFrame answers graph below frame rest calls hslack hkind hrolling hrolls
          hwaiting

end Resumed
/-! ## Rounds of the explorer -/

def rollingFrames (frames : List (Frame V)) : ℕ := frames.countP fun frame => frame.kind ≠ .enter

/-- What the frames add to the pending calls: each frame that has to be left again, and the step from
a top frame to its next child. -/
def rank (slack : ℕ) : List (Context V) → ℕ
  | [] => 0
  | context :: below =>
    rollingFrames context.frames + (below.map fun c => rollingFrames c.frames).sum +
      (context.frames.head?.elim 0 fun frame => if frame.kind = .enter then 0 else slack)

theorem rank_cons (slack : ℕ) (ownedGraph : Option (WorkerGraph V)) (frame : Frame V) (rest : List (Frame V))
    (below : List (Context V)) :
    rank slack (⟨ownedGraph, frame :: rest⟩ :: below) =
      frame.load slack + rollingFrames rest + (below.map fun c => rollingFrames c.frames).sum := by
  unfold rank rollingFrames Frame.load
  dsimp only
  rw [countP_cons]
  by_cases hkind : frame.kind = .enter
  · simp [hkind]
  · simp [hkind]
    omega

theorem rank_unlessEmpty_le (slack : ℕ) (ownedGraph : Option (WorkerGraph V)) (rest : List (Frame V))
    (below : List (Context V)) :
    rank slack (Context.unlessEmpty ⟨ownedGraph, rest⟩ ++ below) ≤
      rollingFrames rest + (below.map fun c => rollingFrames c.frames).sum + slack := by
  have htop : ∀ frames : List (Frame V),
      (frames.head?.elim 0 fun frame => if frame.kind = .enter then 0 else slack) ≤ slack := by
    intro frames
    cases frames with
    | nil => simp
    | cons frame frames =>
      simp only [head?_cons, Option.elim_some]
      split <;> omega
  unfold Context.unlessEmpty
  cases rest with
  | nil =>
    cases below with
    | nil => simp [rank]
    | cons context below =>
      have h := htop context.frames
      simp only [isEmpty_nil, if_true, nil_append, rank, map_cons, sum_cons]
      omega
  | cons frame rest =>
    have h := htop (frame :: rest)
    simp only [isEmpty_cons, Bool.false_eq_true, if_false, singleton_append, rank]
    omega

section Rounds
variable [DecidableEq V] {queries : Queries V} {tids : List ℕ} {maxDepth slack : ℕ}

theorem rank_settle_le (slack : ℕ) (ownedGraph : Option (WorkerGraph V)) {graph : WorkerGraph V}
    {rest : List (Frame V)} (below : List (Context V)) {calls : Search V}
    (hleft : Left queries tids maxDepth rest graph calls disposition) :
    rank slack (Context.settle ownedGraph rest disposition ++ below) ≤
      disposition.load slack + rollingFrames rest + (below.map fun c => rollingFrames c.frames).sum := by
  have hload : ∀ frame : Frame V, frame.kind ≠ .enter →
      rollingFrames (frame :: rest) = rollingFrames rest + 1 := by
    intro frame hkind
    unfold rollingFrames
    rw [countP_cons]
    simp [hkind]
  cases disposition with
  | keep frame =>
    rw [Context.settle, singleton_append, rank_cons, Frame.load, if_neg hleft.1]
    exact le_refl _
  | push frame child =>
    rw [Context.settle, singleton_append, rank_cons, Frame.load, if_pos hleft.2.1,
      hload frame hleft.1]
    show _ ≤ 1 + _ + _
    omega
  | pop =>
    have h := rank_unlessEmpty_le slack ownedGraph rest below
    show rank slack (Context.unlessEmpty ⟨ownedGraph, rest⟩ ++ below) ≤ slack + _ + _
    omega
  | replaceByOwned child depth =>
    show rank slack (⟨_, [Frame.enter depth .visit]⟩ :: (Context.unlessEmpty ⟨ownedGraph, rest⟩ ++ below)) ≤ _
    rw [rank_cons, map_append, sum_append]
    have hunless : ((Context.unlessEmpty ⟨ownedGraph, rest⟩).map
        fun c : Context V => rollingFrames c.frames).sum = rollingFrames rest := by
      unfold Context.unlessEmpty
      cases rest <;> simp [rollingFrames]
    rw [hunless]
    show 0 + 0 + _ ≤ 0 + _ + _
    omega
  | pushOwned frame child depth =>
    show rank slack (⟨_, [Frame.enter depth .visitIfConsistent]⟩ :: ⟨ownedGraph, frame :: rest⟩ :: below) ≤ _
    rw [rank_cons, map_cons, sum_cons, hload frame hleft.2.1]
    show 0 + 0 + _ ≤ 1 + _ + _
    omega

theorem pendingContexts_unlessEmpty {borrowed graph : WorkerGraph V} {rest : List (Frame V)}
    {below : List (Context V)} {calls later : Search V} (hsound : graph.graph.Sound)
    (h : Waiting queries tids maxDepth graph rest calls)
    (hbelow : PendingContexts queries tids maxDepth borrowed below later) :
    PendingContexts queries tids maxDepth borrowed
      (Context.unlessEmpty ⟨some graph, rest⟩ ++ below) (calls ++ later) := by
  cases rest with
  | nil =>
    cases h
    exact hbelow
  | cons frame rest => exact .owned graph _ below calls later hsound (.rolling graph frame rest calls h) hbelow

theorem pendingContexts_unlessEmpty_borrowed {graph : WorkerGraph V} {rest : List (Frame V)}
    {calls : Search V} (hsound : graph.graph.Sound) (h : Waiting queries tids maxDepth graph rest calls) :
    PendingContexts queries tids maxDepth graph (Context.unlessEmpty ⟨none, rest⟩) calls := by
  cases rest with
  | nil =>
    cases h
    exact .done
  | cons frame rest => exact .borrowed _ calls hsound (.rolling graph frame rest calls h)

theorem pending_ownedEnter (child : ExplorationGraph V) (depth : ℕ) (mode : ExplorationTaskMode) :
    Pending queries tids maxDepth (WorkerGraph.ofGraph child) [Frame.enter depth mode]
      (visitTask queries tids maxDepth child depth mode) := by
  rw [← Forest.append_nil (visitTask queries tids maxDepth child depth mode)]
  exact .enter (WorkerGraph.ofGraph child) (Frame.enter depth mode) [] .nil rfl (.bottom _)

theorem pendingContexts_settle_owned {borrowed graph : WorkerGraph V} {rest : List (Frame V)}
    {below : List (Context V)} {calls later : Search V}
    (hsound : graph.graph.Sound) (hleft : Remains queries tids maxDepth rest graph calls disposition)
    (hbelow : PendingContexts queries tids maxDepth borrowed below later) :
    PendingContexts queries tids maxDepth borrowed
      (Context.settle (some graph) rest disposition ++ below) (calls ++ later) := by
  cases disposition with
  | keep | push => exact .owned graph _ below calls later hsound hleft hbelow
  | pop => exact pendingContexts_unlessEmpty hsound hleft hbelow
  | replaceByOwned child depth =>
    obtain ⟨hchild, after, rfl, hwaiting⟩ := hleft
    rw [Forest.append_assoc]
    exact .owned _ _ _ _ _ hchild (pending_ownedEnter child depth .visit)
      (pendingContexts_unlessEmpty hsound hwaiting hbelow)
  | pushOwned frame child depth =>
    obtain ⟨hchild, after, rfl, hpending⟩ := hleft
    rw [Forest.append_assoc]
    exact .owned _ _ _ _ _ hchild (pending_ownedEnter child depth .visitIfConsistent)
      (.owned graph _ below after later hsound hpending hbelow)

theorem pendingContexts_settle_borrowed {graph : WorkerGraph V} {rest : List (Frame V)} {calls : Search V}
    (hsound : graph.graph.Sound) (hleft : Remains queries tids maxDepth rest graph calls disposition) :
    PendingContexts queries tids maxDepth graph (Context.settle none rest disposition) calls := by
  cases disposition with
  | keep | push => exact .borrowed _ calls hsound hleft
  | pop => exact pendingContexts_unlessEmpty_borrowed hsound hleft
  | replaceByOwned child depth =>
    obtain ⟨hchild, after, rfl, hwaiting⟩ := hleft
    exact .owned _ _ _ _ _ hchild (pending_ownedEnter child depth .visit)
      (pendingContexts_unlessEmpty_borrowed hsound hwaiting)
  | pushOwned frame child depth =>
    obtain ⟨hchild, after, rfl, hpending⟩ := hleft
    exact .owned _ _ _ _ _ hchild (pending_ownedEnter child depth .visitIfConsistent)
      (.borrowed _ after hsound hpending)

variable (queries tids maxDepth slack) in
/-- A round of the explorer, seen from the pending calls. -/
inductive RoundRefines (before : Search V) (contexts : List (Context V)) (outcome : Outcome V) : Prop
    where
  | raises (raised : Raised) (opened : List (Call V)) (later : Search V) :
      outcome.raised = some raised → outcome.published = none →
      before.Opens opened (.fail raised later) → RoundRefines before contexts outcome
  | moves (opened : List (Call V)) (after : Search V) :
      outcome.raised = none → (∀ task, outcome.spawned = some task → task.graph.graph.Sound) →
      before.Opens opened (Forest.ofAnswer outcome.published ++
        (handedOn queries tids maxDepth outcome.spawned ++ after)) →
      PendingContexts queries tids maxDepth outcome.explorer.borrowedGraph
        outcome.explorer.contexts after →
      rank slack outcome.explorer.contexts + (if outcome.spawned.isNone then 1 else 0) ≤
        (slack + 2) * opened.length + rank slack contexts →
      RoundRefines before contexts outcome

theorem roundRefines_iterate (hslack : 0 < slack) {answers : ExecutorAnswers V} (hcalm : answers.Calm)
    {explorer : Explorer V} {calls : Search V} (hne : explorer.contexts ≠ [])
    (h : PendingContexts queries tids maxDepth explorer.borrowedGraph explorer.contexts calls) :
    RoundRefines queries tids maxDepth slack calls explorer.contexts
       (explorer.iterate queries tids maxDepth answers) := by
  obtain ⟨borrowed, contexts⟩ := explorer
  cases h with
  | done => exact absurd rfl hne
  | borrowed frames _ hsound hpending =>
    cases frames with
    | nil => cases hpending
    | cons frame rest =>
      rw [iterate_borrowed]
      rcases refines_handleFrame answers borrowed frame rest calls hslack hcalm hsound hpending with
        ⟨raised, opened, later, hraised, hpublished, hopens⟩ |
        ⟨opened, after, hraised, hsound', hspawned, hopens, hleft, hload⟩
      · exact .raises raised opened later hraised hpublished hopens
      · refine .moves opened after hraised hspawned hopens ?_ ?_
        · dsimp only
          rw [append_nil]
          exact pendingContexts_settle_borrowed hsound' (hleft.remains queries tids maxDepth)
        · have hrank := rank_settle_le slack none [] hleft
          rw [rank_cons]
          dsimp only
          omega
  | owned graph frames below calls later hsound hpending hbelow =>
    cases frames with
    | nil => cases hpending
    | cons frame rest =>
      rw [iterate_owned]
      rcases refines_handleFrame answers graph frame rest calls hslack hcalm hsound hpending with
        ⟨raised, opened, after, hraised, hpublished, hopens⟩ |
        ⟨opened, after, hraised, hsound', hspawned, hopens, hleft, hload⟩
      · exact .raises raised opened (after ++ later) hraised hpublished
          (Forest.Opens.append _ _ later hopens)
      · refine .moves opened (after ++ later) hraised hspawned ?_ ?_ ?_
        · have happend := Forest.Opens.append _ _ later hopens
          rw [Forest.append_assoc, Forest.append_assoc] at happend
          exact happend
        · exact pendingContexts_settle_owned hsound'
            (hleft.remains queries tids maxDepth) hbelow
        · have hrank := rank_settle_le slack (some (handleFrame queries tids maxDepth answers graph
            frame).graph) below hleft
          rw [rank_cons]
          dsimp only
          omega

end Rounds
end MustDpor

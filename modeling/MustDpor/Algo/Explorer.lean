import MustDpor.Algo.Revisit

/-! # The depth-first explorer

`DepthFirstExplorer` of `include/dpor/algo/dpor.hpp`: a stack of contexts, each with a graph and a
stack of frames. One call of `Explorer.iterate` is one round of `run_loop`.

What a round asks of user code, and what it asks of the executor, are two records: thread functions,
matchers and observers may throw, and another worker may request a stop at any time. The handlers
work on one context's graph and top frame and say what becomes of the frame. -/

namespace MustDpor
set_option autoImplicit false

inductive ExplorationTaskMode where
  | visit
  | visitIfConsistent
  deriving DecidableEq, Repr

inductive ExplorationFrameKind where
  | enter
  | exitLinearChild
  | resumeNd
  | resumeReceive
  | resumeSendRevisits
  deriving DecidableEq, Repr

inductive TerminalExecutionKind where
  | full
  | blocked
  | error
  | depthLimit
  | threadEventLimit
  deriving DecidableEq, Repr

/-- `TerminalExecutionT`: what an observer is called with. -/
structure Terminal (V : Type) where
  graph : ExplorationGraph V
  kind : TerminalExecutionKind

structure ExplorationTask (V : Type) where
  graph : WorkerGraph V
  dporTreeDepth : ℕ
  mode : ExplorationTaskMode

structure Frame (V : Type) where
  kind : ExplorationFrameKind
  dporTreeDepth : ℕ
  mode : ExplorationTaskMode
  checkpoint : Checkpoint
  cursor : ℕ
  eventId : Option ℕ
  threadId : ℕ
  label : Option (EventLabel V)
  candidateEventIds : List ℕ
  flag : Bool

def Frame.enter {V : Type} (dporTreeDepth : ℕ) (mode : ExplorationTaskMode) : Frame V where
  kind := .enter
  dporTreeDepth := dporTreeDepth
  mode := mode
  checkpoint := ⟨0, 0, true, none⟩
  cursor := 0
  eventId := none
  threadId := 0
  label := none
  candidateEventIds := []
  flag := false

/-- The back of the frame vector is the head of the list. -/
structure Context (V : Type) where
  ownedGraph : Option (WorkerGraph V)
  frames : List (Frame V)

structure Explorer (V : Type) where
  borrowedGraph : WorkerGraph V
  contexts : List (Context V)

/-! ## The two environments of a round -/

/-- The queries of a round that run user code, each with its answer or exception. Whatever user code
does, a graph that comes back is rebuilt event by event from the one asked about. -/
structure Queries (V : Type) where
  checkConsistency : ExplorationGraph V → Except DporError (ConsistencyResult × Bool)
  computeNextEvent : ExplorationGraph V → Except DporError (NextEventResult V)
  rescheduleThread : ExplorationGraph V → ℕ → Except DporError (Option (ExplorationGraph V))
  compatibleUnreadSendIds : ExplorationGraph V → ℕ → ReceiveLabel V →
    Except DporError (List ℕ)
  revisitReceive : ExplorationGraph V → ℕ → ℕ →
    Except DporError (Option (ExplorationGraph V))
  reschedule_rebuilt : ∀ graph tid child, rescheduleThread graph tid = .ok (some child) →
    child.Sound ∧ child.blockCount < graph.blockCount
  revisit_rebuilt : ∀ graph sendId recvId child, revisitReceive graph sendId recvId = .ok (some child) →
    child.Sound ∧ child.blockCount ≤ graph.blockCount

structure DporConfig (V : Type) where
  program : Program V
  maxDepth : ℕ
  maxThreadEvents : ℕ
  communicationModel : CommunicationModel

/-- The queries of a program whose callbacks are total functions. -/
def Queries.ofConfig {V : Type} [LinearOrder V] (config : DporConfig V) (threadIds : List ℕ) :
    Queries V where
  checkConsistency := fun g => MustDpor.checkConsistency g config.communicationModel
  computeNextEvent := fun g =>
    MustDpor.computeNextEvent config.program g threadIds config.maxThreadEvents
  rescheduleThread := MustDpor.rescheduleThread config.program
  compatibleUnreadSendIds := fun g tid receive => .ok (MustDpor.compatibleUnreadSendIds g tid receive)
  revisitReceive := fun g => MustDpor.revisitReceive g config.communicationModel
  reschedule_rebuilt := fun g tid child => rescheduleThread_rebuilt config.program g child tid
  revisit_rebuilt := fun g sendId recvId child =>
    revisitReceive_rebuilt g child config.communicationModel sendId recvId

/-- The executor's answers in one round: its stop polls in program order, the progress observer,
the spawn and split hints, the outcome of `try_enqueue`, and the terminal observer. -/
structure ExecutorAnswers (V : Type) where
  stopOnEntry : Bool
  stopBeforeCheck : Bool
  progress : Option DporError
  stopAfterProgress : Bool
  stopAtThread : ℕ → Bool
  canSpawn : Bool
  shouldSplit : Bool
  enqueueAccepted : Bool
  publishDeclined : Bool
  observer : Terminal V → Option DporError

/-- An exception: out of a query or an observer, or out of the explorer's own graph mutations and
frame checks. -/
inductive Raised where
  | query (e : DporError)
  | engine (e : DporError)
  deriving DecidableEq, Repr

/-! ## What a handler does -/

/-- What becomes of the top frame. -/
inductive Disposition (V : Type) where
  | keep (frame : Frame V)
  | push (frame child : Frame V)
  | pop
  | replaceByOwned (graph : ExplorationGraph V) (dporTreeDepth : ℕ)
  | pushOwned (frame : Frame V) (graph : ExplorationGraph V) (dporTreeDepth : ℕ)

structure FrameStep (V : Type) where
  graph : WorkerGraph V
  disposition : Disposition V
  published : Option (Terminal V)
  spawned : Option (ExplorationTask V)
  raised : Option Raised

namespace FrameStep
variable {V : Type}

def silent (graph : WorkerGraph V) (disposition : Disposition V) : FrameStep V :=
  ⟨graph, disposition, none, none, none⟩

def raise (graph : WorkerGraph V) (frame : Frame V) (raised : Raised) : FrameStep V :=
  ⟨graph, .keep frame, none, none, some raised⟩

/-- A child handed to another worker; the graph stays as it is. -/
def spawn (graph : WorkerGraph V) (frame : Frame V) (task : ExplorationTask V) : FrameStep V :=
  ⟨graph, .keep frame, none, some task, none⟩

end FrameStep

section Handlers
variable {V : Type} (queries : Queries V) (threadIds : List ℕ) (maxDepth : ℕ) (answers : ExecutorAnswers V)

/-- `publish_terminal` followed by `pop_top_frame`. -/
def publishAndPop (graph : WorkerGraph V) (frame : Frame V) (kind : TerminalExecutionKind) :
    FrameStep V :=
  if answers.publishDeclined then .silent graph .pop
  else
    match answers.observer ⟨graph.graph, kind⟩ with
    | some e => ⟨graph, .keep frame, some ⟨graph.graph, kind⟩, none, some (.query e)⟩
    | none => ⟨graph, .pop, some ⟨graph.graph, kind⟩, none, none⟩

inductive BlockedReceiveReschedule (V : Type) where
  | none
  | ready (graph : ExplorationGraph V)
  | stopRequested

def findBlockedReceiveRescheduleChild (graph : ExplorationGraph V) :
    List ℕ → Except DporError (BlockedReceiveReschedule V)
  | [] => .ok .none
  | tid :: rest =>
    if answers.stopAtThread tid then .ok .stopRequested
    else do
      match ← queries.rescheduleThread graph tid with
      | some child => return .ready child
      | none => findBlockedReceiveRescheduleChild graph rest

/-- The branch of `handle_enter_frame` without a next event. -/
def enterMaximal (graph : WorkerGraph V) (frame : Frame V) (suppressed : Bool) : FrameStep V :=
  match findBlockedReceiveRescheduleChild queries answers graph.graph threadIds with
  | .error e => .raise graph frame (.query e)
  | .ok .stopRequested => .silent graph (.keep frame)
  | .ok (.ready child) => .silent graph (.replaceByOwned child frame.dporTreeDepth)
  | .ok .none =>
    publishAndPop answers graph frame
      (if suppressed then .threadEventLimit
        else if graph.graph.hasBlockedThread then .blocked else .full)

/-- `add_event`, then one child at the next depth that the frame waits for. -/
def enterLinearChild (graph : WorkerGraph V) (frame : Frame V) (tid : ℕ)
    (label : EventLabel V) : FrameStep V :=
  match graph.addEvent tid label with
  | .error e => .raise graph frame (.engine e)
  | .ok (_, extended) =>
    .silent extended
      (.push { frame with kind := .exitLinearChild, checkpoint := graph.checkpoint }
        (Frame.enter (frame.dporTreeDepth + 1) .visit))

/-- The Error branch: the observer runs while the frame is still an Enter frame and the graph
already holds the error event. -/
def enterError (graph : WorkerGraph V) (frame : Frame V) (tid : ℕ) (label : EventLabel V) :
    FrameStep V :=
  match graph.addEvent tid label with
  | .error e => .raise graph frame (.engine e)
  | .ok (_, extended) =>
    let published := publishAndPop answers extended frame .error
    match published.raised with
    | some _ => published
    | none =>
      match extended.rollback graph.checkpoint with
      | .error e => { published with disposition := .keep frame, raised := some (.engine e) }
      | .ok restored => { published with graph := restored }

def enterReceive (graph : WorkerGraph V) (frame : Frame V) (tid : ℕ)
    (receive : ReceiveLabel V) : FrameStep V :=
  let resumed : Frame V :=
    { frame with
      kind := .resumeReceive
      checkpoint := graph.checkpoint
      cursor := 0
      eventId := none
      threadId := tid }
  match queries.compatibleUnreadSendIds graph.graph tid receive with
  | .error e => .raise graph resumed (.query e)
  | .ok candidates =>
    .silent graph (.keep { resumed with
      candidateEventIds := candidates
      flag := receive.isNonblocking
      label := some (.receive receive) })

def enterSend (graph : WorkerGraph V) (frame : Frame V) (tid : ℕ) (send : SendLabel V) :
    FrameStep V :=
  match graph.addEvent tid (.send send) with
  | .error e => .raise graph frame (.engine e)
  | .ok (sendId, extended) =>
    .silent extended (.keep { frame with
      kind := .resumeSendRevisits
      checkpoint := graph.checkpoint
      cursor := 0
      eventId := some sendId
      label := none
      candidateEventIds := extended.graph.receiveEventIdsByThread send.destination
      flag := answers.canSpawn })

variable [DecidableEq V]

def enterNondeterministicChoice (graph : WorkerGraph V) (frame : Frame V) (tid : ℕ)
    (nd : NondeterministicChoiceLabel V) : FrameStep V :=
  if nd.choices.isEmpty then enterLinearChild graph frame tid (.nondeterministicChoice nd)
  else
    .silent graph (.keep { frame with
      kind := .resumeNd
      checkpoint := graph.checkpoint
      cursor := 0
      eventId := none
      threadId := tid
      label := some (.nondeterministicChoice
        { nd with choices := eraseDuplicateNdChoices nd.choices })
      candidateEventIds := []
      flag := false })

def enterEvent (graph : WorkerGraph V) (frame : Frame V) (tid : ℕ) (label : EventLabel V) :
    FrameStep V :=
  match label with
  | .error _ => enterError answers graph frame tid label
  | .nondeterministicChoice nd => enterNondeterministicChoice graph frame tid nd
  | .receive receive => enterReceive queries graph frame tid receive
  | .send send => enterSend answers graph frame tid send
  | .block => enterLinearChild graph frame tid label

/-- `handle_enter_frame` behind the consistency gate. -/
def enterVisit (graph : WorkerGraph V) (frame : Frame V) : FrameStep V :=
  match answers.progress with
  | some e => .raise graph frame (.query e)
  | none =>
    if answers.stopAfterProgress then .silent graph (.keep frame)
    else if maxDepth ≤ frame.dporTreeDepth then publishAndPop answers graph frame .depthLimit
    else
      match queries.computeNextEvent graph.graph with
      | .error e => .raise graph frame (.query e)
      | .ok ⟨none, suppressed⟩ => enterMaximal queries threadIds answers graph frame suppressed
      | .ok ⟨some (tid, label), _⟩ => enterEvent queries answers graph frame tid label

def handleEnterFrame (graph : WorkerGraph V) (frame : Frame V) : FrameStep V :=
  match frame.mode with
  | .visit => enterVisit queries threadIds maxDepth answers graph frame
  | .visitIfConsistent =>
    if answers.stopBeforeCheck then .silent graph .pop
    else
      match queries.checkConsistency graph.graph with
      | .error e => .raise graph frame (.query e)
      | .ok (result, marks) =>
        let checked := if marks then graph.markKnownAcyclic else graph
        if !result.isConsistent then .silent checked .pop
        else enterVisit queries threadIds maxDepth answers checked { frame with mode := .visit }

/-! ## Resuming a frame -/

def Frame.resumeAt (frame : Frame V) (next : ℕ) : Frame V := { frame with cursor := next }

def Frame.advance (frame : Frame V) : Frame V := frame.resumeAt (frame.cursor + 1)

/-- The ND label with one of its choices as the value. -/
def NondeterministicChoiceLabel.choose (nd : NondeterministicChoiceLabel V) (choice : V) : EventLabel V :=
  .nondeterministicChoice { nd with value := choice }

def resumeNdLocal (graph : WorkerGraph V) (frame : Frame V) (label : EventLabel V) : FrameStep V :=
  match graph.addEvent frame.threadId label with
  | .error e => .raise graph frame.advance (.engine e)
  | .ok (_, extended) =>
    .silent extended (.push frame.advance (Frame.enter (frame.dporTreeDepth + 1) .visit))

/-- `handle_resume_nd_frame` behind its rollback and label checks. -/
def resumeNdChoice (graph : WorkerGraph V) (frame : Frame V) (nd : NondeterministicChoiceLabel V)
    (choice : V) : FrameStep V :=
  if frame.cursor + 1 < nd.choices.length ∧ answers.shouldSplit then
    match (WorkerGraph.ofGraph graph.graph).addEvent frame.threadId (nd.choose choice) with
    | .error e => .raise graph frame (.engine e)
    | .ok (_, child) =>
      if answers.enqueueAccepted then
        .spawn graph frame.advance ⟨child, frame.dporTreeDepth + 1, .visit⟩
      else resumeNdLocal graph frame (nd.choose choice)
  else resumeNdLocal graph frame (nd.choose choice)

def handleResumeNdFrame (graph : WorkerGraph V) (frame : Frame V) : FrameStep V :=
  match graph.rollback frame.checkpoint with
  | .error e => .raise graph frame (.engine e)
  | .ok restored =>
    match frame.label with
    | none => .raise restored frame (.engine (.internalError "ND resume frame lost its cached label"))
    | some (.nondeterministicChoice nd) =>
      if nd.choices.isEmpty then
        .raise restored frame
          (.engine (.internalError "ND resume frame expected a non-empty ND choice"))
      else
        match nd.choices[frame.cursor]? with
        | none => .silent restored .pop
        | some choice => resumeNdChoice answers restored frame nd choice
    | some _ =>
      .raise restored frame (.engine (.internalError "ND resume frame expected a non-empty ND choice"))

/-- `add_event` and `set_reads_from_source` on the fresh receive. -/
def addReceive (graph : WorkerGraph V) (tid : ℕ) (label : EventLabel V)
    (source : ReadsFromSource) : Except DporError (WorkerGraph V) := do
  let (recvId, extended) ← graph.addEvent tid label
  extended.setReadsFromSource recvId source

def resumeReceiveLocal (graph : WorkerGraph V) (frame : Frame V) (label : EventLabel V)
    (source : ReadsFromSource) (advanced : Frame V) : FrameStep V :=
  match addReceive graph frame.threadId label source with
  | .error e => .raise graph advanced (.engine e)
  | .ok extended =>
    .silent extended (.push advanced (Frame.enter (frame.dporTreeDepth + 1) .visitIfConsistent))

/-- The bottom source is taken last and once. -/
def Frame.bottomDone (frame : Frame V) : Frame V := { frame with flag := false }

def Frame.keepsLocalWork (frame : Frame V) : Bool :=
  decide (frame.cursor + 1 < frame.candidateEventIds.length) || frame.flag

def resumeReceiveCandidate (graph : WorkerGraph V) (frame : Frame V) (label : EventLabel V)
    (sendId : ℕ) : FrameStep V :=
  if frame.keepsLocalWork && answers.shouldSplit then
    match addReceive (WorkerGraph.ofGraph graph.graph) frame.threadId label (.send sendId) with
    | .error e => .raise graph frame (.engine e)
    | .ok child =>
      if answers.enqueueAccepted then
        .spawn graph frame.advance ⟨child, frame.dporTreeDepth + 1, .visitIfConsistent⟩
      else resumeReceiveLocal graph frame label (.send sendId) frame.advance
  else resumeReceiveLocal graph frame label (.send sendId) frame.advance

def handleResumeReceiveFrame (graph : WorkerGraph V) (frame : Frame V) : FrameStep V :=
  match graph.rollback frame.checkpoint with
  | .error e => .raise graph frame (.engine e)
  | .ok restored =>
    match frame.label with
    | none =>
      .raise restored frame (.engine (.internalError "receive resume frame lost its cached label"))
    | some (.receive receive) =>
      match frame.candidateEventIds[frame.cursor]? with
      | some sendId => resumeReceiveCandidate answers restored frame (.receive receive) sendId
      | none =>
        if frame.flag then
          resumeReceiveLocal restored frame (.receive receive) .bottom frame.bottomDone
        else .silent restored .pop
    | some _ =>
      .raise restored frame (.engine (.internalError "receive resume frame expected a receive"))

/-- The loop of `next_backward_revisit_child` over the receives from a start index. -/
def nextBackwardRevisitChild (graph : ExplorationGraph V) (sendId : ℕ) :
    List ℕ → ℕ → Except DporError (ℕ × Option (ExplorationGraph V))
  | [], index => .ok (index, none)
  | recvId :: rest, index => do
    match ← queries.revisitReceive graph sendId recvId with
    | some child => return (index + 1, some child)
    | none => nextBackwardRevisitChild graph sendId rest (index + 1)

def handleResumeSendRevisitsFrame (graph : WorkerGraph V) (frame : Frame V) : FrameStep V :=
  match frame.eventId with
  | none =>
    .raise graph frame (.engine (.internalError "send resume frame expected a live send event"))
  | some sendId =>
    if !graph.graph.isSendId sendId then
      .raise graph frame (.engine (.internalError "send resume frame expected a live send event"))
    else
      match nextBackwardRevisitChild queries graph.graph sendId
          (frame.candidateEventIds.drop frame.cursor) frame.cursor with
      | .error e => .raise graph frame (.query e)
      | .ok (next, some child) =>
        if frame.flag ∧ answers.enqueueAccepted then
          .spawn graph (frame.resumeAt next)
            ⟨WorkerGraph.ofGraph child, frame.dporTreeDepth + 1, .visitIfConsistent⟩
        else .silent graph (.pushOwned (frame.resumeAt next) child (frame.dporTreeDepth + 1))
      | .ok (next, none) =>
        .silent graph (.push { frame with cursor := next, kind := .exitLinearChild }
          (Frame.enter (frame.dporTreeDepth + 1) .visit))

def rollbackAndPopTopFrame (graph : WorkerGraph V) (frame : Frame V) : FrameStep V :=
  match graph.rollback frame.checkpoint with
  | .error e => .raise graph frame (.engine e)
  | .ok restored => .silent restored .pop

/-- `unwind_one_step` on a frame: an Enter frame is dropped as it is. -/
def unwindFrame (graph : WorkerGraph V) (frame : Frame V) : FrameStep V :=
  match frame.kind with
  | .enter => .silent graph .pop
  | _ => rollbackAndPopTopFrame graph frame

def handleFrame (graph : WorkerGraph V) (frame : Frame V) : FrameStep V :=
  if answers.stopOnEntry then unwindFrame graph frame
  else
    match frame.kind with
    | .enter => handleEnterFrame queries threadIds maxDepth answers graph frame
    | .exitLinearChild => rollbackAndPopTopFrame graph frame
    | .resumeNd => handleResumeNdFrame answers graph frame
    | .resumeReceive => handleResumeReceiveFrame answers graph frame
    | .resumeSendRevisits => handleResumeSendRevisitsFrame queries answers graph frame

end Handlers

/-! ## The context stack -/

namespace Context
variable {V : Type}

def graph (context : Context V) (borrowed : WorkerGraph V) : WorkerGraph V :=
  context.ownedGraph.getD borrowed

/-- `push_owned_context`. -/
def owned (graph : ExplorationGraph V) (dporTreeDepth : ℕ) (mode : ExplorationTaskMode) : Context V :=
  ⟨some (WorkerGraph.ofGraph graph), [Frame.enter dporTreeDepth mode]⟩

/-- A context whose last frame was popped goes away. -/
def unlessEmpty (context : Context V) : List (Context V) :=
  if context.frames.isEmpty then [] else [context]

/-- The contexts that replace a top context with `rest` below its top frame. -/
def settle (ownedGraph : Option (WorkerGraph V)) (rest : List (Frame V)) :
    Disposition V → List (Context V)
  | .keep frame => [⟨ownedGraph, frame :: rest⟩]
  | .push frame child => [⟨ownedGraph, child :: frame :: rest⟩]
  | .pop => unlessEmpty ⟨ownedGraph, rest⟩
  | .replaceByOwned graph depth => owned graph depth .visit :: unlessEmpty ⟨ownedGraph, rest⟩
  | .pushOwned frame graph depth => [owned graph depth .visitIfConsistent, ⟨ownedGraph, frame :: rest⟩]

end Context

structure Outcome (V : Type) where
  explorer : Explorer V
  published : Option (Terminal V)
  spawned : Option (ExplorationTask V)
  raised : Option Raised

namespace Explorer
variable {V : Type}

/-- `run` before its loop. -/
def start (graph : WorkerGraph V) (dporTreeDepth : ℕ) (mode : ExplorationTaskMode) : Explorer V :=
  ⟨graph, [⟨none, [Frame.enter dporTreeDepth mode]⟩]⟩

/-- Puts a handler's result in the place of the top context. -/
def settle (borrowed : WorkerGraph V) (context : Context V) (rest : List (Frame V))
    (below : List (Context V)) (step : FrameStep V) : Outcome V :=
  let explorer : Explorer V :=
    match context.ownedGraph with
    | some _ => ⟨borrowed, Context.settle (some step.graph) rest step.disposition ++ below⟩
    | none => ⟨step.graph, Context.settle none rest step.disposition ++ below⟩
  ⟨explorer, step.published, step.spawned, step.raised⟩

/-- One round of `run_loop` on a nonempty context stack. -/
def iterate [DecidableEq V] (queries : Queries V) (threadIds : List ℕ) (maxDepth : ℕ)
    (answers : ExecutorAnswers V) (explorer : Explorer V) : Outcome V :=
  match explorer.contexts with
  | [] => ⟨explorer, none, none, none⟩
  | context :: below =>
    match context.frames with
    | [] => ⟨⟨explorer.borrowedGraph, below⟩, none, none, none⟩
    | frame :: rest =>
      settle explorer.borrowedGraph context rest below
        (handleFrame queries threadIds maxDepth answers (context.graph explorer.borrowedGraph) frame)

/-- The unwinding loop of the exception handler, for the frames of one context. -/
def unwindFrames : List (Frame V) → WorkerGraph V → Except DporError (WorkerGraph V)
  | [], graph => .ok graph
  | frame :: rest, graph =>
    match frame.kind with
    | .enter => unwindFrames rest graph
    | _ => do unwindFrames rest (← graph.rollback frame.checkpoint)

/-- The borrowed graph when `catch (...)` rethrows. A rollback that fails there ends the unwinding,
as `contexts_.clear()` does; how far that rollback got is not modelled. -/
def unwind (borrowed : WorkerGraph V) : List (Context V) → WorkerGraph V
  | [] => borrowed
  | context :: below =>
    match context.ownedGraph with
    | some owned =>
      match unwindFrames context.frames owned with
      | .error _ => borrowed
      | .ok _ => unwind borrowed below
    | none =>
      match unwindFrames context.frames borrowed with
      | .error _ => borrowed
      | .ok restored => unwind restored below

end Explorer
end MustDpor

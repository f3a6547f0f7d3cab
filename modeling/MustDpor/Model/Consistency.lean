import MustDpor.Foundations.ColourSearch
import MustDpor.Model.Porf

/-! # Consistency checking

`include/dpor/model/consistency.hpp`. One validation pass over the reads-from relation collects
issues; the asynchronous check adds the causal-cycle test, and the FIFO check two clauses per
channel. The checker on exploration graphs skips the cycle test on graphs known to be acyclic and
says whether it marks the graph it was given. -/

namespace MustDpor
set_option autoImplicit false

inductive ConsistencyIssueCode where
  | invalidEventReference
  | readsFromTargetNotReceive
  | readsFromSourceNotSend
  | missingReadsFromForReceive
  | blockingReceiveReadsBottom
  | sendConsumedMultipleTimes
  | receiveDestinationMismatch
  | receiveValueMismatch
  | causalCycle
  | fifoP2PUnreadEarlierMatchingSend
  | fifoP2PReceiveOrderViolation
  deriving DecidableEq, Repr

structure ConsistencyIssue where
  code : ConsistencyIssueCode
  message : String
  deriving DecidableEq, Repr

structure ConsistencyResult where
  issues : List ConsistencyIssue
  deriving DecidableEq, Repr

namespace ConsistencyResult

def isConsistent (r : ConsistencyResult) : Bool := r.issues.isEmpty

def addIssue (r : ConsistencyResult) (code : ConsistencyIssueCode) (message : String) :
    ConsistencyResult :=
  ⟨r.issues ++ [⟨code, message⟩]⟩

def addCausalCycleIssue (r : ConsistencyResult) : ConsistencyResult :=
  r.addIssue .causalCycle "program order and reads-from relations form a causal cycle"

end ConsistencyResult

/-! ## The validation pass -/

structure ValidationPass where
  result : ConsistencyResult
  validRfEdges : List (ℕ × ℕ)
  cycleQuerySafe : Bool
  receiveHasSource : ℕ → Bool
  /-- Eight-bit counters that saturate. -/
  sendReadCount : ℕ → ℕ

namespace ValidationPass
variable {V : Type}

def initial : ValidationPass := ⟨⟨[]⟩, [], true, fun _ => false, fun _ => 0⟩

def issue (p : ValidationPass) (code : ConsistencyIssueCode) (message : String) : ValidationPass :=
  { p with result := p.result.addIssue code message }

/-- An issue after which the cycle query must not trust the relation. -/
def endpointIssue (p : ValidationPass) (code : ConsistencyIssueCode) (message : String) :
    ValidationPass :=
  { p.issue code message with cycleQuerySafe := false }

def issueIf (p : ValidationPass) (condition : Bool) (code : ConsistencyIssueCode)
    (message : String) : ValidationPass :=
  if condition then p.issue code message else p

def endpointIssueIf (p : ValidationPass) (condition : Bool) (code : ConsistencyIssueCode)
    (message : String) : ValidationPass :=
  if condition then p.endpointIssue code message else p

/-- The part of the loop body behind the endpoint checks, for a send as the source. -/
def consume (p : ValidationPass) (receiveId sourceId : ℕ) (receiveThread : ℕ)
    (receive : ReceiveLabel V) (send : SendLabel V) : ValidationPass :=
  let readCount := p.sendReadCount sourceId
  let counted := if readCount < 255 then readCount + 1 else readCount
  let p := { p with sendReadCount := Function.update p.sendReadCount sourceId counted }
  let p := p.issueIf (decide (1 < counted)) .sendConsumedMultipleTimes
    ("send event " ++ toString sourceId ++ " is consumed by more than one receive")
  let p := p.issueIf (decide (send.destination ≠ receiveThread)) .receiveDestinationMismatch
    ("receive event " ++ toString receiveId ++ " in thread " ++ toString receiveThread
      ++ " reads from send event " ++ toString sourceId ++ " targeting thread "
      ++ toString send.destination)
  let p := p.issueIf (!receive.accepts send.value) .receiveValueMismatch
    ("receive event " ++ toString receiveId ++ " does not accept the value sent by event "
      ++ toString sourceId)
  { p with validRfEdges := p.validRfEdges ++ [(sourceId, receiveId)] }

/-- The endpoint-kind checks and what follows them, for an entry whose ids exist. -/
def checkEndpoints (p : ValidationPass) (receiveId : ℕ) (receiveEvent : Event V)
    (source : Option (ℕ × Event V)) : ValidationPass :=
  let p := { p with receiveHasSource := Function.update p.receiveHasSource receiveId true }
  let p := p.endpointIssueIf (!receiveEvent.label.isReceive) .readsFromTargetNotReceive
    ("reads-from target event " ++ toString receiveId ++ " is not a receive")
  match source with
  | none =>
    match receiveEvent.label.asReceive with
    | none => p
    | some receive =>
      p.issueIf receive.isBlocking .blockingReceiveReadsBottom
        ("blocking receive event " ++ toString receiveId ++ " reads from bottom")
  | some (sourceId, sourceEvent) =>
    let p := p.endpointIssueIf (!sourceEvent.label.isSend) .readsFromSourceNotSend
      ("reads-from source event " ++ toString sourceId ++ " is not a send")
    match receiveEvent.label.asReceive, sourceEvent.label.asSend with
    | some receive, some send => p.consume receiveId sourceId receiveEvent.thread receive send
    | _, _ => p

def checkEntry (graph : ExecutionGraph V) (p : ValidationPass)
    (entry : ℕ × ReadsFromSource) : ValidationPass :=
  let (receiveId, source) := entry
  let p := p.endpointIssueIf (!graph.isValidEventId receiveId) .invalidEventReference
    ("reads-from target references unknown event id " ++ toString receiveId)
  match source with
  | .bottom =>
    match graph.events[receiveId]? with
    | none => p
    | some receiveEvent => p.checkEndpoints receiveId receiveEvent none
  | .send sourceId =>
    let p := p.endpointIssueIf (!graph.isValidEventId sourceId) .invalidEventReference
      ("reads-from source references unknown event id " ++ toString sourceId)
    match graph.events[receiveId]?, graph.events[sourceId]? with
    | some receiveEvent, some sourceEvent =>
      p.checkEndpoints receiveId receiveEvent (some (sourceId, sourceEvent))
    | _, _ => p

def checkMissing (graph : ExecutionGraph V) (missingReadsTolerance : ℕ → Bool)
    (p : ValidationPass) (eventId : ℕ) : ValidationPass :=
  p.issueIf
    ((graph.events[eventId]?.any (fun e => e.label.isReceive)) && !p.receiveHasSource eventId
      && !missingReadsTolerance eventId)
    .missingReadsFromForReceive
    ("receive event " ++ toString eventId ++ " has no reads-from assignment")

end ValidationPass

section Checks
variable {V : Type}

def validateGraph (graph : ExecutionGraph V) (missingReadsTolerance : ℕ → Bool) :
    ValidationPass :=
  (List.range graph.events.length).foldl (ValidationPass.checkMissing graph missingReadsTolerance)
    (graph.readsFrom.entries.foldl (ValidationPass.checkEntry graph) ValidationPass.initial)

def noMissingReadsTolerance : ℕ → Bool := fun _ => false

/-! ## Causal cycles -/

/-- The successor table of `has_causal_cycle`: program order first, then the reads-from edges. -/
def cycleSuccessors (po : ExecutionGraph.ProgramOrderRelation) (rfEdges : List (ℕ × ℕ))
    (eventCount : ℕ) (node : ℕ) : List ℕ :=
  if node < eventCount then
    po.successors node ++
      (rfEdges.filter (fun e => decide (e.1 = node ∧ e.2 < eventCount))).map Prod.snd
  else []

def hasCausalCycle (po : ExecutionGraph.ProgramOrderRelation) (rfEdges : List (ℕ × ℕ))
    (eventCount : ℕ) : Bool :=
  ColourSearch.hasCycle eventCount (cycleSuccessors po rfEdges eventCount)

def checkAsyncExecutionGraph (graph : ExecutionGraph V) (missingReadsTolerance : ℕ → Bool) :
    Except DporError ConsistencyResult := do
  let validation := validateGraph graph missingReadsTolerance
  let po ← graph.poRelation
  if hasCausalCycle po validation.validRfEdges graph.events.length then
    return validation.result.addCausalCycleIssue
  else return validation.result

/-- The verdict, and whether the check ends with `graph.mark_known_acyclic()`. -/
def checkAsyncExplorationGraph (graph : ExplorationGraph V) (missingReadsTolerance : ℕ → Bool) :
    Except DporError (ConsistencyResult × Bool) := do
  let validation := validateGraph graph.graph missingReadsTolerance
  if !validation.cycleQuerySafe then
    let result ← checkAsyncExecutionGraph graph.graph missingReadsTolerance
    return (result, false)
  else
    -- with and without a cache the query has the same answer
    let hasCycle ← if graph.knownAcyclic then pure false else graph.hasCausalCycleWithoutCache
    if hasCycle then return (validation.result.addCausalCycleIssue, false)
    else return (validation.result, validation.result.isConsistent)

/-! ## FIFO channels -/

abbrev FifoGroups := List ((ℕ × ℕ) × List ℕ)

def FifoGroups.push (key : ℕ × ℕ) (id : ℕ) : FifoGroups → FifoGroups
  | [] => [(key, [id])]
  | (k, ids) :: rest =>
    if key = k then (k, ids ++ [id]) :: rest
    else if key.1 < k.1 ∨ (key.1 = k.1 ∧ key.2 < k.2) then (key, [id]) :: (k, ids) :: rest
    else (k, ids) :: FifoGroups.push key id rest

def groupFifoSends (graph : ExecutionGraph V) : FifoGroups :=
  graph.sendEventIds.foldl (fun groups id =>
    match graph.events[id]? with
    | some evt =>
      match evt.label.asSend with
      | some send => FifoGroups.push (evt.thread, send.destination) id groups
      | none => groups
    | none => groups) []

/-- A reads-from edge whose endpoints match, as `compute_send_consumers` filters them. -/
def matchedRead (graph : ExecutionGraph V) (receiveId sourceId : ℕ) : Bool :=
  match graph.events[receiveId]?, graph.events[sourceId]? with
  | some receiveEvent, some sendEvent =>
    match receiveEvent.label.asReceive, sendEvent.label.asSend with
    | some receive, some send =>
      decide (send.destination = receiveEvent.thread) && receive.accepts send.value
    | _, _ => false
  | _, _ => false

def computeSendConsumers (graph : ExecutionGraph V) : ℕ → Option ℕ :=
  graph.readsFrom.entries.foldl (fun consumers entry =>
    match entry.2 with
    | .bottom => consumers
    | .send sourceId =>
      if matchedRead graph entry.1 sourceId then Function.update consumers sourceId (some entry.1)
      else consumers) (fun _ => none)

/-- Does the receive of `consumer` accept the value of `sendId`? -/
def consumerAccepts (graph : ExecutionGraph V) (consumer sendId : ℕ) : Bool :=
  match graph.events[consumer]?, graph.events[sendId]? with
  | some receiveEvent, some sendEvent =>
    match receiveEvent.label.asReceive, sendEvent.label.asSend with
    | some receive, some send => receive.accepts send.value
    | _, _ => false
  | _, _ => false

/-- The first earlier send of the channel that witnesses the clause against `later`. -/
def clauseBWitness (graph : ExecutionGraph V) (consumers : ℕ → Option ℕ)
    (earlier : List ℕ) (later : ℕ) : Option (ℕ × ℕ) :=
  match consumers later with
  | none => none
  | some consumer =>
    (earlier.find? (fun s => (consumers s).isNone && consumerAccepts graph consumer s)).map
      (fun s => (consumer, s))

/-- `later_receive.thread == earlier_receive.thread && later_receive.index > earlier_receive.index`. -/
def consumesLater (graph : ExecutionGraph V) (earlierReceive laterReceive : ℕ) : Bool :=
  match graph.events[earlierReceive]?, graph.events[laterReceive]? with
  | some earlierEvent, some laterEvent =>
    decide (laterEvent.thread = earlierEvent.thread ∧ earlierEvent.index < laterEvent.index)
  | _, _ => false

def clauseCWitness (graph : ExecutionGraph V) (consumers : ℕ → Option ℕ)
    (earlier : List ℕ) (later : ℕ) : Option (ℕ × ℕ) :=
  match consumers later with
  | none => none
  | some earlierReceive =>
    (earlier.find? (fun s =>
      match consumers s with
      | none => false
      | some laterReceive =>
        consumesLater graph earlierReceive laterReceive && consumerAccepts graph earlierReceive s)).map
      (fun s => (earlierReceive, s))

/-- One clause along a channel: each send is compared with the sends before it. -/
def channelIssues (issueAt : List ℕ → ℕ → Option ConsistencyIssue) :
    List ℕ → List ℕ → List ConsistencyIssue
  | _, [] => []
  | earlier, later :: rest =>
    (issueAt earlier later).toList ++ channelIssues issueAt (earlier ++ [later]) rest

def clauseBIssue (graph : ExecutionGraph V) (consumers : ℕ → Option ℕ)
    (earlier : List ℕ) (later : ℕ) : Option ConsistencyIssue :=
  (clauseBWitness graph consumers earlier later).map fun w =>
    ⟨.fifoP2PUnreadEarlierMatchingSend,
      "receive event " ++ toString w.1 ++ " reads from send event " ++ toString later
        ++ " while unread earlier matching send event " ++ toString w.2 ++ " remains available"⟩

def clauseCIssue (graph : ExecutionGraph V) (consumers : ℕ → Option ℕ)
    (earlier : List ℕ) (later : ℕ) : Option ConsistencyIssue :=
  (clauseCWitness graph consumers earlier later).map fun w =>
    ⟨.fifoP2PReceiveOrderViolation,
      "receive event " ++ toString w.1 ++ " consumes later send event " ++ toString later
        ++ " before receive event " ++ toString ((consumers w.2).getD 0)
        ++ " consumes earlier matching send event " ++ toString w.2⟩

def addFifoP2PIssues (graph : ExecutionGraph V) (result : ConsistencyResult) : ConsistencyResult :=
  let groups := groupFifoSends graph
  let consumers := computeSendConsumers graph
  ⟨result.issues
    ++ groups.flatMap (fun g => channelIssues (clauseBIssue graph consumers) [] g.2)
    ++ groups.flatMap (fun g => channelIssues (clauseCIssue graph consumers) [] g.2)⟩

/-! ## The two entry points -/

def checkExecutionGraph (graph : ExecutionGraph V) (communicationModel : CommunicationModel)
    (missingReadsTolerance : ℕ → Bool) : Except DporError ConsistencyResult := do
  let result ← checkAsyncExecutionGraph graph missingReadsTolerance
  if communicationModel = .fifoP2P ∧ result.isConsistent then return addFifoP2PIssues graph result
  else return result

def checkExplorationGraph (graph : ExplorationGraph V) (communicationModel : CommunicationModel)
    (missingReadsTolerance : ℕ → Bool) : Except DporError (ConsistencyResult × Bool) := do
  let (result, marks) ← checkAsyncExplorationGraph graph missingReadsTolerance
  if communicationModel = .fifoP2P ∧ result.isConsistent then
    return (addFifoP2PIssues graph.graph result, marks)
  else return (result, marks)

/-- `AsyncConsistencyCheckerT::check` on an execution graph. -/
def AsyncConsistencyChecker.check (graph : ExecutionGraph V) : Except DporError ConsistencyResult :=
  checkExecutionGraph graph .async noMissingReadsTolerance

/-- `FifoP2PConsistencyCheckerT::check` on an execution graph. -/
def FifoP2PConsistencyChecker.check (graph : ExecutionGraph V) : Except DporError ConsistencyResult :=
  checkExecutionGraph graph .fifoP2P noMissingReadsTolerance

/-- `ConsistencyCheckerT::check` on an exploration graph, as `check_consistency` calls it. -/
def checkConsistency (graph : ExplorationGraph V) (communicationModel : CommunicationModel) :
    Except DporError (ConsistencyResult × Bool) :=
  checkExplorationGraph graph communicationModel noMissingReadsTolerance

end Checks
end MustDpor

import Mathlib.Data.List.Sort
import MustDpor.Algo.NextEvent

/-! # Backward revisits

`compute_previous_set`, `MaskedPorfContext`, `get_cons_tiebreaker_masked`, `revisit_condition` and
the loop body of `next_backward_revisit_child` in `include/dpor/algo/dpor.hpp`. A keep mask is a
list of flags indexed by event id; `kNoEvent` is `none`. -/

namespace MustDpor
set_option autoImplicit false
open ExplorationGraph WorkerGraph

variable {V : Type}

/-- Membership in Previous(e, s): inserted no later than `e`, or porf-before `s`. -/
def inPrevious (graph : ExplorationGraph V) (e s ep : ℕ) : Except DporError Bool :=
  if graph.eventCount ≤ ep then .ok false
  else do
    if ← graph.insertedBeforeOrEqual ep e then return true
    else graph.porfContains ep s

/-- `compute_previous_set_into`. -/
def computePreviousSet (graph : ExplorationGraph V) (e s : ℕ) : Except DporError (List Bool) :=
  (List.range graph.eventCount).mapM fun ep => do
    if ← graph.insertedBeforeOrEqual ep e then return true
    else graph.porfContains ep s

/-! ## The masked view of the graph -/

structure MaskedPorfContext where
  keepMask : List Bool
  keptEventsByThread : ℕ → List ℕ
  consumedSendMask : ℕ → Bool
  rfConsumer : ℕ → Option ℕ
  extraRfConsumers : List (ℕ × ℕ)
  fifoConsumer : ℕ → Option ℕ
  channels : List ((ℕ × ℕ) × List ℕ)

namespace MaskedPorfContext

def keeps (keepMask : List Bool) (id : ℕ) : Bool := keepMask.getD id false

/-- Channels stay in the order in which their first send appears. -/
def pushChannel (key : ℕ × ℕ) (id : ℕ) :
    List ((ℕ × ℕ) × List ℕ) → List ((ℕ × ℕ) × List ℕ)
  | [] => [(key, [id])]
  | (k, ids) :: rest =>
    if key = k then (k, ids ++ [id]) :: rest else (k, ids) :: pushChannel key id rest

def keptIds (graph : ExplorationGraph V) (keepMask : List Bool) : List ℕ :=
  (List.range graph.eventCount).filter (keeps keepMask)

def buildChannels (graph : ExplorationGraph V) (keepMask : List Bool) :
    List ((ℕ × ℕ) × List ℕ) :=
  (keptIds graph keepMask).foldl (fun channels id =>
    match graph.asSendId id with
    | some send => pushChannel (graph.threadOf id, send.destination) id channels
    | none => channels) []

/-- The kept reads-from edges `(send, receive)`, in receive order. -/
def keptReads (graph : ExplorationGraph V) (keepMask : List Bool) : List (ℕ × ℕ) :=
  graph.readsFrom.entries.filterMap fun entry =>
    match entry.2 with
    | .bottom => none
    | .send sendId =>
      if keeps keepMask entry.1 && keeps keepMask sendId then some (sendId, entry.1) else none

/-- `reset`: a send's first reader goes to the flat slot, any further one to the side list. -/
def reset (graph : ExplorationGraph V) (keepMask : List Bool) (buildFifo : Bool) :
    Except DporError MaskedPorfContext :=
  if keepMask.length ≠ graph.eventCount then
    .error (.internalError "keep mask size must match event count")
  else
    let reads := keptReads graph keepMask
    .ok
      { keepMask := keepMask
        keptEventsByThread := fun tid =>
          (keptIds graph keepMask).filter (fun id => decide (graph.threadOf id = tid))
        consumedSendMask := fun id => reads.any (fun r => decide (r.1 = id))
        rfConsumer := fun id => (reads.find? (fun r => decide (r.1 = id))).map Prod.snd
        extraRfConsumers := reads.filter (fun r =>
          decide (((reads.find? (fun r' => decide (r'.1 = r.1))).map Prod.snd) ≠ some r.2))
        fifoConsumer :=
          if buildFifo then
            reads.foldl (fun consumers r =>
              if matchedRead graph.graph r.2 r.1 then Function.update consumers r.1 (some r.2)
              else consumers) (fun _ => none)
          else fun _ => none
        channels := if buildFifo then buildChannels graph keepMask else [] }

def sendIsUnread (ctx : MaskedPorfContext) (sendId : ℕ) : Bool :=
  keeps ctx.keepMask sendId && !ctx.consumedSendMask sendId

def appendSuccessors (ctx : MaskedPorfContext) (graph : ExplorationGraph V) (fromId : ℕ) :
    List ℕ :=
  let threadEvents := ctx.keptEventsByThread (graph.threadOf fromId)
  let poSuccessor :=
    if fromId ∈ threadEvents then (threadEvents[threadEvents.idxOf fromId + 1]?).toList else []
  poSuccessor ++ (ctx.rfConsumer fromId).toList
    ++ (ctx.extraRfConsumers.filter (fun r => decide (r.1 = fromId))).map Prod.snd

/-- The breadth-first loop of `reachable_from`; each round takes one pending entry. -/
def reach (successors : ℕ → List ℕ) : ℕ → List ℕ → (ℕ → Bool) → ℕ → Bool
  | 0, _, reachable => reachable
  | _ + 1, [], reachable => reachable
  | fuel + 1, current :: pending, reachable =>
    if reachable current then reach successors fuel pending reachable
    else reach successors fuel (pending ++ successors current)
      (Function.update reachable current true)

def reachableFrom (ctx : MaskedPorfContext) (graph : ExplorationGraph V) (fromId : ℕ) :
    Except DporError (ℕ → Bool) :=
  if !graph.isValidEventId fromId then
    .error (.internalError "event id not found in masked PORF context")
  else if !keeps ctx.keepMask fromId then
    .error (.internalError "masked PORF reachability requires a kept source event")
  else
    let successors := ctx.appendSuccessors graph
    -- every event is expanded at most once, so this many entries are ever pending
    let pendingBound := (successors fromId).length
      + ((List.range graph.eventCount).map (fun id => (successors id).length)).sum
    .ok (reach successors pendingBound (successors fromId) (fun _ => false))

/-- A clause holds of some send of a channel against the sends before it. -/
def channelViolated (violates : List ℕ → ℕ → Bool) : List ℕ → List ℕ → Bool
  | _, [] => false
  | earlier, later :: rest =>
    violates earlier later || channelViolated violates (earlier ++ [later]) rest

def fifoClauseBViolated (ctx : MaskedPorfContext) (graph : ExplorationGraph V)
    (consumers : ℕ → Option ℕ) : Bool :=
  ctx.channels.any fun channel =>
    channelViolated (fun earlier later => (clauseBWitness graph.graph consumers earlier later).isSome)
      [] channel.2

def fifoClauseCViolated (ctx : MaskedPorfContext) (graph : ExplorationGraph V)
    (consumers : ℕ → Option ℕ) : Bool :=
  ctx.channels.any fun channel =>
    channelViolated (fun earlier later => (clauseCWitness graph.graph consumers earlier later).isSome)
      [] channel.2

/-- The consumer table with `recv` moved from its previous source to `candidate`. -/
def rewrittenConsumers (ctx : MaskedPorfContext) (recv candidate previousSource : ℕ) :
    ℕ → Option ℕ :=
  let released :=
    if previousSource ≠ candidate then Function.update ctx.fifoConsumer previousSource none
    else ctx.fifoConsumer
  Function.update released candidate (some recv)

def fifoRewriteViolates (ctx : MaskedPorfContext) (graph : ExplorationGraph V)
    (recv candidate previousSource : ℕ) : Bool :=
  let consumers := ctx.rewrittenConsumers recv candidate previousSource
  ctx.fifoClauseBViolated graph consumers || ctx.fifoClauseCViolated graph consumers

end MaskedPorfContext

/-! ## The tiebreaker -/

/-- Sender thread first, then event id. -/
def candidateLe (graph : ExplorationGraph V) (a b : ℕ) : Prop :=
  graph.threadOf a < graph.threadOf b ∨ (graph.threadOf a = graph.threadOf b ∧ a ≤ b)

instance (graph : ExplorationGraph V) : DecidableRel (candidateLe graph) := fun _ _ =>
  inferInstanceAs (Decidable (_ ∨ _))

def tiebreakerError (detail : String) : DporError :=
  .internalError ("get_cons_tiebreaker invariant violated: " ++ detail)

def tiebreakerCandidates (graph : ExplorationGraph V) (ctx : MaskedPorfContext) (tid : ℕ)
    (receive : ReceiveLabel V) (currentRfSource : ℕ) : List ℕ :=
  let unread := (List.range graph.eventCount).filter
    (fun id => ctx.sendIsUnread id && compatibleSend graph tid receive id)
  let current := if compatibleSend graph tid receive currentRfSource then [currentRfSource] else []
  List.insertionSort (candidateLe graph) (unread ++ current)

def getConsTiebreakerMasked (graph : ExplorationGraph V) (keepMask : List Bool) (recv : ℕ)
    (communicationModel : CommunicationModel) : Except DporError ℕ := do
  let fifoModel := decide (communicationModel = .fifoP2P)
  let ctx ← MaskedPorfContext.reset graph keepMask fifoModel
  if !MaskedPorfContext.keeps keepMask recv then
    throw (tiebreakerError "event missing from keep mask")
  let recvEvt ← graph.event recv
  match recvEvt.label with
  | .receive receive =>
    if receive.isNonblocking then throw (tiebreakerError "event is not a blocking receive")
    match graph.readsFrom.find recv with
    | none => throw (tiebreakerError "receive missing reads-from source")
    | some .bottom => throw (tiebreakerError "blocking receive reads from bottom")
    | some (.send currentRfSource) =>
      if !MaskedPorfContext.keeps keepMask currentRfSource then
        throw (tiebreakerError "receive source missing from keep mask")
      let candidates := tiebreakerCandidates graph ctx recvEvt.thread receive currentRfSource
      let reachableFromRecv ← ctx.reachableFrom graph recv
      match candidates.find? (fun candidate => !reachableFromRecv candidate
          && !(fifoModel && ctx.fifoRewriteViolates graph recv candidate currentRfSource)) with
      | some candidate => return candidate
      | none => throw (tiebreakerError "no consistent source found")
  | _ => throw (tiebreakerError "event is not a receive")

/-! ## The revisit condition -/

def revisitError (detail : String) : DporError :=
  .internalError ("revisit_condition invariant violated: " ++ detail)

/-- Is `e` read by a receive in Previous(e, s)? The scan stops at the first reader. -/
def readInPrevious (graph : ExplorationGraph V) (e s : ℕ) :
    List (ℕ × ReadsFromSource) → Except DporError Bool
  | [] => .ok false
  | (receiveId, source) :: rest =>
    if source = .send e then do
      let receiveEvt ← graph.event receiveId
      if receiveEvt.label.isReceive then
        if ← inPrevious graph e s receiveId then return true
        else readInPrevious graph e s rest
      else readInPrevious graph e s rest
    else readInPrevious graph e s rest

section Condition
variable [LinearOrder V]

/-- `val(e) == min(S)`. -/
def isMinimalChoice (nd : NondeterministicChoiceLabel V) : Bool :=
  match nd.choices.min? with
  | none => true
  | some least => decide (nd.value = least)

def revisitCondition (graph : ExplorationGraph V) (e s : ℕ)
    (communicationModel : CommunicationModel) : Except DporError Bool := do
  let evt ← graph.event e
  match evt.label with
  | .receive receive =>
    if receive.isNonblocking then
      match graph.readsFrom.find e with
      | none => throw (revisitError "non-blocking receive missing reads-from source")
      | some source => return decide (source = .bottom)
    else
      if !(← inPrevious graph e s e) then throw (revisitError "event missing from Previous")
      match graph.readsFrom.find e with
      | none => throw (revisitError "receive missing reads-from source")
      | some .bottom => throw (revisitError "blocking receive reads from bottom")
      | some (.send currentRfOriginal) =>
        if !(← inPrevious graph e s currentRfOriginal) then return false
        else
          let previous ← computePreviousSet graph e s
          let tiebreaker ← getConsTiebreakerMasked graph previous e communicationModel
          return decide (currentRfOriginal = tiebreaker)
  | .nondeterministicChoice nd => return isMinimalChoice nd
  | _ =>
    let read ← readInPrevious graph e s graph.readsFrom.entries
    return !read

/-! ## One backward-revisit child -/

/-- The Deleted scan: the keep mask, or `none` once a deleted event fails its own condition. -/
def keepMaskFrom (graph : ExplorationGraph V) (recvId sendId : ℕ)
    (communicationModel : CommunicationModel) : List ℕ → Except DporError (Option (List Bool))
  | [] => .ok (some [])
  | ep :: rest => do
    let kept ←
      if ep = recvId ∨ ep = sendId then pure true
      else if ← graph.insertedBeforeOrEqual ep recvId then pure true
      else graph.porfContains ep sendId
    if kept then
      let tail ← keepMaskFrom graph recvId sendId communicationModel rest
      return tail.map (true :: ·)
    else if ← revisitCondition graph ep sendId communicationModel then
      let tail ← keepMaskFrom graph recvId sendId communicationModel rest
      return tail.map (false :: ·)
    else return none

/-- The body of the loop of `next_backward_revisit_child` for one receive. -/
def revisitReceive (graph : ExplorationGraph V) (communicationModel : CommunicationModel)
    (sendId recvId : ℕ) : Except DporError (Option (ExplorationGraph V)) := do
  let sendEvt ← graph.event sendId
  match sendEvt.label with
  | .send send =>
    let recvEvt ← graph.event recvId
    match recvEvt.label with
    | .receive receive =>
      if !receive.accepts send.value then return none
      else if ← graph.porfContains recvId sendId then return none
      else if !(← revisitCondition graph recvId sendId communicationModel) then return none
      else
        match ← keepMaskFrom graph recvId sendId communicationModel (List.range graph.eventCount) with
        | none => return none
        | some keepMask =>
          let restricted ← graph.restrictMasked keepMask
          match ExplorationGraph.remapId keepMask recvId, ExplorationGraph.remapId keepMask sendId with
          | some newRecvId, some newSendId =>
            let rebound ← (WorkerGraph.ofGraph restricted).rebindRfPreservingKnownAcyclicity
              newRecvId newSendId
            return some rebound.graph
          | _, _ => return none
    | _ => return none
  | _ => return none

theorem revisitReceive_rebuilt (graph child : ExplorationGraph V) (model : CommunicationModel) (sendId recvId : ℕ)
    (h : revisitReceive graph model sendId recvId = .ok (some child)) :
    child.Sound ∧ child.blockCount ≤ graph.blockCount := by
  unfold revisitReceive at h
  obtain ⟨sendEvt, _, h⟩ := Except.bind_ok_iff.mp h
  split at h
  case h_2 => cases h
  obtain ⟨recvEvt, _, h⟩ := Except.bind_ok_iff.mp h
  split at h
  case h_2 => cases h
  split at h
  · cases h
  obtain ⟨reaches, _, h⟩ := Except.bind_ok_iff.mp h
  split at h
  · cases h
  obtain ⟨passes, _, h⟩ := Except.bind_ok_iff.mp h
  split at h
  · cases h
  obtain ⟨mask, _, h⟩ := Except.bind_ok_iff.mp h
  split at h
  · cases h
  obtain ⟨restricted, hr, h⟩ := Except.bind_ok_iff.mp h
  split at h
  case h_2 => cases h
  obtain ⟨rebound, hb, h⟩ := Except.bind_ok_iff.mp h
  cases h
  have hsound := restrictMasked_sound hr
  refine ⟨rebindRf_sound hsound hb, ?_⟩
  have hevents := rebindRf_events hb
  have hle := restrictMasked_blockCount_le hr
  unfold ExplorationGraph.blockCount at hle ⊢
  rw [hevents]
  exact hle

end Condition
end MustDpor

import MustDpor.Model.ExecutionGraph

/-! # Exploration graphs

`include/dpor/model/exploration_graph.hpp`. `ExplorationGraph` is what two copies of an
`ExplorationGraphT` share: the execution graph, the tables maintained beside it, and the
acyclicity metadata. `WorkerGraph` adds the two undo logs, which the copy constructor drops and
no query reads. The PORF cache is a memo of the functions in `MustDpor.Model.Porf` and is not part
of the state. `kNoSource` is `none`. -/

namespace MustDpor
set_option autoImplicit false

structure ThreadState where
  eventCount : ℕ
  lastEventId : Option ℕ
  deriving DecidableEq, Repr

structure ExplorationGraph (V : Type) where
  graph : ExecutionGraph V
  threadState : ℕ → ThreadState
  threadEventIds : ℕ → List ℕ
  receiveEventIdsByThread : ℕ → List ℕ
  sendEventIds : List ℕ
  sendReaderCounts : List ℕ
  unreadSendMask : List Bool
  knownAcyclic : Bool
  pendingFreshReceiveId : Option ℕ

/-- `std::vector::resize`. -/
def resize {α : Type} (l : List α) (n : ℕ) (d : α) : List α :=
  l.take n ++ List.replicate (n - l.length) d

theorem resize_succ_length {α : Type} (l : List α) (d : α) : resize l (l.length + 1) d = l ++ [d] := by
  unfold resize
  rw [List.take_of_length_le (Nat.le_succ _), Nat.add_sub_cancel_left]
  rfl

namespace ExplorationGraph
variable {V : Type}

def empty : ExplorationGraph V where
  graph := ExecutionGraph.empty
  threadState := fun _ => ⟨0, none⟩
  threadEventIds := fun _ => []
  receiveEventIdsByThread := fun _ => []
  sendEventIds := []
  sendReaderCounts := []
  unreadSendMask := []
  knownAcyclic := true
  pendingFreshReceiveId := none

/-! ## Queries -/

def events (g : ExplorationGraph V) : List (Event V) := g.graph.events
def readsFrom (g : ExplorationGraph V) : ReadsFromRelation := g.graph.readsFrom
def eventCount (g : ExplorationGraph V) : ℕ := g.graph.events.length
def event (g : ExplorationGraph V) (id : ℕ) : Except DporError (Event V) := g.graph.event id
def isValidEventId (g : ExplorationGraph V) (id : ℕ) : Bool := g.graph.isValidEventId id

/-- The label of an event that the graph's own tables name. -/
def label? (g : ExplorationGraph V) (id : ℕ) : Option (EventLabel V) :=
  (g.graph.events[id]?).map Event.label

def isSendId (g : ExplorationGraph V) (id : ℕ) : Bool := (g.label? id).any EventLabel.isSend
def isReceiveId (g : ExplorationGraph V) (id : ℕ) : Bool := (g.label? id).any EventLabel.isReceive
def isBlockId (g : ExplorationGraph V) (id : ℕ) : Bool := (g.label? id).any EventLabel.isBlock
def isErrorId (g : ExplorationGraph V) (id : ℕ) : Bool := (g.label? id).any EventLabel.isError
def asSendId (g : ExplorationGraph V) (id : ℕ) : Option (SendLabel V) := (g.label? id).bind EventLabel.asSend

def insertedBeforeOrEqual (g : ExplorationGraph V) (a b : ℕ) : Except DporError Bool :=
  if g.eventCount ≤ a ∨ g.eventCount ≤ b then
    .error (.preconditionError "event id not found in insertion order")
  else .ok (decide (a ≤ b))

/-- The ids `for_each_unread_send` visits. -/
def unreadSendEventIds (g : ExplorationGraph V) : List ℕ :=
  g.sendEventIds.filter (fun id => g.unreadSendMask.getD id false)

def anyUnreadSend (g : ExplorationGraph V) (predicate : ℕ → Bool) : Bool :=
  g.sendEventIds.any (fun id => g.unreadSendMask.getD id false && predicate id)

def threadEventCount (g : ExplorationGraph V) (tid : ℕ) : ℕ := (g.threadState tid).eventCount

def lastEventId (g : ExplorationGraph V) (tid : ℕ) : Option ℕ :=
  if (g.threadState tid).eventCount = 0 then none else (g.threadState tid).lastEventId

def threadIsTerminated (g : ExplorationGraph V) (tid : ℕ) : Bool :=
  match g.lastEventId tid with
  | some id => g.isBlockId id || g.isErrorId id
  | none => false

def hasBlockedThread (g : ExplorationGraph V) : Bool :=
  (List.range g.graph.threadSlots).any fun tid =>
    match g.lastEventId tid with
    | some id => g.isBlockId id
    | none => false

/-- What one event of a thread contributes to its trace. -/
def observe (g : ExplorationGraph V) (id : ℕ) : Except DporError (Option (ObservedValue V)) := do
  let evt ← g.event id
  match evt.label with
  | .receive _ =>
    match g.readsFrom.find id with
    | none => return none
    | some .bottom => return some .bottom
    | some (.send sendId) =>
      let source ← g.event sendId
      match source.label with
      | .send send => return some (.value send.value)
      | _ => return none
  | .nondeterministicChoice nd => return some (.value nd.value)
  | _ => return none

def traceOf (g : ExplorationGraph V) : List ℕ → Except DporError (List (ObservedValue V))
  | [] => .ok []
  | id :: rest => do
    let observed ← g.observe id
    let trace ← traceOf g rest
    return observed.toList ++ trace

def threadTrace (g : ExplorationGraph V) (tid : ℕ) : Except DporError (List (ObservedValue V)) :=
  g.traceOf (g.threadEventIds tid)

def receivesInDestination (g : ExplorationGraph V) (sendId : ℕ) :
    Except DporError (List ℕ) := do
  let evt ← g.event sendId
  match evt.label with
  | .send send => return g.receiveEventIdsByThread send.destination
  | _ => .error (.preconditionError "event is not a send")

/-! ## Acyclicity metadata -/

def markKnownAcyclic (g : ExplorationGraph V) : ExplorationGraph V :=
  { g with knownAcyclic := true, pendingFreshReceiveId := none }

def invalidateKnownAcyclicity (g : ExplorationGraph V) : ExplorationGraph V :=
  { g with knownAcyclic := false, pendingFreshReceiveId := none }

def updateAcyclicityAfterAddEvent (g : ExplorationGraph V) (eventId : ℕ) : ExplorationGraph V :=
  { g with
    pendingFreshReceiveId := if g.knownAcyclic && g.isReceiveId eventId then some eventId else none }

def updateAcyclicityAfterRfAssignment (g : ExplorationGraph V) (receiveId : ℕ)
    (source : ReadsFromSource) : ExplorationGraph V :=
  if !g.knownAcyclic || g.pendingFreshReceiveId ≠ some receiveId || !g.isReceiveId receiveId then
    g.invalidateKnownAcyclicity
  else
    match source with
    | .bottom => { g with pendingFreshReceiveId := none }
    | .send sourceId =>
      if !g.isSendId sourceId then g.invalidateKnownAcyclicity
      else { g with pendingFreshReceiveId := none }

/-! ## Mutations without history

`add_event` and `set_reads_from_source` up to their undo records. -/

def addEvent (g : ExplorationGraph V) (thread : ℕ) (label : EventLabel V) :
    Except DporError (ℕ × ExplorationGraph V) := do
  let (id, graph) ← g.graph.addEvent thread label
  let added : ExplorationGraph V :=
    { g with
      graph := graph
      threadState := Function.update g.threadState thread
        ⟨(g.threadState thread).eventCount + 1, some id⟩
      threadEventIds := Function.update g.threadEventIds thread (g.threadEventIds thread ++ [id])
      receiveEventIdsByThread :=
        if label.isReceive then
          Function.update g.receiveEventIdsByThread thread (g.receiveEventIdsByThread thread ++ [id])
        else g.receiveEventIdsByThread
      sendEventIds := if label.isSend then g.sendEventIds ++ [id] else g.sendEventIds
      sendReaderCounts := resize g.sendReaderCounts (id + 1) 0
      unreadSendMask :=
        if label.isSend then (resize g.unreadSendMask (id + 1) false).set id true
        else resize g.unreadSendMask (id + 1) false }
  return (id, added.updateAcyclicityAfterAddEvent id)

/-- The same insertion; nobody asks for the id. -/
def appendEventForBulkBuild (g : ExplorationGraph V) (thread : ℕ) (label : EventLabel V) :
    Except DporError (ExplorationGraph V) := do
  return (← g.addEvent thread label).2

/-- `adjust_send_reader_count`, once with delta `+1` and once with delta `-1`. -/
def adjustSendReaderCount (g : ExplorationGraph V) (source : Option ReadsFromSource) (add : Bool) :
    Except DporError (ExplorationGraph V) :=
  match source with
  | some (.send sendId) =>
    if !g.isSendId sendId || g.sendReaderCounts.length ≤ sendId || g.unreadSendMask.length ≤ sendId then
      .ok g
    else
      let readerCount := g.sendReaderCounts.getD sendId 0
      if !add && readerCount < 1 then .error (.internalError "send reader count underflow")
      else
        let updated := if add then readerCount + 1 else readerCount - 1
        .ok { g with
              sendReaderCounts := g.sendReaderCounts.set sendId updated
              unreadSendMask := g.unreadSendMask.set sendId (updated = 0) }
  | _ => .ok g

def updateSendReaderState (g : ExplorationGraph V) (previous next : Option ReadsFromSource) :
    Except DporError (ExplorationGraph V) := do
  let g ← g.adjustSendReaderCount previous false
  g.adjustSendReaderCount next true

def assignReadsFrom (g : ExplorationGraph V) (receiveId : ℕ) (source : ReadsFromSource) :
    Except DporError (ExplorationGraph V) := do
  let previous := g.readsFrom.find receiveId
  let rf ← g.readsFrom.assign receiveId source
  let assigned : ExplorationGraph V := { g with graph := { g.graph with readsFrom := rf } }
  let counted ← assigned.updateSendReaderState previous (some source)
  return counted.updateAcyclicityAfterRfAssignment receiveId source

end ExplorationGraph

/-! # Worker graphs: rollback history -/

structure EventUndo where
  eventId : ℕ
  thread : ℕ
  eventIndex : ℕ
  previousThreadState : ThreadState
  previousNextEventIndex : ℕ

structure ReadsFromUndo where
  receiveId : ℕ
  previousSource : Option ReadsFromSource

structure WorkerGraph (V : Type) where
  graph : ExplorationGraph V
  eventUndoLog : List EventUndo
  rfUndoLog : List ReadsFromUndo

structure Checkpoint where
  eventUndoSize : ℕ
  rfUndoSize : ℕ
  knownAcyclic : Bool
  pendingFreshReceiveId : Option ℕ
  deriving DecidableEq, Repr

/-- A call that leaves its object changed even where it throws, as seen by a caller who gives the object up. -/
def returned {α : Type} : Except DporError Unit × α → Except DporError α
  | (.ok _, a) => .ok a
  | (.error e, _) => .error e

theorem returned_inv {α : Type} {x : Except DporError Unit × α} {a : α} (h : returned x = .ok a) : x = (.ok (), a) := by
  obtain ⟨outcome, b⟩ := x
  cases outcome with
  | error e => cases h
  | ok u =>
    cases h
    rfl

namespace WorkerGraph
variable {V : Type}

/-- A graph with empty rollback history: a fresh graph, or a copy. -/
def ofGraph (g : ExplorationGraph V) : WorkerGraph V := ⟨g, [], []⟩

def markKnownAcyclic (w : WorkerGraph V) : WorkerGraph V := { w with graph := w.graph.markKnownAcyclic }

def checkpoint (w : WorkerGraph V) : Checkpoint where
  eventUndoSize := w.eventUndoLog.length
  rfUndoSize := w.rfUndoLog.length
  knownAcyclic := w.graph.knownAcyclic
  pendingFreshReceiveId := w.graph.pendingFreshReceiveId

/-- The undo logs grow at the head. -/
def addEvent (w : WorkerGraph V) (thread : ℕ) (label : EventLabel V) :
    Except DporError (ℕ × WorkerGraph V) := do
  let (id, graph) ← w.graph.addEvent thread label
  let evt ← graph.event id
  let undo : EventUndo :=
    { eventId := id
      thread := thread
      eventIndex := evt.index
      previousThreadState := w.graph.threadState thread
      previousNextEventIndex := w.graph.graph.nextEventIndexByThread thread }
  return (id, { w with graph := graph, eventUndoLog := undo :: w.eventUndoLog })

/-- A call of `set_reads_from_source` and the object it leaves. The entry and its undo record are there before
the reader counts are updated, so they stay where the count of the old source underflows. -/
def attemptSetReadsFromSource (w : WorkerGraph V) (receiveId : ℕ) (source : ReadsFromSource) :
    Except DporError Unit × WorkerGraph V :=
  match w.graph.graph.setReadsFromSource receiveId source with
  | .error e => (.error e, w)
  | .ok graph =>
    let previous := w.graph.readsFrom.find receiveId
    let stored : WorkerGraph V :=
      { w with
        graph := { w.graph with graph := graph }
        rfUndoLog := ⟨receiveId, previous⟩ :: w.rfUndoLog }
    match stored.graph.updateSendReaderState previous (some source) with
    | .error e => (.error e, stored)
    | .ok counted =>
      (.ok (), { stored with graph := counted.updateAcyclicityAfterRfAssignment receiveId source })

def setReadsFromSource (w : WorkerGraph V) (receiveId : ℕ) (source : ReadsFromSource) :
    Except DporError (WorkerGraph V) :=
  returned (w.attemptSetReadsFromSource receiveId source)

theorem setReadsFromSource_eq (w : WorkerGraph V) (receiveId : ℕ) (source : ReadsFromSource) :
    w.setReadsFromSource receiveId source = w.graph.assignReadsFrom receiveId source >>= fun graph =>
      .ok ⟨graph, w.eventUndoLog, ⟨receiveId, w.graph.readsFrom.find receiveId⟩ :: w.rfUndoLog⟩ := by
  unfold setReadsFromSource attemptSetReadsFromSource ExecutionGraph.setReadsFromSource
    ExplorationGraph.assignReadsFrom
  change _ = (w.graph.graph.readsFrom.assign receiveId source >>= _) >>= _
  cases w.graph.graph.readsFrom.assign receiveId source with
  | error e => rfl
  | ok rf =>
    simp only [bind, Except.bind, pure, Except.pure]
    split <;> simp_all [returned]

theorem setReadsFromSource_inv {w w' : WorkerGraph V} {receiveId : ℕ} {source : ReadsFromSource}
    (h : w.setReadsFromSource receiveId source = .ok w') :
    ∃ g', w.graph.assignReadsFrom receiveId source = .ok g' ∧
      w' = ⟨g', w.eventUndoLog, ⟨receiveId, w.graph.readsFrom.find receiveId⟩ :: w.rfUndoLog⟩ := by
  rw [setReadsFromSource_eq] at h
  obtain ⟨g', hg', h⟩ := Except.bind_ok_iff.mp h
  cases h
  exact ⟨g', hg', rfl⟩

def setReadsFrom (w : WorkerGraph V) (receiveId sourceId : ℕ) :
    Except DporError (WorkerGraph V) :=
  w.setReadsFromSource receiveId (.send sourceId)

def setReadsFromBottom (w : WorkerGraph V) (receiveId : ℕ) : Except DporError (WorkerGraph V) :=
  w.setReadsFromSource receiveId .bottom

def undoLastRfAssignment (w : WorkerGraph V) : Except DporError (WorkerGraph V) :=
  match w.rfUndoLog with
  | [] => .error (.internalError "rf undo log is empty")
  | undo :: log => do
    let current := w.graph.readsFrom.find undo.receiveId
    let restored : ExplorationGraph V :=
      { w.graph with graph := w.graph.graph.rollbackReadsFrom undo.receiveId undo.previousSource }
    let graph ← restored.updateSendReaderState current undo.previousSource
    return { w with graph := graph, rfUndoLog := log }

/-- The cache checks of `undo_last_event_append` behind the rollback of the tail event. -/
def checkTailCaches (g : ExplorationGraph V) (undo : EventUndo) (tail : Event V) :
    Except DporError Unit :=
  if (g.threadEventIds undo.thread).getLast? ≠ some undo.eventId then
    .error (.internalError "thread event cache does not match rolled back tail event")
  else if tail.label.isReceive
      ∧ (g.receiveEventIdsByThread undo.thread).getLast? ≠ some undo.eventId then
    .error (.internalError "receive-event cache does not match rolled back tail event")
  else if g.sendReaderCounts.isEmpty ∨ g.unreadSendMask.isEmpty then
    .error (.internalError "send caches missing for rolled back tail event")
  else if tail.label.isSend ∧ g.sendEventIds.getLast? ≠ some undo.eventId then
    .error (.internalError "send-event cache does not match rolled back tail event")
  else if tail.label.isSend ∧ g.sendReaderCounts.getLast? ≠ some 0 then
    .error (.internalError "rolled back send still appears to have readers")
  else .ok ()

def undoLastEventAppend (w : WorkerGraph V) : Except DporError (WorkerGraph V) :=
  match w.eventUndoLog with
  | [] => .error (.internalError "event undo log is empty")
  | undo :: log => do
    let g := w.graph
    let tail ← g.event undo.eventId
    if g.events.length - 1 ≠ undo.eventId then
      .error (.internalError "event undo log does not match insertion order tail")
    else
      let graph ← g.graph.rollbackLastEvent undo.eventId undo.thread undo.eventIndex
        undo.previousNextEventIndex
      checkTailCaches g undo tail
      return {
        graph :=
          { g with
            graph := graph
            threadState := Function.update g.threadState undo.thread undo.previousThreadState
            threadEventIds :=
              Function.update g.threadEventIds undo.thread (g.threadEventIds undo.thread).dropLast
            receiveEventIdsByThread :=
              if tail.label.isReceive then
                Function.update g.receiveEventIdsByThread undo.thread
                  (g.receiveEventIdsByThread undo.thread).dropLast
              else g.receiveEventIdsByThread
            sendEventIds := if tail.label.isSend then g.sendEventIds.dropLast else g.sendEventIds
            sendReaderCounts := g.sendReaderCounts.dropLast
            unreadSendMask := g.unreadSendMask.dropLast }
        eventUndoLog := log
        rfUndoLog := w.rfUndoLog }

def undoRfAssignments : ℕ → WorkerGraph V → Except DporError (WorkerGraph V)
  | 0, w => .ok w
  | n + 1, w => do undoRfAssignments n (← w.undoLastRfAssignment)

def undoEventAppends : ℕ → WorkerGraph V → Except DporError (WorkerGraph V)
  | 0, w => .ok w
  | n + 1, w => do undoEventAppends n (← w.undoLastEventAppend)

/-- All rf undos are replayed before all event undos. -/
def rollback (w : WorkerGraph V) (cp : Checkpoint) : Except DporError (WorkerGraph V) :=
  if w.eventUndoLog.length < cp.eventUndoSize ∨ w.rfUndoLog.length < cp.rfUndoSize then
    .error (.preconditionError "checkpoint does not belong to the current graph state")
  else do
    let w ← undoRfAssignments (w.rfUndoLog.length - cp.rfUndoSize) w
    let w ← undoEventAppends (w.eventUndoLog.length - cp.eventUndoSize) w
    return { w with
      graph :=
        { w.graph with
          knownAcyclic := cp.knownAcyclic
          pendingFreshReceiveId := cp.pendingFreshReceiveId } }

/-- A call of `rebind_rf` and the object it leaves. -/
def attemptRebindRf (w : WorkerGraph V) (recv send : ℕ) (preserveKnownAcyclicity : Bool) :
    Except DporError Unit × WorkerGraph V :=
  if !w.eventUndoLog.isEmpty || !w.rfUndoLog.isEmpty then
    (.error (.preconditionError "rebind_rf_preserving_known_acyclicity requires clean rollback history"), w)
  else
    match w.graph.graph.setReadsFromSource recv (.send send) with
    | .error e => (.error e, w)
    | .ok graph =>
      let rebound : ExplorationGraph V := { w.graph with graph := graph }
      match rebound.updateSendReaderState (w.graph.readsFrom.find recv) (some (.send send)) with
      | .error e => (.error e, { w with graph := rebound })
      | .ok counted =>
        (.ok (), { w with
          graph := if preserveKnownAcyclicity then counted.markKnownAcyclic
            else counted.invalidateKnownAcyclicity })

def rebindRf (w : WorkerGraph V) (recv send : ℕ) (preserveKnownAcyclicity : Bool) :
    Except DporError (WorkerGraph V) :=
  returned (w.attemptRebindRf recv send preserveKnownAcyclicity)

theorem rebindRf_eq (w : WorkerGraph V) (recv send : ℕ) (preserve : Bool) :
    w.rebindRf recv send preserve =
      if !w.eventUndoLog.isEmpty || !w.rfUndoLog.isEmpty then
        .error (.preconditionError "rebind_rf_preserving_known_acyclicity requires clean rollback history")
      else do
        let rf ← w.graph.readsFrom.assign recv (.send send)
        let rebound : ExplorationGraph V := { w.graph with graph := { w.graph.graph with readsFrom := rf } }
        let counted ← rebound.updateSendReaderState (w.graph.readsFrom.find recv) (some (.send send))
        return { w with graph := if preserve then counted.markKnownAcyclic else counted.invalidateKnownAcyclicity } := by
  unfold rebindRf attemptRebindRf ExecutionGraph.setReadsFromSource ExplorationGraph.readsFrom
  split
  · rfl
  · cases w.graph.graph.readsFrom.assign recv (.send send) with
    | error e => rfl
    | ok rf =>
      simp only [bind, Except.bind, pure, Except.pure]
      split <;> simp_all [returned]

def rebindRfPreservingKnownAcyclicity (w : WorkerGraph V) (recv send : ℕ) :
    Except DporError (WorkerGraph V) :=
  w.rebindRf recv send (w.graph.knownAcyclic && w.graph.isReceiveId recv && w.graph.isSendId send)

end WorkerGraph

/-! # Restriction -/

namespace ExplorationGraph
variable {V : Type}

def bulkBuild : List (Event V) → ExplorationGraph V → Except DporError (ExplorationGraph V)
  | [], g => .ok g
  | e :: rest, g => do bulkBuild rest (← g.appendEventForBulkBuild e.thread e.label)

theorem bulkBuild_cons (e : Event V) (rest : List (Event V)) (g : ExplorationGraph V) :
    bulkBuild (e :: rest) g = g.addEvent e.thread e.label >>= fun added => bulkBuild rest added.2 := by
  show g.appendEventForBulkBuild e.thread e.label >>= bulkBuild rest = _
  unfold appendEventForBulkBuild
  cases g.addEvent e.thread e.label <;> rfl

/-- The new id of a kept event: how many events before it are kept. -/
def remapId (keepMask : List Bool) (id : ℕ) : Option ℕ :=
  if keepMask.getD id false then some ((keepMask.take id).countP (fun b => b)) else none

def remapReadsFrom (keepMask : List Bool) :
    List (ℕ × ReadsFromSource) → ExplorationGraph V → Except DporError (ExplorationGraph V)
  | [], g => .ok g
  | (recvId, source) :: rest, g =>
    if keepMask.length ≤ recvId then .error (.outOfRange "id_map read past the end")
    else
      match remapId keepMask recvId with
      | none => remapReadsFrom keepMask rest g
      | some remappedRecv =>
        match source with
        | .bottom => do remapReadsFrom keepMask rest (← g.assignReadsFrom remappedRecv .bottom)
        | .send sendId =>
          if keepMask.length ≤ sendId then .error (.outOfRange "id_map read past the end")
          else
            match remapId keepMask sendId with
            | none => remapReadsFrom keepMask rest g
            | some remappedSource => do
              remapReadsFrom keepMask rest (← g.assignReadsFrom remappedRecv (.send remappedSource))

/-- The events a keep mask keeps, in insertion order. -/
def keptEvents (events : List (Event V)) (keepMask : List Bool) : List (Event V) :=
  ((events.zip keepMask).filter (fun p => p.2)).map Prod.fst

/-- `restrict_from_keep_mask`. -/
def restrictMasked (g : ExplorationGraph V) (keepMask : List Bool) :
    Except DporError (ExplorationGraph V) :=
  if keepMask.length ≠ g.eventCount then
    .error (.internalError "keep mask size must match event count")
  else do
    let built ← bulkBuild (keptEvents g.events keepMask) empty
    let remapped ← remapReadsFrom keepMask g.readsFrom.entries built
    return if g.knownAcyclic then remapped.markKnownAcyclic else remapped.invalidateKnownAcyclicity

/-- `restrict`: entries of the keep set that are not valid event ids are ignored. -/
def restrict (g : ExplorationGraph V) (keepSet : List ℕ) : Except DporError (ExplorationGraph V) :=
  g.restrictMasked ((List.range g.eventCount).map fun id => keepSet.contains id)

/-! # Owned copies -/

/-- `copy_with_rf_source`, behind `with_rf`, `with_rf_source` and `with_bottom_rf`. -/
def copyWithRfSource (g : ExplorationGraph V) (recv : ℕ) (source : ReadsFromSource)
    (preserveKnownAcyclicity : Bool) : Except DporError (ExplorationGraph V) := do
  let copy ← g.assignReadsFrom recv source
  return if preserveKnownAcyclicity then copy.markKnownAcyclic else copy.invalidateKnownAcyclicity

def withRf (g : ExplorationGraph V) (recv send : ℕ) : Except DporError (ExplorationGraph V) :=
  g.copyWithRfSource recv (.send send) false

def withRfPreservingKnownAcyclicity (g : ExplorationGraph V) (recv send : ℕ) :
    Except DporError (ExplorationGraph V) :=
  g.copyWithRfSource recv (.send send) (g.knownAcyclic && g.isReceiveId recv && g.isSendId send)

def withBottomRf (g : ExplorationGraph V) (recv : ℕ) : Except DporError (ExplorationGraph V) :=
  g.copyWithRfSource recv .bottom (g.knownAcyclic && g.isReceiveId recv)

def withNdValue (g : ExplorationGraph V) (ndEvent : ℕ) (value : V) :
    Except DporError (ExplorationGraph V) :=
  match g.graph.events[ndEvent]? with
  | none => .error (.preconditionError "event id not found in exploration graph")
  | some evt =>
    match evt.label with
    | .nondeterministicChoice nd =>
      let chosen : Event V := { evt with label := .nondeterministicChoice { nd with value := value } }
      .ok { g with graph := { g.graph with events := g.graph.events.set ndEvent chosen } }
    | _ => .error (.preconditionError "event is not a nondeterministic choice")

end ExplorationGraph
end MustDpor

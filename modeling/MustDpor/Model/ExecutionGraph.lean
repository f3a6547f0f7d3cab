import MustDpor.Foundations.AscendingMap
import MustDpor.Model.Event
import Mathlib.Logic.Function.Basic

/-! # Execution graphs

`include/dpor/model/execution_graph.hpp`: the canonical event vector, the reads-from relation, and
the two per-thread tables that hand out event indices. The vectors indexed by thread id are
functions of the thread id (a slot that was never grown reads as the default the source grows it
with), and the vector of optional sources is an `AscendingMap`. -/

namespace MustDpor
set_option autoImplicit false

/-- `ReadsFromSourceT`: bottom, or the id of a send. -/
inductive ReadsFromSource where
  | bottom
  | send (id : ℕ)
  deriving DecidableEq, Repr

abbrev ReadsFromRelation := AscendingMap ReadsFromSource

namespace ReadsFromRelation

/-- `entries_.max_size()`: at most `PTRDIFF_MAX` bytes, 24 for an optional source. -/
def maxEntries : ℕ := (2 ^ 63 - 1) / 24

/-- `ReadsFromRelationT::set` grows its vector to `index + 1` slots before it writes slot `index`. At the
largest 64-bit index that size wraps to zero; any other size above `max_size()` is refused and the vector
left as it was. -/
def assign (rf : ReadsFromRelation) (receiveId : ℕ) (source : ReadsFromSource) :
    Except DporError ReadsFromRelation :=
  if receiveId + 1 = 2 ^ 64 then .error (.outOfRange "reads-from entry past the end")
  else if maxEntries < receiveId + 1 then .error (.lengthError "vector::_M_default_append")
  else .ok (rf.set receiveId source)

theorem assign_ok (rf : ReadsFromRelation) {receiveId : ℕ} (h : receiveId < maxEntries) (source : ReadsFromSource) :
    rf.assign receiveId source = .ok (rf.set receiveId source) := by
  have hwrap : receiveId + 1 ≠ 2 ^ 64 := by
    unfold maxEntries at h
    omega
  unfold assign
  rw [if_neg hwrap, if_neg (Nat.not_lt.mpr h)]

theorem assign_inv {rf rf' : ReadsFromRelation} {receiveId : ℕ} {source : ReadsFromSource}
    (h : rf.assign receiveId source = .ok rf') : rf' = rf.set receiveId source := by
  unfold assign at h
  split at h
  · cases h
  · split at h
    · cases h
    · cases h
      rfl

end ReadsFromRelation

/-! ## Used event indices -/

structure UsedEventIndexSet where
  denseEnd : ℕ
  sparse : List ℕ
  deriving DecidableEq, Repr

namespace UsedEventIndexSet

def empty : UsedEventIndexSet := ⟨0, []⟩

def contains (s : UsedEventIndexSet) (index : ℕ) : Bool :=
  decide (index < s.denseEnd) || s.sparse.contains index

/-- `*it = sparse_.back(); sparse_.pop_back();` for the first occurrence of `index`. -/
def swapRemove (sparse : List ℕ) (index : ℕ) : List ℕ :=
  (sparse.set (sparse.idxOf index) (sparse.getLast?.getD index)).dropLast

/-- `absorb_sparse`; every round removes one sparse entry, so the fuel is their number. -/
def absorbSparse : ℕ → UsedEventIndexSet → UsedEventIndexSet
  | 0, s => s
  | fuel + 1, s =>
    if s.denseEnd ∈ s.sparse ∧ s.denseEnd ≠ maxEventIndex then
      absorbSparse fuel ⟨s.denseEnd + 1, swapRemove s.sparse s.denseEnd⟩
    else s

def insert (s : UsedEventIndexSet) (index : ℕ) : UsedEventIndexSet :=
  if index = s.denseEnd ∧ index ≠ maxEventIndex then
    absorbSparse s.sparse.length ⟨s.denseEnd + 1, s.sparse⟩
  else ⟨s.denseEnd, s.sparse ++ [index]⟩

def erase (s : UsedEventIndexSet) (index : ℕ) : ℕ × UsedEventIndexSet :=
  if index ∈ s.sparse then (1, ⟨s.denseEnd, swapRemove s.sparse index⟩)
  else if s.denseEnd ≤ index then (0, s)
  -- erasing inside the dense prefix demotes everything above the hole
  else (1, ⟨index, s.sparse ++ List.range' (index + 1) (s.denseEnd - (index + 1))⟩)

end UsedEventIndexSet

/-! ## The graph -/

structure ExecutionGraph (V : Type) where
  events : List (Event V)
  readsFrom : ReadsFromRelation
  nextEventIndexByThread : ℕ → ℕ
  usedEventIndicesByThread : ℕ → UsedEventIndexSet

namespace ExecutionGraph
variable {V : Type}

def empty : ExecutionGraph V where
  events := []
  readsFrom := AscendingMap.empty
  nextEventIndexByThread := fun _ => 0
  usedEventIndicesByThread := fun _ => UsedEventIndexSet.empty

def isValidEventId (g : ExecutionGraph V) (id : ℕ) : Bool := decide (id < g.events.length)

def event (g : ExecutionGraph V) (id : ℕ) : Except DporError (Event V) :=
  match g.events[id]? with
  | some e => .ok e
  | none => .error (.preconditionError "event id not found in execution graph")

/-- The `while (used_indices.contains(next_index))` loop of `next_event_index`; the fuel counts the
indices that are left. -/
def scanEventIndex (used : UsedEventIndexSet) : ℕ → ℕ → Except DporError ℕ
  | 0, _ => .error (.preconditionError "no available event index for thread")
  | fuel + 1, next =>
    if used.contains next then
      if next = maxEventIndex then
        .error (.preconditionError "no available event index for thread")
      else scanEventIndex used fuel (next + 1)
    else .ok next

/-- `next_event_index`, with the bound of `ensure_thread_storage` in front. -/
def nextEventIndex (g : ExecutionGraph V) (thread : ℕ) : Except DporError ℕ :=
  if kMaxThreadId < thread then
    .error (.preconditionError "thread id exceeds the maximum supported thread id")
  else
    scanEventIndex (g.usedEventIndicesByThread thread)
      (maxEventIndex + 1 - g.nextEventIndexByThread thread) (g.nextEventIndexByThread thread)

def appendEventUnchecked (g : ExecutionGraph V) (thread : ℕ) (index : ℕ)
    (label : EventLabel V) : ℕ × ExecutionGraph V :=
  (g.events.length,
    { g with
      events := g.events ++ [⟨thread, index, label⟩]
      nextEventIndexByThread := Function.update g.nextEventIndexByThread thread
        (if index = maxEventIndex then index else index + 1)
      usedEventIndicesByThread := Function.update g.usedEventIndicesByThread thread
        ((g.usedEventIndicesByThread thread).insert index) })

def addEvent (g : ExecutionGraph V) (thread : ℕ) (label : EventLabel V) :
    Except DporError (ℕ × ExecutionGraph V) := do
  let index ← g.nextEventIndex thread
  return g.appendEventUnchecked thread index label

/-- The import path: event indices come from outside, increasing along each thread. -/
def addEventWithIndex (g : ExecutionGraph V) (thread : ℕ) (index : Fin (maxEventIndex + 1))
    (label : EventLabel V) : Except DporError (ℕ × ExecutionGraph V) :=
  if kMaxThreadId < thread then
    .error (.preconditionError "thread id exceeds the maximum supported thread id")
  else if (g.usedEventIndicesByThread thread).contains index then
    .error (.preconditionError "event index already used in this thread")
  else if index < g.nextEventIndexByThread thread then
    .error (.preconditionError
      "event indices must be inserted in increasing order within each thread")
  else .ok (g.appendEventUnchecked thread index label)

def setReadsFromSource (g : ExecutionGraph V) (receiveEventId : ℕ) (source : ReadsFromSource) :
    Except DporError (ExecutionGraph V) := do
  return { g with readsFrom := ← g.readsFrom.assign receiveEventId source }

def rollbackLastEvent (g : ExecutionGraph V) (expectedEventId : ℕ) (expectedThread : ℕ)
    (expectedIndex previousNextIndex : ℕ) : Except DporError (ExecutionGraph V) :=
  match g.events.getLast? with
  | none => .error (.internalError "rollback_last_event requires undoing the current tail event")
  | some e =>
    if expectedEventId ≠ g.events.length - 1 then
      .error (.internalError "rollback_last_event requires undoing the current tail event")
    else if e.thread ≠ expectedThread ∨ e.index ≠ expectedIndex then
      .error (.internalError "rollback_last_event metadata does not match the current tail event")
    else
      let erased := (g.usedEventIndicesByThread expectedThread).erase expectedIndex
      if erased.1 ≠ 1 then .error (.internalError "rollback_last_event missing used event index")
      else .ok
        { g with
          events := g.events.dropLast
          nextEventIndexByThread :=
            Function.update g.nextEventIndexByThread expectedThread previousNextIndex
          usedEventIndicesByThread :=
            Function.update g.usedEventIndicesByThread expectedThread erased.2 }

def rollbackReadsFrom (g : ExecutionGraph V) (receiveId : ℕ)
    (previousSource : Option ReadsFromSource) : ExecutionGraph V :=
  match previousSource with
  | some source => { g with readsFrom := g.readsFrom.set receiveId source }
  | none => { g with readsFrom := g.readsFrom.clear receiveId }

def sendEventIds (g : ExecutionGraph V) : List ℕ :=
  (List.range g.events.length).filter (fun id => (g.events[id]?.any (fun e => e.label.isSend)))

/-! ## Program order

`derive_thread_event_sequences`, and the successors `ProgramOrderRelation` enumerates from them. -/

structure ProgramOrderRelation where
  nodeCount : ℕ
  threadEvents : List (List ℕ)

/-- `for_each_successor`: the rest of the thread sequence behind `from`. -/
def ProgramOrderRelation.successors (po : ProgramOrderRelation) (fromId : ℕ) : List ℕ :=
  match po.threadEvents.find? (fun evts => evts.contains fromId) with
  | some evts => evts.drop (evts.idxOf fromId + 1)
  | none => []

def eventIdsOfThread (g : ExecutionGraph V) (tid : ℕ) : List ℕ :=
  (List.range g.events.length).filter (fun id => g.events[id]?.any (fun e => e.thread = tid))

/-- The number of per-thread slots the events need. -/
def threadSlots (g : ExecutionGraph V) : ℕ := (g.events.map (fun e => e.thread + 1)).foldl max 0

theorem thread_lt_threadSlots (g : ExecutionGraph V) {e : Event V} (he : e ∈ g.events) :
    e.thread < g.threadSlots := by
  have hmax : ∀ (l : List ℕ) (start n : ℕ), n ∈ l ∨ n ≤ start → n ≤ l.foldl max start := by
    intro l
    induction l with
    | nil =>
      rintro start n (h | h)
      · cases h
      · exact h
    | cons a l ih =>
      rintro start n (h | h)
      · rcases List.mem_cons.mp h with rfl | h
        · exact ih _ _ (.inr (Nat.le_max_right _ _))
        · exact ih _ _ (.inl h)
      · exact ih _ _ (.inr (h.trans (Nat.le_max_left _ _)))
  exact hmax _ 0 (e.thread + 1) (.inl (List.mem_map_of_mem he))

def validateEventIndices (g : ExecutionGraph V) : List ℕ → Except DporError Unit
  | a :: b :: rest =>
    match g.events[a]?, g.events[b]? with
    | some previous, some current =>
      if previous.index = current.index then
        .error (.internalError
          "two events in the same thread have the same event index; program order is ambiguous")
      else if current.index < previous.index then
        .error (.internalError
          ("events in the same thread are not in increasing event index order; program "
            ++ "order is ambiguous"))
      else validateEventIndices g (b :: rest)
    | _, _ => .error (.outOfRange "thread event id past the end")
  | _ => .ok ()

def deriveThreadEventSequences (g : ExecutionGraph V) : Except DporError (List (List ℕ)) := do
  let sequences :=
    ((List.range g.threadSlots).map g.eventIdsOfThread).filter (fun evts => !evts.isEmpty)
  sequences.forM g.validateEventIndices
  return sequences

def poRelation (g : ExecutionGraph V) : Except DporError ProgramOrderRelation := do
  return ⟨g.events.length, ← g.deriveThreadEventSequences⟩

/-! ## Reads-from edges -/

/-- `for_each_validated_rf_edge`: the (send, receive) edges in ascending receive id, or the first
malformed entry. -/
def validatedRfEdgesOf (g : ExecutionGraph V) :
    List (ℕ × ReadsFromSource) → Except DporError (List (ℕ × ℕ))
  | [] => .ok []
  | (receiveId, source) :: rest =>
    match g.events[receiveId]? with
    | none => .error (.preconditionError "reads-from relation refers to an unknown receive event id")
    | some receive =>
      if !receive.label.isReceive then
        .error (.preconditionError "reads-from relation target event is not a receive")
      else
        match source with
        | .bottom => validatedRfEdgesOf g rest
        | .send sourceId =>
          match g.events[sourceId]? with
          | none =>
            .error (.preconditionError "reads-from relation source refers to an unknown send event id")
          | some send =>
            if !send.label.isSend then
              .error (.preconditionError "reads-from relation source event is not a send")
            else do
              let edges ← validatedRfEdgesOf g rest
              return (sourceId, receiveId) :: edges

def validatedRfEdges (g : ExecutionGraph V) : Except DporError (List (ℕ × ℕ)) :=
  g.validatedRfEdgesOf g.readsFrom.entries

end ExecutionGraph
end MustDpor

import MustDpor.Model.Program
import MustDpor.Model.Restriction
import MustDpor.Model.Consistency

/-! # Choosing the next event

The queries of `include/dpor/algo/dpor.hpp` that call thread functions and receive matchers but do
not change the graph: `compute_next_event`, `compatible_unread_send_ids`,
`erase_duplicate_nd_choices`, and the body of `find_blocked_receive_reschedule_child` for one
thread. -/

namespace MustDpor
set_option autoImplicit false
open List ExplorationGraph

section Sends
variable {V : Type}

/-- The test both unread-send scans apply to one send. -/
def compatibleSend (graph : ExplorationGraph V) (tid : ℕ) (receive : ReceiveLabel V)
    (sendId : ℕ) : Bool :=
  match graph.asSendId sendId with
  | some send => decide (send.destination = tid) && receive.accepts send.value
  | none => false

def hasCompatibleUnreadSend (graph : ExplorationGraph V) (tid : ℕ)
    (receive : ReceiveLabel V) : Bool :=
  graph.anyUnreadSend (compatibleSend graph tid receive)

def compatibleUnreadSendIds (graph : ExplorationGraph V) (tid : ℕ)
    (receive : ReceiveLabel V) : List ℕ :=
  graph.unreadSendEventIds.filter (compatibleSend graph tid receive)

/-- The repeats of a choice list go; the first occurrences keep their order. -/
def eraseDuplicateNdChoices [DecidableEq V] (choices : List V) : List V :=
  choices.foldl (fun kept choice => if choice ∈ kept then kept else kept ++ [choice]) []

theorem mem_foldl_dedup [DecidableEq V] (choices kept : List V) (v : V) :
    v ∈ choices.foldl (fun kept choice => if choice ∈ kept then kept else kept ++ [choice]) kept ↔
      v ∈ kept ∨ v ∈ choices := by
  induction choices generalizing kept with
  | nil => simp
  | cons choice rest ih =>
    rw [foldl_cons, ih]
    split
    · rename_i hmem
      rw [mem_cons]
      constructor
      · rintro (h | h)
        · exact .inl h
        · exact .inr (.inr h)
      · rintro (h | rfl | h)
        · exact .inl h
        · exact .inl hmem
        · exact .inr h
    · rw [mem_append, mem_singleton, mem_cons, or_assoc]

theorem nodup_foldl_dedup [DecidableEq V] (choices kept : List V) (h : kept.Nodup) :
    (choices.foldl (fun kept choice => if choice ∈ kept then kept else kept ++ [choice]) kept).Nodup := by
  induction choices generalizing kept with
  | nil => exact h
  | cons choice rest ih =>
    rw [foldl_cons]
    apply ih
    split
    · exact h
    · rename_i hmem
      exact nodup_append.mpr ⟨h, nodup_singleton choice, by
        rintro a ha b hb rfl
        exact hmem (mem_singleton.mp hb ▸ ha)⟩

variable (choices : List V)

theorem mem_eraseDuplicateNdChoices [DecidableEq V] (v : V) : v ∈ eraseDuplicateNdChoices choices ↔ v ∈ choices := by
  unfold eraseDuplicateNdChoices
  simp [mem_foldl_dedup]

theorem nodup_eraseDuplicateNdChoices [DecidableEq V] : (eraseDuplicateNdChoices choices).Nodup :=
  nodup_foldl_dedup choices [] nodup_nil

theorem eraseDuplicateNdChoices_ne_nil [DecidableEq V] (h : choices ≠ []) : eraseDuplicateNdChoices choices ≠ [] := by
  obtain ⟨v, hv⟩ := exists_mem_of_ne_nil choices h
  exact ne_nil_of_mem ((mem_eraseDuplicateNdChoices choices v).mpr hv)

def computeMaxThreadEventDepth (graph : ExplorationGraph V) (threadIds : List ℕ) : ℕ :=
  threadIds.foldl (fun depth tid => max depth (graph.threadEventCount tid)) 0

end Sends

/-! ## The next event -/

structure NextEventResult (V : Type) where
  next : Option (ℕ × EventLabel V)
  suppressedByThreadEventLimit : Bool

section NextEvent
variable {V : Type}

def blockLabelError (tid : ℕ) : DporError :=
  .userCodeError .threadFunction (some tid) "returned BlockLabel; Block events are internal to DPOR"

/-- A blocking receive that nothing can satisfy becomes a Block event. -/
def eventFor (graph : ExplorationGraph V) (tid : ℕ) (label : EventLabel V) : EventLabel V :=
  match label with
  | .receive receive =>
    if receive.isBlocking && !hasCompatibleUnreadSend graph tid receive then .block else label
  | _ => label

/-- The loop of `compute_next_event`; `suppressed` is the flag of the threads passed so far. -/
def computeNextEventFrom (program : Program V) (graph : ExplorationGraph V) (maxThreadEvents : ℕ) :
    List ℕ → Bool → Except DporError (NextEventResult V)
  | [], suppressed => .ok ⟨none, suppressed⟩
  | tid :: rest, suppressed =>
    if graph.threadIsTerminated tid then
      computeNextEventFrom program graph maxThreadEvents rest suppressed
    else if maxThreadEvents ≠ 0 ∧ maxThreadEvents ≤ graph.threadEventCount tid then
      computeNextEventFrom program graph maxThreadEvents rest true
    else do
      let threadFn ← program.threads.atThread tid
      let trace ← graph.threadTrace tid
      match threadFn trace (graph.threadEventCount tid) with
      | none => computeNextEventFrom program graph maxThreadEvents rest suppressed
      | some .block => throw (blockLabelError tid)
      | some label => return ⟨some (tid, eventFor graph tid label), suppressed⟩

def computeNextEvent (program : Program V) (graph : ExplorationGraph V) (threadIds : List ℕ)
    (maxThreadEvents : ℕ) : Except DporError (NextEventResult V) :=
  computeNextEventFrom program graph maxThreadEvents threadIds false

/-! ## Rescheduling a blocked receive -/

def rescheduleError (tid : ℕ) (detail : String) : DporError :=
  .userCodeError .threadFunction (some tid) detail

/-- The body of the loop of `find_blocked_receive_reschedule_child`: the graph without the
thread's trailing Block when its receive has become satisfiable, `none` to go on. -/
def rescheduleThread (program : Program V) (graph : ExplorationGraph V) (tid : ℕ) :
    Except DporError (Option (ExplorationGraph V)) :=
  match graph.lastEventId tid with
  | none => .ok none
  | some lastId =>
    if !graph.isBlockId lastId then .ok none
    else do
      let threadFn ← program.threads.atThread tid
      let trace ← graph.threadTrace tid
      match threadFn trace (graph.threadEventCount tid - 1) with
      | none => throw (rescheduleError tid
          ("blocked thread became done after unblocking; determinism requires "
            ++ "the same blocking receive for the same (trace, step)"))
      | some .block => throw (blockLabelError tid)
      | some (.receive receive) =>
        if receive.isNonblocking then
          throw (rescheduleError tid
            ("blocked thread produced a non-blocking receive after unblocking; "
              ++ "determinism requires the same blocking receive for the same (trace, step)"))
        else if !hasCompatibleUnreadSend graph tid receive then return none
        else
          let child ← graph.restrictMasked ((List.replicate graph.eventCount true).set lastId false)
          return some child
      | some _ => throw (rescheduleError tid
          ("blocked thread did not produce a receive after unblocking; "
            ++ "determinism requires the same blocking receive for the same (trace, step)"))

theorem rescheduleThread_inv {program : Program V} {graph child : ExplorationGraph V} {tid : ℕ}
    (h : rescheduleThread program graph tid = .ok (some child)) :
    ∃ lastId, graph.lastEventId tid = some lastId ∧ graph.isBlockId lastId = true ∧
      graph.restrictMasked ((replicate graph.eventCount true).set lastId false) = .ok child := by
  unfold rescheduleThread at h
  split at h
  · cases h
  · rename_i lastId hlast
    split at h
    · cases h
    · rename_i hblock
      obtain ⟨threadFn, _, h⟩ := Except.bind_ok_iff.mp h
      obtain ⟨trace, _, h⟩ := Except.bind_ok_iff.mp h
      split at h
      · cases h
      · cases h
      · split at h
        · cases h
        · split at h
          · cases h
          · obtain ⟨restricted, hr, h⟩ := Except.bind_ok_iff.mp h
            cases h
            exact ⟨lastId, hlast, by simpa using hblock, hr⟩
      · cases h

theorem rescheduleThread_rebuilt (program : Program V) (graph child : ExplorationGraph V) (tid : ℕ)
    (h : rescheduleThread program graph tid = .ok (some child)) :
    child.Sound ∧ child.blockCount < graph.blockCount := by
  obtain ⟨lastId, -, hblock, hr⟩ := rescheduleThread_inv h
  refine ⟨restrictMasked_sound hr,
    restrictMasked_blockCount_lt hblock ?_ hr⟩
  have hlt : lastId < graph.eventCount := by
    by_contra hge
    unfold ExplorationGraph.isBlockId at hblock
    rw [label?_of_ge graph (Nat.le_of_not_lt hge)] at hblock
    cases hblock
  rw [getElem?_set_self (by rw [length_replicate]; exact hlt)]

end NextEvent
end MustDpor

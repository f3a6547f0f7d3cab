import MustDpor.Algo.NextEvent

/-! # Reused trace buffers

`thread_trace_into` of `include/dpor/model/exploration_graph.hpp`, and the two calls of
`include/dpor/algo/dpor.hpp` that keep their buffers from call to call: `compute_next_event`, with one buffer
for each thread, and `find_blocked_receive_reschedule_child`, with one for all. An entry of the buffer that
compares equal to the new one is left where it is. `operator==` is the user's, here a `BEq` of which nothing is
assumed; two entries may compare equal and differ. -/

namespace MustDpor
set_option autoImplicit false
open List Function

variable {V : Type} [BEq V]

/-- `ObservedValueT::operator==`. -/
def ObservedValue.equals : ObservedValue V → ObservedValue V → Bool
  | .value a, .value b => a == b
  | .bottom, .bottom => true
  | _, _ => false

/-! ## The trace -/

/-- The lambda `emit`: the buffer, and how many of its entries are written. -/
def emit (state : List (ObservedValue V) × ℕ) (value : ObservedValue V) : List (ObservedValue V) × ℕ :=
  match state.1[state.2]? with
  | some old => (if old.equals value then state.1 else state.1.set state.2 value, state.2 + 1)
  | none => (state.1 ++ [value], state.2 + 1)

namespace ExplorationGraph

def emitAll (g : ExplorationGraph V) :
    List ℕ → List (ObservedValue V) × ℕ → Except DporError (List (ObservedValue V) × ℕ)
  | [], state => .ok state
  | id :: rest, state => do
    match ← g.observe id with
    | some value => emitAll g rest (emit state value)
    | none => emitAll g rest state

def threadTraceInto (g : ExplorationGraph V) (tid : ℕ) (trace : List (ObservedValue V)) :
    Except DporError (List (ObservedValue V)) := do
  let state ← g.emitAll (g.threadEventIds tid) (trace, 0)
  return resize state.1 state.2 .bottom

end ExplorationGraph

/-- The trace over an old buffer: entries that compare equal stay. -/
def overwrite : List (ObservedValue V) → List (ObservedValue V) → List (ObservedValue V)
  | _, [] => []
  | [], value :: trace => value :: trace
  | old :: buffer, value :: trace => (if old.equals value then old else value) :: overwrite buffer trace

/-- No old entry passes for the new one in its place without being it. -/
def NothingStale (buffer values : List (ObservedValue V)) : Prop :=
  ∀ (i : ℕ) (old value : ObservedValue V), buffer[i]? = some old → values[i]? = some value →
    old.equals value = true → old = value

theorem overwrite_nil (trace : List (ObservedValue V)) : overwrite [] trace = trace := by
  cases trace <;> rfl

theorem overwrite_eq_iff (buffer trace : List (ObservedValue V)) :
    overwrite buffer trace = trace ↔ NothingStale buffer trace := by
  induction trace generalizing buffer with
  | nil =>
    refine iff_of_true (by cases buffer <;> rfl) fun i old value _ hvalue => ?_
    cases hvalue
  | cons value trace ih =>
    cases buffer with
    | nil =>
      refine iff_of_true rfl fun i old value hold => ?_
      cases hold
    | cons old buffer =>
      unfold overwrite
      rw [cons.injEq, ih]
      constructor
      · rintro ⟨hhead, htail⟩ i
        cases i with
        | zero =>
          intro first second hfirst hsecond hequals
          cases hfirst
          cases hsecond
          rwa [if_pos hequals] at hhead
        | succ i => exact htail i
      · intro h
        refine ⟨?_, fun i => h (i + 1)⟩
        split
        · rename_i hequals
          exact h 0 old value rfl rfl hequals
        · rfl

theorem length_overwrite (buffer trace : List (ObservedValue V)) :
    (overwrite buffer trace).length = trace.length := by
  induction trace generalizing buffer with
  | nil => cases buffer <;> rfl
  | cons value trace ih =>
    cases buffer with
    | nil => rfl
    | cons old buffer => exact congrArg (· + 1) (ih buffer)

/-! ## The loop -/

theorem foldl_emit (values written buffer : List (ObservedValue V)) :
    values.foldl emit (written ++ buffer, written.length) =
      (written ++ overwrite buffer values ++ buffer.drop values.length, written.length + values.length) := by
  induction values generalizing written buffer with
  | nil =>
    have hnil : overwrite buffer [] = [] := by cases buffer <;> rfl
    rw [hnil]
    simp
  | cons value values ih =>
    rw [foldl_cons]
    cases buffer with
    | nil =>
      have hstep : emit (written ++ [], written.length) value =
          ((written ++ [value]) ++ [], (written ++ [value]).length) := by
        unfold emit
        simp
      rw [hstep, ih, overwrite_nil, overwrite_nil]
      simp [Nat.add_comm, Nat.add_left_comm]
    | cons old buffer =>
      have hstep : emit (written ++ old :: buffer, written.length) value =
          ((written ++ [if old.equals value then old else value]) ++ buffer,
            (written ++ [if old.equals value then old else value]).length) := by
        unfold emit
        simp only [getElem?_append_right (le_refl _), Nat.sub_self, getElem?_cons_zero]
        split
        · simp
        · simp
      rw [hstep, ih]
      simp [overwrite, Nat.add_comm, Nat.add_left_comm]

namespace ExplorationGraph
variable (g : ExplorationGraph V)

theorem emitAll_eq (ids : List ℕ) (state : List (ObservedValue V) × ℕ) :
    g.emitAll ids state = (g.traceOf ids).map fun values => values.foldl emit state := by
  induction ids generalizing state with
  | nil => rfl
  | cons id rest ih =>
    unfold emitAll traceOf
    cases g.observe id with
    | error e => rfl
    | ok observed =>
      cases observed with
      | none =>
        refine (ih state).trans ?_
        cases g.traceOf rest <;> rfl
      | some value =>
        refine (ih (emit state value)).trans ?_
        cases g.traceOf rest <;> rfl

theorem threadTraceInto_eq (tid : ℕ) (buffer : List (ObservedValue V)) :
    g.threadTraceInto tid buffer = (g.threadTrace tid).map (overwrite buffer) := by
  unfold threadTraceInto threadTrace
  rw [emitAll_eq]
  cases g.traceOf (g.threadEventIds tid) with
  | error e => rfl
  | ok values =>
    have hloop := foldl_emit values [] buffer
    rw [nil_append, nil_append, length_nil, Nat.zero_add] at hloop
    have hresize : resize (overwrite buffer values ++ buffer.drop values.length) values.length .bottom =
        overwrite buffer values := by
      unfold resize
      rw [take_left' (length_overwrite buffer values), length_append, length_overwrite,
        Nat.sub_eq_zero_of_le (Nat.le_add_right _ _), replicate_zero, append_nil]
    show Except.ok (resize (values.foldl emit (buffer, 0)).1 (values.foldl emit (buffer, 0)).2 .bottom) = _
    rw [hloop, hresize]
    rfl

theorem threadTraceInto_eq_iff (tid : ℕ) (buffer : List (ObservedValue V)) :
    g.threadTraceInto tid buffer = g.threadTrace tid ↔
      ∀ trace, g.threadTrace tid = .ok trace → NothingStale buffer trace := by
  rw [threadTraceInto_eq]
  cases g.threadTrace tid with
  | error e =>
    refine iff_of_true rfl fun trace h => ?_
    cases h
  | ok trace =>
    rw [Except.map, Except.ok.injEq, overwrite_eq_iff]
    constructor
    · intro h other hother
      cases hother
      exact h
    · exact fun h => h trace rfl

end ExplorationGraph

/-! ## The calls that keep buffers -/

/-- `compute_next_event` with `trace_buffers`, one buffer for each thread id. -/
def computeNextEventReusingFrom (program : Program V) (graph : ExplorationGraph V) (maxThreadEvents : ℕ) :
    List ℕ → Bool → (ℕ → List (ObservedValue V)) →
      Except DporError (NextEventResult V × (ℕ → List (ObservedValue V)))
  | [], suppressed, traceBuffers => .ok (⟨none, suppressed⟩, traceBuffers)
  | tid :: rest, suppressed, traceBuffers =>
    if graph.threadIsTerminated tid then
      computeNextEventReusingFrom program graph maxThreadEvents rest suppressed traceBuffers
    else if maxThreadEvents ≠ 0 ∧ maxThreadEvents ≤ graph.threadEventCount tid then
      computeNextEventReusingFrom program graph maxThreadEvents rest true traceBuffers
    else do
      let threadFn ← program.threads.atThread tid
      let trace ← graph.threadTraceInto tid (traceBuffers tid)
      let traceBuffers := Function.update traceBuffers tid trace
      match threadFn trace (graph.threadEventCount tid) with
      | none => computeNextEventReusingFrom program graph maxThreadEvents rest suppressed traceBuffers
      | some .block => throw (blockLabelError tid)
      | some label => return (⟨some (tid, eventFor graph tid label), suppressed⟩, traceBuffers)

def computeNextEventReusing (program : Program V) (graph : ExplorationGraph V) (threadIds : List ℕ)
    (maxThreadEvents : ℕ) (traceBuffers : ℕ → List (ObservedValue V)) :
    Except DporError (NextEventResult V × (ℕ → List (ObservedValue V))) :=
  computeNextEventReusingFrom program graph maxThreadEvents threadIds false traceBuffers

/-- The body of the loop of `find_blocked_receive_reschedule_child` with its `trace`, one for all threads. -/
def rescheduleThreadReusing (program : Program V) (graph : ExplorationGraph V) (tid : ℕ)
    (buffer : List (ObservedValue V)) :
    Except DporError (Option (ExplorationGraph V) × List (ObservedValue V)) :=
  match graph.lastEventId tid with
  | none => .ok (none, buffer)
  | some lastId =>
    if !graph.isBlockId lastId then .ok (none, buffer)
    else do
      let threadFn ← program.threads.atThread tid
      let trace ← graph.threadTraceInto tid buffer
      match threadFn trace (graph.threadEventCount tid - 1) with
      | none => throw (rescheduleError tid
          ("blocked thread became done after unblocking; determinism requires "
            ++ "the same blocking receive for the same (trace, step)"))
      | some .block => throw (blockLabelError tid)
      | some (.receive receive) =>
        if receive.isNonblocking then
          throw (rescheduleError tid
            ("blocked thread produced a non-blocking receive after unblocking; "
              ++ "determinism requires the same blocking receive for the same (trace, step)"))
        else if !hasCompatibleUnreadSend graph tid receive then return (none, trace)
        else
          let child ← graph.restrictMasked ((List.replicate graph.eventCount true).set lastId false)
          return (some child, trace)
      | some _ => throw (rescheduleError tid
          ("blocked thread did not produce a receive after unblocking; "
            ++ "determinism requires the same blocking receive for the same (trace, step)"))

/-! ## What thread functions are given -/

/-- Nothing in the buffer passes for the trace of the thread. -/
def ExplorationGraph.CleanBuffer (graph : ExplorationGraph V) (tid : ℕ) (buffer : List (ObservedValue V)) : Prop :=
  ∀ trace, graph.threadTrace tid = .ok trace → NothingStale buffer trace

theorem nothingStale_self (values : List (ObservedValue V)) : NothingStale values values := by
  intro i old value hold hvalue _
  exact Option.some.inj (hold.symm.trans hvalue)

theorem computeNextEventReusingFrom_fst (program : Program V) (graph : ExplorationGraph V) (maxThreadEvents : ℕ)
    (tids : List ℕ) (suppressed : Bool) (traceBuffers : ℕ → List (ObservedValue V))
    (hclean : ∀ tid, graph.CleanBuffer tid (traceBuffers tid)) :
    (computeNextEventReusingFrom program graph maxThreadEvents tids suppressed traceBuffers).map Prod.fst =
      computeNextEventFrom program graph maxThreadEvents tids suppressed := by
  induction tids generalizing suppressed traceBuffers with
  | nil => rfl
  | cons tid rest ih =>
    unfold computeNextEventReusingFrom computeNextEventFrom
    split
    · exact ih suppressed traceBuffers hclean
    · split
      · exact ih true traceBuffers hclean
      · rw [(graph.threadTraceInto_eq_iff tid (traceBuffers tid)).mpr (hclean tid)]
        cases program.threads.atThread tid with
        | error e => rfl
        | ok threadFn =>
          cases htrace : graph.threadTrace tid with
          | error e => rfl
          | ok trace =>
            -- the buffer of this thread now holds its trace, the others are as they were
            have hupdated : ∀ other, graph.CleanBuffer other (update traceBuffers tid trace other) := by
              intro other
              by_cases hother : other = tid
              · rw [hother, update_self]
                intro again hagain
                rw [htrace] at hagain
                cases hagain
                exact nothingStale_self trace
              · rw [update_of_ne hother]
                exact hclean other
            simp only [bind, Except.bind]
            cases threadFn trace (graph.threadEventCount tid) with
            | none => exact ih suppressed _ hupdated
            | some label => cases label <;> rfl

theorem rescheduleThreadReusing_fst (program : Program V) (graph : ExplorationGraph V) (tid : ℕ)
    (buffer : List (ObservedValue V)) (hclean : graph.CleanBuffer tid buffer) :
    (rescheduleThreadReusing program graph tid buffer).map Prod.fst = rescheduleThread program graph tid := by
  unfold rescheduleThreadReusing rescheduleThread
  rw [(graph.threadTraceInto_eq_iff tid buffer).mpr hclean]
  cases graph.lastEventId tid with
  | none => rfl
  | some lastId =>
    dsimp only
    by_cases hblock : (!graph.isBlockId lastId) = true
    · rw [if_pos hblock, if_pos hblock]
      rfl
    · rw [if_neg hblock, if_neg hblock]
      cases program.threads.atThread tid with
      | error e => rfl
      | ok threadFn =>
        cases graph.threadTrace tid with
        | error e => rfl
        | ok trace =>
          simp only [bind, Except.bind]
          cases threadFn trace (graph.threadEventCount tid - 1) with
          | none => rfl
          | some label =>
            cases label with
            | receive receive =>
              dsimp only
              by_cases hnonblocking : receive.isNonblocking = true
              · rw [if_pos hnonblocking, if_pos hnonblocking]
                rfl
              · rw [if_neg hnonblocking, if_neg hnonblocking]
                by_cases hunread : (!hasCompatibleUnreadSend graph tid receive) = true
                · rw [if_pos hunread, if_pos hunread]
                  rfl
                · rw [if_neg hunread, if_neg hunread]
                  cases graph.restrictMasked ((replicate graph.eventCount true).set lastId false) <;> rfl
            | send | nondeterministicChoice | block | error => rfl

/-- A reused buffer holds the trace exactly when nothing in it passes for an entry of the trace without being
it, and then thread functions are given the trace of the graph, whatever was explored before. -/
theorem traces_ignore_history_iff (graph : ExplorationGraph V) :
    (∀ tid buffer, graph.threadTraceInto tid buffer = graph.threadTrace tid ↔ graph.CleanBuffer tid buffer) ∧
    (∀ traceBuffers : ℕ → List (ObservedValue V), (∀ tid, graph.CleanBuffer tid (traceBuffers tid)) →
      ∀ (program : Program V) (threadIds : List ℕ) (maxThreadEvents : ℕ),
        (computeNextEventReusing program graph threadIds maxThreadEvents traceBuffers).map Prod.fst =
          computeNextEvent program graph threadIds maxThreadEvents) ∧
    ∀ tid buffer, graph.CleanBuffer tid buffer → ∀ program : Program V,
      (rescheduleThreadReusing program graph tid buffer).map Prod.fst = rescheduleThread program graph tid :=
  ⟨fun tid buffer => graph.threadTraceInto_eq_iff tid buffer,
    fun traceBuffers hclean program threadIds maxThreadEvents =>
      computeNextEventReusingFrom_fst program graph maxThreadEvents threadIds false traceBuffers hclean,
    fun tid buffer hclean program => rescheduleThreadReusing_fst program graph tid buffer hclean⟩

/-! ## Payloads that compare equal and differ -/

/-- Equality looks at the key only. -/
structure Stamped where
  key : ℕ
  stamp : ℕ

instance : BEq Stamped := ⟨fun a b => a.key == b.key⟩

instance : EquivBEq Stamped where
  rfl := fun {a} => beq_self_eq_true a.key
  symm := fun {a b} h => by
    have hkey : (a.key == b.key) = true := h
    show (b.key == a.key) = true
    rw [beq_iff_eq] at hkey ⊢
    exact hkey.symm
  trans := fun {a b c} h h' => by
    have hkey : (a.key == b.key) = true := h
    have hkey' : (b.key == c.key) = true := h'
    show (a.key == c.key) = true
    rw [beq_iff_eq] at hkey hkey' ⊢
    exact hkey.trans hkey'

/-- Thread 0 passes on what it receives; threads 1 and 2 send it payloads of one key. -/
def relayProgram : Program Stamped :=
  ⟨⟨[some fun observed step =>
      match observed, step with
      | _, 0 => some (.receive ⟨.blocking, fun _ => true⟩)
      | [.value v], 1 => some (.send ⟨1, v⟩)
      | _, _ => none,
    some fun _ step => if step = 0 then some (.send ⟨0, ⟨0, 0⟩⟩) else none,
    some fun _ step => if step = 0 then some (.send ⟨0, ⟨0, 1⟩⟩) else none]⟩⟩

/-- Both sends and the receive, which reads from one of them. -/
def relayGraph (sendId : ℕ) : Except DporError (ExplorationGraph Stamped) := do
  let (_, g) ← ExplorationGraph.empty.addEvent 1 (.send ⟨0, ⟨0, 0⟩⟩)
  let (_, g) ← g.addEvent 2 (.send ⟨0, ⟨0, 1⟩⟩)
  let (_, g) ← g.addEvent 0 (.receive ⟨.blocking, fun _ => true⟩)
  g.assignReadsFrom 2 (.send sendId)

/-- An entry with another key is overwritten, and the thread is given stamp 1. -/
theorem other_key_is_overwritten :
    ∃ second buffers, relayGraph 1 = .ok second ∧ buffers 0 = [.value ⟨1, 0⟩, .bottom] ∧
      second.threadTraceInto 0 (buffers 0) = .ok [.value ⟨0, 1⟩] ∧
      (computeNextEventReusing relayProgram second [0] 0 buffers).map Prod.fst =
        .ok ⟨some (0, .send ⟨1, ⟨0, 1⟩⟩), false⟩ ∧
      (rescheduleThreadReusing relayProgram second 0 (buffers 0)).map Prod.fst = .ok none := by
  obtain ⟨second, hsecond, htrace, hnext, hreschedule⟩ : ∃ second, relayGraph 1 = .ok second ∧
      second.threadTrace 0 = .ok [.value ⟨0, 1⟩] ∧
      computeNextEvent relayProgram second [0] 0 = .ok ⟨some (0, .send ⟨1, ⟨0, 1⟩⟩), false⟩ ∧
      rescheduleThread relayProgram second 0 = .ok none :=
    ⟨_, rfl, rfl, rfl, rfl⟩
  have hclean : second.CleanBuffer 0 [.value ⟨1, 0⟩, .bottom] := by
    intro trace h
    rw [htrace] at h
    cases h
    intro i old value hold hvalue hequals
    cases i with
    | zero =>
      cases hold
      cases hvalue
      cases hequals
    | succ i => cases hvalue
  have hbuffers : ∀ tid, second.CleanBuffer tid
      (Function.update (fun _ => []) 0 [.value ⟨1, 0⟩, .bottom] tid) := by
    intro tid
    by_cases htid : tid = 0
    · rw [htid, Function.update_self]
      exact hclean
    · rw [Function.update_of_ne htid]
      intro trace _ i old value hold
      cases hold
  obtain ⟨hinto, hcompute, hfind⟩ := traces_ignore_history_iff second
  exact ⟨second, _, hsecond, Function.update_self _ _ _, ((hinto 0 _).mpr hclean).trans htrace,
    (hcompute _ hbuffers relayProgram [0] 0).trans hnext, (hfind 0 _ hclean relayProgram).trans hreschedule⟩

/-- After the branch that reads stamp 0, the branch that reads stamp 1 is given stamp 0, and passes it on. -/
theorem stale_payload_is_observed :
    (∃ first second buffers after, relayGraph 0 = .ok first ∧ relayGraph 1 = .ok second ∧
      (computeNextEventReusing relayProgram first [0] 0 (fun _ => [])).map Prod.snd = .ok buffers ∧
      second.threadTraceInto 0 (buffers 0) = .ok [.value ⟨0, 0⟩] ∧
      second.threadTrace 0 = .ok [.value ⟨0, 1⟩] ∧
      computeNextEventReusing relayProgram second [0] 0 buffers =
        .ok (⟨some (0, .send ⟨1, ⟨0, 0⟩⟩), false⟩, after) ∧
      computeNextEvent relayProgram second [0] 0 = .ok ⟨some (0, .send ⟨1, ⟨0, 1⟩⟩), false⟩) ∧
    ¬ ∀ (V : Type) [BEq V] [EquivBEq V] (graph : ExplorationGraph V) (tid : ℕ) (buffer : List (ObservedValue V)),
      graph.threadTraceInto tid buffer = graph.threadTrace tid := by
  obtain ⟨first, second, buffers, after, hfirst, hsecond, hbuffers, hinto, htrace, hnext, hfresh⟩ :
      ∃ first second buffers after, relayGraph 0 = .ok first ∧ relayGraph 1 = .ok second ∧
        (computeNextEventReusing relayProgram first [0] 0 (fun _ => [])).map Prod.snd = .ok buffers ∧
        second.threadTraceInto 0 (buffers 0) = .ok [.value ⟨0, 0⟩] ∧
        second.threadTrace 0 = .ok [.value ⟨0, 1⟩] ∧
        computeNextEventReusing relayProgram second [0] 0 buffers =
          .ok (⟨some (0, .send ⟨1, ⟨0, 0⟩⟩), false⟩, after) ∧
        computeNextEvent relayProgram second [0] 0 = .ok ⟨some (0, .send ⟨1, ⟨0, 1⟩⟩), false⟩ :=
    ⟨_, _, _, _, rfl, rfl, rfl, rfl, rfl, rfl, rfl⟩
  refine ⟨⟨first, second, buffers, after, hfirst, hsecond, hbuffers, hinto, htrace, hnext, hfresh⟩, fun hall => ?_⟩
  have heq := hall Stamped second 0 (buffers 0)
  rw [hinto, htrace] at heq
  simp at heq

end MustDpor

import MustDpor.Algo.Completeness

/-! # Every maximal execution is published

Execution graphs of a program, whatever the order in which their events were inserted and however they came about,
and the maximal ones among them. The search publishes each of these. -/

namespace MustDpor
set_option autoImplicit false

variable {V : Type}

/-! ## Lists of choices without repeats

The search drops the repeats of the choices that a thread function offers before it adds the event. -/

def EventLabel.withoutRepeats [DecidableEq V] : EventLabel V → EventLabel V
  | .nondeterministicChoice nd => .nondeterministicChoice { nd with choices := eraseDuplicateNdChoices nd.choices }
  | label => label

def Execution.withoutRepeats [DecidableEq V] (x : Execution V) : Execution V :=
  fun p => (x p).map fun n => { n with label := n.label.withoutRepeats }

section WithoutRepeats
variable [DecidableEq V] (label : EventLabel V) (x : Execution V)

@[simp] theorem EventLabel.withoutRepeats_eq_receive (receive : ReceiveLabel V) :
    label.withoutRepeats = .receive receive ↔ label = .receive receive := by
  cases label <;> simp [withoutRepeats]

@[simp] theorem EventLabel.withoutRepeats_eq_send (send : SendLabel V) :
    label.withoutRepeats = .send send ↔ label = .send send := by
  cases label <;> simp [withoutRepeats]

@[simp] theorem EventLabel.withoutRepeats_eq_block : label.withoutRepeats = .block ↔ label = .block := by
  cases label <;> simp [withoutRepeats]

@[simp] theorem EventLabel.asSend_withoutRepeats : label.withoutRepeats.asSend = label.asSend := by
  cases label <;> rfl

@[simp] theorem EventLabel.isReceive_withoutRepeats : label.withoutRepeats.isReceive = label.isReceive := by
  cases label <;> rfl

namespace Execution

theorem withoutRepeats_eq_some (p : Pos) (m : Node V) :
    x.withoutRepeats p = some m ↔ ∃ n, x p = some n ∧ { n with label := n.label.withoutRepeats } = m :=
  Option.map_eq_some_iff

theorem withoutRepeats_eq_none (p : Pos) : x.withoutRepeats p = none ↔ x p = none := Option.map_eq_none_iff

theorem withoutRepeats_reads (s r : Pos) : x.withoutRepeats.Reads s r ↔ x.Reads s r := by
  unfold Reads
  simp only [withoutRepeats_eq_some]
  constructor
  · rintro ⟨_, ⟨n, hn, rfl⟩, hsource⟩
    exact ⟨n, hn, hsource⟩
  · rintro ⟨n, hn, hsource⟩
    exact ⟨_, ⟨n, hn, rfl⟩, hsource⟩

theorem withoutRepeats_before (p q : Pos) : x.withoutRepeats.Before p q ↔ x.Before p q := by
  constructor
  · intro h
    cases h with
    | order thread i j hlt hi hj =>
      exact .order thread i j hlt (mt (x.withoutRepeats_eq_none _).mpr hi) (mt (x.withoutRepeats_eq_none _).mpr hj)
    | read _ _ hread => exact .read _ _ ((x.withoutRepeats_reads _ _).mp hread)
  · intro h
    cases h with
    | order thread i j hlt hi hj =>
      exact .order thread i j hlt (mt (x.withoutRepeats_eq_none _).mp hi) (mt (x.withoutRepeats_eq_none _).mp hj)
    | read _ _ hread => exact .read _ _ ((x.withoutRepeats_reads _ _).mpr hread)

theorem withoutRepeats_past : x.withoutRepeats.Past = x.Past := by
  have hbefore : x.withoutRepeats.Before = x.Before := by
    funext p q
    exact propext (x.withoutRepeats_before p q)
  unfold Past
  rw [hbefore]

theorem withoutRepeats_delivered (source : PosSource) : x.withoutRepeats.delivered source = x.delivered source := by
  cases source with
  | bottom => rfl
  | send p =>
    show ((x p).map _).bind _ = (x p).bind _
    rw [Option.bind_map]
    simp only [Function.comp_def, EventLabel.asSend_withoutRepeats]

theorem withoutRepeats_trace (thread i : ℕ) : x.withoutRepeats.trace thread i = x.trace thread i := by
  refine trace_congr _ _ fun j _ => ?_
  show ((x (thread, j)).map _).bind _ = _
  cases x (thread, j) with
  | none => rfl
  | some n =>
    obtain ⟨label, source⟩ := n
    cases label with
    | receive _ =>
      show source.bind x.withoutRepeats.delivered = source.bind x.delivered
      rw [funext x.withoutRepeats_delivered]
    | _ => rfl

theorem withoutRepeats_receivable (tid : ℕ) (receive : ReceiveLabel V) (p : Pos) :
    x.withoutRepeats.Receivable tid receive p ↔ x.Receivable tid receive p := by
  unfold Receivable
  refine and_congr ?_ ?_
  · simp only [withoutRepeats_eq_some]
    constructor
    · rintro ⟨_, send, ⟨n, hn, rfl⟩, hsend, hrest⟩
      exact ⟨n, send, hn, (n.label.withoutRepeats_eq_send send).mp hsend, hrest⟩
    · rintro ⟨n, send, hn, hsend, hrest⟩
      exact ⟨_, send, ⟨n, hn, rfl⟩, (n.label.withoutRepeats_eq_send send).mpr hsend, hrest⟩
  · simp only [withoutRepeats_eq_some]
    constructor
    · intro h q n hn
      exact h q { n with label := n.label.withoutRepeats } ⟨n, hn, rfl⟩
    · rintro h q _ ⟨n, hn, rfl⟩
      exact h q n hn

variable {x}

theorem Consistent.withoutRepeats {model : CommunicationModel} (h : x.Consistent model) :
    x.withoutRepeats.Consistent model where
  dense := by
    simp only [Ne, withoutRepeats_eq_none]
    exact h.dense
  assigned := by
    intro p m receive hm hlabel
    obtain ⟨n, hn, rfl⟩ := (x.withoutRepeats_eq_some p m).mp hm
    exact h.assigned p n receive hn ((n.label.withoutRepeats_eq_receive receive).mp hlabel)
  delivered := by
    intro s r hread
    obtain ⟨n, send, receive, m, hn, hsend, hm, hreceive, hmatches⟩ :=
      h.delivered s r ((x.withoutRepeats_reads s r).mp hread)
    exact ⟨_, send, receive, _, (x.withoutRepeats_eq_some s _).mpr ⟨n, hn, rfl⟩,
      (n.label.withoutRepeats_eq_send send).mpr hsend, (x.withoutRepeats_eq_some r _).mpr ⟨m, hm, rfl⟩,
      (m.label.withoutRepeats_eq_receive receive).mpr hreceive, hmatches⟩
  exclusive := by
    simp only [withoutRepeats_reads]
    exact h.exclusive
  acyclic := by
    rw [withoutRepeats_past]
    exact h.acyclic
  fifo := by
    intro hmodel s r _ receive hread hr hreceive j _ send hlt hj hsend
    obtain ⟨m, hm, rfl⟩ := (x.withoutRepeats_eq_some r _).mp hr
    obtain ⟨n, hn, rfl⟩ := (x.withoutRepeats_eq_some (s.1, j) _).mp hj
    simp only [withoutRepeats_reads] at hread ⊢
    exact h.fifo hmodel s r m receive hread hm ((m.label.withoutRepeats_eq_receive receive).mp hreceive) j n send hlt hn
      ((n.label.withoutRepeats_eq_send send).mp hsend)

end Execution

variable {x}

theorem Ended.withoutRepeats {threadFn : ThreadFunction V} {tid : ℕ} (h : Ended threadFn x tid) :
    Ended threadFn x.withoutRepeats tid := by
  have hthere (j : ℕ) : x.withoutRepeats (tid, j) ≠ none ↔ x (tid, j) ≠ none := not_congr (x.withoutRepeats_eq_none _)
  cases h with
  | done count hcount hopen hdone =>
    refine .done count (fun j => (hthere j).trans (hcount j)) (fun j m hm => ?_) (by rwa [x.withoutRepeats_trace])
    obtain ⟨n, hn, rfl⟩ := (x.withoutRepeats_eq_some _ m).mp hm
    exact mt n.label.withoutRepeats_eq_block.mp (hopen j n hn)
  | blocked last n receive hlast hn hblock hwaits hstuck =>
    exact .blocked last _ receive (fun j => (hthere j).trans (hlast j))
      ((x.withoutRepeats_eq_some _ _).mpr ⟨n, hn, rfl⟩) (n.label.withoutRepeats_eq_block.mpr hblock)
      (by rwa [x.withoutRepeats_trace]) fun p => mt (x.withoutRepeats_receivable tid receive p).mp (hstuck p)

end WithoutRepeats

/-! ## Execution graphs of a program -/

/-- The event that stands in a graph for what a thread function returned: a choice carries one of the values offered,
next to the list of them with or without its repeats, and a Block stands for a blocking receive. -/
inductive Stands [DecidableEq V] : EventLabel V → EventLabel V → Prop where
  | receive (receive : ReceiveLabel V) : Stands (.receive receive) (.receive receive)
  | blocked (receive : ReceiveLabel V) : receive.isBlocking = true → Stands (.receive receive) .block
  | send (send : SendLabel V) : Stands (.send send) (.send send)
  | error (error : ErrorLabel) : Stands (.error error) (.error error)
  | free (nd : NondeterministicChoiceLabel V) : nd.choices = [] →
      Stands (.nondeterministicChoice nd) (.nondeterministicChoice nd)
  | choice (nd : NondeterministicChoiceLabel V) (value : V) (choices : List V) : value ∈ nd.choices →
      eraseDuplicateNdChoices choices = eraseDuplicateNdChoices nd.choices →
      Stands (.nondeterministicChoice nd) (.nondeterministicChoice ⟨value, choices⟩)

theorem Stands.becomes [DecidableEq V] {returned label : EventLabel V} (h : Stands returned label) :
    Becomes returned label.withoutRepeats := by
  cases h with
  | receive receive => exact .receive receive
  | blocked receive hblocking => exact .blocked receive hblocking
  | send send => exact .send send
  | error error => exact .error error
  | free nd hnil =>
    obtain ⟨value, choices⟩ := nd
    obtain rfl : choices = [] := hnil
    exact .free _ rfl
  | choice nd value choices hvalue hsame =>
    show Becomes _ (.nondeterministicChoice ⟨value, eraseDuplicateNdChoices choices⟩)
    rw [hsame]
    exact .choice nd value hvalue

/-- A graph that the checker of the model accepts, in which the event at every index of every thread is what the thread
function returns on the trace of the events before it, and only the last event of a thread may be a Block. -/
structure ExecutionOf [DecidableEq V] (config : DporConfig V) (x : ExecutionGraph V) : Prop where
  accepted : x.Accepted config.communicationModel
  event : ∀ thread i n, x.execution (thread, i) = some n → ∃ threadFn returned,
    config.program.threads.atThread thread = .ok threadFn ∧ threadFn (x.execution.trace thread i) i = some returned ∧
      Stands returned n.label
  dense : ∀ thread i, x.execution (thread, i + 1) ≠ none → x.execution (thread, i) ≠ none
  blockLast : ∀ thread i n, x.execution (thread, i) = some n → n.label = .block → x.execution (thread, i + 1) = none

/-- No thread can go on. -/
structure MaximalExecution [DecidableEq V] (config : DporConfig V) (x : ExecutionGraph V) : Prop
    extends ExecutionOf config x where
  ended : ∀ tid threadFn, config.program.threads.atThread tid = .ok threadFn → Ended threadFn x.execution tid

section Maximal
variable [DecidableEq V] {config : DporConfig V} {x : ExecutionGraph V}

theorem ExecutionOf.replays (h : ExecutionOf config x) : Replays config.program x.execution.withoutRepeats where
  event := by
    intro thread i m hm
    obtain ⟨n, hn, rfl⟩ := (x.execution.withoutRepeats_eq_some _ m).mp hm
    obtain ⟨threadFn, returned, hthread, hreturned, hstands⟩ := h.event thread i n hn
    exact ⟨threadFn, returned, hthread, by rwa [x.execution.withoutRepeats_trace], hstands.becomes⟩
  dense := by
    simp only [Ne, Execution.withoutRepeats_eq_none]
    exact h.dense
  blockLast := by
    intro thread i m hm hblock
    obtain ⟨n, hn, rfl⟩ := (x.execution.withoutRepeats_eq_some _ m).mp hm
    rw [Execution.withoutRepeats_eq_none]
    exact h.blockLast thread i n hn (n.label.withoutRepeats_eq_block.mp hblock)

theorem MaximalExecution.goal (h : MaximalExecution config x) : Goal config x.execution.withoutRepeats := by
  have hordered := h.accepted.indexOrdered
  have hunder := (x.accepted_iff hordered _).mp h.accepted
  have hconsistent := hunder.execution hordered h.dense
  refine ⟨hconsistent.withoutRepeats, h.replays, ?_, fun p m hm hlabel => ?_, fun tid threadFn hthread =>
    (h.ended tid threadFn hthread).withoutRepeats⟩
  · rw [Execution.withoutRepeats_past]
    exact hordered.past_wellFounded x hconsistent
  · obtain ⟨n, hn, rfl⟩ := (x.execution.withoutRepeats_eq_some p m).mp hm
    exact hordered.source_eq_none x hunder.async.endpoints p n hn (by rwa [n.label.isReceive_withoutRepeats] at hlabel)

end Maximal

/-- A run with no limit on the events of a thread and an observer that never stops it is the only one. If it returns and
publishes no DepthLimit and no Error terminal, every maximal execution graph of the program is among its Full and Blocked
terminals, up to the order in which the events were inserted. -/
theorem maximal_executions_published [LinearOrder V] (config : DporConfig V) (hlimit : config.maxThreadEvents = 0)
    (observer : List (Terminal V) → TerminalExecutionAction) (hobserver : ∀ terminals, observer terminals ≠ .stop)
    (threadIds : List ℕ) (hthreads : sortedThreadIds config.program = .ok threadIds) :
    ∃ exit, Verifies config observer exit ∧ (∀ other, Verifies config observer other → other = exit) ∧
      (exit.raised = none → (∀ t ∈ exit.terminals, t.kind ≠ .depthLimit ∧ t.kind ≠ .error) →
        ∀ x, MaximalExecution config x →
          ∃ t ∈ exit.terminals, t.Complete ∧ t.graph.graph.execution = x.execution.withoutRepeats) := by
  obtain ⟨exit, hexit, hunique⟩ := Verifies.exists_unique observer hthreads
  refine ⟨exit, hexit, hunique, fun hnone hkinds x hx => ?_⟩
  have hcontinue (terminals : List (Terminal V)) : observer terminals = .continue := by
    cases haction : observer terminals with
    | «continue» => rfl
    | stop => exact absurd haction (hobserver terminals)
  obtain ⟨hterminals, hraised⟩ := Verifies.publishes_all observer hcontinue hthreads exit hexit
  have hfinds := visit_finds config hlimit threadIds (threadsOf_sorted config.program threadIds hthreads) _ hx.goal
    ExplorationGraph.empty 0 (explored_empty config) [] (Approach.nil [] [])
  rw [hraised, Forest.run_raised_none_iff] at hnone
  rw [Forest.run_of_fails_eq_nil _ hnone] at hterminals
  rw [hterminals] at hkinds ⊢
  exact hfinds hnone hkinds

/-- The execution of the race in which the receive takes the message of the third thread, with the events in another
order than the search inserts them. -/
def raceExecution : ExecutionGraph ℕ where
  events := [⟨2, 0, .send ⟨1, 2⟩⟩, ⟨1, 0, .receive ⟨.blocking, fun _ => true⟩⟩, ⟨0, 0, .send ⟨1, 0⟩⟩]
  readsFrom := AscendingMap.empty.set 1 (.send 0)
  nextEventIndexByThread := fun _ => 1
  usedEventIndicesByThread := fun _ => ⟨1, []⟩

theorem raceExecution_accepted : raceExecution.Accepted .async := ⟨⟨[]⟩, by rfl, rfl⟩

theorem raceExecution_node {p : Pos} {n : Node ℕ} (h : raceExecution.execution p = some n) :
    p = (2, 0) ∧ n = ⟨.send ⟨1, 2⟩, none⟩ ∨
      p = (1, 0) ∧ n = ⟨.receive ⟨.blocking, fun _ => true⟩, some (.send (2, 0))⟩ ∨
      p = (0, 0) ∧ n = ⟨.send ⟨1, 0⟩, none⟩ := by
  have hordered := raceExecution_accepted.indexOrdered
  obtain ⟨id, hpos, hnode⟩ := (hordered.execution_eq_some p n).mp h
  match id with
  | 0 =>
    cases hpos
    cases hnode
    exact .inl ⟨rfl, rfl⟩
  | 1 =>
    cases hpos
    cases hnode
    exact .inr (.inl ⟨rfl, rfl⟩)
  | 2 =>
    cases hpos
    cases hnode
    exact .inr (.inr ⟨rfl, rfl⟩)
  | _ + 3 => cases hpos

theorem raceExecution_maximal : MaximalExecution raceConfig raceExecution := by
  have hindex (thread i : ℕ) (hne : raceExecution.execution (thread, i) ≠ none) : i = 0 := by
    obtain ⟨n, hn⟩ := Option.ne_none_iff_exists'.mp hne
    rcases raceExecution_node hn with ⟨hp, -⟩ | ⟨hp, -⟩ | ⟨hp, -⟩
    · exact (Prod.mk.inj hp).2
    · exact (Prod.mk.inj hp).2
    · exact (Prod.mk.inj hp).2
  have hopen (p : Pos) (n : Node ℕ) (hn : raceExecution.execution p = some n) : n.label ≠ .block := by
    rcases raceExecution_node hn with ⟨-, rfl⟩ | ⟨-, rfl⟩ | ⟨-, rfl⟩ <;> exact fun hblock => by cases hblock
  refine ⟨⟨raceExecution_accepted, fun thread i n hn => ?_, fun thread i hne => ?_, fun thread i n hn hblock => ?_⟩,
    fun tid threadFn hthread => ?_⟩
  · rcases raceExecution_node hn with ⟨hp, rfl⟩ | ⟨hp, rfl⟩ | ⟨hp, rfl⟩
    · cases hp
      exact ⟨_, _, rfl, rfl, .send _⟩
    · cases hp
      exact ⟨_, _, rfl, rfl, .receive _⟩
    · cases hp
      exact ⟨_, _, rfl, rfl, .send _⟩
  · exact absurd (hindex thread _ hne) (Nat.succ_ne_zero i)
  · exact absurd hblock (hopen _ n hn)
  · have hcount (hfirst : raceExecution.execution (tid, 0) ≠ none) (j : ℕ) :
        raceExecution.execution (tid, j) ≠ none ↔ j < 1 := by
      refine ⟨fun hne => by rw [hindex tid j hne]; exact Nat.one_pos, fun hlt => ?_⟩
      obtain rfl := Nat.lt_one_iff.mp hlt
      exact hfirst
    match tid with
    | 0 | 1 | 2 =>
      cases hthread
      exact .done 1 (hcount fun hnone => by cases hnone) (fun j n hn => hopen _ n hn) rfl
    | _ + 3 => cases hthread

theorem race_execution_published :
    ∃ exit, Verifies raceConfig (fun _ => .continue) exit ∧ ∃ t ∈ exit.terminals, t.Complete ∧
      t.graph.graph.execution = raceExecution.execution.withoutRepeats := by
  obtain ⟨exit, hexit, -, hpublished⟩ := maximal_executions_published raceConfig rfl (fun _ => .continue)
    (fun _ haction => by cases haction) [0, 1, 2] rfl
  obtain ⟨hterminals, hraised⟩ := Verifies.publishes_all (fun _ => .continue) (fun _ => rfl)
    (show sortedThreadIds raceConfig.program = .ok [0, 1, 2] from rfl) exit hexit
  refine ⟨exit, hexit, hpublished ?_ (fun t ht => ?_) raceExecution raceExecution_maximal⟩
  · rw [hraised]
    decide +kernel
  · have hkinds : exit.terminals.map Terminal.kind = [.full, .full] := by
      rw [hterminals]
      decide +kernel
    have hkind : t.kind ∈ [TerminalExecutionKind.full, .full] := hkinds ▸ List.mem_map_of_mem ht
    have hfull : t.kind = .full := by simpa using hkind
    rw [hfull]
    exact ⟨by decide, by decide⟩

end MustDpor

import Mathlib.Algebra.Order.Group.Multiset
import MustDpor.Algo.Sequential
import MustDpor.Parallel.WorkerPool

/-! # Parallel exploration

`ParallelExecutor::process_task` on top of the worker pool. A round of the explorer is private to its
worker up to the calls of the executor: stop polls, which may be stale but never invent a stop; the
spawn and split hints, which may answer anything as long as there is more than one worker; and
`try_enqueue`, whose two answers lead to the two outcomes of the round. -/

namespace MustDpor
set_option autoImplicit false

variable {V : Type}

inductive ProcessState (V : Type) where
  | entering (task : ExplorationTask V)
  | exploring (explorer : Explorer V) (cachedStop : Bool)
  | failed

/-- `stop_requested()` reads the shared flag or the worker's copy of it; a worker that requested the
stop itself sees it at once. -/
def PollAllowed (stop cachedStop poll : Bool) : Prop :=
  (poll = true → stop = true ∨ cachedStop = true) ∧ (cachedStop = true → poll = true)

/-- What the executor may answer in one round when no callback throws. -/
structure AnswersAllowed (n : ℕ) (stop cachedStop : Bool) (answers : ExecutorAnswers V) : Prop where
  onEntry : PollAllowed stop cachedStop answers.stopOnEntry
  beforeCheck : PollAllowed stop cachedStop answers.stopBeforeCheck
  afterProgress : PollAllowed stop cachedStop answers.stopAfterProgress
  atThread : ∀ tid, PollAllowed stop cachedStop (answers.stopAtThread tid)
  declined : PollAllowed stop cachedStop answers.publishDeclined
  progress : answers.progress = none
  observer : ∀ terminal, answers.observer terminal = none
  canSpawn : answers.canSpawn = true → 1 < n
  shouldSplit : answers.shouldSplit = true → 1 < n

def ExecutorAnswers.withEnqueue (answers : ExecutorAnswers V) (accepted : Bool) : ExecutorAnswers V :=
  { answers with enqueueAccepted := accepted }

section Moves
variable [LinearOrder V] (config : DporConfig V) (threadIds : List ℕ)
  (observer : List (Terminal V) → TerminalExecutionAction)

abbrev ExploreMove (V : Type) := Move (ExplorationTask V) (ProcessState V) (Terminal V)

/-- How a round that calls no `try_enqueue` goes on. -/
def roundMove (published : List (Terminal V)) (cachedStop : Bool) (outcome : Outcome V) :
    ExploreMove V :=
  match outcome.raised, outcome.published with
  | some _, _ => .raise
  | none, none => .work none (.exploring outcome.explorer cachedStop)
  | none, some terminal =>
    match observer (published ++ [terminal]) with
    | .continue => .work (some terminal) (.exploring outcome.explorer cachedStop)
    | .stop => .stop terminal (.exploring outcome.explorer true)

/-- How a round goes on after a refused offer. -/
def afterRefusal (cachedStop : Bool) (outcome : Outcome V) : ProcessState V :=
  if outcome.raised.isSome then .failed else .exploring outcome.explorer cachedStop

def exploreRound (explorer : Explorer V) (answers : ExecutorAnswers V) : Outcome V :=
  explorer.iterate (Queries.ofConfig config threadIds) threadIds config.maxDepth answers

inductive ExploreMoves (n : ℕ) (stop : Bool) (published : List (Terminal V)) :
    ProcessState V → ExploreMove V → Prop where
  | skip (task : ExplorationTask V) : stop = true →
      ExploreMoves n stop published (.entering task) .done
  | enter (task : ExplorationTask V) :
      ExploreMoves n stop published (.entering task)
        (.work none (.exploring (Explorer.start task.graph task.dporTreeDepth task.mode) false))
  | returned (explorer : Explorer V) (cachedStop : Bool) : explorer.contexts = [] →
      ExploreMoves n stop published (.exploring explorer cachedStop) .done
  | round (explorer : Explorer V) (cachedStop : Bool) (answers : ExecutorAnswers V) :
      explorer.contexts ≠ [] → AnswersAllowed n stop cachedStop answers →
      (exploreRound config threadIds explorer (answers.withEnqueue true)).spawned = none →
      ExploreMoves n stop published (.exploring explorer cachedStop)
        (roundMove observer published cachedStop
          (exploreRound config threadIds explorer (answers.withEnqueue false)))
  | split (explorer : Explorer V) (cachedStop : Bool) (answers : ExecutorAnswers V)
      (task : ExplorationTask V) :
      explorer.contexts ≠ [] → AnswersAllowed n stop cachedStop answers →
      (exploreRound config threadIds explorer (answers.withEnqueue true)).spawned = some task →
      ExploreMoves n stop published (.exploring explorer cachedStop)
        (.offer task
          (.exploring (exploreRound config threadIds explorer (answers.withEnqueue true)).explorer
            cachedStop)
          (afterRefusal cachedStop
            (exploreRound config threadIds explorer (answers.withEnqueue false))))
  | fail : ExploreMoves n stop published .failed .raise

/-- `process_task` for one configuration. -/
def exploration (n : ℕ) : Processing (ExplorationTask V) (ProcessState V) (Terminal V) where
  start := .entering
  moves := ExploreMoves config threadIds observer n

/-- The task `run()` pushes before the workers start. -/
def rootTask : ExplorationTask V := ⟨WorkerGraph.ofGraph ExplorationGraph.empty, 0, .visit⟩

/-- Answers that repeat the worker's own view of the stop flag. -/
def plainAnswers (cachedStop : Bool) : ExecutorAnswers V where
  stopOnEntry := cachedStop
  stopBeforeCheck := cachedStop
  progress := none
  stopAfterProgress := cachedStop
  stopAtThread := fun _ => cachedStop
  canSpawn := false
  shouldSplit := false
  enqueueAccepted := false
  publishDeclined := cachedStop
  observer := fun _ => none

omit [LinearOrder V] in
theorem plainAnswers_allowed (n : ℕ) (stop cachedStop : Bool) :
    AnswersAllowed n stop cachedStop (plainAnswers cachedStop : ExecutorAnswers V) := by
  have hpoll : PollAllowed stop cachedStop cachedStop := ⟨.inr, id⟩
  exact ⟨hpoll, hpoll, hpoll, fun _ => hpoll, hpoll, rfl, fun _ => rfl, (nomatch ·), (nomatch ·)⟩

theorem exploration_live (n : ℕ) (stop : Bool) (published : List (Terminal V)) (state : ProcessState V) :
    ∃ move, (exploration config threadIds observer n).moves stop published state move := by
  cases state with
  | entering task => exact ⟨_, .enter task⟩
  | failed => exact ⟨_, .fail⟩
  | exploring explorer cachedStop =>
    by_cases hcontexts : explorer.contexts = []
    · exact ⟨_, .returned explorer cachedStop hcontexts⟩
    · have hallowed := plainAnswers_allowed (V := V) n stop cachedStop
      cases hspawned : (exploreRound config threadIds explorer
          ((plainAnswers cachedStop).withEnqueue true)).spawned with
      | none => exact ⟨_, .round explorer cachedStop _ hcontexts hallowed hspawned⟩
      | some task => exact ⟨_, .split explorer cachedStop _ task hcontexts hallowed hspawned⟩

end Moves

/-! ## A lost stop

Both outcomes of the pool on the program whose only thread is done at once, with an observer that stops
the search at the first terminal. -/

def idleProgram : Program ℕ := ⟨⟨[some fun _ _ => none]⟩⟩

/-- `process_task` for two workers on `idleProgram`. -/
def idleExploration : Processing (ExplorationTask ℕ) (ProcessState ℕ) (Terminal ℕ) :=
  exploration ⟨idleProgram, 10, 0, .async⟩ [0] (fun _ => .stop) 2

def idleStart : Explorer ℕ := Explorer.start rootTask.graph 0 .visit

def idleOutcome : Outcome ℕ :=
  exploreRound ⟨idleProgram, 10, 0, .async⟩ [0] idleStart (plainAnswers false)

theorem idle_stops (published : List (Terminal ℕ)) :
    idleExploration.moves false published (.exploring idleStart false)
      (.stop ⟨ExplorationGraph.empty, .full⟩ (.exploring idleOutcome.explorer true)) :=
  ExploreMoves.round idleStart false (plainAnswers false) (List.cons_ne_nil _ _)
    (plainAnswers_allowed 2 false false) rfl

theorem Pool.Steps.then {n : ℕ} {Task State Out : Type} {processing : Processing Task State Out}
    {maxQueuedTasks : ℕ} {s t u : Pool n Task State Out} (h : Pool.Steps processing maxQueuedTasks s t)
    (w : Fin n) (hstep : Pool.Step processing maxQueuedTasks w t u) :
    Pool.Steps processing maxQueuedTasks s u :=
  h.tail ⟨w, hstep⟩

/-- The first worker takes the root task; the second one finds the predicate false; the first stops the
search and broadcasts; the second one only then joins the wait set; the first one exits. -/
theorem stop_strands_worker :
    ∃ s : Pool 2 (ExplorationTask ℕ) (ProcessState ℕ) (Terminal ℕ),
      Pool.Steps idleExploration 8 (Pool.initial rootTask) s ∧
      s.pc 0 = .exited ∧ s.pc 1 = .waiting ∧ ∀ w t, ¬ Pool.Step idleExploration 8 w s t := by
  have hstart : Pool.Steps idleExploration 8 (Pool.initial (n := 2) rootTask) (Pool.initial rootTask) :=
    Relation.ReflTransGen.refl
  have htaken := ((hstart.then 0 (.lock _ rfl rfl)).then 0 (.checkReady _ rfl rfl)).then 0
    (.take _ rootTask [] rfl rfl rfl)
  have hparking := ((htaken.then 1 (.lock _ rfl rfl)).then 1 (.checkIdle _ rfl rfl)).then 1
    (.waitFalse _ rfl rfl)
  have hstopped := (((hparking.then 0 (.work _ _ _ none rfl (.enter rootTask))).then 0
    (.stop _ _ _ _ rfl (idle_stops _))).then 0 (.stopStore _ _ rfl)).then 0 (.stopNotify _ _ rfl)
  have hparked := (hstopped.then 0 (.done _ _ rfl (.returned _ true rfl))).then 1 (.park _ rfl)
  have hexited := ((((hparked.then 0 (.finishLock _ rfl rfl)).then 0
    (.finishPlain _ rfl (Or.inl rfl))).then 0 (.lock _ rfl rfl)).then 0 (.checkReady _ rfl rfl)).then 0
    (.exit _ rfl rfl)
  refine ⟨_, hexited, rfl, rfl, ?_⟩
  -- neither an exited worker nor a waiting one has a step of its own
  intro w t hstep
  obtain rfl | rfl : w = 0 ∨ w = 1 := by omega
  · cases hstep <;> contradiction
  · cases hstep <;> contradiction

theorem Pool.CarefulSteps.then {n : ℕ} {Task State Out : Type} {processing : Processing Task State Out}
    {maxQueuedTasks : ℕ} {s t u : Pool n Task State Out} (h : Pool.CarefulSteps processing maxQueuedTasks s t)
    (w : Fin n) (hstep : Pool.Step processing maxQueuedTasks w t u)
    (hcareful : (t.pc w).isStopNotify = false ∨ ∀ v, t.pc v ≠ .parking) :
    Pool.CarefulSteps processing maxQueuedTasks s u := by
  refine h.tail ⟨w, hstep, fun ⟨hnotify, v, hparking⟩ => ?_⟩
  rcases hcareful with hquiet | hnobody
  · exact absurd (hquiet.symm.trans hnotify) Bool.false_ne_true
  · exact hnobody v hparking

/-- The second worker has parked when the first one broadcasts the stop and exits; it was woken and goes on. -/
theorem idle_not_stranded :
    ∃ parked s : Pool 2 (ExplorationTask ℕ) (ProcessState ℕ) (Terminal ℕ),
      Pool.CarefulSteps idleExploration 8 (Pool.initial rootTask) parked ∧
      parked.stopRequested = true ∧ (parked.pc 0).isStopNotify = true ∧ parked.pc 1 = .waiting ∧
      Pool.CarefulSteps idleExploration 8 parked s ∧ s.pc 0 = .exited ∧ s.pc 1 = .notified ∧
      ∃ v t, Pool.Step idleExploration 8 v s t := by
  have hstart : Pool.CarefulSteps idleExploration 8 (Pool.initial (n := 2) rootTask) (Pool.initial rootTask) :=
    Relation.ReflTransGen.refl
  have htaken := ((hstart.then 0 (.lock _ rfl rfl) (.inl rfl)).then 0 (.checkReady _ rfl rfl) (.inl rfl)).then 0
    (.take _ rootTask [] rfl rfl rfl) (.inl rfl)
  have hparked := (((htaken.then 1 (.lock _ rfl rfl) (.inl rfl)).then 1 (.checkIdle _ rfl rfl) (.inl rfl)).then 1
    (.waitFalse _ rfl rfl) (.inl rfl)).then 1 (.park _ rfl) (.inl rfl)
  have hstored := ((hparked.then 0 (.work _ _ _ none rfl (.enter rootTask)) (.inl rfl)).then 0
    (.stop _ _ _ _ rfl (idle_stops _)) (.inl rfl)).then 0 (.stopStore _ _ rfl) (.inl rfl)
  have hstay {t : Pool 2 _ _ _} (_ : Pool.CarefulSteps idleExploration 8 (Pool.initial rootTask) t) :
      Pool.CarefulSteps idleExploration 8 t t := Relation.ReflTransGen.refl
  have hnotified := (hstay hstored).then 0 (.stopNotify _ _ rfl) (.inr fun v hparking => by
    obtain rfl | rfl : v = 0 ∨ v = 1 := by omega
    · cases hparking
    · cases hparking)
  have hfinished := ((hnotified.then 0 (.done _ _ rfl (.returned _ true rfl)) (.inl rfl)).then 0
    (.finishLock _ rfl rfl) (.inl rfl)).then 0 (.finishPlain _ rfl (Or.inl rfl)) (.inl rfl)
  have hexited := ((hfinished.then 0 (.lock _ rfl rfl) (.inl rfl)).then 0 (.checkReady _ rfl rfl) (.inl rfl)).then 0
    (.exit _ rfl rfl) (.inl rfl)
  refine ⟨_, _, hstored, rfl, rfl, rfl, hexited, rfl, rfl, ?_⟩
  exact Pool.no_worker_stranded (exploration_live _ _ _ 2) rootTask _ (hstored.trans hexited) 1 (fun h => nomatch h)

end MustDpor

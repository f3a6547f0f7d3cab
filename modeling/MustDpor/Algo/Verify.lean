import MustDpor.Algo.Explorer

/-! # The sequential executor

`SequentialExecutor`, `detail::visit`, `detail::visit_if_consistent` and `verify`. `UserCode` is what
a run has to do with user code: the answers of its queries round by round, the progress observer, and
the terminal observer as a function of everything published so far. -/

namespace MustDpor
set_option autoImplicit false

inductive VerifyResultKind where
  | allExplored
  | stopped
  deriving DecidableEq, Repr

inductive TerminalExecutionAction where
  | continue
  | stop
  deriving DecidableEq, Repr

structure VerifyResult where
  kind : VerifyResultKind
  executionsExplored : ℕ
  fullExecutionsExplored : ℕ
  blockedExecutionsExplored : ℕ
  errorExecutionsExplored : ℕ
  depthLimitExecutionsExplored : ℕ
  threadEventLimitExecutionsExplored : ℕ
  maxThreadEventDepthReached : ℕ
  deriving DecidableEq, Repr

namespace VerifyResult

def initial : VerifyResult := ⟨.allExplored, 0, 0, 0, 0, 0, 0, 0⟩

def stopped (r : VerifyResult) : Bool := decide (r.kind = .stopped)

def countKind (r : VerifyResult) : TerminalExecutionKind → VerifyResult
  | .full => { r with fullExecutionsExplored := r.fullExecutionsExplored + 1 }
  | .blocked => { r with blockedExecutionsExplored := r.blockedExecutionsExplored + 1 }
  | .error => { r with errorExecutionsExplored := r.errorExecutionsExplored + 1 }
  | .depthLimit => { r with depthLimitExecutionsExplored := r.depthLimitExecutionsExplored + 1 }
  | .threadEventLimit =>
    { r with threadEventLimitExecutionsExplored := r.threadEventLimitExecutionsExplored + 1 }

def incrementTerminalCounts (r : VerifyResult) (kind : TerminalExecutionKind)
    (threadEventDepth : ℕ) : VerifyResult :=
  VerifyResult.countKind
    { r with
      executionsExplored := r.executionsExplored + 1
      maxThreadEventDepthReached := max r.maxThreadEventDepthReached threadEventDepth } kind

def requestStop (r : VerifyResult) : VerifyResult := { r with kind := .stopped }

end VerifyResult

structure UserCode (V : Type) where
  queries : ℕ → Queries V
  progress : ℕ → Option DporError
  observer : List (Terminal V) → Except DporError TerminalExecutionAction

/-- Total callbacks, and an observer that may stop the search but does not throw. -/
def UserCode.ofConfig {V : Type} [LinearOrder V] (config : DporConfig V) (threadIds : List ℕ)
    (observer : List (Terminal V) → TerminalExecutionAction) : UserCode V where
  queries := fun _ => Queries.ofConfig config threadIds
  progress := fun _ => none
  observer := fun terminals => .ok (observer terminals)

structure SequentialRun (V : Type) where
  explorer : Explorer V
  round : ℕ
  result : VerifyResult
  terminals : List (Terminal V)

/-- How a run leaves `DepthFirstExplorer::run`. -/
structure Exit (V : Type) where
  graph : WorkerGraph V
  result : VerifyResult
  terminals : List (Terminal V)
  raised : Option Raised

namespace SequentialRun
variable {V : Type} [DecidableEq V] (code : UserCode V) (threadIds : List ℕ) (maxDepth : ℕ)

def answers (run : SequentialRun V) : ExecutorAnswers V where
  stopOnEntry := run.result.stopped
  stopBeforeCheck := run.result.stopped
  progress := code.progress run.round
  stopAfterProgress := run.result.stopped
  stopAtThread := fun _ => run.result.stopped
  canSpawn := false
  shouldSplit := false
  enqueueAccepted := false
  publishDeclined := false
  observer := fun terminal =>
    match code.observer (run.terminals ++ [terminal]) with
    | .error e => some e
    | .ok _ => none

/-- `publish_terminal_execution`: count first, then ask the observer. -/
def resultAfter (run : SequentialRun V) : Option (Terminal V) → VerifyResult
  | none => run.result
  | some terminal =>
    let counted := run.result.incrementTerminalCounts terminal.kind
      (computeMaxThreadEventDepth terminal.graph threadIds)
    match code.observer (run.terminals ++ [terminal]) with
    | .ok .stop => counted.requestStop
    | _ => counted

def iterate (run : SequentialRun V) : SequentialRun V × Option Raised :=
  let outcome := run.explorer.iterate (code.queries run.round) threadIds maxDepth (answers code run)
  (⟨outcome.explorer, run.round + 1, resultAfter code threadIds run outcome.published,
    run.terminals ++ outcome.published.toList⟩, outcome.raised)

/-- `run_loop`, at most `rounds` rounds of it. -/
def runLoop : ℕ → SequentialRun V → Option (Exit V)
  | 0, _ => none
  | rounds + 1, run =>
    if run.explorer.contexts.isEmpty then
      some ⟨run.explorer.borrowedGraph, run.result, run.terminals, none⟩
    else
      match iterate code threadIds maxDepth run with
      | (next, some raised) =>
        some ⟨Explorer.unwind next.explorer.borrowedGraph next.explorer.contexts, next.result,
          next.terminals, some raised⟩
      | (next, none) => runLoop rounds next

/-- `detail::visit` and `detail::visit_if_consistent` with the caller's graph and result. -/
def start (graph : WorkerGraph V) (dporTreeDepth : ℕ) (mode : ExplorationTaskMode)
    (result : VerifyResult) : SequentialRun V :=
  ⟨Explorer.start graph dporTreeDepth mode, 0, result, []⟩

/-- The run leaves the loop this way. -/
def Exits (run : SequentialRun V) (exit : Exit V) : Prop :=
  ∃ rounds, runLoop code threadIds maxDepth rounds run = some exit

end SequentialRun

/-- `verify(config)` gets to exploring and leaves it this way. -/
def Verifies {V : Type} [LinearOrder V] (config : DporConfig V)
    (observer : List (Terminal V) → TerminalExecutionAction) (exit : Exit V) : Prop :=
  ∃ threadIds, sortedThreadIds config.program = .ok threadIds ∧
    SequentialRun.Exits (UserCode.ofConfig config threadIds observer) threadIds config.maxDepth
      (SequentialRun.start (WorkerGraph.ofGraph ExplorationGraph.empty) 0 .visit VerifyResult.initial)
      exit

end MustDpor

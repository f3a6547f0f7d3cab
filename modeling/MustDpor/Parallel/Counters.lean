import MustDpor.Algo.Guarantees
import MustDpor.Parallel.Conservation

/-! # The counters of a result

`increment_terminal_counts` of the sequential executor, and `increment_local_terminal_counts`,
`flush_local_counts` and `ParallelExecutor::run` of `include/dpor/algo/dpor.hpp`. A worker counts a terminal
in its own tallies and folds these into the shared ones when enough have gathered, at a progress report, and
always before it leaves the loop; so the result that is read after the workers have joined is exact. -/

namespace MustDpor
set_option autoImplicit false
open List Function Relation

variable {V : Type}

/-! ## Exact counters -/

def VerifyResult.counter (r : VerifyResult) : TerminalExecutionKind → ℕ
  | .full => r.fullExecutionsExplored
  | .blocked => r.blockedExecutionsExplored
  | .error => r.errorExecutionsExplored
  | .depthLimit => r.depthLimitExecutionsExplored
  | .threadEventLimit => r.threadEventLimitExecutionsExplored

/-- The counters say what was published; the depth is the largest event count of a thread in a published
graph. -/
structure CountsExact (result : VerifyResult) (terminals : List (Terminal V)) : Prop where
  kinds : ∀ kind, result.counter kind = terminals.countP fun terminal => decide (terminal.kind = kind)
  explored : result.executionsExplored = result.fullExecutionsExplored + result.blockedExecutionsExplored +
    result.errorExecutionsExplored + result.depthLimitExecutionsExplored + result.threadEventLimitExecutionsExplored
  depth : ∀ d, result.maxThreadEventDepthReached ≤ d ↔
    ∀ terminal ∈ terminals, ∀ tid, threadCount terminal.graph.graph.events tid ≤ d

theorem foldl_max_le_iff (f : ℕ → ℕ) (l : List ℕ) (start d : ℕ) :
    l.foldl (fun depth x => max depth (f x)) start ≤ d ↔ start ≤ d ∧ ∀ x ∈ l, f x ≤ d := by
  induction l generalizing start with
  | nil => simp
  | cons x l ih =>
    rw [foldl_cons, ih, max_le_iff, forall_mem_cons, and_assoc]

theorem Published.depth_le_iff [LinearOrder V] {config : DporConfig V} {threadIds : List ℕ}
    (hthreads : ThreadsOf config.program threadIds) {terminal : Terminal V}
    (h : Published config threadIds terminal) (d : ℕ) :
    computeMaxThreadEventDepth terminal.graph threadIds ≤ d ↔
      ∀ tid, threadCount terminal.graph.graph.events tid ≤ d := by
  unfold computeMaxThreadEventDepth
  rw [foldl_max_le_iff, and_iff_right (Nat.zero_le d)]
  simp only [threadEventCount_eq h.tabulated]
  refine ⟨fun hall tid => ?_, fun hall tid _ => hall tid⟩
  by_cases hzero : threadCount terminal.graph.graph.events tid = 0
  · rw [hzero]
    exact Nat.zero_le d
  · obtain ⟨e, he, hthread⟩ := countP_pos_iff.mp (Nat.pos_of_ne_zero hzero)
    obtain ⟨id, hid⟩ := getElem?_of_mem he
    have hordered := h.tabulated.indexOrdered terminal.graph
    obtain ⟨node, hnode⟩ : ∃ node, terminal.graph.graph.nodeAt id = some node := by
      unfold ExecutionGraph.nodeAt
      rw [hid]
      exact ⟨_, rfl⟩
    obtain ⟨threadFn, -, hfn, -⟩ := h.replays.event e.thread e.index _
      ((hordered.execution_eq_some _ _).mpr ⟨id, (terminal.graph.graph.posAt_eq_some id _).mpr ⟨e, hid, rfl⟩, hnode⟩)
    have htid : e.thread = tid := of_decide_eq_true hthread
    exact hall tid ((hthreads tid).mpr ⟨threadFn, htid ▸ hfn⟩)

/-- What a terminal adds to the tallies. -/
def Terminal.tallied (threadIds : List ℕ) (terminal : Terminal V) : TerminalExecutionKind × ℕ :=
  (terminal.kind, computeMaxThreadEventDepth terminal.graph threadIds)

/-- The result is read off tallies of the published terminals. -/
structure Tallies (threadIds : List ℕ) (result : VerifyResult) (terminals : List (Terminal V)) : Prop where
  kinds : ∀ kind, result.counter kind =
    (terminals.map (Terminal.tallied threadIds)).countP fun r => decide (r.1 = kind)
  explored : result.executionsExplored = result.fullExecutionsExplored + result.blockedExecutionsExplored +
    result.errorExecutionsExplored + result.depthLimitExecutionsExplored + result.threadEventLimitExecutionsExplored
  depth : ∀ d, result.maxThreadEventDepthReached ≤ d ↔
    ∀ r ∈ terminals.map (Terminal.tallied threadIds), r.2 ≤ d

theorem Tallies.exact [LinearOrder V] {config : DporConfig V} {threadIds : List ℕ}
    (hthreads : ThreadsOf config.program threadIds) (result : VerifyResult) (terminals : List (Terminal V))
    (h : Tallies threadIds result terminals)
    (hpublished : ∀ terminal ∈ terminals, Published config threadIds terminal) : CountsExact result terminals where
  kinds := fun kind => by
    rw [h.kinds kind, countP_map]
    rfl
  explored := h.explored
  depth := fun d => by
    rw [h.depth d, forall_mem_map]
    refine forall_congr' fun terminal => forall_congr' fun hmem => ?_
    exact (hpublished terminal hmem).depth_le_iff hthreads d

/-! ## The sequential executor -/

theorem Tallies.initial (threadIds : List ℕ) : Tallies threadIds VerifyResult.initial ([] : List (Terminal V)) where
  kinds := fun kind => by cases kind <;> rfl
  explored := rfl
  depth := fun d => by simp [VerifyResult.initial]

theorem counter_incrementTerminalCounts (r : VerifyResult) (kind other : TerminalExecutionKind) (depth : ℕ) :
    (r.incrementTerminalCounts kind depth).counter other = r.counter other + if kind = other then 1 else 0 := by
  cases kind <;> cases other <;> rfl

theorem Tallies.increment {threadIds : List ℕ} {r : VerifyResult} {terminals : List (Terminal V)}
    (h : Tallies threadIds r terminals) (terminal : Terminal V) :
    Tallies threadIds (r.incrementTerminalCounts terminal.kind (computeMaxThreadEventDepth terminal.graph threadIds))
      (terminals ++ [terminal]) where
  kinds := fun kind => by
    rw [counter_incrementTerminalCounts, h.kinds kind, map_append, countP_append]
    simp [Terminal.tallied]
  explored := by
    have hexplored := h.explored
    cases terminal.kind <;> simp only [VerifyResult.incrementTerminalCounts, VerifyResult.countKind] <;> omega
  depth := fun d => by
    have hmax : (r.incrementTerminalCounts terminal.kind
        (computeMaxThreadEventDepth terminal.graph threadIds)).maxThreadEventDepthReached =
        max r.maxThreadEventDepthReached (computeMaxThreadEventDepth terminal.graph threadIds) := by
      cases terminal.kind <;> rfl
    rw [hmax, max_le_iff, h.depth d, map_append, forall_mem_append]
    simp [Terminal.tallied]

section Sequential
variable [LinearOrder V] {config : DporConfig V} {threadIds : List ℕ} (code : UserCode V)
  (hqueries : ∀ round, code.queries round = Queries.ofConfig config threadIds)

omit [LinearOrder V] in
theorem resultAfter_tallies {run : SequentialRun V} (h : Tallies threadIds run.result run.terminals)
    (published : Option (Terminal V)) :
    Tallies threadIds (SequentialRun.resultAfter code threadIds run published)
      (run.terminals ++ published.toList) := by
  cases published with
  | none =>
    rw [Option.toList_none, append_nil]
    exact h
  | some terminal =>
    have hcounted := h.increment terminal
    unfold SequentialRun.resultAfter
    dsimp only
    split
    · exact ⟨hcounted.kinds, hcounted.explored, hcounted.depth⟩
    · exact hcounted

include hqueries

theorem runLoop_tallies (hthreads : ThreadsOf config.program threadIds) (rounds : ℕ) (run : SequentialRun V)
    (exit : Exit V) (hsurveyed : Surveyed config threadIds run.explorer)
    (htallies : Tallies threadIds run.result run.terminals)
    (hpublished : ∀ terminal ∈ run.terminals, Published config threadIds terminal)
    (hrun : SequentialRun.runLoop code threadIds config.maxDepth rounds run = some exit) :
    CountsExact exit.result exit.terminals := by
  induction rounds generalizing run with
  | zero => cases hrun
  | succ rounds ih =>
    unfold SequentialRun.runLoop at hrun
    split at hrun
    · cases hrun
      exact htallies.exact hthreads _ _ hpublished
    · have hround := hsurveyed.iterate run.explorer (SequentialRun.answers code run)
      cases hiter : SequentialRun.iterate code threadIds config.maxDepth run with
      | mk next raised =>
        obtain ⟨hnext, hraised⟩ := Prod.mk.inj hiter
        rw [hqueries] at hnext hraised
        have hnexttallies : Tallies threadIds next.result next.terminals := by
          rw [← hnext]
          exact resultAfter_tallies code htallies _
        have hnextpublished : ∀ terminal ∈ next.terminals, Published config threadIds terminal := by
          rw [← hnext]
          intro terminal hmem
          rcases mem_append.mp hmem with hmem | hmem
          · exact hpublished terminal hmem
          · exact hround.published terminal (Option.mem_toList.mp hmem)
        rw [hiter] at hrun
        cases raised with
        | some raised =>
          cases hrun
          exact hnexttallies.exact hthreads _ _ hnextpublished
        | none =>
          refine ih next ?_ hnexttallies hnextpublished hrun
          rw [← hnext]
          exact hround.left hraised

end Sequential

/-! ## What the workers publish -/

section Accounted
variable [LinearOrder V] (config : DporConfig V) (threadIds : List ℕ)

def StateAccounted : ProcessState V → Prop
  | .entering task => TaskAccounted config threadIds task
  | .exploring explorer _ => Surveyed config threadIds explorer
  | .failed => True

def MoveAccounted : ExploreMove V → Prop
  | .work out next =>
    (∀ terminal ∈ out.toList, Published config threadIds terminal) ∧ StateAccounted config threadIds next
  | .offer task accepted refused => TaskAccounted config threadIds task ∧
      StateAccounted config threadIds accepted ∧ StateAccounted config threadIds refused
  | .stop out next => Published config threadIds out ∧ StateAccounted config threadIds next
  | .raise | .done => True

def PcAccounted : WorkerPc (ExplorationTask V) (ProcessState V) → Prop
  | .processing state | .notifyOne state | .stopStore state | .stopNotify state => StateAccounted config threadIds state
  | .enqueueing task accepted refused | .enqueueLocked task accepted refused => TaskAccounted config threadIds task ∧
      StateAccounted config threadIds accepted ∧ StateAccounted config threadIds refused
  | _ => True

structure PoolAccounted {n : ℕ} (s : Pool.ExplorerPool n V) : Prop where
  workers : ∀ v, PcAccounted config threadIds (s.pc v)
  queue : ∀ task ∈ s.queue, TaskAccounted config threadIds task
  published : ∀ terminal ∈ s.published, Published config threadIds terminal

variable {config threadIds} {observer : List (Terminal V) → TerminalExecutionAction} {n maxQueuedTasks : ℕ}

theorem ExploreMoves.accounted {stop : Bool} {published : List (Terminal V)} {state : ProcessState V}
    {move : ExploreMove V} (hstate : StateAccounted config threadIds state)
    (h : ExploreMoves config threadIds observer n stop published state move) :
    MoveAccounted config threadIds move := by
  cases h with
  | skip | returned | fail => trivial
  | enter task => exact ⟨nofun, hstate.start task⟩
  | round explorer cachedStop answers hcontexts hallowed hspawned =>
    have hround := hstate.iterate explorer (answers.withEnqueue false)
    unfold roundMove
    split
    · trivial
    · rename_i hraised _
      exact ⟨nofun, hround.left hraised⟩
    · rename_i terminal hraised hpublished
      have hterminal := hround.published terminal hpublished
      split
      · refine ⟨fun other hmem => ?_, hround.left hraised⟩
        rw [Option.toList_some, mem_singleton] at hmem
        rw [hmem]
        exact hterminal
      · exact ⟨hterminal, hround.left hraised⟩
  | split explorer cachedStop answers task hcontexts hallowed hspawned =>
    have haccepted := hstate.iterate explorer (answers.withEnqueue true)
    have hrefused := hstate.iterate explorer (answers.withEnqueue false)
    have hquiet := (iterate_spawned _ threadIds config.maxDepth _ hspawned (answers.withEnqueue true)).1
    refine ⟨haccepted.spawned hquiet task hspawned, haccepted.left hquiet, ?_⟩
    unfold afterRefusal
    split
    · trivial
    · rename_i hnone
      exact hrefused.left (Option.not_isSome_iff_eq_none.mp hnone)

theorem poolAccounted_initial (hthreads : ThreadsOf config.program threadIds) :
    PoolAccounted config threadIds (Pool.initial rootTask : Pool.ExplorerPool n V) where
  workers := fun _ => trivial
  queue := fun task hmem => by
    rw [mem_singleton.mp hmem]
    exact taskAccounted_root hthreads
  published := nofun

open Pool in
theorem PoolAccounted.step {s t : Pool.ExplorerPool n V} {w : Fin n} (h : PoolAccounted config threadIds s)
    (hstep : Pool.Step (exploration config threadIds observer n) maxQueuedTasks w s t) :
    PoolAccounted config threadIds t := by
  have hworkers (hself : PcAccounted config threadIds (t.pc w)) (v : Fin n) :
      PcAccounted config threadIds (t.pc v) := by
    by_cases hv : v = w
    · rw [hv]
      exact hself
    · rcases hstep.others hv with heq | ⟨-, heq⟩
      · rw [heq]
        exact h.workers v
      · rw [heq]
        trivial
  have hown := h.workers w
  have hmove (state : ProcessState V) (move : ExploreMove V) (hpc : s.pc w = .processing state)
      (hmoves : (exploration config threadIds observer n).moves s.stopRequested s.published state move) :
      MoveAccounted config threadIds move := by
    rw [hpc] at hown
    exact ExploreMoves.accounted hown hmoves
  have hset (f : Fin n → WorkerPc (ExplorationTask V) (ProcessState V)) (pc : WorkerPc _ (ProcessState V))
      (hpc : PcAccounted config threadIds pc) : PcAccounted config threadIds (update f w pc w) := by
    rw [update_self]
    exact hpc
  cases hstep with
  | lock | checkReady | checkIdle | waitReady | waitFalse | park | relock | exit | raise | failStore | failNotify
  | done | finishLock | finishComplete | finishPlain | completeNotify =>
    exact ⟨hworkers (hset _ _ trivial), h.queue, h.published⟩
  | take task rest hpc hgo hqueue =>
    have hall := h.queue
    rw [hqueue] at hall
    exact ⟨hworkers (hset _ _ (hall task mem_cons_self)), fun other hmem => hall other (mem_cons_of_mem _ hmem),
      h.published⟩
  | work state next out hpc hmoves =>
    obtain ⟨hout, hnext⟩ := hmove state _ hpc hmoves
    exact ⟨hworkers (hset _ _ hnext), h.queue, fun terminal hmem =>
      (mem_append.mp hmem).elim (h.published terminal) (hout terminal)⟩
  | offerDeclined state accepted refused task hpc hmoves hdeclined =>
    exact ⟨hworkers (hset _ _ (hmove state _ hpc hmoves).2.2), h.queue, h.published⟩
  | offer state accepted refused task hpc hmoves hmany =>
    exact ⟨hworkers (hset _ _ (hmove state _ hpc hmoves)), h.queue, h.published⟩
  | enqueueLock _ _ _ hpc | notifyOne _ _ hpc | notifyNobody _ hpc | stopStore _ hpc | stopNotify _ hpc =>
    rw [hpc] at hown
    exact ⟨hworkers (hset _ _ hown), h.queue, h.published⟩
  | push task accepted refused hpc hstop hcomplete hroom =>
    rw [hpc] at hown
    refine ⟨hworkers (hset _ _ hown.2.1), fun other hmem => ?_, h.published⟩
    rcases mem_append.mp hmem with hmem | hmem
    · exact h.queue other hmem
    · rw [mem_singleton.mp hmem]
      exact hown.1
  | pushRefused task accepted refused hpc hrefused =>
    rw [hpc] at hown
    exact ⟨hworkers (hset _ _ hown.2.2), h.queue, h.published⟩
  | stop state next out hpc hmoves =>
    obtain ⟨hout, hnext⟩ := hmove state _ hpc hmoves
    refine ⟨hworkers (hset _ _ hnext), h.queue, fun terminal hmem => ?_⟩
    rcases mem_append.mp hmem with hmem | hmem
    · exact h.published terminal hmem
    · rw [mem_singleton.mp hmem]
      exact hout

end Accounted

/-! ## The parallel executor -/

/-- The order in which `flush_local_counts` adds the counters. -/
def terminalKinds : List TerminalExecutionKind := [.full, .blocked, .error, .depthLimit, .threadEventLimit]

def resolveProgressCounterFlushInterval (requested : ℕ) : ℕ := if requested = 0 then 1024 else requested

/-- The pool with the `WorkerState` of each worker and the shared counters. -/
structure CountingPool (n : ℕ) (V : Type) where
  pool : Pool.ExplorerPool n V
  tally : SharedTally.Tally n TerminalExecutionKind

namespace CountingPool
open SharedTally (Worker Fold Balanced)

section Steps
variable {n : ℕ} [LinearOrder V] (config : DporConfig V) (threadIds : List ℕ)
  (observer : List (Terminal V) → TerminalExecutionAction) (maxQueuedTasks : ℕ) (onProgress : Bool)
  (progressCounterFlushInterval : ℕ)

def initial : CountingPool n V := ⟨Pool.initial rootTask, SharedTally.Tally.initial⟩

/-- `increment_local_terminal_counts`; with a progress observer it starts a flush when enough is pending. -/
def incrementLocalTerminalCounts (tally : SharedTally.Tally n TerminalExecutionKind) (w : Fin n)
    (terminal : Terminal V) : SharedTally.Tally n TerminalExecutionKind :=
  let counted := tally.record w terminal.kind (computeMaxThreadEventDepth terminal.graph threadIds)
  if onProgress = true ∧
      resolveProgressCounterFlushInterval progressCounterFlushInterval ≤ (counted.workers w).pending then
    counted.setPhase w (.adding terminalKinds)
  else counted

/-- The tallies after a step of the pool that published this. -/
def counted (tally : SharedTally.Tally n TerminalExecutionKind) (w : Fin n) :
    Option (Terminal V) → SharedTally.Tally n TerminalExecutionKind
  | none => tally
  | some terminal => incrementLocalTerminalCounts threadIds onProgress progressCounterFlushInterval tally w terminal

/-- One step of worker `w`. A flush is the worker's own business, so it does nothing else meanwhile. -/
inductive Step (w : Fin n) : CountingPool n V → CountingPool n V → Prop where
  | move (s) (pool : Pool.ExplorerPool n V) (out : Option (Terminal V)) : (s.tally.workers w).phase = .idle →
      Pool.Step (exploration config threadIds observer n) maxQueuedTasks w s.pool pool → pool.pc w ≠ .exited →
      pool.published = s.pool.published ++ out.toList →
      Step w s ⟨pool, counted threadIds onProgress progressCounterFlushInterval s.tally w out⟩
  /-- `publish_progress_snapshot` out of `maybe_report_progress` -/
  | report (s) (state : ProcessState V) : onProgress = true → (s.tally.workers w).phase = .idle →
      s.pool.pc w = .processing state → Step w s ⟨s.pool, s.tally.setPhase w (.adding terminalKinds)⟩
  /-- `flush_worker_state` before the worker returns -/
  | leave (s) : (s.tally.workers w).phase = .idle → s.pool.pc w = .leaving →
      (s.pool.stopRequested || s.pool.searchComplete) = true →
      Step w s ⟨s.pool, s.tally.setPhase w (.adding terminalKinds)⟩
  | fold (s) (tally : SharedTally.Tally n TerminalExecutionKind) : Fold w s.tally tally → Step w s ⟨s.pool, tally⟩
  | clear (s) : (s.tally.workers w).phase = .merged → s.pool.pc w ≠ .leaving → Step w s ⟨s.pool, s.tally.clear w⟩
  | exit (s) (pool : Pool.ExplorerPool n V) : (s.tally.workers w).phase = .merged →
      Pool.Step (exploration config threadIds observer n) maxQueuedTasks w s.pool pool → pool.pc w = .exited →
      Step w s ⟨pool, s.tally.clear w⟩

def Steps : CountingPool n V → CountingPool n V → Prop :=
  Relation.ReflTransGen fun s t =>
    ∃ w, Step config threadIds observer maxQueuedTasks onProgress progressCounterFlushInterval w s t

/-- The result `run()` builds once the workers have joined. -/
def result (s : CountingPool n V) : VerifyResult where
  kind := if s.pool.stopRequested then .stopped else .allExplored
  executionsExplored := s.tally.counts .full + s.tally.counts .blocked + s.tally.counts .error +
    s.tally.counts .depthLimit + s.tally.counts .threadEventLimit
  fullExecutionsExplored := s.tally.counts .full
  blockedExecutionsExplored := s.tally.counts .blocked
  errorExecutionsExplored := s.tally.counts .error
  depthLimitExecutionsExplored := s.tally.counts .depthLimit
  threadEventLimitExecutionsExplored := s.tally.counts .threadEventLimit
  maxThreadEventDepthReached := s.tally.deepest

end Steps

/-! ## Nothing is lost -/

section Inv
variable {n : ℕ} [LinearOrder V] {config : DporConfig V} {threadIds : List ℕ}
  {observer : List (Terminal V) → TerminalExecutionAction} {maxQueuedTasks : ℕ} {onProgress : Bool}
  {progressCounterFlushInterval : ℕ}

variable (config threadIds) in
structure Inv (s : CountingPool n V) : Prop where
  accounted : PoolAccounted config threadIds s.pool
  balanced : Balanced s.tally (s.pool.published.map (Terminal.tallied threadIds))
  exited : ∀ v, s.pool.pc v = .exited → s.tally.workers v = Worker.fresh

theorem inv_initial (hthreads : ThreadsOf config.program threadIds) :
    Inv config threadIds (initial : CountingPool n V) where
  accounted := poolAccounted_initial hthreads
  balanced := SharedTally.balanced_initial
  exited := fun _ _ => rfl

theorem mem_terminalKinds (kind : TerminalExecutionKind) : kind ∈ terminalKinds := by
  cases kind <;> decide

theorem nodup_terminalKinds : terminalKinds.Nodup := by decide

omit [LinearOrder V] in
theorem balanced_counted {s : CountingPool n V} {pool : Pool.ExplorerPool n V} {w : Fin n}
    (h : Balanced s.tally (s.pool.published.map (Terminal.tallied threadIds)))
    (hidle : (s.tally.workers w).phase = .idle) {out : Option (Terminal V)}
    (hpublished : pool.published = s.pool.published ++ out.toList) :
    Balanced (counted threadIds onProgress progressCounterFlushInterval s.tally w out)
      (pool.published.map (Terminal.tallied threadIds)) := by
  rw [hpublished, map_append]
  cases out with
  | none =>
    rw [Option.toList_none, map_nil, append_nil]
    exact h
  | some terminal =>
    have hrecorded := h.record w hidle terminal.kind (computeMaxThreadEventDepth terminal.graph threadIds)
    unfold counted incrementLocalTerminalCounts
    dsimp only
    split
    · refine hrecorded.begin w ?_ mem_terminalKinds nodup_terminalKinds
      show (update s.tally.workers w _ w).phase = _
      rw [update_self]
      exact hidle
    · exact hrecorded

omit [LinearOrder V] in
theorem counted_other (tally : SharedTally.Tally n TerminalExecutionKind) {w v : Fin n} (hv : v ≠ w)
    (out : Option (Terminal V)) :
    (counted threadIds onProgress progressCounterFlushInterval tally w out).workers v = tally.workers v := by
  cases out with
  | none => rfl
  | some terminal =>
    unfold counted incrementLocalTerminalCounts
    dsimp only
    split
    · exact (update_of_ne hv _ _).trans (update_of_ne hv _ _)
    · exact update_of_ne hv _ _

theorem fold_other {tally tally' : SharedTally.Tally n TerminalExecutionKind} {w v : Fin n} (hv : v ≠ w)
    (h : Fold w tally tally') : tally'.workers v = tally.workers v := by
  cases h <;> exact update_of_ne hv _ _

theorem fold_flushing {tally tally' : SharedTally.Tally n TerminalExecutionKind} {w : Fin n}
    (h : Fold w tally tally') : tally.workers w ≠ Worker.fresh := by
  intro hfresh
  have hidle : (tally.workers w).phase = .idle := by
    rw [hfresh]
    rfl
  cases h <;> simp_all

theorem inv_step {s t : CountingPool n V} {w : Fin n} (h : Inv config threadIds s)
    (hstep : Step config threadIds observer maxQueuedTasks onProgress progressCounterFlushInterval w s t) :
    Inv config threadIds t := by
  cases hstep with
  | move pool out hidle hpool hstays hpublished =>
    refine ⟨h.accounted.step hpool, balanced_counted h.balanced hidle hpublished,
      fun v hexited => ?_⟩
    by_cases hv : v = w
    · exact absurd (hv ▸ hexited) hstays
    · rw [counted_other _ hv]
      exact h.exited v (hpool.others_eq hv (nofun) hexited)
  | report _ _ hidle hpc | leave hidle hpc =>
    refine ⟨h.accounted, h.balanced.begin w hidle mem_terminalKinds nodup_terminalKinds,
      fun v hexited => ?_⟩
    by_cases hv : v = w
    · rw [hv, hpc] at hexited
      cases hexited
    · exact (update_of_ne hv _ _).trans (h.exited v hexited)
  | fold tally hfold =>
    refine ⟨h.accounted, h.balanced.fold w hfold, fun v hexited => ?_⟩
    by_cases hv : v = w
    · exact absurd (h.exited w (hv ▸ hexited)) (fold_flushing hfold)
    · rw [fold_other hv hfold]
      exact h.exited v hexited
  | clear hmerged _ =>
    refine ⟨h.accounted, h.balanced.clear w hmerged, fun v hexited => ?_⟩
    by_cases hv : v = w
    · rw [hv]
      exact update_self _ _ _
    · exact (update_of_ne hv _ _).trans (h.exited v hexited)
  | exit pool hmerged hpool hgone =>
    have hquiet : pool.published = s.pool.published := hpool.published_of_exited hgone
    refine ⟨h.accounted.step hpool, ?_, fun v hexited => ?_⟩
    · rw [hquiet]
      exact h.balanced.clear w hmerged
    · by_cases hv : v = w
      · rw [hv]
        exact update_self _ _ _
      · exact (update_of_ne hv _ _).trans (h.exited v (hpool.others_eq hv (nofun) hexited))

theorem inv_of_steps (hthreads : ThreadsOf config.program threadIds) (s : CountingPool n V)
    (h : Steps config threadIds observer maxQueuedTasks onProgress progressCounterFlushInterval initial s) :
    Inv config threadIds s := by
  induction h with
  | refl => exact inv_initial hthreads
  | tail _ hstep ih =>
    obtain ⟨w, hstep⟩ := hstep
    exact inv_step ih hstep

end Inv

theorem tallies_of_exited [LinearOrder V] {config : DporConfig V} {threadIds : List ℕ} {n : ℕ}
    (s : CountingPool n V) (h : Inv config threadIds s) (hexited : ∀ v, s.pool.pc v = .exited) :
    Tallies threadIds s.result s.pool.published := by
  obtain ⟨hcounts, hdeepest⟩ := h.balanced.settled fun v => h.exited v (hexited v)
  refine ⟨fun kind => ?_, rfl, hdeepest⟩
  rw [← hcounts kind]
  cases kind <;> rfl

end CountingPool

/-- The counters of every result are exact: of `verify`, whatever its observers do, and of `verify_parallel`,
for any number of workers, any schedule of them and any flush interval. -/
theorem result_counters_exact [LinearOrder V] (config : DporConfig V) (threadIds : List ℕ)
    (hids : sortedThreadIds config.program = .ok threadIds) :
    (∀ code : UserCode V, (∀ round, code.queries round = Queries.ofConfig config threadIds) →
      ∀ exit, SequentialRun.Exits code threadIds config.maxDepth
        (SequentialRun.start (WorkerGraph.ofGraph ExplorationGraph.empty) 0 .visit VerifyResult.initial) exit →
      CountsExact exit.result exit.terminals) ∧
    ∀ (n : ℕ) (observer : List (Terminal V) → TerminalExecutionAction) (maxQueuedTasks : ℕ) (onProgress : Bool)
      (progressCounterFlushInterval : ℕ) (s : CountingPool n V),
      CountingPool.Steps config threadIds observer maxQueuedTasks onProgress progressCounterFlushInterval
        CountingPool.initial s →
      (∀ v, s.pool.pc v = .exited) → CountsExact s.result s.pool.published := by
  have hthreads := threadsOf_sorted config.program threadIds hids
  refine ⟨fun code hqueries exit hexits => ?_, fun n observer maxQueuedTasks onProgress interval s hsteps hexited => ?_⟩
  · obtain ⟨rounds, hrun⟩ := hexits
    exact runLoop_tallies code hqueries hthreads rounds _ exit ((taskAccounted_root hthreads).start _)
      (Tallies.initial threadIds) (fun _ hmem => absurd hmem List.not_mem_nil) hrun
  · have hinv := CountingPool.inv_of_steps hthreads s hsteps
    exact (CountingPool.tallies_of_exited s hinv hexited).exact hthreads _ _ hinv.accounted.published

theorem idle_continues (published : List (Terminal ℕ)) :
    (exploration ⟨idleProgram, 10, 0, .async⟩ [0] (fun _ => .continue) 1).moves false published
      (.exploring idleStart false)
      (.work (some ⟨ExplorationGraph.empty, .full⟩) (.exploring idleOutcome.explorer false)) :=
  ExploreMoves.round idleStart false (plainAnswers false) (cons_ne_nil _ _)
    (plainAnswers_allowed 1 false false) rfl

/-- Runs of a single worker with a progress observer, on the program that is done at once. -/
def IdleSteps : CountingPool 1 ℕ → CountingPool 1 ℕ → Prop :=
  CountingPool.Steps ⟨idleProgram, 10, 0, .async⟩ [0] (fun _ => .continue) 8 true 1

theorem IdleSteps.then {s t u : CountingPool 1 ℕ} (h : IdleSteps s t)
    (hstep : CountingPool.Step ⟨idleProgram, 10, 0, .async⟩ [0] (fun _ => .continue) 8 true 1 0 t u) : IdleSteps s u :=
  ReflTransGen.tail h ⟨0, hstep⟩

/-- The worker takes the root task and publishes its terminal, which starts a flush; it finishes the task,
completes the search, and flushes again before it leaves. -/
theorem idle_run_counted : ∃ s : CountingPool 1 ℕ, IdleSteps CountingPool.initial s ∧
    (∀ v, s.pool.pc v = .exited) ∧ s.pool.published.length = 1 := by
  have hstart : IdleSteps CountingPool.initial CountingPool.initial := ReflTransGen.refl
  have htaken := ((hstart.then (.move _ _ none rfl (.lock _ rfl rfl) nofun rfl)).then
    (.move _ _ none rfl (.checkReady _ rfl rfl) nofun rfl)).then
    (.move _ _ none rfl (.take _ rootTask [] rfl rfl rfl) nofun rfl)
  have hentered := htaken.then (.move _ _ none rfl (.work _ _ _ none rfl (.enter rootTask)) nofun rfl)
  have hpublished := hentered.then (.move _ _ (some ⟨ExplorationGraph.empty, .full⟩) rfl
    (.work _ _ _ _ rfl (idle_continues _)) nofun rfl)
  have hadded := ((((hpublished.then (.fold _ _ (.add _ _ _ rfl))).then (.fold _ _ (.add _ _ _ rfl))).then
    (.fold _ _ (.add _ _ _ rfl))).then (.fold _ _ (.add _ _ _ rfl))).then (.fold _ _ (.add _ _ _ rfl))
  have hcleared := (hadded.then (.fold _ _ (.shallow _ rfl rfl))).then (.clear _ rfl nofun)
  have hfinished := ((hcleared.then (.move _ _ none rfl (.done _ _ rfl (.returned _ false rfl)) nofun rfl)).then
    (.move _ _ none rfl (.finishLock _ rfl rfl) nofun rfl)).then
    (.move _ _ none rfl (.finishComplete _ rfl rfl rfl rfl) nofun rfl)
  have hleaving := ((hfinished.then (.move _ _ none rfl (.completeNotify _ rfl) nofun rfl)).then
    (.move _ _ none rfl (.lock _ rfl rfl) nofun rfl)).then
    (.move _ _ none rfl (.checkReady _ rfl rfl) nofun rfl)
  have hflushed := (((((hleaving.then (.leave _ rfl rfl rfl)).then (.fold _ _ (.add _ _ _ rfl))).then
    (.fold _ _ (.add _ _ _ rfl))).then (.fold _ _ (.add _ _ _ rfl))).then (.fold _ _ (.add _ _ _ rfl))).then
    (.fold _ _ (.add _ _ _ rfl))
  have hexited := (hflushed.then (.fold _ _ (.shallow _ rfl rfl))).then (.exit _ _ rfl (.exit _ rfl rfl) rfl)
  exact ⟨_, hexited, Fin.forall_fin_one.mpr rfl, rfl⟩

/-- One worker with a progress observer on the idle program, and `verify` on the ping program. -/
theorem idle_counters_exact :
    (∃ exit, Verifies pingConfig (fun _ => .continue) exit ∧ CountsExact exit.result exit.terminals) ∧
    ∃ s : CountingPool 1 ℕ, IdleSteps CountingPool.initial s ∧ s.pool.published.length = 1 ∧
      CountsExact s.result s.pool.published := by
  constructor
  · obtain ⟨exit, ⟨threadIds, hids, hexits⟩, -⟩ :=
      Verifies.exists_unique (fun _ => .continue) (show sortedThreadIds pingConfig.program = .ok [0, 1] from rfl)
    exact ⟨exit, ⟨threadIds, hids, hexits⟩, (result_counters_exact pingConfig threadIds hids).1 _ (fun _ => rfl) exit hexits⟩
  · obtain ⟨s, hsteps, hexited, hone⟩ := idle_run_counted
    exact ⟨s, hsteps, hone, (result_counters_exact ⟨idleProgram, 10, 0, .async⟩ [0] rfl).2 1 _ 8 true 1 s hsteps hexited⟩

end MustDpor

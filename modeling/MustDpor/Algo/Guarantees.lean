import MustDpor.Algo.Rounds

/-! # What the explorers of a search guarantee

Every graph whose next event is computed and every published graph is accepted and replays the program;
the kinds of terminals are true; and a well-behaved program raises nothing. -/

namespace MustDpor
set_option autoImplicit false

variable {V : Type} [LinearOrder V]

/-- The explorers of one search, under executors that answer as they like: the one on the empty graph, what
a round leaves of one, and those started on a child that a round handed on. -/
inductive Explores (config : DporConfig V) (threadIds : List ℕ) : Explorer V → Prop where
  | start : Explores config threadIds (Explorer.start (WorkerGraph.ofGraph ExplorationGraph.empty) 0 .visit)
  | round (explorer : Explorer V) (answers : ExecutorAnswers V) : Explores config threadIds explorer →
      (explorer.iterate (Queries.ofConfig config threadIds) threadIds config.maxDepth answers).raised = none →
      Explores config threadIds
        (explorer.iterate (Queries.ofConfig config threadIds) threadIds config.maxDepth answers).explorer
  | task (explorer : Explorer V) (answers : ExecutorAnswers V) (task : ExplorationTask V) :
      Explores config threadIds explorer →
      (explorer.iterate (Queries.ofConfig config threadIds) threadIds config.maxDepth answers).raised = none →
      (explorer.iterate (Queries.ofConfig config threadIds) threadIds config.maxDepth answers).spawned = some task →
      Explores config threadIds (Explorer.start task.graph task.dporTreeDepth task.mode)

section Guarantees
variable {config : DporConfig V} {tids : List ℕ}

theorem taskAccounted_root (hthreads : ThreadsOf config.program tids) :
    TaskAccounted config tids ⟨WorkerGraph.ofGraph ExplorationGraph.empty, 0, .visit⟩ :=
  ⟨WorkerGraph.Built.empty.sound, visit_accounted hthreads (explored_empty config)⟩

theorem Explores.surveyed (hthreads : ThreadsOf config.program tids) (explorer : Explorer V)
    (h : Explores config tids explorer) : Surveyed config tids explorer := by
  induction h with
  | start => exact (taskAccounted_root hthreads).start _
  | round explorer answers _ hraised ih => exact (ih.iterate explorer answers).left hraised
  | task explorer answers task _ hraised hspawned ih =>
    exact ((ih.iterate explorer answers).spawned hraised task hspawned).start task

/-! ## Runs of the sequential executor -/

section Runs
variable (observer : List (Terminal V) → TerminalExecutionAction)

theorem answers_never_throw (run : SequentialRun V) (e : DporError) :
    ¬ (SequentialRun.answers (UserCode.ofConfig config tids observer) run).Throws e := by
  rintro (hprogress | ⟨terminal, hobserver⟩)
  · cases hprogress
  · cases hobserver

theorem Explores.run {run next : SequentialRun V} (h : Explores config tids run.explorer)
    (hnext : SequentialRun.iterate (UserCode.ofConfig config tids observer) tids config.maxDepth run =
      (next, none)) : Explores config tids next.explorer := by
  obtain ⟨rfl, hraised⟩ := Prod.mk.inj hnext
  exact h.round run.explorer _ hraised

theorem runLoop_accounted (hthreads : ThreadsOf config.program tids) (rounds : ℕ) (run : SequentialRun V)
    (exit : Exit V) (h : Explores config tids run.explorer)
    (hpublished : ∀ terminal ∈ run.terminals, Published config tids terminal)
    (hrun : SequentialRun.runLoop (UserCode.ofConfig config tids observer) tids config.maxDepth rounds run =
      some exit) :
    (∀ terminal ∈ exit.terminals, Published config tids terminal) ∧
      ∀ raised, exit.raised = some raised → Permitted config tids raised := by
  induction rounds generalizing run with
  | zero => cases hrun
  | succ rounds ih =>
    unfold SequentialRun.runLoop at hrun
    split at hrun
    · cases hrun
      exact ⟨hpublished, fun raised h => absurd h.symm (Option.some_ne_none raised)⟩
    · have hround := (h.surveyed hthreads run.explorer).iterate run.explorer
        (SequentialRun.answers (UserCode.ofConfig config tids observer) run)
      have hterminals : ∀ terminal ∈ run.terminals ++ (run.explorer.iterate (Queries.ofConfig config tids)
          tids config.maxDepth (SequentialRun.answers (UserCode.ofConfig config tids observer)
            run)).published.toList, Published config tids terminal := by
        intro terminal hmem
        rcases List.mem_append.mp hmem with hmem | hmem
        · exact hpublished terminal hmem
        · exact hround.published terminal (Option.mem_toList.mp hmem)
      cases hiter : SequentialRun.iterate (UserCode.ofConfig config tids observer) tids config.maxDepth
        run with
      | mk next raised =>
        obtain ⟨hnext, hraised⟩ := Prod.mk.inj hiter
        rw [hiter] at hrun
        cases raised with
        | some raised =>
          cases hrun
          refine ⟨by rw [← hnext]; exact hterminals, fun other h => ?_⟩
          cases h
          rcases hround.raised raised hraised with hpermitted | ⟨e, -, hthrows⟩
          · exact hpermitted
          · exact absurd hthrows (answers_never_throw observer run e)
        | none =>
          refine ih next (Explores.run observer h hiter) ?_ hrun
          rw [← hnext]
          exact hterminals

theorem Verifies.accounted (hthreads : sortedThreadIds config.program = .ok tids) (exit : Exit V)
    (h : Verifies config observer exit) :
    (∀ terminal ∈ exit.terminals, Published config tids terminal) ∧
      ∀ raised, exit.raised = some raised → Permitted config tids raised := by
  obtain ⟨ids, htids, rounds, hrun⟩ := h
  obtain rfl : ids = tids := Except.ok.inj (htids.symm.trans hthreads)
  exact runLoop_accounted observer (threadsOf_sorted config.program ids hthreads) rounds _ exit .start
    (fun _ h => absurd h List.not_mem_nil) hrun

theorem Verifies.follows (hthreads : sortedThreadIds config.program = .ok tids) (exit : Exit V)
    (h : Verifies config observer exit) :
    Follows observer (SequentialRun.start (WorkerGraph.ofGraph ExplorationGraph.empty) 0 .visit VerifyResult.initial)
      (visit (Queries.ofConfig config tids) tids config.maxDepth ExplorationGraph.empty 0).run exit := by
  obtain ⟨found, hexits, hfollows⟩ := exits_follows config tids observer
    (SequentialRun.start (WorkerGraph.ofGraph ExplorationGraph.empty) 0 .visit VerifyResult.initial) _ rfl
    (runPending_start config tids _ WorkerGraph.Built.empty.sound 0 .visit VerifyResult.initial)
  obtain ⟨ids, htids, hexits'⟩ := h
  obtain rfl : ids = tids := Except.ok.inj (htids.symm.trans hthreads)
  rw [Exits.unique _ ids config.maxDepth _ found exit hexits hexits']
  exact hfollows

theorem Verifies.publishes_all (hcontinue : ∀ terminals, observer terminals = .continue)
    (hthreads : sortedThreadIds config.program = .ok tids) (exit : Exit V) (h : Verifies config observer exit) :
    exit.terminals =
        (visit (Queries.ofConfig config tids) tids config.maxDepth ExplorationGraph.empty 0).run.answers ∧
      exit.raised =
        (visit (Queries.ofConfig config tids) tids config.maxDepth ExplorationGraph.empty 0).run.raised := by
  have hfollows := Verifies.follows observer hthreads exit h
  have hobserved := observed_of_continues observer [] (visit (Queries.ofConfig config tids) tids
    config.maxDepth ExplorationGraph.empty 0).run.answers fun k _ _ => hcontinue _
  have hterminals := hfollows.terminals
  have hraised := hfollows.raised
  rw [show (SequentialRun.start (WorkerGraph.ofGraph (ExplorationGraph.empty : ExplorationGraph V)) 0 .visit
    VerifyResult.initial).terminals = [] from rfl, hobserved] at hterminals hraised
  exact ⟨hterminals, hraised⟩

theorem Verifies.exists_unique (hthreads : sortedThreadIds config.program = .ok tids) :
    ∃ exit, Verifies config observer exit ∧ ∀ exit', Verifies config observer exit' → exit' = exit := by
  obtain ⟨exit, hexits, -⟩ := exits_follows config tids observer
    (SequentialRun.start (WorkerGraph.ofGraph ExplorationGraph.empty) 0 .visit VerifyResult.initial) _ rfl
    (runPending_start config tids _ WorkerGraph.Built.empty.sound 0 .visit VerifyResult.initial)
  refine ⟨exit, ⟨tids, hthreads, hexits⟩, fun exit' h => ?_⟩
  obtain ⟨ids, htids, hexits'⟩ := h
  obtain rfl : ids = tids := Except.ok.inj (htids.symm.trans hthreads)
  exact Exits.unique _ ids config.maxDepth _ exit exit' hexits hexits'

end Runs

end Guarantees

/-! ## The guarantees -/

/-- Every graph that an explorer computes a next event of, every graph it publishes, and every graph that
`verify` reports passes the check from scratch and replays the program. -/
theorem explored_graphs_accepted_and_replayed (config : DporConfig V) (threadIds : List ℕ)
    (hthreads : sortedThreadIds config.program = .ok threadIds) :
    (∀ explorer, Explores config threadIds explorer → ∀ answers,
      (∀ g, explorer.nextEventGraph (Queries.ofConfig config threadIds) config.maxDepth answers = some g →
        g.graph.Accepted config.communicationModel ∧ Replays config.program g.graph.execution) ∧
      ∀ terminal, (explorer.iterate (Queries.ofConfig config threadIds) threadIds config.maxDepth
          answers).published = some terminal →
        terminal.graph.graph.Accepted config.communicationModel ∧
          Replays config.program terminal.graph.graph.execution) ∧
    ∀ observer exit, Verifies config observer exit → ∀ terminal ∈ exit.terminals,
      terminal.graph.graph.Accepted config.communicationModel ∧
        Replays config.program terminal.graph.graph.execution := by
  have haccepted (terminal : Terminal V) (h : Published config threadIds terminal) :
      terminal.graph.graph.Accepted config.communicationModel ∧
        Replays config.program terminal.graph.graph.execution :=
    ⟨(terminal.graph.graph.accepted_iff (h.tabulated.indexOrdered _) _).mpr h.consistent, h.replays⟩
  refine ⟨fun explorer h answers => ?_, fun observer exit h terminal hterminal =>
    haccepted terminal ((Verifies.accounted observer hthreads exit h).1 terminal hterminal)⟩
  have hsurveyed := h.surveyed (threadsOf_sorted config.program threadIds hthreads) explorer
  refine ⟨fun g hg => ?_, fun terminal hterminal =>
    haccepted terminal ((hsurveyed.iterate explorer answers).published terminal hterminal)⟩
  obtain ⟨depth, -, hexplored⟩ := hsurveyed.nextEventGraph explorer answers g hg
  exact ⟨(g.graph.accepted_iff (hexplored.tabulated.indexOrdered g) _).mpr hexplored.consistent, hexplored.replays⟩

def pingConfig : DporConfig ℕ := ⟨pingProgram, 10, 0, .fifoP2P⟩

/-- The published graph has the send and the receive that reads it. -/
theorem ping_graph_accepted_and_replayed :
    ∃ exit terminal, Verifies pingConfig (fun _ => .continue) exit ∧ terminal ∈ exit.terminals ∧
      terminal.graph.graph.readsFrom.find 1 = some (.send 0) ∧
      terminal.graph.graph.Accepted .fifoP2P ∧ Replays pingProgram terminal.graph.graph.execution := by
  have hthreads : sortedThreadIds pingConfig.program = .ok [0, 1] := rfl
  obtain ⟨exit, hexit, -⟩ := Verifies.exists_unique (fun _ => .continue) hthreads
  have hpublished : ∃ terminal ∈ (visit (Queries.ofConfig pingConfig [0, 1]) [0, 1] pingConfig.maxDepth
      ExplorationGraph.empty 0).run.answers, terminal.graph.graph.readsFrom.find 1 = some (.send 0) := by
    decide +kernel
  rw [← (Verifies.publishes_all _ (fun _ => rfl) hthreads exit hexit).1] at hpublished
  obtain ⟨terminal, hterminal, hread⟩ := hpublished
  exact ⟨exit, terminal, hexit, hterminal, hread,
    (explored_graphs_accepted_and_replayed pingConfig [0, 1] hthreads).2 _ exit hexit terminal hterminal⟩

/-- The kind of every terminal that `verify` reports is true of its graph. -/
theorem terminal_kinds_truthful (config : DporConfig V) (threadIds : List ℕ)
    (hthreads : sortedThreadIds config.program = .ok threadIds)
    (observer : List (Terminal V) → TerminalExecutionAction) (exit : Exit V) (h : Verifies config observer exit)
    (terminal : Terminal V) (hterminal : terminal ∈ exit.terminals) :
    KindHolds config threadIds terminal.graph terminal.kind :=
  ((Verifies.accounted observer hthreads exit h).1 terminal hterminal).kind

theorem ping_kinds_truthful :
    ∃ exit, Verifies pingConfig (fun _ => .continue) exit ∧ exit.terminals.length = 1 ∧
      ∀ terminal ∈ exit.terminals, KindHolds pingConfig [0, 1] terminal.graph terminal.kind := by
  have hthreads : sortedThreadIds pingConfig.program = .ok [0, 1] := rfl
  obtain ⟨exit, hexit, -⟩ := Verifies.exists_unique (fun _ => .continue) hthreads
  refine ⟨exit, hexit, ?_, terminal_kinds_truthful pingConfig [0, 1] hthreads _ exit hexit⟩
  rw [(Verifies.publishes_all _ (fun _ => rfl) hthreads exit hexit).1]
  decide +kernel

/-- The program has small thread ids and never returns a Block, and no thread can run out of indices. -/
structure WellBehaved (config : DporConfig V) (threadIds : List ℕ) : Prop where
  threads : sortedThreadIds config.program = .ok threadIds
  ids : ∀ tid ∈ threadIds, tid ≤ kMaxThreadId
  depth : config.maxDepth < 2 ^ 32
  noBlock : ∀ tid threadFn trace step, config.program.threads.atThread tid = .ok threadFn →
    threadFn trace step ≠ some .block

section WellBehaved
variable {config : DporConfig V} {threadIds : List ℕ} (h : WellBehaved config threadIds)
include h

omit [LinearOrder V] in
theorem WellBehaved.not_permitted (raised : Raised) : ¬ Permitted config threadIds raised := by
  intro hpermitted
  cases hpermitted with
  | blockLabel tid threadFn trace step hthread hreturns => exact h.noBlock tid threadFn trace step hthread hreturns
  | noIndex tid e htid hindex =>
    rcases hindex with hindex | hindex
    · exact absurd (h.ids tid htid) (Nat.not_le.mpr hindex)
    · have hdepth := h.depth
      unfold maxEventIndex at hindex
      omega

theorem WellBehaved.visit_raised_none {g : ExplorationGraph V} {depth : ℕ} (hg : Explored config g depth) :
    (visit (Queries.ofConfig config threadIds) threadIds config.maxDepth g depth).run.raised = none := by
  rw [Forest.run_raised_none_iff, List.eq_nil_iff_forall_not_mem]
  intro raised hmem
  exact h.not_permitted raised
    ((visit_charted config threadIds (threadsOf_sorted config.program threadIds h.threads) g depth hg).fails raised hmem)

end WellBehaved

/-- A program with small thread ids that never returns a Block raises nothing: `verify` returns, and no round
of an explorer throws unless an observer does. -/
theorem well_behaved_raises_nothing (config : DporConfig V) (threadIds : List ℕ)
    (hthreads : sortedThreadIds config.program = .ok threadIds) (hids : ∀ tid ∈ threadIds, tid ≤ kMaxThreadId)
    (hdepth : config.maxDepth < 2 ^ 32)
    (hblock : ∀ tid threadFn trace step, config.program.threads.atThread tid = .ok threadFn →
      threadFn trace step ≠ some .block) :
    (∀ observer, ∃ exit, Verifies config observer exit ∧ (∀ exit', Verifies config observer exit' → exit' = exit) ∧
      exit.raised = none) ∧
    ∀ explorer, Explores config threadIds explorer → ∀ answers : ExecutorAnswers V, (∀ e, ¬ answers.Throws e) →
      (explorer.iterate (Queries.ofConfig config threadIds) threadIds config.maxDepth answers).raised = none := by
  have hnone : ∀ raised, ¬ Permitted config threadIds raised :=
    WellBehaved.not_permitted ⟨hthreads, hids, hdepth, hblock⟩
  refine ⟨fun observer => ?_, fun explorer h answers hanswers => ?_⟩
  · obtain ⟨exit, hexit, hunique⟩ : ∃ exit, Verifies config observer exit ∧
        ∀ exit', Verifies config observer exit' → exit' = exit := Verifies.exists_unique observer hthreads
    refine ⟨exit, hexit, hunique, Option.eq_none_iff_forall_ne_some.mpr fun raised hraised => ?_⟩
    exact hnone raised ((Verifies.accounted observer hthreads exit hexit).2 raised hraised)
  · refine Option.eq_none_iff_forall_ne_some.mpr fun raised hraised => ?_
    have hround := (h.surveyed (threadsOf_sorted config.program threadIds hthreads) explorer).iterate explorer answers
    rcases hround.raised raised hraised with hpermitted | ⟨e, -, hthrows⟩
    · exact hnone raised hpermitted
    · exact hanswers e hthrows

theorem ping_wellBehaved : WellBehaved pingConfig [0, 1] := by
  refine ⟨rfl, by decide, by decide, fun tid threadFn trace step hthread => ?_⟩
  rcases tid with _ | _ | tid
  · cases hthread
    dsimp only
    split <;> simp
  · cases hthread
    dsimp only
    split <;> simp
  · cases hthread

theorem ping_raises_nothing :
    ∃ exit, Verifies pingConfig (fun _ => .continue) exit ∧ exit.raised = none := by
  obtain ⟨hthreads, hids, hdepth, hblock⟩ := ping_wellBehaved
  obtain ⟨exit, hexit, -, hraised⟩ :=
    (well_behaved_raises_nothing pingConfig [0, 1] hthreads hids hdepth hblock).1 fun _ => .continue
  exact ⟨exit, hexit, hraised⟩

end MustDpor

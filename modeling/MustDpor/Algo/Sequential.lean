import MustDpor.Algo.Refinement

/-! # Runs of the sequential executor

With total callbacks a run always ends. Until a stop it publishes the leaves of VISIT's forest in
their order, and an exception of VISIT is the exception it ends with; after a stop it only unwinds. -/

namespace MustDpor
set_option autoImplicit false
open List

variable {V : Type}

/-! ## What an observer lets through -/

/-- The answers an observer gets to see, and whether it stopped the search. -/
def observed (observer : List (Terminal V) → TerminalExecutionAction) :
    List (Terminal V) → List (Terminal V) → List (Terminal V) × Bool
  | _, [] => ([], false)
  | seen, terminal :: rest =>
    match observer (seen ++ [terminal]) with
    | .stop => ([terminal], true)
    | .continue =>
      let later := observed observer (seen ++ [terminal]) rest
      (terminal :: later.1, later.2)

theorem observed_of_continues (observer : List (Terminal V) → TerminalExecutionAction)
    (seen answers : List (Terminal V))
    (h : ∀ k, 0 < k → k ≤ answers.length → observer (seen ++ answers.take k) = .continue) :
    observed observer seen answers = (answers, false) := by
  induction answers generalizing seen with
  | nil => rfl
  | cons terminal rest ih =>
    have hfirst : observer (seen ++ [terminal]) = .continue := h 1 (by omega) (by simp)
    have hrest := ih (seen ++ [terminal]) (by
      intro k hk hle
      have hnext := h (k + 1) (by omega) (by simpa using hle)
      rw [take_succ_cons] at hnext
      rw [append_assoc]
      exact hnext)
    rw [observed, hfirst]
    simp [hrest]

theorem observed_isPrefix (observer : List (Terminal V) → TerminalExecutionAction) (seen answers : List (Terminal V)) :
    (observed observer seen answers).1.IsPrefix answers := by
  induction answers generalizing seen with
  | nil => exact nil_prefix
  | cons terminal rest ih =>
    unfold observed
    cases observer (seen ++ [terminal]) with
    | stop => exact (prefix_cons_inj terminal).mpr nil_prefix
    | «continue» => exact (prefix_cons_inj terminal).mpr (ih (seen ++ [terminal]))

theorem observed_of_stop (observer : List (Terminal V) → TerminalExecutionAction)
    (seen answers : List (Terminal V)) (k : ℕ) (hk : 0 < k) (hle : k ≤ answers.length)
    (hbefore : ∀ j, 0 < j → j < k → observer (seen ++ answers.take j) = .continue)
    (hstop : observer (seen ++ answers.take k) = .stop) :
    observed observer seen answers = (answers.take k, true) := by
  induction answers generalizing seen k with
  | nil => exact absurd hk (by simpa using hle)
  | cons terminal rest ih =>
    by_cases hone : k = 1
    · subst hone
      have hfirst : observer (seen ++ [terminal]) = .stop := by simpa using hstop
      rw [observed, hfirst]
      rfl
    · obtain ⟨j, rfl⟩ : ∃ j, k = j + 1 := ⟨k - 1, by omega⟩
      have hfirst : observer (seen ++ [terminal]) = .continue := by
        simpa using hbefore 1 (by omega) (by omega)
      rw [take_succ_cons] at hstop
      have hrest := ih (seen ++ [terminal]) j (by omega) (by simpa using hle) (by
        intro i hi hij
        have hnext := hbefore (i + 1) (by omega) (by omega)
        rw [take_succ_cons] at hnext
        rw [append_assoc]
        exact hnext) (by rw [append_assoc]; exact hstop)
      rw [observed, hfirst]
      simp [hrest]

/-! ## Nothing is handed on -/

theorem spawned_iterate [DecidableEq V] (queries : Queries V) (tids : List ℕ) (maxDepth : ℕ)
    (answers : ExecutorAnswers V) (henqueue : answers.enqueueAccepted = false) (explorer : Explorer V) :
    (explorer.iterate queries tids maxDepth answers).spawned = none := by
  unfold Explorer.iterate
  split
  · rfl
  · split
    · rfl
    · refine Option.eq_none_iff_forall_ne_some.mpr fun task htask => ?_
      obtain ⟨-, haccepted, -⟩ := handleFrame_spawned queries tids maxDepth answers _ _ htask
      exact absurd (henqueue.symm.trans haccepted) Bool.false_ne_true

/-! ## Unwinding after a stop -/

section Unwinding
variable [DecidableEq V] {queries : Queries V} {tids : List ℕ} {maxDepth : ℕ}

theorem unwindFrame_pending {graph : WorkerGraph V} {frame : Frame V} {rest : List (Frame V)}
    {calls : Search V} (hsound : graph.graph.Sound)
    (h : Pending queries tids maxDepth graph (frame :: rest) calls) :
    ∃ restored front later, unwindFrame graph frame = .silent restored .pop ∧ restored.graph.Sound ∧
      calls = front ++ later ∧ Waiting queries tids maxDepth restored rest later := by
  have hrolling : ∀ below, Rolls graph frame below → frame.kind ≠ .enter →
      unwindFrame graph frame = .silent below .pop := by
    intro below hrolls hkind
    unfold unwindFrame rollbackAndPopTopFrame
    rw [hrolls.rollback]
    split
    · contradiction
    · rfl
  cases h with
  | enter _ _ later hkind hwaiting =>
    refine ⟨graph, _, later, ?_, hsound, rfl, hwaiting⟩
    unfold unwindFrame
    rw [hkind]
  | revisits below _ _ sendId later hkind _ _ hrolls hwaiting =>
    exact ⟨below, _, later, hrolling below hrolls (by simp [hkind]), hrolls.sound,
      (Forest.append_assoc _ _ _).symm, hwaiting⟩
  | rolling _ _ _ hwaiting =>
    cases hwaiting with
    | frame _ below _ _ later hframe hrolls hwaiting =>
      refine ⟨below, _, later, hrolling below hrolls ?_, hrolls.sound, rfl, hwaiting⟩
      intro hkind
      unfold Frame.Rolling at hframe
      rw [hkind] at hframe
      exact hframe

def frameCount (contexts : List (Context V)) : ℕ := (contexts.map fun c => c.frames.length).sum

omit [DecidableEq V] in
theorem frameCount_unlessEmpty (ownedGraph : Option (WorkerGraph V)) (rest : List (Frame V))
    (below : List (Context V)) :
    frameCount (Context.unlessEmpty ⟨ownedGraph, rest⟩ ++ below) = rest.length + frameCount below := by
  unfold Context.unlessEmpty frameCount
  cases rest <;> simp

theorem unwinding_iterate (answers : ExecutorAnswers V) (hstop : answers.stopOnEntry = true)
    (explorer : Explorer V) (calls : Search V) (hne : explorer.contexts ≠ [])
    (h : PendingContexts queries tids maxDepth explorer.borrowedGraph explorer.contexts calls) :
    ∃ next later, explorer.iterate queries tids maxDepth answers = ⟨next, none, none, none⟩ ∧
      PendingContexts queries tids maxDepth next.borrowedGraph next.contexts later ∧
      frameCount next.contexts < frameCount explorer.contexts := by
  have hframe : ∀ graph frame, handleFrame queries tids maxDepth answers graph frame =
      unwindFrame graph frame := by
    intro graph frame
    unfold handleFrame
    rw [if_pos hstop]
  obtain ⟨borrowed, contexts⟩ := explorer
  cases h with
  | done => exact absurd rfl hne
  | borrowed frames _ hsound hpending =>
    cases frames with
    | nil => cases hpending
    | cons frame rest =>
      obtain ⟨restored, -, later, hunwind, hsound', -, hwaiting⟩ :=
        unwindFrame_pending hsound hpending
      refine ⟨⟨restored, Context.unlessEmpty ⟨none, rest⟩ ++ []⟩, later, ?_, ?_, ?_⟩
      · rw [iterate_borrowed, hframe, hunwind]
        rfl
      · rw [append_nil]
        exact pendingContexts_unlessEmpty_borrowed hsound' hwaiting
      · rw [frameCount_unlessEmpty]
        simp [frameCount]
  | owned graph frames below calls later hsound hpending hbelow =>
    cases frames with
    | nil => cases hpending
    | cons frame rest =>
      obtain ⟨restored, -, after, hunwind, hsound', -, hwaiting⟩ :=
        unwindFrame_pending hsound hpending
      refine ⟨⟨borrowed, Context.unlessEmpty ⟨some restored, rest⟩ ++ below⟩, after ++ later, ?_, ?_, ?_⟩
      · rw [iterate_owned, hframe, hunwind]
        rfl
      · exact pendingContexts_unlessEmpty hsound' hwaiting hbelow
      · rw [frameCount_unlessEmpty]
        simp only [frameCount, map_cons, sum_cons, length_cons]
        omega

end Unwinding
/-! ## Runs -/

theorem incrementTerminalCounts_kind (r : VerifyResult) (kind : TerminalExecutionKind) (depth : ℕ) :
    (r.incrementTerminalCounts kind depth).kind = r.kind := by
  cases kind <;> rfl

section Runs
variable [LinearOrder V] (config : DporConfig V) (tids : List ℕ)
  (observer : List (Terminal V) → TerminalExecutionAction)

variable {run : SequentialRun V}

theorem answers_calm (h : run.result.kind = .allExplored) :
    (SequentialRun.answers (UserCode.ofConfig config tids observer) run).Calm := by
  have hstopped : run.result.stopped = false := by simp [VerifyResult.stopped, h]
  exact ⟨hstopped, hstopped, rfl, hstopped, fun _ => hstopped, rfl, fun _ => rfl⟩

/-- The calls of VISIT a run still has to make. -/
def RunPending (run : SequentialRun V) (calls : Search V) : Prop :=
  PendingContexts (Queries.ofConfig config tids) tids config.maxDepth
    run.explorer.borrowedGraph run.explorer.contexts calls

theorem exits_of_stopped (run : SequentialRun V) (calls : Search V) (hstopped : run.result.kind = .stopped)
    (h : RunPending config tids run calls) :
    ∃ exit, SequentialRun.Exits (UserCode.ofConfig config tids observer) tids config.maxDepth
      run exit ∧ exit.terminals = run.terminals ∧ exit.raised = none ∧ exit.result = run.result := by
  induction hn : frameCount run.explorer.contexts using Nat.strong_induction_on generalizing run calls with
  | _ n ih =>
    by_cases hcontexts : run.explorer.contexts = []
    · refine ⟨⟨run.explorer.borrowedGraph, run.result, run.terminals, none⟩, ⟨1, ?_⟩, rfl, rfl, rfl⟩
      unfold SequentialRun.runLoop
      rw [if_pos (by simp [hcontexts])]
    · have hstop : (SequentialRun.answers (UserCode.ofConfig config tids observer) run).stopOnEntry =
          true := by
        simp [SequentialRun.answers, VerifyResult.stopped, hstopped]
      obtain ⟨next, later, hiter, hpending, hless⟩ :=
        unwinding_iterate _ hstop run.explorer calls hcontexts h
      subst hn
      obtain ⟨exit, ⟨rounds, hrun⟩, hterminals, hraised, hresult⟩ :=
        ih _ hless ⟨next, run.round + 1, run.result, run.terminals⟩ later hstopped hpending rfl
      refine ⟨exit, ⟨rounds + 1, ?_⟩, hterminals, hraised, hresult⟩
      unfold SequentialRun.runLoop
      rw [if_neg (by simpa using hcontexts)]
      have hnext : SequentialRun.iterate (UserCode.ofConfig config tids observer) tids
          config.maxDepth run = (⟨next, run.round + 1, run.result, run.terminals⟩, none) := by
        unfold SequentialRun.iterate
        have hqueries : (UserCode.ofConfig config tids observer).queries run.round =
          Queries.ofConfig config tids := rfl
        simp only [hqueries, hiter, SequentialRun.resultAfter, Option.toList_none, append_nil]
      rw [hnext]
      exact hrun

/-- What a run's exit says about the calls it had to make. -/
structure Follows (run : SequentialRun V) (trace : Forest.Trace (Terminal V) Raised) (exit : Exit V) :
    Prop where
  terminals : exit.terminals = run.terminals ++ (observed observer run.terminals trace.answers).1
  raised : exit.raised =
    if (observed observer run.terminals trace.answers).2 then none else trace.raised
  result : exit.result.kind =
    if (observed observer run.terminals trace.answers).2 then .stopped else .allExplored

variable {terminal : Terminal V} {exit : Exit V}

omit [LinearOrder V] in
theorem follows_cons_continue {next : SequentialRun V} {later : Forest.Trace (Terminal V) Raised}
    (haction : observer (run.terminals ++ [terminal]) = .continue)
    (hnext : next.terminals = run.terminals ++ [terminal]) (h : Follows observer next later exit) :
    Follows observer run ⟨terminal :: later.answers, later.raised⟩ exit := by
  have hobserved : observed observer run.terminals (terminal :: later.answers) =
      (terminal :: (observed observer next.terminals later.answers).1,
        (observed observer next.terminals later.answers).2) := by
    rw [observed, haction, hnext]
  refine ⟨?_, ?_, ?_⟩
  · rw [h.terminals, hobserved, hnext, append_assoc]
    rfl
  · rw [h.raised, hobserved]
  · rw [h.result, hobserved]

omit [LinearOrder V] in
theorem follows_cons_stop (later : Forest.Trace (Terminal V) Raised)
    (haction : observer (run.terminals ++ [terminal]) = .stop)
    (hterminals : exit.terminals = run.terminals ++ [terminal]) (hraised : exit.raised = none)
    (hresult : exit.result.kind = .stopped) :
    Follows observer run ⟨terminal :: later.answers, later.raised⟩ exit := by
  have hobserved : observed observer run.terminals (terminal :: later.answers) = ([terminal], true) := by
    rw [observed, haction]
  refine ⟨?_, ?_, ?_⟩
  · rw [hterminals, hobserved]
  · rw [hraised, hobserved]
    rfl
  · rw [hresult, hobserved]
    rfl

omit [LinearOrder V] in
theorem Exits.of_iterate [DecidableEq V] {code : UserCode V} {maxDepth : ℕ} {next : SequentialRun V}
    (hne : run.explorer.contexts ≠ []) (hiter : SequentialRun.iterate code tids maxDepth run = (next, none))
    (h : SequentialRun.Exits code tids maxDepth next exit) :
    SequentialRun.Exits code tids maxDepth run exit := by
  obtain ⟨rounds, hrun⟩ := h
  refine ⟨rounds + 1, ?_⟩
  rw [SequentialRun.runLoop, if_neg (by simpa using hne), hiter]
  exact hrun

theorem exits_follows_published {explorer : Explorer V}
    {after : Search V} (hresult : run.result.kind = .allExplored) (hne : run.explorer.contexts ≠ [])
    (hiter : SequentialRun.iterate (UserCode.ofConfig config tids observer) tids
      config.maxDepth run =
        (⟨explorer, run.round + 1, SequentialRun.resultAfter
          (UserCode.ofConfig config tids observer) tids run (some terminal),
          run.terminals ++ [terminal]⟩, none))
    (hpending : PendingContexts (Queries.ofConfig config tids) tids config.maxDepth
      explorer.borrowedGraph explorer.contexts after)
    (hlater : ∀ next : SequentialRun V, next.explorer = explorer → next.result.kind = .allExplored →
      ∃ exit, SequentialRun.Exits (UserCode.ofConfig config tids observer) tids
        config.maxDepth next exit ∧ Follows observer next after.run exit) :
    ∃ exit, SequentialRun.Exits (UserCode.ofConfig config tids observer) tids config.maxDepth
      run exit ∧ Follows observer run ⟨terminal :: after.run.answers, after.run.raised⟩ exit := by
  let next : SequentialRun V := ⟨explorer, run.round + 1, SequentialRun.resultAfter
    (UserCode.ofConfig config tids observer) tids run (some terminal),
    run.terminals ++ [terminal]⟩
  have hkind : next.result.kind =
      match observer (run.terminals ++ [terminal]) with
      | .stop => .stopped
      | .continue => .allExplored := by
    show (SequentialRun.resultAfter _ tids run (some terminal)).kind = _
    simp only [SequentialRun.resultAfter, UserCode.ofConfig]
    cases observer (run.terminals ++ [terminal]) with
    | stop => rfl
    | «continue» => rw [incrementTerminalCounts_kind, hresult]
  cases haction : observer (run.terminals ++ [terminal]) with
  | stop =>
    rw [haction] at hkind
    obtain ⟨exit, hexits, hterminals, hquiet, hexit⟩ :=
      exits_of_stopped config tids observer next after hkind hpending
    refine ⟨exit, Exits.of_iterate tids hne hiter hexits, ?_⟩
    exact follows_cons_stop observer after.run haction hterminals hquiet
      (by rw [hexit, hkind])
  | «continue» =>
    rw [haction] at hkind
    obtain ⟨exit, hexits, hfollows⟩ := hlater next rfl hkind
    exact ⟨exit, Exits.of_iterate tids hne hiter hexits,
      follows_cons_continue observer haction rfl hfollows⟩

theorem exits_follows (run : SequentialRun V) (calls : Search V)
    (hresult : run.result.kind = .allExplored) (h : RunPending config tids run calls) :
    ∃ exit, SequentialRun.Exits (UserCode.ofConfig config tids observer) tids config.maxDepth
      run exit ∧ Follows observer run calls.run exit := by
  induction hn : 3 * calls.size + rank 1 run.explorer.contexts using Nat.strong_induction_on
    generalizing run calls with
  | _ n ih =>
    subst hn
    by_cases hcontexts : run.explorer.contexts = []
    · unfold RunPending at h
      rw [hcontexts] at h
      cases h
      refine ⟨⟨run.explorer.borrowedGraph, run.result, run.terminals, none⟩, ⟨1, ?_⟩, ?_⟩
      · unfold SequentialRun.runLoop
        rw [if_pos (by simp [hcontexts])]
      · exact ⟨by simp [Forest.run, observed], rfl, hresult⟩
    · let code := UserCode.ofConfig config tids observer
      have hspawned := spawned_iterate (Queries.ofConfig config tids) tids config.maxDepth
        (SequentialRun.answers code run) rfl run.explorer
      have hiter : SequentialRun.iterate code tids config.maxDepth run =
          let outcome := run.explorer.iterate (Queries.ofConfig config tids) tids
            config.maxDepth (SequentialRun.answers code run)
          (⟨outcome.explorer, run.round + 1, SequentialRun.resultAfter code tids run outcome.published,
            run.terminals ++ outcome.published.toList⟩, outcome.raised) := rfl
      have hround := roundRefines_iterate Nat.one_pos (answers_calm config tids observer hresult) hcontexts h
      generalize run.explorer.iterate (Queries.ofConfig config tids) tids config.maxDepth
        (SequentialRun.answers code run) = outcome at hspawned hiter hround
      obtain ⟨explorer, published, spawned, raised⟩ := outcome
      cases hspawned
      rcases hround with ⟨raised, opened, later, hraised, hpublished, hopens⟩ |
        ⟨opened, after, hraised, _, hopens, hpending, hless⟩
      · cases hraised
        cases hpublished
        have htrace : calls.run = ⟨[], some raised⟩ := hopens.run_eq
        rw [htrace]
        refine ⟨⟨Explorer.unwind explorer.borrowedGraph explorer.contexts, run.result, run.terminals,
          some raised⟩, ⟨1, ?_⟩, by simp [observed], rfl, hresult⟩
        rw [SequentialRun.runLoop, if_neg (by simpa using hcontexts), hiter]
        simp [SequentialRun.resultAfter]
      · cases hraised
        have hsize := hopens.size_eq
        change calls.size = opened.length + (Forest.ofAnswer published ++ after).size at hsize
        rw [Forest.size_append, Forest.size_ofAnswer] at hsize
        change rank 1 explorer.contexts + 1 ≤ 3 * opened.length + rank 1 run.explorer.contexts at hless
        have hmeasure : 3 * after.size + rank 1 explorer.contexts <
            3 * calls.size + rank 1 run.explorer.contexts := by omega
        have htrace : calls.run = (Forest.ofAnswer published ++ after).run := hopens.run_eq
        have hlater : ∀ next : SequentialRun V, next.explorer = explorer →
            next.result.kind = .allExplored → ∃ exit, SequentialRun.Exits code tids
              config.maxDepth next exit ∧ Follows observer next after.run exit := by
          rintro next rfl hkind
          exact ih _ hmeasure next after hkind hpending rfl
        rw [htrace]
        cases published with
        | none =>
          have hiter' : SequentialRun.iterate code tids config.maxDepth run =
              (⟨explorer, run.round + 1, run.result, run.terminals⟩, none) := by
            rw [hiter]
            simp [SequentialRun.resultAfter]
          obtain ⟨exit, hexits, hfollows⟩ :=
            hlater ⟨explorer, run.round + 1, run.result, run.terminals⟩ rfl hresult
          exact ⟨exit, Exits.of_iterate tids hcontexts hiter' hexits,
            ⟨hfollows.terminals, hfollows.raised, hfollows.result⟩⟩
        | some terminal =>
          exact exits_follows_published config tids observer hresult
            hcontexts hiter hpending hlater

end Runs

/-! ## Refinement -/

theorem runLoop_mono [DecidableEq V] (code : UserCode V) (tids : List ℕ) (maxDepth rounds : ℕ)
    (run : SequentialRun V) (exit : Exit V)
    (h : SequentialRun.runLoop code tids maxDepth rounds run = some exit) (more : ℕ) :
    SequentialRun.runLoop code tids maxDepth (rounds + more) run = some exit := by
  induction rounds generalizing run with
  | zero => cases h
  | succ rounds ih =>
    rw [Nat.succ_add_eq_add_succ, Nat.add_succ]
    unfold SequentialRun.runLoop at h ⊢
    split
    · rename_i hempty
      rw [if_pos hempty] at h
      exact h
    · rename_i hempty
      rw [if_neg hempty] at h
      split at h
      · exact h
      · exact ih _ h

theorem Exits.unique [DecidableEq V] (code : UserCode V) (tids : List ℕ) (maxDepth : ℕ)
    (run : SequentialRun V) (exit exit' : Exit V) (h : SequentialRun.Exits code tids maxDepth run exit)
    (h' : SequentialRun.Exits code tids maxDepth run exit') : exit' = exit := by
  obtain ⟨rounds, hrun⟩ := h
  obtain ⟨rounds', hrun'⟩ := h'
  have h1 := runLoop_mono code tids maxDepth rounds run exit hrun rounds'
  have h2 := runLoop_mono code tids maxDepth rounds' run exit' hrun' rounds
  rw [Nat.add_comm, h1] at h2
  exact (Option.some.inj h2).symm

theorem runPending_start [LinearOrder V] (config : DporConfig V) (tids : List ℕ)
    (entry : WorkerGraph V) (hsound : entry.graph.Sound) (depth : ℕ) (mode : ExplorationTaskMode)
    (result : VerifyResult) :
    RunPending config tids (SequentialRun.start entry depth mode result)
      (visitTask (Queries.ofConfig config tids) tids config.maxDepth entry.graph depth mode) := by
  refine .borrowed _ _ hsound ?_
  rw [← Forest.append_nil (visitTask _ tids config.maxDepth entry.graph depth mode)]
  exact .enter entry (Frame.enter depth mode) [] .nil rfl (.bottom _)

/-- The iterative explorer under the sequential executor refines the recursive Algorithm 1: it always
returns, in exactly one way; it publishes what VISIT publishes; and a Stop at the `k`-th call leaves
exactly the first `k`. -/
theorem sequential_refines_visit [LinearOrder V] (config : DporConfig V) (threadIds : List ℕ)
    (observer : List (Terminal V) → TerminalExecutionAction) (entry : WorkerGraph V)
    (hbuilt : entry.Built) (depth : ℕ) (mode : ExplorationTaskMode) (result : VerifyResult)
    (hresult : result.kind = .allExplored) :
    let queries := Queries.ofConfig config threadIds
    let trace := (visitTask queries threadIds config.maxDepth entry.graph depth mode).run
    (∀ graph d, visit queries threadIds config.maxDepth graph d = .node ⟨graph, d, .visit⟩
      (visitBody queries threadIds config.maxDepth (visit queries threadIds config.maxDepth) graph d)
      .nil) ∧
    ∃ exit, SequentialRun.Exits (UserCode.ofConfig config threadIds observer) threadIds config.maxDepth
        (SequentialRun.start entry depth mode result) exit ∧
      (∀ exit', SequentialRun.Exits (UserCode.ofConfig config threadIds observer) threadIds
        config.maxDepth (SequentialRun.start entry depth mode result) exit' → exit' = exit) ∧
      ((∀ k, 0 < k → k ≤ trace.answers.length → observer (trace.answers.take k) = .continue) →
        exit.terminals = trace.answers ∧ exit.raised = trace.raised ∧
          exit.result.kind = .allExplored) ∧
      (∀ k, 0 < k → k ≤ trace.answers.length →
        (∀ j, 0 < j → j < k → observer (trace.answers.take j) = .continue) →
        observer (trace.answers.take k) = .stop →
        exit.terminals = trace.answers.take k ∧ exit.raised = none ∧ exit.result.kind = .stopped) := by
  intro queries trace
  refine ⟨visit_eq queries threadIds config.maxDepth, ?_⟩
  obtain ⟨exit, hexits, hterminals, hraised, hkind⟩ := exits_follows config threadIds observer
    (SequentialRun.start entry depth mode result) _ hresult
    (runPending_start config threadIds entry hbuilt.sound depth mode result)
  change exit.terminals = [] ++ (observed observer [] trace.answers).1 at hterminals
  change exit.raised = if (observed observer [] trace.answers).2 then _ else _ at hraised
  change exit.result.kind = if (observed observer [] trace.answers).2 then _ else _ at hkind
  refine ⟨exit, hexits, fun exit' h' => Exits.unique _ threadIds config.maxDepth _ exit exit' hexits h',
    fun hcontinue => ?_, fun k hk hle hbefore hstop => ?_⟩
  · rw [observed_of_continues observer [] trace.answers hcontinue] at hterminals hraised hkind
    exact ⟨hterminals, hraised, hkind⟩
  · rw [observed_of_stop observer [] trace.answers k hk hle hbefore hstop] at hterminals hraised hkind
    exact ⟨hterminals, hraised, hkind⟩

/-- One thread sends to another, which receives. -/
def pingProgram : Program ℕ :=
  ⟨⟨[some fun _ step => if step = 0 then some (.send ⟨1, 7⟩) else none,
    some fun _ step => if step = 0 then some (.receive ⟨.blocking, fun _ => true⟩) else none]⟩⟩

theorem ping_refines_visit :
    ∃ exit, SequentialRun.Exits
        (UserCode.ofConfig ⟨pingProgram, 10, 0, .fifoP2P⟩ [0, 1] fun _ => .continue) [0, 1] 10
        (SequentialRun.start (WorkerGraph.ofGraph ExplorationGraph.empty) 0 .visit VerifyResult.initial)
        exit ∧ exit.terminals.length = 1 := by
  obtain ⟨_, exit, hexits, _, hall, _⟩ := sequential_refines_visit
    ⟨pingProgram, 10, 0, .fifoP2P⟩ [0, 1] (fun _ => .continue)
    (WorkerGraph.ofGraph ExplorationGraph.empty) WorkerGraph.Built.empty 0 .visit VerifyResult.initial rfl
  refine ⟨exit, hexits, ?_⟩
  rw [(hall fun _ _ _ => rfl).1]
  decide +kernel

end MustDpor

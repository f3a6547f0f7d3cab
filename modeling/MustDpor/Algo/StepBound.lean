import MustDpor.Algo.Guarantees

/-! # The thread event limit as a wrapper

`max_thread_events = k` against the program whose thread functions stop at step `k`. The two searches make
the same calls; only the terminals of the kind `ThreadEventLimit` are called Full or Blocked by the other. -/

namespace MustDpor
set_option autoImplicit false
open List

variable {V : Type}

/-! ## The wrapped program -/

def stepBoundedFunction (k : ℕ) (threadFn : ThreadFunction V) : ThreadFunction V := fun trace step =>
  if k ≤ step then none else threadFn trace step

/-- Every thread function returns `nullopt` from step `k` on. -/
def Program.stepBounded (program : Program V) (k : ℕ) : Program V :=
  ⟨⟨program.threads.entries.map (Option.map (stepBoundedFunction k))⟩⟩

section Wrapped
variable (program : Program V) (k : ℕ)

theorem Program.atThread_stepBounded (tid : ℕ) : (program.stepBounded k).threads.atThread tid =
    (program.threads.atThread tid).map (stepBoundedFunction k) :=
  program.atThread_map (stepBoundedFunction k) tid

theorem sortedThreadIds_stepBounded : sortedThreadIds (program.stepBounded k) = sortedThreadIds program :=
  sortedThreadIds_map program (stepBoundedFunction k)

/-! ## The queries -/

section Queries
variable (g : ExplorationGraph V)

theorem computeNextEventFrom_stepBounded (hk : k ≠ 0) {ids : List ℕ} (suppressed : Bool)
    (hthreads : ∀ tid ∈ ids, ∃ threadFn, program.threads.atThread tid = .ok threadFn)
    (htrace : ∀ tid, ∃ trace, g.threadTrace tid = .ok trace) :
    computeNextEventFrom (program.stepBounded k) g 0 ids false =
      (computeNextEventFrom program g k ids suppressed).map fun result => ⟨result.next, false⟩ := by
  induction ids generalizing suppressed with
  | nil => rfl
  | cons tid rest ih =>
    have ih := fun flag => ih flag fun other hother => hthreads other (mem_cons_of_mem _ hother)
    obtain ⟨threadFn, hthread⟩ := hthreads tid mem_cons_self
    obtain ⟨trace, htraced⟩ := htrace tid
    unfold computeNextEventFrom
    by_cases hterminated : g.threadIsTerminated tid = true
    · rw [if_pos hterminated, if_pos hterminated]
      exact ih suppressed
    · rw [if_neg hterminated, if_neg hterminated, if_neg (by simp), program.atThread_stepBounded k tid, hthread,
        htraced]
      simp only [Except.map, bind, Except.bind, stepBoundedFunction]
      by_cases hlimit : k ≤ g.threadEventCount tid
      · rw [if_pos hlimit, if_pos ⟨hk, hlimit⟩]
        exact ih true
      · rw [if_neg hlimit, if_neg fun h => hlimit h.2]
        cases threadFn trace (g.threadEventCount tid) with
        | none => exact ih suppressed
        | some label => cases label <;> rfl

theorem rescheduleThread_stepBounded (hk : k ≠ 0) {tid : ℕ} (hcount : g.threadEventCount tid ≤ k) :
    rescheduleThread (program.stepBounded k) g tid = rescheduleThread program g tid := by
  have hstep : ¬ k ≤ g.threadEventCount tid - 1 := by omega
  unfold rescheduleThread
  rw [program.atThread_stepBounded k tid]
  cases program.threads.atThread tid with
  | error e => rfl
  | ok threadFn =>
    simp only [Except.map, bind, Except.bind, stepBoundedFunction, if_neg hstep]

end Queries
end Wrapped

/-! ## The searches -/

/-- What a terminal is called when nothing is suppressed. -/
def Terminal.unlimited (terminal : Terminal V) : Terminal V :=
  match terminal.kind with
  | .threadEventLimit => ⟨terminal.graph, maximalKind terminal.graph false⟩
  | _ => terminal

theorem unlimited_maximal (g : ExplorationGraph V) (suppressed : Bool) :
    Terminal.unlimited ⟨g, maximalKind g suppressed⟩ = ⟨g, maximalKind g false⟩ := by
  unfold maximalKind
  cases suppressed with
  | true => rfl
  | false => by_cases hblocked : g.hasBlockedThread = true <;> simp [Terminal.unlimited, hblocked]

/-- The configuration that runs the wrapped program without a limit. -/
def DporConfig.stepBounded (config : DporConfig V) : DporConfig V :=
  { config with program := config.program.stepBounded config.maxThreadEvents, maxThreadEvents := 0 }

section Search
variable [LinearOrder V] {config : DporConfig V} {tids : List ℕ}

theorem stepBounded_sameChecks :
    SameChecks (Queries.ofConfig config tids) (Queries.ofConfig config.stepBounded tids) :=
  ⟨fun _ => rfl, fun _ _ _ => rfl, fun _ _ _ => rfl⟩

theorem unlimited_pairs :
    Pairs (Charted config tids) (fun f f' => f' = f.mapAnswers Terminal.unlimited) where
  nil := rfl
  fail := fun _ => rfl
  append := by
    rintro f g _ _ rfl rfl
    rw [Forest.mapAnswers_append]
  guarded := by
    rintro g d f _ rfl
    rfl
  of_append := fun f g h => h.of_append
  of_node := fun call f h => (h.of_node).2.1

variable {recur recur' : ExplorationGraph V → ℕ → Search V} (hrecur : ∀ child d, Charted config tids (recur child d) →
    recur' child d = (recur child d).mapAnswers Terminal.unlimited)
include hrecur

theorem visitBody_stepBounded (hk : config.maxThreadEvents ≠ 0) (hthreads : ThreadsOf config.program tids)
    {g : ExplorationGraph V} {depth : ℕ} (hexplored : Explored config g depth) (h : Charted config tids
      (visitBody (Queries.ofConfig config tids) tids config.maxDepth recur g depth)) :
    visitBody (Queries.ofConfig config.stepBounded tids) tids config.maxDepth recur' g depth =
      (visitBody (Queries.ofConfig config tids) tids config.maxDepth recur g depth).mapAnswers
        Terminal.unlimited := by
  have hnext : (Queries.ofConfig config.stepBounded tids).computeNextEvent g =
      ((Queries.ofConfig config tids).computeNextEvent g).map fun result => ⟨result.next, false⟩ :=
    computeNextEventFrom_stepBounded config.program _ g hk false
      (fun tid htid => (hthreads tid).mp htid) hexplored.threadTrace_ok
  have hcount (tid : ℕ) : g.threadEventCount tid ≤ config.maxThreadEvents := by
    rw [threadEventCount_eq hexplored.tabulated]
    exact hexplored.bounded hk tid
  refine visitBody_pairs config.maxDepth stepBounded_sameChecks unlimited_pairs (fun _ => false) (fun _ => hnext)
    (rescheduleChild_congr fun tid => rescheduleThread_stepBounded config.program _ g hk (hcount tid)) rfl
    (fun suppressed => ?_) (fun child _ => hrecur child depth)
    (fun _ tid label _ _ => ⟨fun child _ => hrecur child _, fun error _ => ?_⟩) h
  · rw [Forest.mapAnswers, unlimited_maximal]
    rfl
  · unfold eventChildren
    dsimp only
    cases g.addEvent tid (.error error) <;> rfl

omit hrecur in
theorem visit_stepBounded (hk : config.maxThreadEvents ≠ 0) (hthreads : ThreadsOf config.program tids)
    (g : ExplorationGraph V) (depth : ℕ) (hexplored : Explored config g depth) :
    visit (Queries.ofConfig config.stepBounded tids) tids config.maxDepth g depth =
      (visit (Queries.ofConfig config tids) tids config.maxDepth g depth).mapAnswers
        Terminal.unlimited := by
  have hcharted := visit_charted config tids hthreads g depth hexplored
  unfold visit at hcharted ⊢
  generalize visitCalls config.maxDepth g depth = calls at hcharted ⊢
  clear hexplored
  induction calls generalizing g depth with
  | zero => rfl
  | succ calls ih =>
    unfold visitWithin at hcharted ⊢
    obtain ⟨hcall, hbody, -⟩ := hcharted.of_node
    rw [Forest.mapAnswers, visitBody_stepBounded ih hk hthreads (hcall.visited rfl) hbody]
    rfl

end Search

/-! ## The runs -/

/-- What the unlimited run calls a terminal that the limited run publishes. -/
inductive CalledUnlimited : TerminalExecutionKind → TerminalExecutionKind → Prop where
  | full : CalledUnlimited .full .full
  | blocked : CalledUnlimited .blocked .blocked
  | error : CalledUnlimited .error .error
  | depthLimit : CalledUnlimited .depthLimit .depthLimit
  | fullBeyond : CalledUnlimited .threadEventLimit .full
  | blockedBeyond : CalledUnlimited .threadEventLimit .blocked

theorem calledUnlimited_unlimited (terminal : Terminal V) :
    terminal.unlimited.graph = terminal.graph ∧ CalledUnlimited terminal.kind terminal.unlimited.kind := by
  obtain ⟨g, kind⟩ := terminal
  cases kind with
  | full => exact ⟨rfl, .full⟩
  | blocked => exact ⟨rfl, .blocked⟩
  | error => exact ⟨rfl, .error⟩
  | depthLimit => exact ⟨rfl, .depthLimit⟩
  | threadEventLimit =>
    refine ⟨rfl, ?_⟩
    show CalledUnlimited .threadEventLimit (maximalKind g false)
    unfold maximalKind
    rw [if_neg Bool.false_ne_true]
    split
    · exact .blockedBeyond
    · exact .fullBeyond

/-- An observer that looks at the graphs only. -/
def observeGraphs (observer : List (ExplorationGraph V) → TerminalExecutionAction) (terminals : List (Terminal V)) :
    TerminalExecutionAction :=
  observer (terminals.map Terminal.graph)

theorem observed_unlimited (observer : List (ExplorationGraph V) → TerminalExecutionAction)
    (seen answers : List (Terminal V)) :
    observed (observeGraphs observer) (seen.map Terminal.unlimited) (answers.map Terminal.unlimited) =
      ((observed (observeGraphs observer) seen answers).1.map Terminal.unlimited,
        (observed (observeGraphs observer) seen answers).2) := by
  induction answers generalizing seen with
  | nil => rfl
  | cons terminal rest ih =>
    have hsame : observeGraphs observer (seen.map Terminal.unlimited ++ [terminal.unlimited]) =
        observeGraphs observer (seen ++ [terminal]) := by
      unfold observeGraphs
      congr 1
      simp only [map_append, map_map, map_cons, map_nil, (calledUnlimited_unlimited terminal).1]
      congr 1
      exact map_congr_left fun t _ => (calledUnlimited_unlimited t).1
    have hrest := ih (seen ++ [terminal])
    rw [map_append, map_cons, map_nil] at hrest
    rw [map_cons, observed, observed, hsame]
    cases observeGraphs observer (seen ++ [terminal]) with
    | stop => rfl
    | «continue» =>
      dsimp only
      rw [hrest]
      rfl

/-- `max_thread_events = k` is the step-bound wrapper: both runs return, publish the same graphs in the same
order under kinds that correspond, and end the same way; and no graph of the limited search has a thread with
more than `k` events. -/
theorem thread_event_limit_is_wrapper [LinearOrder V] (config : DporConfig V) (hk : 0 < config.maxThreadEvents) :
    sortedThreadIds config.stepBounded.program = sortedThreadIds config.program ∧
    ∀ threadIds, sortedThreadIds config.program = .ok threadIds →
      (∀ observer : List (ExplorationGraph V) → TerminalExecutionAction, ∃ limited wrapped,
        Verifies config (observeGraphs observer) limited ∧
        (∀ exit, Verifies config (observeGraphs observer) exit → exit = limited) ∧
        Verifies config.stepBounded (observeGraphs observer) wrapped ∧
        (∀ exit, Verifies config.stepBounded (observeGraphs observer) exit → exit = wrapped) ∧
        List.Forall₂ (fun t t' : Terminal V => t'.graph = t.graph ∧ CalledUnlimited t.kind t'.kind)
          limited.terminals wrapped.terminals ∧
        wrapped.raised = limited.raised ∧ wrapped.result.kind = limited.result.kind ∧
        ∀ terminal ∈ limited.terminals, ∀ tid, terminal.graph.threadEventCount tid ≤ config.maxThreadEvents) ∧
      ∀ call ∈ (visit (Queries.ofConfig config threadIds) threadIds config.maxDepth ExplorationGraph.empty 0).nodes,
        ∀ tid, call.graph.threadEventCount tid ≤ config.maxThreadEvents := by
  have hne : config.maxThreadEvents ≠ 0 := Nat.pos_iff_ne_zero.mp hk
  refine ⟨sortedThreadIds_stepBounded config.program _, fun threadIds hthreads => ⟨fun observer => ?_, ?_⟩⟩
  · have hthreads' : sortedThreadIds config.stepBounded.program = .ok threadIds :=
      (sortedThreadIds_stepBounded config.program _).trans hthreads
    obtain ⟨limited, hlimited, hunique⟩ : ∃ limited, Verifies config (observeGraphs observer) limited ∧
      ∀ exit, Verifies config (observeGraphs observer) exit → exit = limited := Verifies.exists_unique _ hthreads
    obtain ⟨wrapped, hwrapped, hunique'⟩ : ∃ wrapped, Verifies config.stepBounded (observeGraphs observer) wrapped ∧
      ∀ exit, Verifies config.stepBounded (observeGraphs observer) exit → exit = wrapped :=
        Verifies.exists_unique _ hthreads'
    have hfollows := Verifies.follows (observeGraphs observer) hthreads limited hlimited
    have hfollows' := Verifies.follows (observeGraphs observer) hthreads' wrapped hwrapped
    rw [show config.stepBounded.maxDepth = config.maxDepth from rfl,
      visit_stepBounded hne (threadsOf_sorted config.program threadIds hthreads) _ 0 (explored_empty config),
      Forest.run_mapAnswers] at hfollows'
    generalize (visit (Queries.ofConfig config threadIds) threadIds config.maxDepth ExplorationGraph.empty 0).run =
      trace at hfollows hfollows'
    have hobserved := observed_unlimited observer [] trace.answers
    have hterminals : limited.terminals = (observed (observeGraphs observer) [] trace.answers).1 := hfollows.terminals
    have hterminals' : wrapped.terminals = limited.terminals.map Terminal.unlimited := by
      rw [hterminals]
      exact hfollows'.terminals.trans (congrArg Prod.fst hobserved)
    have hstopped : (observed (observeGraphs observer) [] (trace.answers.map Terminal.unlimited)).2 =
        (observed (observeGraphs observer) [] trace.answers).2 := by
      have hsecond := congrArg Prod.snd hobserved
      exact hsecond
    refine ⟨limited, wrapped, hlimited, hunique, hwrapped, hunique', ?_, ?_, ?_, fun terminal hterminal tid => ?_⟩
    · rw [hterminals', List.forall₂_map_right_iff, List.forall₂_same]
      exact fun terminal _ => calledUnlimited_unlimited terminal
    · rw [hfollows'.raised, hfollows.raised]
      show (if (observed (observeGraphs observer) [] (trace.answers.map Terminal.unlimited)).2 then _ else _) = _
      rw [hstopped]
      rfl
    · rw [hfollows'.result, hfollows.result]
      show (if (observed (observeGraphs observer) [] (trace.answers.map Terminal.unlimited)).2 then _ else _) = _
      rw [hstopped]
      rfl
    · have hpublished := (Verifies.accounted (observeGraphs observer) hthreads limited hlimited).1 terminal hterminal
      rw [threadEventCount_eq hpublished.tabulated]
      exact hpublished.bounded hne tid
  · intro call hcall tid
    have hentered := (visit_charted config threadIds (threadsOf_sorted config.program threadIds hthreads) _ 0
      (explored_empty config)).nodes call hcall
    rw [threadEventCount_eq hentered.prepared.tabulated]
    exact hentered.prepared.bounded hne tid

/-- One event for each thread is all there is in a ping. -/
theorem ping_limit_is_wrapper :
    ∃ limited wrapped, Verifies { pingConfig with maxThreadEvents := 1 } (fun _ => .continue) limited ∧
      Verifies (DporConfig.stepBounded { pingConfig with maxThreadEvents := 1 }) (fun _ => .continue) wrapped ∧
      limited.terminals.length = 1 ∧ List.Forall₂ (fun t t' : Terminal ℕ => t'.graph = t.graph ∧
        CalledUnlimited t.kind t'.kind) limited.terminals wrapped.terminals := by
  obtain ⟨limited, wrapped, hlimited, -, hwrapped, -, hterminals, -⟩ :=
    ((thread_event_limit_is_wrapper { pingConfig with maxThreadEvents := 1 } (by decide)).2 [0, 1] rfl).1
      fun _ => .continue
  refine ⟨limited, wrapped, hlimited, hwrapped, ?_, hterminals⟩
  have hfollows := Verifies.follows (observeGraphs fun _ => .continue) rfl limited hlimited
  rw [hfollows.terminals]
  decide +kernel

end MustDpor

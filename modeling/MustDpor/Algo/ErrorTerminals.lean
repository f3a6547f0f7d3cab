import MustDpor.Algo.Optimality

/-! # After an Error terminal

A program against the one whose thread functions stop where it reports an error. The search of the first is that of
the second with everything below the calls that publish an Error cut off. As no execution is published twice, the
executions below these calls are found nowhere else. -/

namespace MustDpor
set_option autoImplicit false

variable {V : Type}

/-! ## The program without errors -/

def errorlessFunction (threadFn : ThreadFunction V) : ThreadFunction V := fun trace step =>
  match threadFn trace step with
  | some (.error _) => none
  | answer => answer

/-- Every ErrorLabel that a thread function returns is replaced by `nullopt`. -/
def Program.withoutErrors (program : Program V) : Program V := program.map errorlessFunction

def DporConfig.withoutErrors (config : DporConfig V) : DporConfig V :=
  { config with program := config.program.withoutErrors }

/-- The thread is not blocked, and the program has an Error for it. -/
def stoppedAtError (program : Program V) (g : ExplorationGraph V) (tid : ℕ) : Bool :=
  !g.threadIsTerminated tid &&
    match program.threads.atThread tid, g.threadTrace tid with
    | .ok threadFn, .ok values =>
      match threadFn values (g.threadEventCount tid) with
      | some (.error _) => true
      | _ => false
    | _, _ => false

/-- No thread stopped where the program reports an error. -/
def errorFree (program : Program V) (threadIds : List ℕ) (g : ExplorationGraph V) : Bool :=
  threadIds.all fun tid => !stoppedAtError program g tid

/-- The next event of the program is an Error. -/
def NextIsError (config : DporConfig V) (threadIds : List ℕ) (g : ExplorationGraph V) : Prop :=
  ∃ tid error flag, computeNextEvent config.program g threadIds config.maxThreadEvents =
    .ok ⟨some (tid, .error error), flag⟩

/-- A call of VISIT that publishes an Error: the program's next event is one. -/
def publishesError (config : DporConfig V) (threadIds : List ℕ) (call : Call V) : Bool :=
  match call.mode with
  | .visitIfConsistent => false
  | .visit => decide (call.dporTreeDepth < config.maxDepth) &&
    match computeNextEvent config.program call.graph threadIds config.maxThreadEvents with
    | .ok ⟨some (_, .error _), _⟩ => true
    | _ => false

theorem publishesError_iff {config : DporConfig V} {tids : List ℕ} {g : ExplorationGraph V} {depth : ℕ} :
    publishesError config tids ⟨g, depth, .visit⟩ = true ↔ depth < config.maxDepth ∧ NextIsError config tids g := by
  unfold publishesError
  dsimp only
  rw [Bool.and_eq_true, decide_eq_true_eq]
  refine and_congr_right fun _ => ⟨fun h => ?_, fun ⟨tid, error, flag, hnext⟩ => by rw [hnext]⟩
  split at h
  · exact ⟨_, _, _, ‹_›⟩
  · cases h

/-! ## The queries -/

section Queries
variable (program : Program V) (g : ExplorationGraph V)

theorem computeNextEventFrom_withoutErrors (maxThreadEvents : ℕ) (ids : List ℕ) (suppressed : Bool) :
    (∃ tid error flag, computeNextEventFrom program g maxThreadEvents ids suppressed =
      .ok ⟨some (tid, .error error), flag⟩) ∨
    computeNextEventFrom program.withoutErrors g maxThreadEvents ids suppressed =
      computeNextEventFrom program g maxThreadEvents ids suppressed := by
  induction ids generalizing suppressed with
  | nil => exact .inr rfl
  | cons tid rest ih =>
    unfold computeNextEventFrom
    by_cases hterminated : g.threadIsTerminated tid = true
    · rw [if_pos hterminated, if_pos hterminated]
      exact ih suppressed
    rw [if_neg hterminated, if_neg hterminated]
    by_cases hlimit : maxThreadEvents ≠ 0 ∧ maxThreadEvents ≤ g.threadEventCount tid
    · rw [if_pos hlimit, if_pos hlimit]
      exact ih true
    rw [if_neg hlimit, if_neg hlimit, Program.withoutErrors, program.atThread_map errorlessFunction tid]
    cases program.threads.atThread tid with
    | error e => exact .inr rfl
    | ok threadFn =>
      cases g.threadTrace tid with
      | error e => exact .inr rfl
      | ok values =>
        simp only [Except.map, bind, Except.bind, errorlessFunction]
        cases threadFn values (g.threadEventCount tid) with
        | none => exact ih suppressed
        | some label =>
          cases label with
          | error error => exact .inl ⟨tid, error, suppressed, rfl⟩
          | block | send | receive | nondeterministicChoice => exact .inr rfl

end Queries

variable {f : Search V}

section Search
variable [LinearOrder V] {config : DporConfig V} {tids : List ℕ}

variable {depth : ℕ}

theorem rescheduleThread_withoutErrors {g : ExplorationGraph V} (h : Explored config g depth) (tid : ℕ) :
    rescheduleThread config.program.withoutErrors g tid = rescheduleThread config.program g tid := by
  unfold rescheduleThread
  cases hlast : g.lastEventId tid with
  | none => rfl
  | some id =>
    dsimp only
    by_cases hblock : g.isBlockId id = true
    · obtain ⟨threadFn, values, receive, hthread, htrace, hanswer, -⟩ :=
        h.replays.block_answers h.tabulated h.consistent.async.endpoints hlast hblock
      rw [Program.withoutErrors, config.program.atThread_map errorlessFunction tid, hthread, htrace]
      simp only [Except.map, bind, Except.bind, errorlessFunction, hanswer]
    · rw [if_pos (by simpa using hblock), if_pos (by simpa using hblock)]

/-! ## The searches -/

/-- The first search is what is kept of the second, with the Error terminals; or it runs out of event indices. -/
def Pruned (config : DporConfig V) (threadIds : List ℕ) (f f' : Search V) : Prop :=
  (∃ e, f.run.raised = some (.engine e)) ∨
    f'.keptRun (publishesError config threadIds) =
      ⟨f.run.answers.filter fun t => decide (t.kind ≠ .error), f.run.raised⟩

omit [LinearOrder V] in
theorem Pruned.append {g f' g' : Search V} (h : Pruned config tids f f') (h' : Pruned config tids g g') :
    Pruned config tids (f ++ g) (f' ++ g') := by
  unfold Pruned
  rw [Forest.run_append, Forest.keptRun_append]
  rcases h with ⟨e, he⟩ | h
  · refine .inl ⟨e, ?_⟩
    unfold Forest.Trace.andThen
    rw [he]
  · rw [h]
    unfold Forest.Trace.andThen
    cases hraised : f.run.raised with
    | some e => exact .inr rfl
    | none =>
      rcases h' with ⟨e, he⟩ | h'
      · exact .inl ⟨e, he⟩
      · refine .inr ?_
        dsimp only
        rw [h', List.filter_append]

omit [LinearOrder V] in
theorem Pruned.node {f' : Search V} {call : Call V} (hcall : publishesError config tids call = false)
    (h : Pruned config tids f f') : Pruned config tids (.node call f .nil) (.node call f' .nil) := by
  unfold Pruned
  rw [Forest.run, Forest.keptRun, if_neg (by rw [hcall]; exact Bool.false_ne_true)]
  exact h.imp (fun h => by simpa [Forest.run] using h) fun h => by simpa [Forest.run, Forest.keptRun] using h

theorem pruned_pairs : Pairs (Charted config tids) (Pruned config tids) where
  nil := Or.inr rfl
  fail := fun _ => .inr rfl
  append := fun _ _ _ _ h h' => h.append h'
  guarded := fun _ _ _ _ h => h.node rfl
  of_append := fun _ _ h => h.of_append
  of_node := fun _ _ h => (h.of_node).2.1

theorem withoutErrors_sameChecks :
    SameChecks (Queries.ofConfig config tids) (Queries.ofConfig config.withoutErrors tids) :=
  ⟨fun _ => rfl, fun _ _ _ => rfl, fun _ _ _ => rfl⟩

theorem error_pruned (recur : ExplorationGraph V → ℕ → Search V) {g : ExplorationGraph V}
    (hcall : publishesError config tids ⟨g, depth, .visit⟩ = true) (f' : Search V) :
    Pruned config tids
      (.node ⟨g, depth, .visit⟩
        (visitBody (Queries.ofConfig config tids) tids config.maxDepth recur g depth) .nil)
      (.node ⟨g, depth, .visit⟩ f' .nil) := by
  obtain ⟨hdepth, tid, error, flag, hnext⟩ := publishesError_iff.mp hcall
  unfold Pruned
  rw [Forest.run, Forest.keptRun, if_pos hcall]
  unfold visitBody
  rw [if_neg (not_le.mpr hdepth), show (Queries.ofConfig config tids).computeNextEvent g =
    computeNextEvent config.program g tids config.maxThreadEvents from rfl, hnext]
  unfold eventChildren
  dsimp only
  cases g.addEvent tid (.error error) with
  | error e => exact .inl ⟨e, rfl⟩
  | ok added => exact .inr rfl

omit [LinearOrder V] in
theorem maximal_pruned (g : ExplorationGraph V) (suppressed : Bool) :
    Pruned config tids (.leaf ⟨g, maximalKind g suppressed⟩ .nil) (.leaf ⟨g, maximalKind g suppressed⟩ .nil) := by
  have hkind : maximalKind g suppressed ≠ .error := by
    unfold maximalKind
    split
    · exact nofun
    · split <;> exact nofun
  refine .inr ?_
  simp [Forest.run, Forest.keptRun, hkind]

variable {recur recur' : ExplorationGraph V → ℕ → Search V} (hrecur : ∀ child d, Charted config tids (recur child d) →
    Pruned config tids (recur child d) (recur' child d))
include hrecur

theorem visitBody_pruned {g : ExplorationGraph V} {depth : ℕ} (hexplored : Explored config g depth)
    (h : Charted config tids
      (visitBody (Queries.ofConfig config tids) tids config.maxDepth recur g depth)) :
    Pruned config tids
      (.node ⟨g, depth, .visit⟩
        (visitBody (Queries.ofConfig config tids) tids config.maxDepth recur g depth) .nil)
      (.node ⟨g, depth, .visit⟩
        (visitBody (Queries.ofConfig config.withoutErrors tids) tids config.maxDepth recur' g depth)
        .nil) := by
  by_cases hcall : publishesError config tids ⟨g, depth, .visit⟩ = true
  · exact error_pruned recur hcall _
  have hquiet (hdepth : depth < config.maxDepth) : ¬ NextIsError config tids g :=
    fun herror => hcall (publishesError_iff.mpr ⟨hdepth, herror⟩)
  refine Pruned.node (Bool.eq_false_iff.mpr hcall) (visitBody_pairs config.maxDepth withoutErrors_sameChecks pruned_pairs
    id (fun hdepth => ?_) (rescheduleChild_congr (rescheduleThread_withoutErrors hexplored)) (.inr rfl) (maximal_pruned g)
    (fun child _ => hrecur child depth) (fun hdepth tid label flag hnext => ⟨fun child _ => hrecur child _, ?_⟩) h)
  · have hnext := (computeNextEventFrom_withoutErrors config.program g config.maxThreadEvents tids false).resolve_left
      (hquiet hdepth)
    exact hnext.trans (sameNext_self (Queries.ofConfig config tids) g)
  · rintro error rfl
    exact absurd ⟨tid, error, flag, hnext⟩ (hquiet hdepth)

omit hrecur in
theorem visit_pruned (hthreads : ThreadsOf config.program tids) (g : ExplorationGraph V) (depth : ℕ)
    (hexplored : Explored config g depth) :
    Pruned config tids (visit (Queries.ofConfig config tids) tids config.maxDepth g depth)
      (visit (Queries.ofConfig config.withoutErrors tids) tids config.maxDepth g depth) := by
  have hcharted := visit_charted config tids hthreads g depth hexplored
  unfold visit at hcharted ⊢
  generalize visitCalls config.maxDepth g depth = calls at hcharted ⊢
  clear hexplored
  induction calls generalizing g depth with
  | zero => exact .inr rfl
  | succ calls ih =>
    unfold visitWithin at hcharted ⊢
    obtain ⟨hcall, hbody, -⟩ := hcharted.of_node
    exact visitBody_pruned ih (hcall.visited rfl) hbody

end Search

/-! ## The runs -/

/-- Of two terminals below and not below a call that publishes an Error, at most one has a given execution. -/
theorem kept_ne_lost {stops : Call V → Bool} (h : Distinct f.leaves) (t t' : Terminal V)
    (ht : t ∈ (f.keptRun stops).answers) (ht' : t' ∈ f.lost stops) (hcomplete : t.Complete) (hcomplete' : t'.Complete) :
    t.graph.graph.execution ≠ t'.graph.graph.execution := by
  obtain ⟨terminals, hperm, hsublist⟩ := f.kept_append_lost_subperm stops
  have hpairwise := (hperm.pairwise_iff fun {a b} hab ha hb => (hab hb ha).symm).mp (h.sublist hsublist)
  exact (List.pairwise_append.mp hpairwise).2.2 t ht t' ht' hcomplete hcomplete'

/-- Continuing after Error terminals covers the error-free executions exactly when none of them lies below a call
that publishes an Error. -/
theorem covered_iff_none_lost [LinearOrder V] (config : DporConfig V) (threadIds : List ℕ)
    (hthreads : sortedThreadIds config.program = .ok threadIds) :
    ∃ exit exit₀, Verifies config (fun _ => .continue) exit ∧
      (∀ other, Verifies config (fun _ => .continue) other → other = exit) ∧
      Verifies config.withoutErrors (fun _ => .continue) exit₀ ∧
      (∀ other, Verifies config.withoutErrors (fun _ => .continue) other → other = exit₀) ∧
      ((∀ e, exit.raised ≠ some (.engine e)) →
        ((∀ t ∈ exit₀.terminals, t.Complete → errorFree config.program threadIds t.graph = true →
            ∃ t' ∈ exit.terminals, t'.kind = t.kind ∧ t'.graph.graph.execution = t.graph.graph.execution) ↔
          ∀ t ∈ (visit (Queries.ofConfig config.withoutErrors threadIds) threadIds config.maxDepth
              ExplorationGraph.empty 0).lost (publishesError config threadIds), t ∈ exit₀.terminals → t.Complete →
            errorFree config.program threadIds t.graph = false)) := by
  have hthreads₀ : sortedThreadIds config.withoutErrors.program = .ok threadIds :=
    (sortedThreadIds_map config.program errorlessFunction).trans hthreads
  obtain ⟨exit, hexit, hunique⟩ := Verifies.exists_unique (fun _ => .continue) hthreads
  obtain ⟨exit₀, hexit₀, hunique₀⟩ := Verifies.exists_unique (fun _ => .continue) hthreads₀
  refine ⟨exit, exit₀, hexit, hunique, hexit₀, hunique₀, fun hindices => ?_⟩
  obtain ⟨hterminals, hraised⟩ := Verifies.publishes_all _ (fun _ => rfl) hthreads exit hexit
  obtain ⟨hterminals₀, -⟩ := Verifies.publishes_all _ (fun _ => rfl) hthreads₀ exit₀ hexit₀
  have hspread := visit_spread config.withoutErrors threadIds
    (threadsOf_sorted config.withoutErrors.program threadIds hthreads₀) _ 0 (explored_empty config.withoutErrors)
  have hpruned := visit_pruned (threadsOf_sorted config.program threadIds hthreads) _ 0 (explored_empty config)
  rw [show config.withoutErrors.maxDepth = config.maxDepth from rfl] at hterminals₀ hspread
  generalize visit (Queries.ofConfig config threadIds) threadIds config.maxDepth ExplorationGraph.empty 0 = f at *
  generalize visit (Queries.ofConfig config.withoutErrors threadIds) threadIds config.maxDepth ExplorationGraph.empty 0 =
    f₀ at *
  rcases hpruned with ⟨e, he⟩ | hpruned
  · exact absurd (hraised.trans he) (hindices e)
  have hkept (t : Terminal V) : t ∈ (f₀.keptRun (publishesError config threadIds)).answers ↔
      t ∈ exit.terminals ∧ t.kind ≠ .error := by
    rw [hpruned, hterminals, List.mem_filter, decide_eq_true_eq]
  constructor
  · intro hcovered t ht hpublished hcomplete
    by_contra hfree
    obtain ⟨t', ht', hkind, hsame⟩ := hcovered t hpublished hcomplete (Bool.eq_true_of_not_eq_false hfree)
    have hcomplete' : t'.Complete := by
      unfold Terminal.Complete at hcomplete ⊢
      rw [hkind]
      exact hcomplete
    have hne : t'.kind ≠ .error := by
      rcases hcomplete' with h | h
      · rw [h]
        exact fun h => by cases h
      · rw [h]
        exact fun h => by cases h
    exact kept_ne_lost hspread.distinct t' t ((hkept t').mpr ⟨ht', hne⟩) ht hcomplete' hcomplete hsame
  · intro hcondition t ht hcomplete hfree
    rcases f₀.kept_or_lost (publishesError config threadIds) t (hterminals₀ ▸ ht) with hkeep | hlost
    · exact ⟨t, ((hkept t).mp hkeep).1, rfl, rfl⟩
    · rw [hcondition t hlost ht hcomplete] at hfree
      cases hfree

/-- Two threads send to a third, which reports an error when it receives the first one's value. -/
def failingRaceConfig : DporConfig ℕ :=
  ⟨⟨⟨[some fun _ step => if step = 0 then some (.send ⟨1, 0⟩) else none,
    some fun values step =>
      if step = 0 then some (.receive ⟨.blocking, fun _ => true⟩)
      else if step = 1 ∧ values = [.value 0] then some (.error ⟨"first"⟩) else none,
    some fun _ step => if step = 0 then some (.send ⟨1, 2⟩) else none]⟩⟩, 10, 0, .async⟩

/-- The Error comes before the second send, so nothing revisits the receive. -/
theorem error_hides_execution :
    ∃ exit exit₀, Verifies failingRaceConfig (fun _ => .continue) exit ∧
      Verifies failingRaceConfig.withoutErrors (fun _ => .continue) exit₀ ∧ exit.raised.isNone = true ∧
      exit.terminals.map Terminal.kind = [.error] ∧ exit₀.terminals.map Terminal.kind = [.full, .full] ∧
      ∃ t ∈ exit₀.terminals, t.Complete ∧ errorFree failingRaceConfig.program [0, 1, 2] t.graph = true ∧
        ¬ ∃ t' ∈ exit.terminals, t'.kind = t.kind ∧ t'.graph.graph.execution = t.graph.graph.execution := by
  have hthreads : sortedThreadIds failingRaceConfig.program = .ok [0, 1, 2] := rfl
  have hthreads₀ : sortedThreadIds failingRaceConfig.withoutErrors.program = .ok [0, 1, 2] := rfl
  obtain ⟨exit, hexit, -⟩ := Verifies.exists_unique (fun _ => .continue) hthreads
  obtain ⟨exit₀, hexit₀, -⟩ := Verifies.exists_unique (fun _ => .continue) hthreads₀
  obtain ⟨hterminals, hraised⟩ := Verifies.publishes_all _ (fun _ => rfl) hthreads exit hexit
  obtain ⟨hterminals₀, -⟩ := Verifies.publishes_all _ (fun _ => rfl) hthreads₀ exit₀ hexit₀
  have hkinds : exit.terminals.map Terminal.kind = [.error] := by
    rw [hterminals]
    decide +kernel
  have hfound : (exit₀.terminals.any fun t => decide (t.kind = .full) &&
      errorFree failingRaceConfig.program [0, 1, 2] t.graph) = true := by
    rw [hterminals₀]
    decide +kernel
  obtain ⟨t, ht, hfound⟩ := List.any_eq_true.mp hfound
  obtain ⟨hfull, hfree⟩ := (Bool.and_eq_true _ _).mp hfound
  have hfull := of_decide_eq_true hfull
  refine ⟨exit, exit₀, hexit, hexit₀, ?_, hkinds, ?_, t, ht, Or.inl hfull, hfree, ?_⟩
  · rw [hraised]
    decide +kernel
  · rw [hterminals₀]
    decide +kernel
  · rintro ⟨t', ht', hkind, -⟩
    have hmem : t'.kind ∈ exit.terminals.map Terminal.kind := List.mem_map_of_mem ht'
    rw [hkinds, hkind, hfull] at hmem
    cases List.mem_singleton.mp hmem

end MustDpor

import MustDpor.Algo.MaximalExecutions
import MustDpor.Parallel.Equivalence

/-! # The enumeration of the maximal executions

Without a fault, the Full and Blocked terminals are the maximal executions of the program, each of them once. This holds
of the sequential search and of every run of the pool of workers. -/

namespace MustDpor

open List ExecutionGraph Pool

variable {V : Type}

/-! ## Terminals are maximal executions -/

section Becomes
variable [DecidableEq V]

theorem foldl_dedup_eq_append (choices kept : List V) (h : (kept ++ choices).Nodup) :
    choices.foldl (fun kept choice => if choice ∈ kept then kept else kept ++ [choice]) kept = kept ++ choices := by
  induction choices generalizing kept with
  | nil => exact (append_nil kept).symm
  | cons choice rest ih =>
    have hnew : choice ∉ kept := fun hmem => (nodup_append.mp h).2.2 choice hmem choice mem_cons_self rfl
    rw [append_cons] at h ⊢
    rw [foldl_cons, if_neg hnew, ih _ h]

theorem eraseDuplicateNdChoices_idem (choices : List V) :
    eraseDuplicateNdChoices (eraseDuplicateNdChoices choices) = eraseDuplicateNdChoices choices :=
  foldl_dedup_eq_append _ [] (nodup_eraseDuplicateNdChoices choices)

variable {returned label : EventLabel V} (h : Becomes returned label)
include h

theorem Becomes.stands : Stands returned label := by
  cases h with
  | receive receive => exact .receive receive
  | blocked receive hblocking => exact .blocked receive hblocking
  | send send => exact .send send
  | error error => exact .error error
  | free nd hnil => exact .free nd hnil
  | choice nd value hvalue => exact .choice nd value _ hvalue (eraseDuplicateNdChoices_idem _)

theorem Becomes.withoutRepeats : label.withoutRepeats = label := by
  cases h with
  | choice nd value =>
    rw [EventLabel.withoutRepeats, eraseDuplicateNdChoices_idem]
  | free nd hnil =>
    obtain ⟨value, choices⟩ := nd
    obtain rfl : choices = [] := hnil
    rfl
  | _ => rfl

end Becomes

section Published
variable [LinearOrder V] {config : DporConfig V} {tids : List ℕ} {t : Terminal V} (h : Published config tids t)
include h

theorem Published.withoutRepeats : t.graph.graph.execution.withoutRepeats = t.graph.graph.execution := by
  funext p
  unfold Execution.withoutRepeats
  cases hp : t.graph.graph.execution p with
  | none => rfl
  | some n =>
    obtain ⟨_, _, -, -, hbecomes⟩ := h.replays.event p.1 p.2 n hp
    rw [Option.map_some, hbecomes.withoutRepeats]

/-- In a Full or Blocked terminal the threads that wait are stuck and the others have no next event. -/
theorem Published.quiet (hcomplete : t.Complete) :
    (∀ tid ∈ tids, ¬ EndsInBlock t.graph tid → Answers config.program t.graph tid none) ∧
      ∀ tid, EndsInBlock t.graph tid → Stuck config.program t.graph tid := by
  have hkind := h.kind
  rcases hcomplete with hfull | hblocked
  · rw [hfull] at hkind
    refine ⟨fun tid htid _ => hkind.2 tid htid, ?_⟩
    rintro tid ⟨id, -, hblock⟩
    obtain ⟨e, he, hlabel⟩ := (isBlockId_iff id).mp hblock
    have hopen := (hkind.1 e (mem_of_getElem? he)).1
    rw [hlabel] at hopen
    cases hopen
  · rw [hblocked] at hkind
    exact ⟨hkind.2.2.2, hkind.2.2.1⟩

theorem Published.ended (hcomplete : t.Complete) {tid : ℕ} (htid : tid ∈ tids) {threadFn : ThreadFunction V}
    (hthread : config.program.threads.atThread tid = .ok threadFn) : Ended threadFn t.graph.graph.execution tid := by
  obtain ⟨hdone, hstuck⟩ := h.quiet hcomplete
  have hthere := h.tabulated.execution_ne_none_iff tid
  by_cases hends : EndsInBlock t.graph tid
  · obtain ⟨last, n, hn, hblock⟩ := (endsInBlock_iff h.tabulated h.replays tid).mp hends
    obtain ⟨threadFn', receive, hthread', hwaits, -, hunread⟩ :=
      stuck_answer h.tabulated h.consistent.async.endpoints h.replays hn hblock (hstuck tid hends)
    obtain rfl := Except.ok.inj (hthread.symm.trans hthread')
    refine .blocked last n receive (fun j => ?_) hn hblock hwaits hunread
    have hlt := (hthere last).mp (by rw [hn]; exact Option.some_ne_none n)
    have hge := mt (hthere (last + 1)).mpr (not_not.mpr (h.replays.blockLast tid last n hn hblock))
    rw [hthere]
    omega
  · obtain ⟨threadFn', hthread', hnone⟩ :=
      (answers_iff h.tabulated h.consistent.async.endpoints tid none).mp (hdone tid htid hends)
    obtain rfl := Except.ok.inj (hthread.symm.trans hthread')
    exact .done _ hthere
      (fun j n hn hblock => hends ((endsInBlock_iff h.tabulated h.replays tid).mpr ⟨j, n, hn, hblock⟩)) hnone

theorem Published.maximal (hthreads : ThreadsOf config.program tids) (hcomplete : t.Complete) :
    MaximalExecution config t.graph.graph where
  accepted := (accepted_iff _ (h.tabulated.indexOrdered _) _).mpr h.consistent
  event := fun thread i n hn => by
    obtain ⟨threadFn, returned, hthread, hreturned, hbecomes⟩ := h.replays.event thread i n hn
    exact ⟨threadFn, returned, hthread, hreturned, hbecomes.stands⟩
  dense := h.replays.dense
  blockLast := h.replays.blockLast
  ended := fun tid threadFn hthread => h.ended hcomplete ((hthreads tid).mpr ⟨threadFn, hthread⟩) hthread

end Published

/-! ## What a search publishes -/

/-- The Full and Blocked terminals are the maximal executions of the program, and no two of them are the same. -/
structure Enumerates [DecidableEq V] (config : DporConfig V) (terminals : List (Terminal V)) : Prop where
  distinct : Distinct terminals
  mem_iff : ∀ y, (∃ t ∈ terminals, t.Complete ∧ t.graph.graph.execution = y) ↔
    ∃ x, MaximalExecution config x ∧ x.execution.withoutRepeats = y

section Search
variable [LinearOrder V] {config : DporConfig V} {observer : List (Terminal V) → TerminalExecutionAction}
  {tids : List ℕ}

theorem Enumerates.perm {terminals terminals' : List (Terminal V)} (h : Enumerates config terminals)
    (hperm : terminals'.Perm terminals) : Enumerates config terminals' where
  distinct := (hperm.pairwise_iff fun hne hcomplete hcomplete' hsame => hne hcomplete' hcomplete hsame.symm).mpr h.distinct
  mem_iff := fun y => by
    simp only [hperm.mem_iff]
    exact h.mem_iff y

theorem visit_enumerates (hlimit : config.maxThreadEvents = 0) (hthreads : ThreadsOf config.program tids)
    (hfails : (taskCalls config tids rootTask).fails = [])
    (hkinds : ∀ t ∈ (taskCalls config tids rootTask).leaves, t.kind ≠ .depthLimit ∧ t.kind ≠ .error) :
    Enumerates config (taskCalls config tids rootTask).leaves where
  distinct := (visit_spread config tids hthreads _ 0 (explored_empty config)).distinct
  mem_iff := fun y => by
    constructor
    · rintro ⟨t, ht, hcomplete, rfl⟩
      have hpublished := (visit_accounted hthreads (explored_empty config)).leaves t ht
      exact ⟨_, hpublished.maximal hthreads hcomplete, hpublished.withoutRepeats⟩
    · rintro ⟨x, hx, rfl⟩
      exact visit_finds config hlimit tids hthreads _ hx.goal ExplorationGraph.empty 0 (explored_empty config) []
        (Approach.nil [] []) hfails hkinds

/-- A run that went through to its end and left nothing out. -/
structure CleanRun (config : DporConfig V) (observer : List (Terminal V) → TerminalExecutionAction) (exit : Exit V) :
    Prop where
  limit : config.maxThreadEvents = 0
  continues : ∀ terminals, observer terminals = .continue
  verifies : Verifies config observer exit
  returns : exit.raised = none
  kinds : ∀ t ∈ exit.terminals, t.kind ≠ .depthLimit ∧ t.kind ≠ .error

theorem CleanRun.search {exit : Exit V} (h : CleanRun config observer exit)
    (hthreads : sortedThreadIds config.program = .ok tids) :
    (taskCalls config tids rootTask).fails = [] ∧
      exit.terminals = (taskCalls config tids rootTask).leaves := by
  obtain ⟨hterminals, hraised⟩ := Verifies.publishes_all observer h.continues hthreads exit h.verifies
  have hfails := (Forest.run_raised_none_iff _).mp (hraised.symm.trans h.returns)
  rw [Forest.run_of_fails_eq_nil _ hfails] at hterminals
  exact ⟨hfails, hterminals⟩

theorem CleanRun.enumerates {exit : Exit V} (h : CleanRun config observer exit) : Enumerates config exit.terminals := by
  obtain ⟨tids, hthreads, -⟩ := id h.verifies
  obtain ⟨hfails, hterminals⟩ := h.search hthreads
  have hkinds := h.kinds
  rw [hterminals] at hkinds ⊢
  exact visit_enumerates h.limit (threadsOf_sorted config.program tids hthreads) hfails hkinds

end Search

/-- The race, under either model of communication. -/
theorem race_cleanRun (model : CommunicationModel) :
    ∃ exit, CleanRun { raceConfig with communicationModel := model } (fun _ => .continue) exit := by
  obtain ⟨exit, hexit, -⟩ := Verifies.exists_unique (fun _ => .continue)
    (show sortedThreadIds { raceConfig with communicationModel := model }.program = .ok [0, 1, 2] from rfl)
  obtain ⟨hterminals, hraised⟩ := Verifies.publishes_all (fun _ => .continue) (fun _ => rfl) rfl exit hexit
  refine ⟨exit, rfl, fun _ => rfl, hexit, hraised.trans (by cases model <;> decide +kernel), fun t ht => ?_⟩
  have hkinds : exit.terminals.map Terminal.kind = [.full, .full] := by
    rw [hterminals]
    cases model <;> decide +kernel
  have hkind : t.kind ∈ [TerminalExecutionKind.full, .full] := hkinds ▸ mem_map_of_mem ht
  have hfull : t.kind = .full := by simpa using hkind
  rw [hfull]
  exact ⟨by decide, by decide⟩

/-- Whatever can happen with messages delivered in order can happen without. -/
theorem fifo_executions_are_async [LinearOrder V] (program : Program V) (maxDepth maxDepth' : ℕ)
    (observer observer' : List (Terminal V) → TerminalExecutionAction) (exit exit' : Exit V)
    (h : CleanRun ⟨program, maxDepth, 0, .fifoP2P⟩ observer exit)
    (h' : CleanRun ⟨program, maxDepth', 0, .async⟩ observer' exit') (t : Terminal V) (ht : t ∈ exit.terminals)
    (hcomplete : t.Complete) :
    ∃ t' ∈ exit'.terminals, t'.Complete ∧ t'.graph.graph.execution = t.graph.graph.execution := by
  obtain ⟨x, hx, hsame⟩ := (h.enumerates.mem_iff _).mp ⟨t, ht, hcomplete, rfl⟩
  refine (h'.enumerates.mem_iff _).mpr ⟨x, { hx with accepted := ?_ }, hsame⟩
  have hordered := hx.accepted.indexOrdered
  have hunder := (x.accepted_iff hordered _).mp hx.accepted
  exact (x.accepted_iff hordered _).mpr ⟨hunder.async, nofun⟩

theorem race_fifo_executions_are_async :
    ∃ exit exit', CleanRun { raceConfig with communicationModel := .fifoP2P } (fun _ => .continue) exit ∧
      CleanRun raceConfig (fun _ => .continue) exit' ∧ ∀ t ∈ exit.terminals, t.Complete →
        ∃ t' ∈ exit'.terminals, t'.Complete ∧ t'.graph.graph.execution = t.graph.graph.execution := by
  obtain ⟨exit, hexit⟩ := race_cleanRun .fifoP2P
  obtain ⟨exit', hexit'⟩ := race_cleanRun .async
  exact ⟨exit, exit', hexit, hexit', fifo_executions_are_async raceProgram 10 10 _ _ exit exit' hexit hexit'⟩

/-- The maximal executions are enumerated, each once: by the sequential search, and by the pool of workers, which comes to
its end in every interleaving. -/
theorem searches_enumerate [LinearOrder V] (config : DporConfig V)
    (observer : List (Terminal V) → TerminalExecutionAction) (exit : Exit V) (h : CleanRun config observer exit)
    (tids : List ℕ) (hthreads : sortedThreadIds config.program = .ok tids) (n : ℕ) (hn : 0 < n) (maxQueuedTasks : ℕ) :
    Enumerates config exit.terminals ∧
      (∃ bound, Bounded (n := n) (exploration config tids observer n) maxQueuedTasks (initial rootTask) bound) ∧
      ∀ s : ExplorerPool n V, Steps (exploration config tids observer n) maxQueuedTasks (initial rootTask) s →
        (∀ w t, ¬ Step (exploration config tids observer n) maxQueuedTasks w s t) →
        Enumerates config s.published := by
  obtain ⟨hfails, hterminals⟩ := h.search hthreads
  refine ⟨h.enumerates, ?_, fun s hs hstuck => ?_⟩
  · obtain ⟨left, hleft⟩ := progressing_initial config tids n
    exact ⟨left, bounded_of_measure _ (progressing_step h.continues hfails) _ left hleft⟩
  · obtain ⟨left, hleft⟩ := progressing_of_steps h.continues hfails s hs
    obtain ⟨hperm, -⟩ := published_of_exited hn s hs hleft.1.1 (exited_of_stuck h.continues hfails hn s hs hstuck)
    exact Enumerates.perm (hterminals ▸ h.enumerates) hperm

/-- Three workers on the race. -/
theorem race_enumerated :
    ∃ exit, CleanRun raceConfig (fun _ => .continue) exit ∧ Enumerates raceConfig exit.terminals ∧
      ∀ s : ExplorerPool 3 ℕ, Steps (exploration raceConfig [0, 1, 2] (fun _ => .continue) 3) 8 (initial rootTask) s →
        (∀ w t, ¬ Step (exploration raceConfig [0, 1, 2] (fun _ => .continue) 3) 8 w s t) →
        Enumerates raceConfig s.published := by
  obtain ⟨exit, hexit⟩ := race_cleanRun .async
  obtain ⟨hexact, -, hpool⟩ := searches_enumerate raceConfig _ exit hexit [0, 1, 2] rfl 3 (by decide) 8
  exact ⟨exit, hexit, hexact, hpool⟩

end MustDpor

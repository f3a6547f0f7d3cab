import MustDpor.Algo.Soundness

/-! # Rounds under any executor

An executor may stop the search, decline a terminal, take a child away or let an observer throw in any
round. Whatever it does, the explorer only ever asks about, publishes and hands on what VISIT accounts for:
a disturbed round does what the undisturbed one does, or less. -/

namespace MustDpor
set_option autoImplicit false
open List

variable {V : Type}

/-! ## The graph a round computes the next event of -/

section Asked
variable (queries : Queries V) (maxDepth : ℕ) (answers : ExecutorAnswers V)

/-- The way of `enterVisit` to `computeNextEvent`. -/
def enteredNextEventGraph (graph : WorkerGraph V) (depth : ℕ) : Option (ExplorationGraph V) :=
  match answers.progress with
  | some _ => none
  | none => if answers.stopAfterProgress ∨ maxDepth ≤ depth then none else some graph.graph

/-- The way of `handleFrame` to `computeNextEvent`. -/
def Frame.nextEventGraph (frame : Frame V) (graph : WorkerGraph V) : Option (ExplorationGraph V) :=
  if answers.stopOnEntry then none
  else
    match frame.kind, frame.mode with
    | .enter, .visit => enteredNextEventGraph maxDepth answers graph frame.dporTreeDepth
    | .enter, .visitIfConsistent =>
      if answers.stopBeforeCheck then none
      else
        match queries.checkConsistency graph.graph with
        | .error _ => none
        | .ok (result, marks) =>
          if result.isConsistent then
            enteredNextEventGraph maxDepth answers (if marks then graph.markKnownAcyclic else graph)
              frame.dporTreeDepth
          else none
    | _, _ => none

/-- The graph a round computes the next event of, if it comes to that. -/
def Explorer.nextEventGraph (explorer : Explorer V) : Option (ExplorationGraph V) :=
  match explorer.contexts with
  | [] => none
  | context :: _ =>
    match context.frames with
    | [] => none
    | frame :: _ => frame.nextEventGraph queries maxDepth answers (context.graph explorer.borrowedGraph)

def Queries.withNextEvent (other : ExplorationGraph V → Except DporError (NextEventResult V)) : Queries V :=
  { queries with computeNextEvent := other }

variable [DecidableEq V] (tids : List ℕ) (other : ExplorationGraph V → Except DporError (NextEventResult V))

omit [DecidableEq V] in
theorem enterMaximal_withNextEvent (graph : WorkerGraph V) (frame : Frame V) (suppressed : Bool) :
    enterMaximal (queries.withNextEvent other) tids answers graph frame suppressed =
      enterMaximal queries tids answers graph frame suppressed := by
  have hfind (g : ExplorationGraph V) (ids : List ℕ) :
      findBlockedReceiveRescheduleChild (queries.withNextEvent other) answers g ids =
        findBlockedReceiveRescheduleChild queries answers g ids := by
    induction ids with
    | nil => rfl
    | cons tid rest ih =>
      unfold findBlockedReceiveRescheduleChild
      rw [ih]
      rfl
  unfold enterMaximal
  rw [hfind]

omit [DecidableEq V] in
theorem handleResumeSendRevisitsFrame_withNextEvent (graph : WorkerGraph V) (frame : Frame V) :
    handleResumeSendRevisitsFrame (queries.withNextEvent other) answers graph frame =
      handleResumeSendRevisitsFrame queries answers graph frame := by
  have hnext (g : ExplorationGraph V) (sendId index : ℕ) (receives : List ℕ) :
      nextBackwardRevisitChild (queries.withNextEvent other) g sendId receives index =
        nextBackwardRevisitChild queries g sendId receives index := by
    induction receives generalizing index with
    | nil => rfl
    | cons recvId rest ih =>
      unfold nextBackwardRevisitChild
      rw [ih]
      rfl
  unfold handleResumeSendRevisitsFrame
  simp only [hnext]

theorem enterVisit_withNextEvent {graph : WorkerGraph V} {frame : Frame V}
    (h : ∀ g, enteredNextEventGraph maxDepth answers graph frame.dporTreeDepth = some g →
      other g = queries.computeNextEvent g) :
    enterVisit (queries.withNextEvent other) tids maxDepth answers graph frame =
      enterVisit queries tids maxDepth answers graph frame := by
  unfold enterVisit
  unfold enteredNextEventGraph at h
  cases hprogress : answers.progress with
  | some e => rfl
  | none =>
    rw [hprogress] at h
    dsimp only at h ⊢
    by_cases hstop : answers.stopAfterProgress = true
    · rw [if_pos hstop, if_pos hstop]
    by_cases hdepth : maxDepth ≤ frame.dporTreeDepth
    · rw [if_neg hstop, if_neg hstop, if_pos hdepth, if_pos hdepth]
    rw [if_neg hstop, if_neg hstop, if_neg hdepth, if_neg hdepth]
    rw [if_neg (not_or.mpr ⟨hstop, hdepth⟩)] at h
    rw [show (queries.withNextEvent other).computeNextEvent graph.graph = queries.computeNextEvent graph.graph
      from h graph.graph rfl]
    simp only [enterMaximal_withNextEvent]
    rfl

/-- A round asks for the next event of that graph only: other answers elsewhere leave it as it is. -/
theorem iterate_withNextEvent (explorer : Explorer V)
    (h : ∀ g, explorer.nextEventGraph queries maxDepth answers = some g → other g = queries.computeNextEvent g) :
    explorer.iterate (queries.withNextEvent other) tids maxDepth answers =
      explorer.iterate queries tids maxDepth answers := by
  obtain ⟨borrowed, contexts⟩ := explorer
  cases contexts with
  | nil => rfl
  | cons context below =>
    obtain ⟨ownedGraph, frames⟩ := context
    cases frames with
    | nil => rfl
    | cons frame rest =>
      change ∀ g, frame.nextEventGraph queries maxDepth answers (Context.graph ⟨ownedGraph, frame :: rest⟩ borrowed) =
        some g → _ at h
      unfold Explorer.iterate
      dsimp only
      congr 1
      generalize Context.graph ⟨ownedGraph, frame :: rest⟩ borrowed = graph at h ⊢
      unfold Frame.nextEventGraph at h
      unfold handleFrame
      by_cases hstop : answers.stopOnEntry = true
      · rw [if_pos hstop, if_pos hstop]
      rw [if_neg hstop, if_neg hstop]
      rw [if_neg hstop] at h
      cases hkind : frame.kind with
      | enter =>
        rw [hkind] at h
        dsimp only
        unfold handleEnterFrame
        cases hmode : frame.mode with
        | visit =>
          rw [hmode] at h
          exact enterVisit_withNextEvent queries maxDepth answers tids other h
        | visitIfConsistent =>
          rw [hmode] at h
          dsimp only at h ⊢
          by_cases hcheck : answers.stopBeforeCheck = true
          · rw [if_pos hcheck, if_pos hcheck]
          rw [if_neg hcheck, if_neg hcheck]
          rw [if_neg hcheck] at h
          rw [show (queries.withNextEvent other).checkConsistency graph.graph =
            queries.checkConsistency graph.graph from rfl]
          cases hresult : queries.checkConsistency graph.graph with
          | error e => rfl
          | ok answer =>
            obtain ⟨result, marks⟩ := answer
            rw [hresult] at h
            dsimp only at h ⊢
            by_cases hconsistent : result.isConsistent = true
            · rw [if_pos hconsistent] at h
              rw [hconsistent]
              exact enterVisit_withNextEvent queries maxDepth answers tids other h
            · rw [Bool.not_eq_true] at hconsistent
              rw [hconsistent]
              rfl
      | resumeSendRevisits => exact handleResumeSendRevisitsFrame_withNextEvent queries answers other graph frame
      | _ => rfl

end Asked

/-! ## Disturbed rounds -/

namespace ExecutorAnswers

/-- The same answers without the stops and the exceptions. -/
def calmed (answers : ExecutorAnswers V) : ExecutorAnswers V :=
  { answers with
    stopOnEntry := false
    stopBeforeCheck := false
    progress := none
    stopAfterProgress := false
    stopAtThread := fun _ => false
    publishDeclined := false
    observer := fun _ => none }

theorem calmed_calm (answers : ExecutorAnswers V) : answers.calmed.Calm :=
  ⟨rfl, rfl, rfl, rfl, fun _ => rfl, rfl, fun _ => rfl⟩

def Throws (answers : ExecutorAnswers V) (e : DporError) : Prop :=
  answers.progress = some e ∨ ∃ terminal, answers.observer terminal = some e

end ExecutorAnswers

/-- What is left of an undisturbed step on a frame when the executor disturbs it. -/
inductive Disturbed (answers : ExecutorAnswers V) (graph : WorkerGraph V) (frame : Frame V)
    (calm step : FrameStep V) : Prop where
  | undisturbed : step = calm → Disturbed answers graph frame calm step
  | declined : calm.raised = none → calm.disposition = .pop → step = { calm with published := none } →
      Disturbed answers graph frame calm step
  | threw (raised : Raised) : step.raised = some raised →
      (calm.raised = some raised ∨ ∃ e, raised = .query e ∧ answers.Throws e) →
      (∀ terminal, step.published = some terminal → calm.published = some terminal) →
      Disturbed answers graph frame calm step
  | kept : step = .silent graph (.keep frame) → Disturbed answers graph frame calm step

section Disturbed
variable (queries : Queries V) (tids : List ℕ) (maxDepth : ℕ) (answers : ExecutorAnswers V)
  (graph : WorkerGraph V) (frame : Frame V)

theorem disturbed_publishAndPop (kind : TerminalExecutionKind) :
    Disturbed answers graph frame (publishAndPop answers.calmed graph frame kind)
      (publishAndPop answers graph frame kind) := by
  have hcalm := publishAndPop_calm answers.calmed answers.calmed_calm graph frame kind
  rw [hcalm]
  unfold publishAndPop
  cases hdeclined : answers.publishDeclined with
  | true => exact .declined rfl rfl rfl
  | false =>
    cases hobserver : answers.observer ⟨graph.graph, kind⟩ with
    | none => exact .undisturbed rfl
    | some e => exact .threw (.query e) rfl (.inr ⟨e, rfl, .inr ⟨_, hobserver⟩⟩) fun _ h => h

theorem disturbed_enterError (tid : ℕ) (label : EventLabel V) :
    Disturbed answers graph frame (enterError answers.calmed graph frame tid label)
      (enterError answers graph frame tid label) := by
  unfold enterError
  cases hadd : graph.addEvent tid label with
  | error e => exact .undisturbed rfl
  | ok answer =>
    obtain ⟨id, extended⟩ := answer
    dsimp only
    rw [publishAndPop_calm answers.calmed answers.calmed_calm]
    unfold publishAndPop
    cases hdeclined : answers.publishDeclined with
    | true =>
      cases hback : extended.rollback graph.checkpoint with
      | error e => exact .threw (.engine e) rfl (.inl rfl) nofun
      | ok restored => exact .declined rfl rfl rfl
    | false =>
      cases hobserver : answers.observer ⟨extended.graph, .error⟩ with
      | none =>
        cases hback : extended.rollback graph.checkpoint with
        | error | ok => exact .undisturbed rfl
      | some e =>
        cases hback : extended.rollback graph.checkpoint with
        | error | ok => exact .threw (.query e) rfl (.inr ⟨e, rfl, .inr ⟨_, hobserver⟩⟩) fun _ h => h

theorem find_reschedule_disturbed (g : ExplorationGraph V) (ids : List ℕ) :
    findBlockedReceiveRescheduleChild queries answers g ids = .ok .stopRequested ∨
      findBlockedReceiveRescheduleChild queries answers g ids =
        findBlockedReceiveRescheduleChild queries answers.calmed g ids := by
  induction ids with
  | nil => exact .inr rfl
  | cons tid rest ih =>
    unfold findBlockedReceiveRescheduleChild
    cases hstop : answers.stopAtThread tid with
    | true => exact .inl rfl
    | false =>
      rw [if_neg Bool.false_ne_true, if_neg (show ¬ answers.calmed.stopAtThread tid = true from Bool.false_ne_true)]
      cases hthread : queries.rescheduleThread g tid with
      | error e => exact .inr rfl
      | ok found =>
        cases found with
        | none => exact ih
        | some child => exact .inr rfl

theorem disturbed_enterMaximal (suppressed : Bool) :
    Disturbed answers graph frame (enterMaximal queries tids answers.calmed graph frame suppressed)
      (enterMaximal queries tids answers graph frame suppressed) := by
  unfold enterMaximal
  rcases find_reschedule_disturbed queries answers graph.graph tids with hstop | hsame
  · rw [hstop]
    exact .kept rfl
  · rw [hsame]
    cases findBlockedReceiveRescheduleChild queries answers.calmed graph.graph tids with
    | error e => exact .undisturbed rfl
    | ok found =>
      cases found with
      | none => exact disturbed_publishAndPop answers graph frame _
      | ready | stopRequested => exact .undisturbed rfl

variable [DecidableEq V]

theorem disturbed_enterVisit :
    Disturbed answers graph frame (enterVisit queries tids maxDepth answers.calmed graph frame)
      (enterVisit queries tids maxDepth answers graph frame) := by
  have hcalm := answers.calmed_calm
  unfold enterVisit
  simp only [hcalm.progress, hcalm.afterProgress, Bool.false_eq_true, if_false]
  cases hprogress : answers.progress with
  | some e => exact .threw (.query e) rfl (.inr ⟨e, rfl, .inl hprogress⟩) nofun
  | none =>
    dsimp only
    by_cases hstop : answers.stopAfterProgress = true
    · rw [if_pos hstop]
      exact .kept rfl
    rw [if_neg hstop]
    by_cases hdepth : maxDepth ≤ frame.dporTreeDepth
    · rw [if_pos hdepth, if_pos hdepth]
      exact disturbed_publishAndPop answers graph frame .depthLimit
    rw [if_neg hdepth, if_neg hdepth]
    cases queries.computeNextEvent graph.graph with
    | error e => exact .undisturbed rfl
    | ok next =>
      obtain ⟨next, suppressed⟩ := next
      cases next with
      | none => exact disturbed_enterMaximal queries tids answers graph frame suppressed
      | some event =>
        obtain ⟨tid, label⟩ := event
        cases label with
        | error l => exact disturbed_enterError answers graph frame tid (.error l)
        | _ => exact .undisturbed rfl

end Disturbed

/-! ## Steps and rounds -/

section Covered
variable [LinearOrder V] (config : DporConfig V) (tids : List ℕ) (answers : ExecutorAnswers V)

/-- Exceptions of a round: the program's fault, or thrown by an observer. -/
def Answered (raised : Raised) : Prop :=
  Permitted config tids raised ∨ ∃ e, raised = .query e ∧ answers.Throws e

def TaskAccounted (task : ExplorationTask V) : Prop :=
  task.graph.graph.Sound ∧ Accounted config tids (visitTask (Queries.ofConfig config tids) tids
    config.maxDepth task.graph.graph task.dporTreeDepth task.mode)

structure Covered (rest : List (Frame V)) (step : FrameStep V) : Prop where
  published : ∀ terminal, step.published = some terminal → Published config tids terminal
  raised : ∀ raised, step.raised = some raised → Answered config tids answers raised
  spawned : step.raised = none → ∀ task, step.spawned = some task → TaskAccounted config tids task
  left : step.raised = none → step.graph.graph.Sound ∧ ∃ after, Accounted config tids after ∧
    Remains (Queries.ofConfig config tids) tids config.maxDepth rest step.graph after step.disposition

variable {config tids answers}

variable {rest : List (Frame V)}

theorem Refines.covered {slack load : ℕ} {before : Search V} {step : FrameStep V}
    (h : Refines (Queries.ofConfig config tids) tids config.maxDepth slack rest before load step)
    (hall : Accounted config tids before) : Covered config tids answers rest step := by
  cases h with
  | raises raised opened later hraised hpublished hopens =>
    have hfail := hopens.all hall
    refine ⟨fun terminal h => ?_, fun other h => ?_, fun h => ?_, fun h => ?_⟩
    · rw [hpublished] at h
      cases h
    · rw [hraised] at h
      cases h
      exact .inl (hfail.fails raised mem_cons_self)
    · rw [hraised] at h
      cases h
    · rw [hraised] at h
      cases h
  | moves opened after hraised hsound hspawned hopens hleft hload =>
    obtain ⟨hpublished, hlater⟩ := Forest.All.of_append (hopens.all hall)
    obtain ⟨hhanded, hafter⟩ := Forest.All.of_append hlater
    refine ⟨fun terminal h => ?_, fun other h => ?_, fun _ task h => ?_, fun _ => ?_⟩
    · rw [h] at hpublished
      exact hpublished.leaves terminal mem_cons_self
    · rw [hraised] at h
      cases h
    · rw [h] at hhanded
      exact ⟨hspawned task h, hhanded⟩
    · exact ⟨hsound, after, hafter, hleft.remains _ _ _⟩

variable {calls : Search V}

theorem Disturbed.covered {graph : WorkerGraph V} {frame : Frame V} {calm step : FrameStep V}
    (h : Disturbed answers graph frame calm step) (hcalm : Covered config tids answers rest calm)
    (hsound : graph.graph.Sound) (hall : Accounted config tids calls)
    (hpending : Pending (Queries.ofConfig config tids) tids config.maxDepth graph (frame :: rest) calls) :
    Covered config tids answers rest step := by
  cases h with
  | undisturbed hsame =>
    rw [hsame]
    exact hcalm
  | declined hraised hpop hstep =>
    subst hstep
    exact ⟨nofun, hcalm.raised, hcalm.spawned, hcalm.left⟩
  | threw raised hraised hcause hpublished =>
    refine ⟨fun terminal h => hcalm.published terminal (hpublished terminal h), fun other h => ?_, fun h => ?_,
      fun h => ?_⟩
    · rw [hraised] at h
      cases h
      exact hcause.elim (hcalm.raised raised) Or.inr
    · rw [hraised] at h
      cases h
    · rw [hraised] at h
      cases h
  | kept hstep =>
    subst hstep
    exact ⟨nofun, nofun, nofun,
      fun _ => ⟨hsound, calls, hall, hpending⟩⟩

theorem covered_pop {graph : WorkerGraph V} (hsound : graph.graph.Sound) (hall : Accounted config tids calls)
    (hwaiting : Waiting (Queries.ofConfig config tids) tids config.maxDepth graph rest calls) :
    Covered config tids answers rest (.silent graph .pop) :=
  ⟨nofun, nofun, nofun, fun _ => ⟨hsound, calls, hall, hwaiting⟩⟩

theorem covered_enterVisit {graph : WorkerGraph V} {frame : Frame V} {rest : List (Frame V)}
    (hsound : graph.graph.Sound) (hkind : frame.kind = .enter) (hmode : frame.mode = .visit)
    (hall : Accounted config tids (visit (Queries.ofConfig config tids) tids config.maxDepth
      graph.graph frame.dporTreeDepth ++ calls))
    (hwaiting : Waiting (Queries.ofConfig config tids) tids config.maxDepth graph rest calls) :
    Covered config tids answers rest
      (enterVisit (Queries.ofConfig config tids) tids config.maxDepth answers graph frame) := by
  have hpending := Pending.enter graph frame rest calls hkind hwaiting
  rw [hmode] at hpending
  refine (disturbed_enterVisit _ tids config.maxDepth answers graph frame).covered ?_
    hsound hall hpending
  have hcalm : Refines (Queries.ofConfig config tids) tids config.maxDepth 0 rest _ _ _ :=
    refines_enterVisit answers.calmed answers.calmed_calm graph hsound rest calls hwaiting frame
  exact hcalm.covered hall

theorem covered_handleEnterFrame {graph : WorkerGraph V} {frame : Frame V}
    (hsound : graph.graph.Sound) (hkind : frame.kind = .enter)
    (hall : Accounted config tids (visitTask (Queries.ofConfig config tids) tids config.maxDepth
      graph.graph frame.dporTreeDepth frame.mode ++ calls))
    (hwaiting : Waiting (Queries.ofConfig config tids) tids config.maxDepth graph rest calls) :
    Covered config tids answers rest
      (handleEnterFrame (Queries.ofConfig config tids) tids config.maxDepth answers graph frame) := by
  cases hmode : frame.mode with
  | visit =>
    rw [hmode] at hall
    unfold handleEnterFrame
    rw [hmode]
    exact covered_enterVisit hsound hkind hmode hall hwaiting
  | visitIfConsistent =>
    by_cases hstop : answers.stopBeforeCheck = true
    · unfold handleEnterFrame
      rw [hmode]
      dsimp only
      rw [if_pos hstop]
      exact covered_pop hsound (Forest.All.of_append hall).2 hwaiting
    · have hrefines : Refines (Queries.ofConfig config tids) tids config.maxDepth 0 rest _ _ _ :=
        refines_handleEnterFrame answers.calmed answers.calmed_calm graph hsound rest calls hwaiting frame
      have hcalm : Covered config tids answers rest _ := hrefines.covered hall
      unfold handleEnterFrame at hcalm ⊢
      rw [hmode] at hcalm hall ⊢
      dsimp only at hcalm ⊢
      rw [if_neg hstop]
      rw [if_neg (show ¬ answers.calmed.stopBeforeCheck = true from Bool.false_ne_true)] at hcalm
      change Accounted config tids (.node _ (match (Queries.ofConfig config tids).checkConsistency graph.graph
        with | .error e => _ | .ok (result, marks) => _) _) at hall
      have hinner := (Forest.Opens.single _ _ _).all hall
      cases hcheck : (Queries.ofConfig config tids).checkConsistency graph.graph with
      | error e =>
        rw [hcheck] at hcalm
        exact hcalm
      | ok answer =>
        obtain ⟨result, marks⟩ := answer
        rw [hcheck] at hcalm hinner
        dsimp only at hcalm hinner ⊢
        cases hconsistent : result.isConsistent with
        | false =>
          rw [hconsistent] at hcalm
          exact hcalm
        | true =>
          rw [hconsistent, if_pos rfl] at hinner
          have hmarked : (if marks then graph.markKnownAcyclic else graph).graph =
              if marks then graph.graph.markKnownAcyclic else graph.graph := by cases marks <;> rfl
          rw [← hmarked] at hinner
          refine covered_enterVisit ?_ hkind rfl hinner ?_
          · cases marks with
            | true => exact hsound.withMetadata true none
            | false => exact hsound
          · cases marks with
            | true => exact hwaiting.withMetadata true none
            | false => exact hwaiting

theorem covered_handleFrame {graph : WorkerGraph V} {frame : Frame V}
    (hsound : graph.graph.Sound) (hall : Accounted config tids calls)
    (hpending : Pending (Queries.ofConfig config tids) tids config.maxDepth graph (frame :: rest) calls) :
    Covered config tids answers rest
      (handleFrame (Queries.ofConfig config tids) tids config.maxDepth answers graph frame) := by
  unfold handleFrame
  by_cases hstop : answers.stopOnEntry = true
  · rw [if_pos hstop]
    obtain ⟨restored, front, later, hunwind, hsound', rfl, hwaiting⟩ :=
      unwindFrame_pending hsound hpending
    rw [hunwind]
    exact covered_pop hsound' (Forest.All.of_append hall).2 hwaiting
  rw [if_neg hstop]
  have hrefines : Refines (Queries.ofConfig config tids) tids config.maxDepth 1 rest _ _ _ :=
    refines_handleFrame answers.calmed graph frame rest calls Nat.one_pos answers.calmed_calm hsound hpending
  have hcalm : Covered config tids answers rest _ := hrefines.covered hall
  unfold handleFrame at hcalm
  rw [if_neg (show ¬ answers.calmed.stopOnEntry = true from Bool.false_ne_true)] at hcalm
  cases hkind : frame.kind with
  | enter =>
    cases hpending with
    | enter _ _ later _ hwaiting => exact covered_handleEnterFrame hsound hkind hall hwaiting
    | revisits below _ _ sendId later hrevisits => exact absurd (hkind.symm.trans hrevisits) (by decide)
    | rolling _ _ _ hwaiting =>
      cases hwaiting with
      | frame _ below _ _ later hrolling =>
        unfold Frame.Rolling at hrolling
        rw [hkind] at hrolling
        exact hrolling.elim
  | _ =>
    rw [hkind] at hcalm
    exact hcalm

/-- The calls an explorer stands for are accounted for. -/
def Surveyed (config : DporConfig V) (tids : List ℕ) (explorer : Explorer V) : Prop :=
  ∃ calls, Accounted config tids calls ∧ PendingContexts (Queries.ofConfig config tids) tids
    config.maxDepth explorer.borrowedGraph explorer.contexts calls

structure RoundCovered (config : DporConfig V) (tids : List ℕ) (answers : ExecutorAnswers V)
    (outcome : Outcome V) : Prop where
  published : ∀ terminal, outcome.published = some terminal → Published config tids terminal
  raised : ∀ raised, outcome.raised = some raised → Answered config tids answers raised
  spawned : outcome.raised = none → ∀ task, outcome.spawned = some task → TaskAccounted config tids task
  left : outcome.raised = none → Surveyed config tids outcome.explorer

theorem Surveyed.iterate (explorer : Explorer V) (h : Surveyed config tids explorer)
    (answers : ExecutorAnswers V) :
    RoundCovered config tids answers
      (explorer.iterate (Queries.ofConfig config tids) tids config.maxDepth answers) := by
  obtain ⟨calls, hall, hpending⟩ := h
  obtain ⟨borrowed, contexts⟩ := explorer
  cases hpending with
  | done =>
    exact ⟨nofun, nofun, nofun, fun _ => ⟨.nil, hall, .done⟩⟩
  | borrowed frames _ hsound hpending =>
    cases frames with
    | nil => cases hpending
    | cons frame rest =>
      rw [iterate_borrowed]
      have hstep : Covered config tids answers rest _ :=
        covered_handleFrame hsound hall hpending
      refine ⟨hstep.published, hstep.raised, hstep.spawned, fun hraised => ?_⟩
      obtain ⟨hsound', after, hafter, hremains⟩ := hstep.left hraised
      refine ⟨after, hafter, ?_⟩
      dsimp only
      rw [append_nil]
      exact pendingContexts_settle_borrowed hsound' hremains
  | owned graph frames below front later hsound hpending hbelow =>
    cases frames with
    | nil => cases hpending
    | cons frame rest =>
      rw [iterate_owned]
      obtain ⟨hfront, hlater⟩ := Forest.All.of_append hall
      have hstep : Covered config tids answers rest _ :=
        covered_handleFrame hsound hfront hpending
      refine ⟨hstep.published, hstep.raised, hstep.spawned, fun hraised => ?_⟩
      obtain ⟨hsound', after, hafter, hremains⟩ := hstep.left hraised
      exact ⟨after ++ later, Forest.All.append hafter hlater,
        pendingContexts_settle_owned hsound' hremains hbelow⟩

theorem TaskAccounted.start (task : ExplorationTask V) (h : TaskAccounted config tids task) :
    Surveyed config tids (Explorer.start task.graph task.dporTreeDepth task.mode) := by
  refine ⟨_, h.2, .borrowed _ _ h.1 ?_⟩
  have hpending : Pending (Queries.ofConfig config tids) tids config.maxDepth task.graph _ _ :=
    .enter task.graph (Frame.enter task.dporTreeDepth task.mode) [] .nil rfl (.bottom _)
  rw [Forest.append_nil] at hpending
  exact hpending

theorem Surveyed.nextEventGraph (explorer : Explorer V) (h : Surveyed config tids explorer)
    (answers : ExecutorAnswers V) (g : ExplorationGraph V)
    (hg : explorer.nextEventGraph (Queries.ofConfig config tids) config.maxDepth answers = some g) :
    ∃ depth, depth < config.maxDepth ∧ Explored config g depth := by
  have hentered (graph : WorkerGraph V) (depth : ℕ) (later : Search V)
      (hall : Accounted config tids (visit (Queries.ofConfig config tids) tids config.maxDepth
        graph.graph depth ++ later))
      (hgraph : enteredNextEventGraph config.maxDepth answers graph depth = some g) :
      ∃ depth, depth < config.maxDepth ∧ Explored config g depth := by
    unfold enteredNextEventGraph at hgraph
    cases hprogress : answers.progress with
    | some e =>
      rw [hprogress] at hgraph
      cases hgraph
    | none =>
      rw [hprogress] at hgraph
      dsimp only at hgraph
      split at hgraph
      · cases hgraph
      · rename_i hnot
        cases hgraph
        rw [visit_eq] at hall
        exact ⟨depth, Nat.lt_of_not_le (not_or.mp hnot).2, hall.nodes _ mem_cons_self rfl⟩
  have hframe (graph : WorkerGraph V) (frame : Frame V) (rest : List (Frame V)) (calls : Search V)
      (hall : Accounted config tids calls)
      (hpending : Pending (Queries.ofConfig config tids) tids config.maxDepth graph (frame :: rest) calls)
      (hgraph : frame.nextEventGraph (Queries.ofConfig config tids) config.maxDepth answers graph = some g) :
      ∃ depth, depth < config.maxDepth ∧ Explored config g depth := by
    unfold Frame.nextEventGraph at hgraph
    split at hgraph
    · cases hgraph
    cases hpending with
    | rolling _ _ _ hwaiting =>
      cases hwaiting with
      | frame _ below _ _ later hrolling =>
        unfold Frame.Rolling at hrolling
        cases hkind : frame.kind <;> rw [hkind] at hgraph hrolling <;> first | exact hrolling.elim | cases hgraph
    | revisits below _ _ sendId later hkind =>
      rw [hkind] at hgraph
      cases hgraph
    | enter _ _ later hkind hwaiting =>
      rw [hkind] at hgraph
      cases hmode : frame.mode with
      | visit =>
        rw [hmode] at hgraph hall
        exact hentered graph frame.dporTreeDepth later hall hgraph
      | visitIfConsistent =>
        rw [hmode] at hgraph hall
        dsimp only at hgraph
        split at hgraph
        · cases hgraph
        have hinner := (Forest.Opens.single _ _ _).all hall
        cases hcheck : (Queries.ofConfig config tids).checkConsistency graph.graph with
        | error e =>
          rw [hcheck] at hgraph
          cases hgraph
        | ok answer =>
          obtain ⟨result, marks⟩ := answer
          rw [hcheck] at hgraph hinner
          dsimp only at hgraph hinner
          split at hgraph
          · rename_i hconsistent
            rw [if_pos hconsistent] at hinner
            refine hentered _ frame.dporTreeDepth later ?_ hgraph
            cases marks <;> exact hinner
          · cases hgraph
  obtain ⟨calls, hall, hpending⟩ := h
  obtain ⟨borrowed, contexts⟩ := explorer
  cases hpending with
  | done => cases hg
  | borrowed frames _ hsound hpending =>
    cases frames with
    | nil => cases hpending
    | cons frame rest => exact hframe borrowed frame rest calls hall hpending hg
  | owned graph frames below front later hsound hpending hbelow =>
    cases frames with
    | nil => cases hpending
    | cons frame rest => exact hframe graph frame rest front (Forest.All.of_append hall).1 hpending hg

end Covered

end MustDpor

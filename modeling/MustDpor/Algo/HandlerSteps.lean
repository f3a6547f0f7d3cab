import MustDpor.Algo.Explorer

/-! # What a round can do to the top frame

The handlers, read once: the ways in which a step on a context's graph and top frame can end. What holds along the
rounds of the explorer is checked against this list. -/

namespace MustDpor
set_option autoImplicit false
open List WorkerGraph

variable {V : Type}

/-! ## Graphs and frames of a step -/

/-- A graph, perhaps with one event on top of it. -/
inductive Tops (below : WorkerGraph V) : WorkerGraph V → Prop where
  | same : Tops below below
  | event (thread index : ℕ) (label : EventLabel V) : below.graph.graph.nextEventIndex thread = .ok index →
      Tops below (below.appended thread index label)
  | receive (above : WorkerGraph V) (thread index : ℕ) (label : EventLabel V) (source : ReadsFromSource) :
      below.graph.graph.nextEventIndex thread = .ok index →
      (below.appended thread index label).setReadsFromSource below.graph.eventCount source = .ok above →
      Tops below above

section Tops
variable {below above : WorkerGraph V} (h : Tops below above) (hsound : below.graph.Sound)
include h hsound

theorem Tops.rollback : above.rollback below.checkpoint = .ok below := by
  cases h with
  | same => exact below.rollback_checkpoint
  | event thread index label hnext => exact below.rollback_appended hsound label hnext
  | receive _ thread index label source hnext hset =>
    exact below.rollback_appended_setReadsFromSource above hsound hnext hset

theorem Tops.sound : above.graph.Sound := by
  cases h with
  | same => exact hsound
  | event thread index label hnext => exact hsound.appended label hnext
  | receive _ thread index label source hnext hset =>
    obtain ⟨g', hg', rfl⟩ := WorkerGraph.setReadsFromSource_inv hset
    exact (hsound.appended label hnext).assignReadsFrom hg'

end Tops

theorem addReceive_inv {graph graph' : WorkerGraph V} {tid : ℕ} {label : EventLabel V} {source : ReadsFromSource}
    (h : addReceive graph tid label source = .ok graph') :
    ∃ index, graph.graph.graph.nextEventIndex tid = .ok index ∧
      (graph.appended tid index label).setReadsFromSource graph.graph.eventCount source = .ok graph' := by
  obtain ⟨⟨id, extended⟩, hadd, hset⟩ := Except.bind_ok_iff.mp h
  obtain ⟨index, hnext, rfl, rfl⟩ := addEvent_inv hadd
  exact ⟨index, hnext, hset⟩

/-- How often a resumed frame can still be resumed. -/
def Frame.resumptions (frame : Frame V) : ℕ :=
  match frame.kind with
  | .enter | .exitLinearChild => 0
  | .resumeNd =>
    match frame.label with
    | some (.nondeterministicChoice nd) => nd.choices.length - frame.cursor
    | _ => 0
  | .resumeReceive => frame.candidateEventIds.length - frame.cursor + frame.flag.toNat
  | .resumeSendRevisits => frame.candidateEventIds.length - frame.cursor + 1

/-- What an Enter frame becomes once it has taken its checkpoint. -/
structure Frame.Enters (frame : Frame V) (graph : WorkerGraph V) (next : Frame V) : Prop where
  kind : next.kind ≠ .enter
  depth : next.dporTreeDepth = frame.dporTreeDepth
  checkpoint : next.checkpoint = graph.checkpoint

/-- What a resumed frame becomes: it keeps its checkpoint and has less to do. -/
structure Frame.Advances (frame next : Frame V) : Prop where
  kind : next.kind ≠ .enter
  depth : next.dporTreeDepth = frame.dporTreeDepth
  checkpoint : next.checkpoint = frame.checkpoint
  less : next.resumptions < frame.resumptions

/-- A poll after which the loop only unwinds. -/
def ExecutorAnswers.sawStop (answers : ExecutorAnswers V) : Prop :=
  answers.stopAfterProgress = true ∨ ∃ tid, answers.stopAtThread tid = true

/-! ## Enter frames -/

/-- A frame gets past its gate on a graph and goes on with another one. -/
inductive Admits (queries : Queries V) (graph : WorkerGraph V) : ExplorationTaskMode → WorkerGraph V → Prop where
  | visit : Admits queries graph .visit graph
  | checked (result : ConsistencyResult) (marks : Bool) :
      queries.checkConsistency graph.graph = .ok (result, marks) → result.isConsistent = true →
      Admits queries graph .visitIfConsistent (if marks then graph.markKnownAcyclic else graph)

/-- The next event is an Error that can be added, and the observer throws on its terminal. -/
structure FailsOnError (queries : Queries V) (maxDepth : ℕ) (answers : ExecutorAnswers V) (graph : WorkerGraph V)
    (frame : Frame V) (thread index : ℕ) (error : ErrorLabel) (e : DporError) : Prop where
  progress : answers.progress = none
  depth : frame.dporTreeDepth < maxDepth
  next : ∃ suppressed, queries.computeNextEvent graph.graph = .ok ⟨some (thread, .error error), suppressed⟩
  indexed : graph.graph.graph.nextEventIndex thread = .ok index
  observer : answers.observer ⟨(graph.appended thread index (.error error)).graph, .error⟩ = some e

/-- The ends of a step on an Enter frame, behind the consistency gate. -/
inductive EnterStep (queries : Queries V) (maxDepth : ℕ) (answers : ExecutorAnswers V) (graph : WorkerGraph V) (frame : Frame V) :
    FrameStep V → Prop where
  | engine (step : FrameStep V) (e : DporError) : step.raised = some (.engine e) → step.spawned = none →
      EnterStep queries maxDepth answers graph frame step
  | refused (e : DporError) : EnterStep queries maxDepth answers graph frame (.raise graph frame (.query e))
  | refusedLate (next : Frame V) (e : DporError) : frame.Enters graph next →
      EnterStep queries maxDepth answers graph frame (.raise graph next (.query e))
  | stopped : answers.sawStop → EnterStep queries maxDepth answers graph frame (.silent graph (.keep frame))
  | dropped : EnterStep queries maxDepth answers graph frame (.silent graph .pop)
  | published (terminal : Terminal V) :
      EnterStep queries maxDepth answers graph frame ⟨graph, .pop, some terminal, none, none⟩
  | threw (kind : TerminalExecutionKind) (e : DporError) : kind ≠ .error →
      EnterStep queries maxDepth answers graph frame
        ⟨graph, .keep frame, some ⟨graph.graph, kind⟩, none, some (.query e)⟩
  -- the error event has been taken back
  | recovered (restored : WorkerGraph V) (published : Option (Terminal V)) (thread index : ℕ) (label : EventLabel V) :
      graph.graph.graph.nextEventIndex thread = .ok index →
      (graph.appended thread index label).rollback graph.checkpoint = .ok restored →
      EnterStep queries maxDepth answers graph frame ⟨restored, .pop, published, none, none⟩
  -- the error event is still in the graph
  | threwOnError (thread index : ℕ) (error : ErrorLabel) (e : DporError) :
      FailsOnError queries maxDepth answers graph frame thread index error e →
      EnterStep queries maxDepth answers graph frame ⟨graph.appended thread index (.error error), .keep frame,
        some ⟨(graph.appended thread index (.error error)).graph, .error⟩, none, some (.query e)⟩
  | rescheduled (child : ExplorationGraph V) : child.Sound → child.blockCount < graph.graph.blockCount →
      EnterStep queries maxDepth answers graph frame (.silent graph (.replaceByOwned child frame.dporTreeDepth))
  | keeps (above : WorkerGraph V) (next : Frame V) : frame.dporTreeDepth < maxDepth → frame.Enters graph next →
      Tops graph above → EnterStep queries maxDepth answers graph frame (.silent above (.keep next))
  | pushes (above : WorkerGraph V) (next : Frame V) : frame.dporTreeDepth < maxDepth → frame.Enters graph next →
      Tops graph above →
      EnterStep queries maxDepth answers graph frame
        (.silent above (.push next (Frame.enter (frame.dporTreeDepth + 1) .visit)))

section Enter
variable (queries : Queries V) (tids : List ℕ) (maxDepth : ℕ) (answers : ExecutorAnswers V)
  (graph : WorkerGraph V) (frame : Frame V)

theorem publishAndPop_step {kind : TerminalExecutionKind} (hne : kind ≠ .error) :
    EnterStep queries maxDepth answers graph frame (publishAndPop answers graph frame kind) := by
  unfold publishAndPop
  split
  · exact .dropped
  · split
    · exact .threw kind _ hne
    · exact .published _

theorem find_reschedule_rebuilt {g child : ExplorationGraph V} {ids : List ℕ}
    (h : findBlockedReceiveRescheduleChild queries answers g ids = .ok (.ready child)) :
    child.Sound ∧ child.blockCount < g.blockCount := by
  induction ids with
  | nil => cases h
  | cons tid ids ih =>
    unfold findBlockedReceiveRescheduleChild at h
    split at h
    · cases h
    · obtain ⟨found, hfound, h⟩ := Except.bind_ok_iff.mp h
      cases found with
      | none => exact ih h
      | some ready =>
        cases h
        exact queries.reschedule_rebuilt g tid child hfound

theorem sawStop_of_stopRequested {g : ExplorationGraph V} {ids : List ℕ}
    (h : findBlockedReceiveRescheduleChild queries answers g ids = .ok .stopRequested) :
    answers.sawStop := by
  induction ids with
  | nil => cases h
  | cons tid rest ih =>
    unfold findBlockedReceiveRescheduleChild at h
    split at h
    · rename_i hstop
      exact .inr ⟨tid, hstop⟩
    · obtain ⟨answer, _, h⟩ := Except.bind_ok_iff.mp h
      cases answer with
      | none => exact ih h
      | some ready => cases h

theorem enterMaximal_step (suppressed : Bool) :
    EnterStep queries maxDepth answers graph frame (enterMaximal queries tids answers graph frame suppressed) := by
  unfold enterMaximal
  split
  · exact .refused _
  · rename_i hstop
    exact .stopped (sawStop_of_stopRequested queries answers hstop)
  · rename_i child hready
    obtain ⟨hsound, hless⟩ := find_reschedule_rebuilt queries answers hready
    exact .rescheduled child hsound hless
  · refine publishAndPop_step queries maxDepth answers graph frame ?_
    repeat' split
    all_goals simp

theorem enterLinearChild_step (hdepth : frame.dporTreeDepth < maxDepth) (tid : ℕ) (label : EventLabel V) :
    EnterStep queries maxDepth answers graph frame (enterLinearChild graph frame tid label) := by
  unfold enterLinearChild
  split
  · exact .engine _ _ rfl rfl
  · rename_i id extended hadd
    obtain ⟨index, hnext, -, rfl⟩ := addEvent_inv hadd
    exact .pushes _ _ hdepth ⟨(nomatch ·), rfl, rfl⟩ (.event tid index label hnext)

theorem enterError_step (hprogress : answers.progress = none) (hdepth : frame.dporTreeDepth < maxDepth) {tid : ℕ}
    {error : ErrorLabel} {suppressed : Bool}
    (hnext : queries.computeNextEvent graph.graph = .ok ⟨some (tid, .error error), suppressed⟩) :
    EnterStep queries maxDepth answers graph frame (enterError answers graph frame tid (.error error)) := by
  unfold enterError
  split
  · exact .engine _ _ rfl rfl
  · rename_i id extended hadd
    obtain ⟨index, hindex, -, rfl⟩ := addEvent_inv hadd
    unfold publishAndPop
    cases hobserver : answers.observer ⟨(graph.appended tid index (.error error)).graph, .error⟩ with
    | some e =>
      cases answers.publishDeclined with
      | false => exact .threwOnError tid index error e ⟨hprogress, hdepth, ⟨suppressed, hnext⟩, hindex, hobserver⟩
      | true =>
        cases hroll : (graph.appended tid index (.error error)).rollback graph.checkpoint with
        | error e => exact .engine _ e rfl rfl
        | ok restored => exact .recovered restored _ tid index _ hindex hroll
    | none =>
      cases hroll : (graph.appended tid index (.error error)).rollback graph.checkpoint with
      | error e => cases answers.publishDeclined <;> exact .engine _ e rfl rfl
      | ok restored => cases answers.publishDeclined <;> exact .recovered restored _ tid index _ hindex hroll

variable [DecidableEq V]

theorem enterEvent_step (hprogress : answers.progress = none) (hdepth : frame.dporTreeDepth < maxDepth) {tid : ℕ}
    {label : EventLabel V} {suppressed : Bool}
    (hnext : queries.computeNextEvent graph.graph = .ok ⟨some (tid, label), suppressed⟩) :
    EnterStep queries maxDepth answers graph frame (enterEvent queries answers graph frame tid label) := by
  unfold enterEvent
  split
  · exact enterError_step queries maxDepth answers graph frame hprogress hdepth hnext
  · unfold enterNondeterministicChoice
    split
    · exact enterLinearChild_step queries maxDepth answers graph frame hdepth tid _
    · exact .keeps graph _ hdepth ⟨(nomatch ·), rfl, rfl⟩ .same
  · unfold enterReceive
    dsimp only
    split
    · exact .refusedLate _ _ ⟨(nomatch ·), rfl, rfl⟩
    · exact .keeps graph _ hdepth ⟨(nomatch ·), rfl, rfl⟩ .same
  · unfold enterSend
    split
    · exact .engine _ _ rfl rfl
    · rename_i id extended hadd
      obtain ⟨index, hindex, -, rfl⟩ := addEvent_inv hadd
      exact .keeps _ _ hdepth ⟨(nomatch ·), rfl, rfl⟩ (.event tid index _ hindex)
  · exact enterLinearChild_step queries maxDepth answers graph frame hdepth tid _

theorem enterVisit_step :
    EnterStep queries maxDepth answers graph frame (enterVisit queries tids maxDepth answers graph frame) := by
  unfold enterVisit
  split
  · exact .refused _
  · rename_i hprogress
    split
    · rename_i hstop
      exact .stopped (.inl hstop)
    · split
      · exact publishAndPop_step queries maxDepth answers graph frame (nomatch ·)
      · rename_i hdepth
        split
        · exact .refused _
        · exact enterMaximal_step queries tids maxDepth answers graph frame _
        · exact enterEvent_step queries maxDepth answers graph frame hprogress (Nat.lt_of_not_le hdepth) ‹_›

end Enter

/-! ## Resumed frames -/

/-- The ends of a step on a frame that is no Enter frame. -/
inductive ResumeStep (answers : ExecutorAnswers V) (graph : WorkerGraph V) (frame : Frame V) : FrameStep V → Prop where
  | engine (g : WorkerGraph V) (left : Frame V) (e : DporError) :
      ResumeStep answers graph frame (.raise g left (.engine e))
  | popped (below : WorkerGraph V) : graph.rollback frame.checkpoint = .ok below →
      ResumeStep answers graph frame (.silent below .pop)
  | pushes (below above : WorkerGraph V) (next : Frame V) (mode : ExplorationTaskMode) :
      graph.rollback frame.checkpoint = .ok below → frame.Advances next → Tops below above →
      ResumeStep answers graph frame (.silent above (.push next (Frame.enter (frame.dporTreeDepth + 1) mode)))
  | handsOn (below : WorkerGraph V) (next : Frame V) (task : ExplorationTask V) :
      graph.rollback frame.checkpoint = .ok below → frame.Advances next → answers.enqueueAccepted = true →
      ResumeStep answers graph frame (.spawn below next task)
  -- a send frame goes through the receives before it is rolled back
  | refused (e : DporError) : ResumeStep answers graph frame (.raise graph frame (.query e))
  | revisits (next : Frame V) (child : ExplorationGraph V) : frame.Advances next → child.Sound →
      ResumeStep answers graph frame (.silent graph (.pushOwned next child (frame.dporTreeDepth + 1)))
  | revisitHandsOn (next : Frame V) (task : ExplorationTask V) : frame.Advances next →
      answers.enqueueAccepted = true → ResumeStep answers graph frame (.spawn graph next task)
  | revisited (next : Frame V) : frame.Advances next →
      ResumeStep answers graph frame (.silent graph (.push next (Frame.enter (frame.dporTreeDepth + 1) .visit)))

section Resume
variable (queries : Queries V) (answers : ExecutorAnswers V) (graph : WorkerGraph V) (frame : Frame V)

theorem rollbackAndPopTopFrame_step : ResumeStep answers graph frame (rollbackAndPopTopFrame graph frame) := by
  unfold rollbackAndPopTopFrame
  split
  · exact .engine _ _ _
  · exact .popped _ ‹_›

theorem handleResumeNdFrame_step (hkind : frame.kind = .resumeNd) :
    ResumeStep answers graph frame (handleResumeNdFrame answers graph frame) := by
  unfold handleResumeNdFrame
  split
  · exact .engine _ _ _
  rename_i restored hroll
  split
  · exact .engine _ _ _
  · rename_i nd hlabel
    split
    · exact .engine _ _ _
    split
    · exact .popped restored hroll
    rename_i choice hchoice
    have hkind' : frame.advance.kind = .resumeNd := hkind
    have hlabel' : frame.advance.label = some (.nondeterministicChoice nd) := hlabel
    have hadvances : frame.Advances frame.advance := by
      refine ⟨by rw [hkind']; exact (nomatch ·), rfl, rfl, ?_⟩
      have hcursor := (List.getElem?_eq_some_iff.mp hchoice).1
      unfold Frame.resumptions
      rw [hkind', hkind, hlabel, hlabel']
      show nd.choices.length - (frame.cursor + 1) < nd.choices.length - frame.cursor
      omega
    have hlocal : ResumeStep answers graph frame (resumeNdLocal restored frame (nd.choose choice)) := by
      unfold resumeNdLocal
      split
      · exact .engine _ _ _
      · rename_i id extended hadd
        obtain ⟨index, hnext, -, rfl⟩ := WorkerGraph.addEvent_inv hadd
        exact .pushes restored _ _ .visit hroll hadvances (.event _ index _ hnext)
    unfold resumeNdChoice
    split
    · split
      · exact .engine _ _ _
      · split
        · exact .handsOn restored _ _ hroll hadvances ‹_›
        · exact hlocal
    · exact hlocal
  · exact .engine _ _ _

theorem resumeReceiveLocal_step {restored : WorkerGraph V} (hroll : graph.rollback frame.checkpoint = .ok restored)
    (label : EventLabel V) (source : ReadsFromSource) (next : Frame V) (hadvances : frame.Advances next) :
    ResumeStep answers graph frame (resumeReceiveLocal restored frame label source next) := by
  unfold resumeReceiveLocal
  split
  · exact .engine _ _ _
  · rename_i extended hadd
    obtain ⟨index, hnext, hset⟩ := addReceive_inv hadd
    exact .pushes restored extended next .visitIfConsistent hroll hadvances (.receive _ _ index _ _ hnext hset)

theorem handleResumeReceiveFrame_step (hkind : frame.kind = .resumeReceive) :
    ResumeStep answers graph frame (handleResumeReceiveFrame answers graph frame) := by
  have hadvances (next : Frame V) (hnext : next.kind = .resumeReceive)
      (hdepth : next.dporTreeDepth = frame.dporTreeDepth) (hcheckpoint : next.checkpoint = frame.checkpoint)
      (hless : next.candidateEventIds.length - next.cursor + next.flag.toNat <
        frame.candidateEventIds.length - frame.cursor + frame.flag.toNat) : frame.Advances next := by
    refine ⟨by rw [hnext]; exact (nomatch ·), hdepth, hcheckpoint, ?_⟩
    unfold Frame.resumptions
    rw [hnext, hkind]
    exact hless
  unfold handleResumeReceiveFrame
  split
  · exact .engine _ _ _
  rename_i restored hroll
  split
  · exact .engine _ _ _
  · split
    · rename_i sendId hsend
      have hcursor := (List.getElem?_eq_some_iff.mp hsend).1
      have hnext : frame.Advances frame.advance := hadvances _ hkind rfl rfl (by
        show frame.candidateEventIds.length - (frame.cursor + 1) + frame.flag.toNat < _
        omega)
      have hlocal := resumeReceiveLocal_step answers graph frame hroll
      unfold resumeReceiveCandidate
      split
      · split
        · exact .engine _ _ _
        · split
          · exact .handsOn restored _ _ hroll hnext ‹_›
          · exact hlocal _ _ _ hnext
      · exact hlocal _ _ _ hnext
    · split
      · rename_i hflag
        refine resumeReceiveLocal_step answers graph frame hroll _ _ _ (hadvances _ hkind rfl rfl ?_)
        rw [hflag]
        exact Nat.lt_succ_self _
      · exact .popped restored hroll
  · exact .engine _ _ _

theorem nextBackwardRevisitChild_ready (g child : ExplorationGraph V) (sendId next : ℕ) (receives : List ℕ) (index : ℕ)
    (h : nextBackwardRevisitChild queries g sendId receives index = .ok (next, some child)) :
    child.Sound ∧ index < next ∧ next ≤ index + receives.length := by
  induction receives generalizing index with
  | nil => cases h
  | cons recvId receives ih =>
    obtain ⟨found, hfound, h⟩ := Except.bind_ok_iff.mp h
    rw [length_cons]
    cases found with
    | none =>
      obtain ⟨hsound, hlt, hle⟩ := ih _ h
      exact ⟨hsound, by omega, by omega⟩
    | some revisited =>
      cases h
      exact ⟨(queries.revisit_rebuilt g sendId recvId child hfound).1, by omega, by omega⟩

theorem handleResumeSendRevisitsFrame_step (hkind : frame.kind = .resumeSendRevisits) :
    ResumeStep answers graph frame (handleResumeSendRevisitsFrame queries answers graph frame) := by
  have hresumptions : frame.resumptions = frame.candidateEventIds.length - frame.cursor + 1 := by
    unfold Frame.resumptions
    rw [hkind]
  unfold handleResumeSendRevisitsFrame
  split
  · exact .engine _ _ _
  split
  · exact .engine _ _ _
  split
  · exact .refused _
  · rename_i next child hchild
    obtain ⟨hsound, hlt, hle⟩ := nextBackwardRevisitChild_ready queries _ child _ next _ _ hchild
    rw [length_drop] at hle
    have hkind' : (frame.resumeAt next).kind = .resumeSendRevisits := hkind
    have hadvances : frame.Advances (frame.resumeAt next) := by
      refine ⟨by rw [hkind']; exact (nomatch ·), rfl, rfl, ?_⟩
      rw [hresumptions]
      unfold Frame.resumptions
      rw [hkind']
      show frame.candidateEventIds.length - next + 1 < _
      omega
    split
    · rename_i henqueue
      exact .revisitHandsOn _ _ hadvances henqueue.2
    · exact .revisits _ child hadvances hsound
  · exact .revisited _ ⟨(nomatch ·), rfl, rfl, by rw [hresumptions]; exact Nat.succ_pos _⟩

end Resume

/-! ## All frames -/

inductive Handled (queries : Queries V) (maxDepth : ℕ) (answers : ExecutorAnswers V) (graph : WorkerGraph V) (frame : Frame V)
    (step : FrameStep V) : Prop where
  | unwound : frame.kind = .enter → step = .silent graph .pop → Handled queries maxDepth answers graph frame step
  | entered (known : Bool) (pending : Option ℕ) (mode : ExplorationTaskMode) : frame.kind = .enter →
      answers.stopOnEntry = false →
      step.published = none ∨ Admits queries graph frame.mode (graph.withMetadata known pending) →
      EnterStep queries maxDepth answers (graph.withMetadata known pending) { frame with mode := mode } step →
      Handled queries maxDepth answers graph frame step
  | resumed : frame.kind ≠ .enter → ResumeStep answers graph frame step → Handled queries maxDepth answers graph frame step

section Handled
variable [DecidableEq V] (queries : Queries V) (tids : List ℕ) (maxDepth : ℕ) (answers : ExecutorAnswers V)
  (graph : WorkerGraph V) (frame : Frame V)

theorem handleEnterFrame_step (hkind : frame.kind = .enter) (hstop : answers.stopOnEntry = false) :
    Handled queries maxDepth answers graph frame (handleEnterFrame queries tids maxDepth answers graph frame) := by
  unfold handleEnterFrame
  split
  · rename_i hmode
    exact .entered graph.graph.knownAcyclic graph.graph.pendingFreshReceiveId frame.mode hkind hstop
      (.inr (hmode ▸ .visit)) (enterVisit_step queries tids maxDepth answers graph frame)
  rename_i hmode
  split
  · exact .entered graph.graph.knownAcyclic graph.graph.pendingFreshReceiveId frame.mode hkind hstop (.inl rfl) .dropped
  split
  · exact .entered graph.graph.knownAcyclic graph.graph.pendingFreshReceiveId frame.mode hkind hstop (.inl rfl)
      (.refused _)
  rename_i result marks hcheck
  obtain ⟨known, pending, hchecked⟩ : ∃ known pending,
      (if marks then graph.markKnownAcyclic else graph) = graph.withMetadata known pending := by
    cases marks with
    | true => exact ⟨true, none, rfl⟩
    | false => exact ⟨graph.graph.knownAcyclic, graph.graph.pendingFreshReceiveId, rfl⟩
  dsimp only
  rw [hchecked]
  split
  · exact .entered known pending frame.mode hkind hstop (.inl rfl) .dropped
  · rename_i hconsistent
    have hadmits := Admits.checked result marks hcheck (by simpa using hconsistent)
    rw [hchecked] at hadmits
    exact .entered known pending .visit hkind hstop (.inr (hmode ▸ hadmits))
      (enterVisit_step queries tids maxDepth answers _ _)

theorem handleFrame_step :
    Handled queries maxDepth answers graph frame (handleFrame queries tids maxDepth answers graph frame) := by
  have hresumed (hne : frame.kind ≠ .enter) : Handled queries maxDepth answers graph frame (rollbackAndPopTopFrame graph frame) :=
    .resumed hne (rollbackAndPopTopFrame_step answers graph frame)
  unfold handleFrame unwindFrame
  by_cases hstop : answers.stopOnEntry = true
  · rw [if_pos hstop]
    split
    · exact .unwound ‹_› rfl
    · exact hresumed ‹_›
  rw [if_neg hstop]
  split
  · exact handleEnterFrame_step queries tids maxDepth answers graph frame ‹_› (Bool.not_eq_true _ ▸ hstop)
  · rename_i hkind
    exact hresumed (by rw [hkind]; exact (nomatch ·))
  · rename_i hkind
    exact .resumed (by rw [hkind]; exact (nomatch ·)) (handleResumeNdFrame_step answers graph frame hkind)
  · rename_i hkind
    exact .resumed (by rw [hkind]; exact (nomatch ·)) (handleResumeReceiveFrame_step answers graph frame hkind)
  · rename_i hkind
    exact .resumed (by rw [hkind]; exact (nomatch ·))
      (handleResumeSendRevisitsFrame_step queries answers graph frame hkind)

theorem kind_of_published {terminal : Terminal V}
    (h : (handleFrame queries tids maxDepth answers graph frame).published = some terminal) :
    frame.kind = .enter := by
  rcases handleFrame_step queries tids maxDepth answers graph frame with
    ⟨hkind, -⟩ | ⟨-, -, -, hkind, -, -, -⟩ | ⟨-, hstep⟩
  · exact hkind
  · exact hkind
  · generalize handleFrame queries tids maxDepth answers graph frame = step at h hstep
    cases hstep <;> cases h

theorem handleFrame_spawned {task : ExplorationTask V}
    (h : (handleFrame queries tids maxDepth answers graph frame).spawned = some task) :
    frame.kind ≠ .enter ∧ answers.enqueueAccepted = true ∧
      ∃ g kept, handleFrame queries tids maxDepth answers graph frame = .spawn g kept task := by
  have hstep := handleFrame_step queries tids maxDepth answers graph frame
  generalize handleFrame queries tids maxDepth answers graph frame = step at h hstep ⊢
  cases hstep with
  | unwound _ hstep =>
    rw [hstep] at h
    cases h
  | entered known pending mode _ _ _ hstep =>
    cases hstep with
    | engine _ _ _ hspawned =>
      rw [hspawned] at h
      cases h
    | _ => cases h
  | resumed hkind hstep =>
    cases hstep with
    | handsOn below next _ _ _ haccepted =>
      cases h
      exact ⟨hkind, haccepted, below, next, rfl⟩
    | revisitHandsOn next _ _ haccepted =>
      cases h
      exact ⟨hkind, haccepted, graph, next, rfl⟩
    | _ => cases h

end Handled
end MustDpor

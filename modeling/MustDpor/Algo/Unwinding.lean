import MustDpor.Algo.HandlerSteps
import MustDpor.Algo.Verify

/-! # The caller's graph on every exit

A context's graph is layered over the graph it was entered with: every frame that is not an Enter
frame holds a checkpoint to which the graph can be rolled back, and what is underneath is layered in
the same way (`Layered`). Each handler keeps the layers, with one exception: in the Error branch the
observer runs while the error event is in the graph and the frame is still an Enter frame, which
unwinding drops without a rollback. Below another frame that frame's rollback takes the event back;
the root frame has none below it. -/

namespace MustDpor
set_option autoImplicit false
open List WorkerGraph

variable {V : Type}

/-! ## Layers -/

inductive Layered (entry : WorkerGraph V) : WorkerGraph V → List (Frame V) → Prop where
  | base (known : Bool) (pending : Option ℕ) : Layered entry (entry.withMetadata known pending) []
  | enter (graph : WorkerGraph V) (frame : Frame V) (rest : List (Frame V)) :
      frame.kind = .enter → Layered entry graph rest → Layered entry graph (frame :: rest)
  | resume (graph below : WorkerGraph V) (frame : Frame V) (rest : List (Frame V)) :
      frame.kind ≠ .enter → graph.rollback frame.checkpoint = .ok below →
      below.checkpoint = frame.checkpoint → below.graph.Sound → Layered entry below rest →
      Layered entry graph (frame :: rest)

theorem Layered.withMetadata {entry graph : WorkerGraph V} {frames : List (Frame V)}
    (h : Layered entry graph frames) (known : Bool) (pending : Option ℕ) :
    Layered entry (graph.withMetadata known pending) frames := by
  induction h with
  | base k p => exact Layered.base known pending
  | enter graph frame rest hkind _ ih => exact Layered.enter _ frame rest hkind ih
  | resume graph below frame rest hkind hroll hcp hsound hbelow _ =>
    refine Layered.resume _ below frame rest hkind ?_ hcp hsound hbelow
    rw [rollback_withMetadata]
    exact hroll

variable {frame : Frame V}

theorem Layered.of_enter {entry graph : WorkerGraph V} {rest : List (Frame V)}
    (hkind : frame.kind = .enter) (h : Layered entry graph (frame :: rest)) :
    Layered entry graph rest := by
  cases h with
  | enter _ _ _ _ hrest => exact hrest
  | resume _ _ _ _ hne => exact absurd hkind hne

theorem Layered.of_resume {entry graph : WorkerGraph V} {rest : List (Frame V)}
    (hkind : frame.kind ≠ .enter) (h : Layered entry graph (frame :: rest)) :
    ∃ below, graph.rollback frame.checkpoint = .ok below ∧ below.checkpoint = frame.checkpoint ∧
      below.graph.Sound ∧ Layered entry below rest := by
  cases h with
  | enter _ _ _ heq => exact absurd heq hkind
  | resume _ below _ _ _ hroll hcp hsound hbelow => exact ⟨below, hroll, hcp, hsound, hbelow⟩

theorem Layered.over {entry below above : WorkerGraph V} {rest : List (Frame V)}
    (hkind : frame.kind ≠ .enter) (hcp : frame.checkpoint = below.checkpoint) (htops : Tops below above)
    (hsound : below.graph.Sound) (h : Layered entry below rest) : Layered entry above (frame :: rest) :=
  Layered.resume above below frame rest hkind (by rw [hcp]; exact htops.rollback hsound) hcp.symm hsound h

theorem Layered.reframe {entry graph : WorkerGraph V} {frame' : Frame V} {rest : List (Frame V)}
    (hkind : frame.kind ≠ .enter) (hkind' : frame'.kind ≠ .enter)
    (hcp : frame'.checkpoint = frame.checkpoint) (h : Layered entry graph (frame :: rest)) :
    Layered entry graph (frame' :: rest) := by
  obtain ⟨below, hroll, hbelow, hsound, hlayers⟩ := h.of_resume hkind
  refine Layered.resume graph below frame' rest hkind' ?_ ?_ hsound hlayers
  · rw [hcp]
    exact hroll
  · rw [hcp]
    exact hbelow

/-! ## What a handler leaves -/

def Disposed (entry : WorkerGraph V) (rest : List (Frame V)) (graph : WorkerGraph V) :
    Disposition V → Prop
  | .keep frame => Layered entry graph (frame :: rest)
  | .push frame child => Layered entry graph (child :: frame :: rest)
  | .pop => Layered entry graph rest
  | .replaceByOwned child _ => Layered entry graph rest ∧ child.Sound
  | .pushOwned frame child _ => Layered entry graph (frame :: rest) ∧ child.Sound

/-- An Error terminal was published and the observer threw on it. -/
def FrameStep.Threw (step : FrameStep V) : Prop :=
  (∃ terminal, step.published = some terminal ∧ terminal.kind = .error) ∧ ∃ e, step.raised = some (.query e)

/-- After an observer threw on an Error terminal the error event is still in the graph. -/
structure ErrorEventLeft (entry : WorkerGraph V) (rest : List (Frame V)) (graph : WorkerGraph V)
    (step : FrameStep V) : Prop where
  below : Layered entry graph rest
  published : ∃ terminal, step.published = some terminal ∧ terminal.kind = .error
  raised : ∃ e, step.raised = some (.query e)
  kept : ∃ frame, step.disposition = .keep frame ∧ frame.kind = .enter
  graph_eq : ∃ known pending thread index label, label.isError = true ∧
    graph.graph.graph.nextEventIndex thread = .ok index ∧
    step.graph = (graph.withMetadata known pending).appended thread index label

def StepKeepsLayers (entry : WorkerGraph V) (rest : List (Frame V)) (graph : WorkerGraph V)
    (step : FrameStep V) : Prop :=
  (∃ e, step.raised = some (.engine e)) ∨ ErrorEventLeft entry rest graph step ∨
    (Disposed entry rest step.graph step.disposition ∧ step.graph.graph.Sound ∧ ¬ step.Threw)

variable {step : FrameStep V}

theorem not_threw_of_silent (h : step.published = none) : ¬ step.Threw := by
  rintro ⟨⟨terminal, hpublished, -⟩, -⟩
  cases h.symm.trans hpublished

theorem not_threw_of_calm (h : step.raised = none) : ¬ step.Threw := by
  rintro ⟨-, e, hraised⟩
  cases h.symm.trans hraised

section Steps
variable {queries : Queries V} (answers : ExecutorAnswers V) (maxDepth : ℕ) (entry graph : WorkerGraph V) (rest : List (Frame V))

theorem keepsLayers_silent {disposition : Disposition V} {step : WorkerGraph V}
    (h : Disposed entry rest step disposition) (hsound : step.graph.Sound) :
    StepKeepsLayers entry rest graph (.silent step disposition) :=
  Or.inr (.inr ⟨h, hsound, not_threw_of_silent rfl⟩)

theorem keepsLayers_raise {step : WorkerGraph V} (raised : Raised)
    (h : Layered entry step (frame :: rest)) (hsound : step.graph.Sound) :
    StepKeepsLayers entry rest graph (.raise step frame raised) :=
  Or.inr (.inr ⟨h, hsound, not_threw_of_silent rfl⟩)

theorem StepKeepsLayers.of_withMetadata (known : Bool) (pending : Option ℕ) (step : FrameStep V)
    (h : StepKeepsLayers entry rest (graph.withMetadata known pending) step) :
    StepKeepsLayers entry rest graph step := by
  rcases h with h | h | h
  · exact .inl h
  · obtain ⟨k, p, thread, index, label, herror, hnext, hgraph⟩ := h.graph_eq
    exact .inr (.inl ⟨h.below.withMetadata graph.graph.knownAcyclic
      graph.graph.pendingFreshReceiveId, h.published, h.raised, h.kept,
      ⟨k, p, thread, index, label, herror, hnext, hgraph⟩⟩)
  · exact .inr (.inr h)

theorem EnterStep.keepsLayers (h : EnterStep queries maxDepth answers graph frame step)
    (hkind : frame.kind = .enter) (hlayers : Layered entry graph rest) (hsound : graph.graph.Sound) :
    StepKeepsLayers entry rest graph step := by
  have hframe := Layered.enter graph frame rest hkind hlayers
  have hover (above : WorkerGraph V) (next : Frame V) (henters : frame.Enters graph next) (htops : Tops graph above) :
      Layered entry above (next :: rest) :=
    Layered.over henters.kind henters.checkpoint htops hsound hlayers
  cases h with
  | engine _ e hraised _ => exact .inl ⟨e, hraised⟩
  | refused e => exact keepsLayers_raise entry graph rest _ hframe hsound
  | refusedLate next e henters => exact keepsLayers_raise entry graph rest _ (hover _ _ henters .same) hsound
  | stopped _ => exact keepsLayers_silent entry graph rest hframe hsound
  | dropped => exact keepsLayers_silent entry graph rest hlayers hsound
  | published terminal => exact .inr (.inr ⟨hlayers, hsound, not_threw_of_calm rfl⟩)
  | threw kind e hne =>
    refine .inr (.inr ⟨hframe, hsound, ?_⟩)
    rintro ⟨⟨terminal, hpublished, herror⟩, -⟩
    cases hpublished
    exact hne herror
  | recovered restored published thread index label hnext hroll =>
    obtain rfl := Except.ok.inj ((graph.rollback_appended hsound label hnext).symm.trans hroll)
    exact .inr (.inr ⟨hlayers, hsound, not_threw_of_calm rfl⟩)
  | threwOnError thread index error e hfails =>
    exact .inr (.inl ⟨hlayers, ⟨_, rfl, rfl⟩, ⟨e, rfl⟩, ⟨frame, rfl, hkind⟩, ⟨graph.graph.knownAcyclic,
      graph.graph.pendingFreshReceiveId, thread, index, _, rfl, hfails.indexed, rfl⟩⟩)
  | rescheduled child hchild _ => exact keepsLayers_silent entry graph rest ⟨hlayers, hchild⟩ hsound
  | keeps above next _ henters htops =>
    exact keepsLayers_silent entry graph rest (hover _ _ henters htops) (htops.sound hsound)
  | pushes above next _ henters htops =>
    exact keepsLayers_silent entry graph rest (Layered.enter _ _ _ rfl (hover _ _ henters htops))
      (htops.sound hsound)

theorem ResumeStep.keepsLayers (h : ResumeStep answers graph frame step)
    (hkind : frame.kind ≠ .enter) (hlayers : Layered entry graph (frame :: rest)) (hsound : graph.graph.Sound) :
    StepKeepsLayers entry rest graph step := by
  obtain ⟨below, hroll, hcp, hsound', hbelow⟩ := hlayers.of_resume hkind
  have hsame (restored : WorkerGraph V) (hrestored : graph.rollback frame.checkpoint = .ok restored) :
      restored = below := Except.ok.inj (hrestored.symm.trans hroll)
  have hover (above : WorkerGraph V) (next : Frame V) (hadvances : frame.Advances next) (htops : Tops below above) :
      Layered entry above (next :: rest) :=
    Layered.over hadvances.kind (hadvances.checkpoint.trans hcp.symm) htops hsound' hbelow
  have hreframe (next : Frame V) (hadvances : frame.Advances next) : Layered entry graph (next :: rest) :=
    hlayers.reframe hkind hadvances.kind hadvances.checkpoint
  cases h with
  | engine _ _ e => exact .inl ⟨e, rfl⟩
  | popped restored hrestored =>
    obtain rfl := hsame restored hrestored
    exact keepsLayers_silent entry graph rest hbelow hsound'
  | pushes restored above next mode hrestored hadvances htops =>
    obtain rfl := hsame restored hrestored
    exact keepsLayers_silent entry graph rest (Layered.enter _ _ _ rfl (hover _ _ hadvances htops))
      (htops.sound hsound')
  | handsOn restored next task hrestored hadvances _ =>
    obtain rfl := hsame restored hrestored
    exact .inr (.inr ⟨hover _ _ hadvances .same, hsound', not_threw_of_calm rfl⟩)
  | refused e => exact keepsLayers_raise entry graph rest _ hlayers hsound
  | revisits next child hadvances hchild =>
    exact keepsLayers_silent entry graph rest ⟨hreframe next hadvances, hchild⟩ hsound
  | revisitHandsOn next task hadvances _ =>
    exact .inr (.inr ⟨hreframe next hadvances, hsound, not_threw_of_calm rfl⟩)
  | revisited next hadvances =>
    exact keepsLayers_silent entry graph rest (Layered.enter _ _ _ rfl (hreframe next hadvances)) hsound

theorem Handled.keepsLayers (h : Handled queries maxDepth answers graph frame step)
    (hlayers : Layered entry graph (frame :: rest)) (hsound : graph.graph.Sound) :
    StepKeepsLayers entry rest graph step := by
  cases h with
  | unwound hkind hstep =>
    rw [hstep]
    exact keepsLayers_silent entry graph rest (hlayers.of_enter hkind) hsound
  | entered known pending mode hkind _ _ hstep =>
    refine StepKeepsLayers.of_withMetadata entry graph rest known pending step ?_
    exact hstep.keepsLayers answers maxDepth entry _ rest hkind
      ((hlayers.of_enter hkind).withMetadata known pending)
      (hsound.withMetadata known pending)
  | resumed hkind hstep => exact hstep.keepsLayers answers entry graph rest hkind hlayers hsound

end Steps

/-! ## The context stack -/

/-- Owned contexts are layered over their own entry graph; the context on the caller's graph, while
it is there, lies at the bottom and is layered over the caller's entry graph. -/
def Restorable (entry borrowed : WorkerGraph V) : List (Context V) → Prop
  | [] => borrowed.graph.Sound ∧ Layered entry borrowed []
  | context :: below =>
    match context.ownedGraph with
    | some owned =>
      (owned.graph.Sound ∧ ∃ start, Layered start owned context.frames) ∧ Restorable entry borrowed below
    | none => borrowed.graph.Sound ∧ Layered entry borrowed context.frames ∧ below = []

theorem layered_self (graph : WorkerGraph V) : Layered graph graph [] :=
  Layered.base graph.graph.knownAcyclic graph.graph.pendingFreshReceiveId

theorem layered_owned (child : ExplorationGraph V) (depth : ℕ) (mode : ExplorationTaskMode) :
    Layered (ofGraph child) (ofGraph child) [Frame.enter depth mode] :=
  Layered.enter _ _ _ rfl (layered_self _)

variable {disposition : Disposition V}

theorem restorable_settle_owned {entry borrowed start graph : WorkerGraph V} {rest : List (Frame V)}
    {below : List (Context V)} (hsound : graph.graph.Sound)
    (h : Disposed start rest graph disposition) (hbelow : Restorable entry borrowed below) :
    Restorable entry borrowed (Context.settle (some graph) rest disposition ++ below) := by
  have hunless : ∀ frames, Layered start graph frames →
      Restorable entry borrowed (Context.unlessEmpty ⟨some graph, frames⟩ ++ below) := by
    intro frames hframes
    unfold Context.unlessEmpty
    split
    · exact hbelow
    · exact ⟨⟨hsound, start, hframes⟩, hbelow⟩
  cases disposition with
  | keep | push => exact ⟨⟨hsound, start, h⟩, hbelow⟩
  | pop => exact hunless rest h
  | replaceByOwned child depth =>
    exact ⟨⟨h.2, _, layered_owned child depth .visit⟩, hunless rest h.1⟩
  | pushOwned frame child depth =>
    exact ⟨⟨h.2, _, layered_owned child depth .visitIfConsistent⟩, ⟨hsound, start, h.1⟩, hbelow⟩

theorem restorable_settle_borrowed {entry graph : WorkerGraph V} {rest : List (Frame V)} (hsound : graph.graph.Sound)
    (h : Disposed entry rest graph disposition) :
    Restorable entry graph (Context.settle none rest disposition ++ []) := by
  have hunless : ∀ frames, Layered entry graph frames →
      Restorable entry graph (Context.unlessEmpty ⟨none, frames⟩ ++ []) := by
    intro frames hframes
    unfold Context.unlessEmpty
    split
    · rename_i hempty
      have hnil : frames = [] := by simpa using hempty
      subst hnil
      exact ⟨hsound, hframes⟩
    · exact ⟨hsound, hframes, rfl⟩
  cases disposition with
  | keep | push => exact ⟨hsound, h, rfl⟩
  | pop => exact hunless rest h
  | replaceByOwned child depth =>
    exact ⟨⟨h.2, _, layered_owned child depth .visit⟩, hunless rest h.1⟩
  | pushOwned frame child depth =>
    exact ⟨⟨h.2, _, layered_owned child depth .visitIfConsistent⟩, hsound, h.1, rfl⟩

/-! ## Unwinding -/

theorem unwindFrames_layered (start graph : WorkerGraph V) (frames : List (Frame V))
    (h : Layered start graph frames) :
    ∃ restored, Explorer.unwindFrames frames graph = .ok restored ∧ Layered start restored [] := by
  induction frames generalizing graph with
  | nil => exact ⟨graph, rfl, h⟩
  | cons frame rest ih =>
    unfold Explorer.unwindFrames
    by_cases hkind : frame.kind = .enter
    · rw [hkind]
      exact ih graph (h.of_enter hkind)
    · obtain ⟨below, hroll, _, _, hlayers⟩ := h.of_resume hkind
      obtain ⟨restored, hrun, hrestored⟩ := ih below hlayers
      refine ⟨restored, ?_, hrestored⟩
      split
      · contradiction
      · rw [hroll]
        exact hrun

theorem unwind_restorable {entry borrowed : WorkerGraph V} {contexts : List (Context V)}
    (h : Restorable entry borrowed contexts) :
    Layered entry (Explorer.unwind borrowed contexts) [] := by
  induction contexts with
  | nil => exact h.2
  | cons context below ih =>
    unfold Explorer.unwind
    unfold Restorable at h
    cases howned : context.ownedGraph with
    | some owned =>
      rw [howned] at h
      obtain ⟨⟨_, start, hlayers⟩, hbelow⟩ := h
      obtain ⟨restored, hrun, _⟩ := unwindFrames_layered start owned context.frames hlayers
      dsimp only
      rw [hrun]
      exact ih hbelow
    | none =>
      rw [howned] at h
      obtain ⟨_, hlayers, hbelow⟩ := h
      obtain ⟨restored, hrun, hrestored⟩ := unwindFrames_layered entry borrowed context.frames hlayers
      dsimp only
      rw [hrun, hbelow]
      exact hrestored

theorem isSend_of_isError {label : EventLabel V} (h : label.isError = true) : label.isSend = false := by
  cases label with
  | error l => rfl
  | _ => cases h

theorem unwindFrames_appended {start graph : WorkerGraph V} {frames : List (Frame V)}
    (h : Layered start graph frames) (hsound : graph.graph.Sound) (known : Bool)
    (pending : Option ℕ) {thread index : ℕ} {label : EventLabel V} (hsend : label.isSend = false)
    (hnext : graph.graph.graph.nextEventIndex thread = .ok index) :
    ∃ restored, Explorer.unwindFrames frames
        ((graph.withMetadata known pending).appended thread index label) = .ok restored ∧
      ((∃ frame ∈ frames, frame.kind ≠ .enter) → Layered start restored []) := by
  induction frames with
  | nil => exact ⟨_, rfl, fun ⟨frame, hmem, _⟩ => nomatch hmem⟩
  | cons frame rest ih =>
    unfold Explorer.unwindFrames
    by_cases hkind : frame.kind = .enter
    · rw [hkind]
      obtain ⟨restored, hrun, hrestored⟩ := ih (h.of_enter hkind)
      refine ⟨restored, hrun, ?_⟩
      rintro ⟨f, hf, hne⟩
      rcases mem_cons.mp hf with rfl | hf
      · exact absurd hkind hne
      · exact hrestored ⟨f, hf, hne⟩
    · obtain ⟨below, hroll, _, _, hlayers⟩ := h.of_resume hkind
      have hroll' : (graph.withMetadata known pending).rollback frame.checkpoint = .ok below := by
        rw [rollback_withMetadata]
        exact hroll
      have holder := rollback_appended_older thread index label
        (graph.withMetadata known pending) below (hsound.withMetadata known pending) hnext
        frame.checkpoint (fun hlabel => absurd (hsend.symm.trans hlabel) (nomatch ·)) hroll'
      obtain ⟨restored, hrun, hrestored⟩ := unwindFrames_layered start below rest hlayers
      refine ⟨restored, ?_, fun _ => hrestored⟩
      split
      · contradiction
      · rw [holder]
        exact hrun

/-! ## Rounds -/

/-- The last frame of a list, if any, is no Enter frame. -/
def LastEntered (frames : List (Frame V)) : Prop :=
  ∀ frame, frames.getLast? = some frame → frame.kind ≠ .enter

theorem lastEntered_cons {frame : Frame V} {rest : List (Frame V)} (hrest : LastEntered rest)
    (hframe : rest = [] → frame.kind ≠ .enter) : LastEntered (frame :: rest) := by
  intro last hlast
  cases rest with
  | nil =>
    cases hlast
    exact hframe rfl
  | cons next rest =>
    rw [getLast?_cons_cons] at hlast
    exact hrest last hlast

theorem LastEntered.tail {rest : List (Frame V)} (h : LastEntered (frame :: rest)) : LastEntered rest := by
  intro last hlast
  cases rest with
  | nil => cases hlast
  | cons next rest =>
    apply h last
    rw [getLast?_cons_cons]
    exact hlast

variable {explorer : Explorer V}

section Rounds
variable [DecidableEq V] (queries : Queries V) (threadIds : List ℕ) (maxDepth : ℕ) (answers : ExecutorAnswers V)

theorem restorable_iterate {entry : WorkerGraph V} (h : Restorable entry explorer.borrowedGraph explorer.contexts)
    (hraised : (explorer.iterate queries threadIds maxDepth answers).raised = none) :
    Restorable entry (explorer.iterate queries threadIds maxDepth answers).explorer.borrowedGraph
      (explorer.iterate queries threadIds maxDepth answers).explorer.contexts := by
  obtain ⟨borrowed, contexts⟩ := explorer
  cases contexts with
  | nil => exact h
  | cons context below =>
    obtain ⟨ownedGraph, frames⟩ := context
    cases frames with
    | nil =>
      cases ownedGraph with
      | some owned => exact h.2
      | none =>
        obtain ⟨hsound, hlayers, hbelow⟩ := h
        show Restorable entry borrowed below
        rw [hbelow]
        exact ⟨hsound, hlayers⟩
    | cons frame rest =>
      cases ownedGraph with
      | some owned =>
        obtain ⟨⟨hsound, start, hlayers⟩, hbelow⟩ := h
        rcases (handleFrame_step queries threadIds maxDepth answers owned frame).keepsLayers answers maxDepth start owned
          rest hlayers hsound with ⟨e, he⟩ | hleft | ⟨hdisposed, hsound', _⟩
        · exact absurd (he.symm.trans hraised) (by simp)
        · obtain ⟨e, he⟩ := hleft.raised
          exact absurd (he.symm.trans hraised) (by simp)
        · exact restorable_settle_owned hsound' hdisposed hbelow
      | none =>
        obtain ⟨hsound, hlayers, rfl⟩ := h
        rcases (handleFrame_step queries threadIds maxDepth answers borrowed frame).keepsLayers answers maxDepth entry
          borrowed rest hlayers hsound with ⟨e, he⟩ | hleft | ⟨hdisposed, hsound', _⟩
        · exact absurd (he.symm.trans hraised) (by simp)
        · obtain ⟨e, he⟩ := hleft.raised
          exact absurd (he.symm.trans hraised) (by simp)
        · exact restorable_settle_borrowed hsound' hdisposed

theorem iterate_owned (borrowed owned : WorkerGraph V) (frame : Frame V) (rest : List (Frame V))
    (below : List (Context V)) :
    (Explorer.mk borrowed (⟨some owned, frame :: rest⟩ :: below)).iterate queries threadIds maxDepth
        answers =
      let step := handleFrame queries threadIds maxDepth answers owned frame
      ⟨⟨borrowed, Context.settle (some step.graph) rest step.disposition ++ below⟩, step.published,
        step.spawned, step.raised⟩ := rfl

theorem iterate_borrowed (borrowed : WorkerGraph V) (frame : Frame V) (rest : List (Frame V))
    (below : List (Context V)) :
    (Explorer.mk borrowed (⟨none, frame :: rest⟩ :: below)).iterate queries threadIds maxDepth
        answers =
      let step := handleFrame queries threadIds maxDepth answers borrowed frame
      ⟨⟨step.graph, Context.settle none rest step.disposition ++ below⟩, step.published,
        step.spawned, step.raised⟩ := rfl

omit [DecidableEq V] in
theorem unwind_kept_owned (borrowed owned restored : WorkerGraph V) {kept : Frame V}
    {rest : List (Frame V)} (below : List (Context V)) (hkind : kept.kind = .enter)
    (h : Explorer.unwindFrames rest owned = .ok restored) :
    Explorer.unwind borrowed (⟨some owned, kept :: rest⟩ :: below) = Explorer.unwind borrowed below := by
  have hframes : Explorer.unwindFrames (kept :: rest) owned = .ok restored := by
    unfold Explorer.unwindFrames
    rw [hkind]
    exact h
  rw [Explorer.unwind]
  simp only [hframes]

omit [DecidableEq V] in
theorem unwind_kept_borrowed {borrowed restored : WorkerGraph V} {kept : Frame V}
    {rest : List (Frame V)} (hkind : kept.kind = .enter) (h : Explorer.unwindFrames rest borrowed = .ok restored) :
    Explorer.unwind borrowed [⟨none, kept :: rest⟩] = restored := by
  have hframes : Explorer.unwindFrames (kept :: rest) borrowed = .ok restored := by
    unfold Explorer.unwindFrames
    rw [hkind]
    exact h
  rw [Explorer.unwind]
  simp only [hframes]
  rfl

/-- The caller's context, while it is there, has a root frame that rolls back. -/
def RootEntered (contexts : List (Context V)) : Prop :=
  ∀ context ∈ contexts, context.ownedGraph = none → LastEntered context.frames

/-- A round that ends in an exception from a query or an observer: after unwinding, the caller's
graph is as on entry, provided its root frame rolls back. -/
theorem layered_unwind_of_raise {entry : WorkerGraph V}
    (h : Restorable entry explorer.borrowedGraph explorer.contexts)
    (hroot : RootEntered explorer.contexts) {e : DporError}
    (hraised : (explorer.iterate queries threadIds maxDepth answers).raised = some (.query e)) :
    Layered entry (Explorer.unwind
      (explorer.iterate queries threadIds maxDepth answers).explorer.borrowedGraph
      (explorer.iterate queries threadIds maxDepth answers).explorer.contexts) [] := by
  obtain ⟨borrowed, contexts⟩ := explorer
  cases contexts with
  | nil => cases hraised
  | cons context below =>
    obtain ⟨ownedGraph, frames⟩ := context
    cases frames with
    | nil => cases hraised
    | cons frame rest =>
      cases ownedGraph with
      | some owned =>
        obtain ⟨⟨hsound, start, hlayers⟩, hbelow⟩ := h
        rcases (handleFrame_step queries threadIds maxDepth answers owned frame).keepsLayers answers maxDepth start owned
          rest hlayers hsound with ⟨e', he'⟩ | hleft | ⟨hdisposed, hsound', _⟩
        · exact absurd (he'.symm.trans hraised) (by simp)
        · -- the leaked event sits in an owned graph, which is dropped
          obtain ⟨kept, hkept, hkind⟩ := hleft.kept
          obtain ⟨known, pending, thread, index, label, herror, hnext, hgraph⟩ := hleft.graph_eq
          obtain ⟨restored, hrun, _⟩ := unwindFrames_appended hleft.below hsound
            known pending (isSend_of_isError herror) hnext
          simp only [iterate_owned, hkept, hgraph]
          show Layered entry (Explorer.unwind borrowed (⟨some _, kept :: rest⟩ :: below)) []
          rw [unwind_kept_owned borrowed _ restored below hkind hrun]
          exact unwind_restorable hbelow
        · exact unwind_restorable
            (restorable_settle_owned hsound' hdisposed hbelow)
      | none =>
        obtain ⟨hsound, hlayers, rfl⟩ := h
        rcases (handleFrame_step queries threadIds maxDepth answers borrowed frame).keepsLayers answers maxDepth entry
          borrowed rest hlayers hsound with ⟨e', he'⟩ | hleft | ⟨hdisposed, hsound', _⟩
        · exact absurd (he'.symm.trans hraised) (by simp)
        · obtain ⟨kept, hkept, hkind⟩ := hleft.kept
          obtain ⟨known, pending, thread, index, label, herror, hnext, hgraph⟩ := hleft.graph_eq
          obtain ⟨restored, hrun, hrestored⟩ := unwindFrames_appended hleft.below
            hsound known pending (isSend_of_isError herror) hnext
          simp only [iterate_borrowed, hkept, hgraph]
          show Layered entry (Explorer.unwind _ [⟨none, kept :: rest⟩]) []
          rw [unwind_kept_borrowed hkind hrun]
          apply hrestored
          -- the frame that published is an Enter frame, so the root frame is among the rest
          obtain ⟨terminal, hpublished, _⟩ := hleft.published
          have henter := kind_of_published queries threadIds maxDepth answers borrowed frame
            hpublished
          have hlast := getLast?_eq_some_getLast (cons_ne_nil frame rest)
          have hne := hroot _ mem_cons_self rfl _ hlast
          rcases mem_cons.mp (mem_of_getLast? hlast) with heq | hmem
          · rw [heq] at hne
            exact absurd henter hne
          · exact ⟨_, hmem, hne⟩
        · exact unwind_restorable
            (restorable_settle_borrowed hsound' hdisposed)

end Rounds

/-! ## The root frame -/

/-- The frame that stays where the top frame was. -/
def Disposition.replaced : Disposition V → Option (Frame V)
  | .keep frame => some frame
  | .push frame _ => some frame
  | .pop => none
  | .replaceByOwned _ _ => none
  | .pushOwned frame _ _ => some frame

/-- Unless the handler raised, the frame left behind is no Enter frame. -/
def FrameStep.Entered (step : FrameStep V) : Prop :=
  step.raised = none → ∀ frame, step.disposition.replaced = some frame → frame.kind ≠ .enter

/-- Between the stop polls of one round nothing can request a stop. -/
structure ExecutorAnswers.Steady (answers : ExecutorAnswers V) : Prop where
  afterProgress : answers.stopAfterProgress = answers.stopOnEntry
  atThread : ∀ tid, answers.stopAtThread tid = answers.stopOnEntry

theorem Handled.entered_of_steady {queries : Queries V} {maxDepth : ℕ} {answers : ExecutorAnswers V} {graph : WorkerGraph V}
    (h : Handled queries maxDepth answers graph frame step) (hsteady : answers.Steady) :
    step.Entered := by
  intro hraised left hleft
  cases h with
  | unwound _ hstep =>
    rw [hstep] at hleft
    cases hleft
  | entered known pending mode hkind hentry _ hstep =>
    cases hstep with
    | engine _ e hengine _ =>
      rw [hengine] at hraised
      cases hraised
    | stopped hstop =>
      rcases hstop with hstop | ⟨tid, hstop⟩
      · rw [hsteady.afterProgress, hentry] at hstop
        cases hstop
      · rw [hsteady.atThread, hentry] at hstop
        cases hstop
    | keeps _ _ _ henters | pushes _ _ _ henters =>
      cases hleft
      exact henters.kind
    | refused | refusedLate | threw | threwOnError => cases hraised
    | dropped | published | recovered | rescheduled => cases hleft
  | resumed _ hstep =>
    cases hstep with
    | pushes _ _ _ _ _ hadvances _ | handsOn _ _ _ _ hadvances _ | revisits _ _ hadvances _
    | revisitHandsOn _ _ hadvances _ | revisited _ hadvances =>
      cases hleft
      exact hadvances.kind
    | engine | refused => cases hraised
    | popped => cases hleft

theorem rootEntered_settle {ownedGraph : Option (WorkerGraph V)} {rest : List (Frame V)}
    (hrest : ownedGraph = none → LastEntered rest)
    (hleft : ∀ frame, disposition.replaced = some frame → frame.kind ≠ .enter) :
    RootEntered (Context.settle ownedGraph rest disposition) := by
  have hunless : ∀ context ∈ Context.unlessEmpty ⟨ownedGraph, rest⟩, context.ownedGraph = none →
      LastEntered context.frames := by
    intro context hmem hnone
    unfold Context.unlessEmpty at hmem
    split at hmem
    · cases hmem
    · rw [mem_singleton] at hmem
      subst hmem
      exact hrest hnone
  intro context hmem hnone
  cases disposition with
  | keep frame =>
    rw [Context.settle, mem_singleton] at hmem
    subst hmem
    exact lastEntered_cons (hrest hnone) fun _ => hleft frame rfl
  | push frame child =>
    rw [Context.settle, mem_singleton] at hmem
    subst hmem
    exact lastEntered_cons (lastEntered_cons (hrest hnone) fun _ => hleft frame rfl)
      fun h => nomatch h
  | pop => exact hunless context hmem hnone
  | replaceByOwned graph depth =>
    rcases mem_cons.mp hmem with rfl | hmem
    · cases hnone
    · exact hunless context hmem hnone
  | pushOwned frame graph depth =>
    rcases mem_cons.mp hmem with rfl | hmem
    · cases hnone
    · rw [mem_singleton] at hmem
      subst hmem
      exact lastEntered_cons (hrest hnone) fun _ => hleft frame rfl

theorem rootEntered_append {above below : List (Context V)} (habove : RootEntered above)
    (hbelow : RootEntered below) : RootEntered (above ++ below) := by
  intro context hmem
  rcases mem_append.mp hmem with h | h
  · exact habove context h
  · exact hbelow context h

theorem rootEntered_iterate [DecidableEq V] {queries : Queries V} {threadIds : List ℕ} {maxDepth : ℕ}
    {answers : ExecutorAnswers V} (hsteady : answers.Steady)
    (htop : ∀ context below, explorer.contexts = context :: below →
      (context.ownedGraph = none → LastEntered context.frames.tail) ∧ RootEntered below)
    (hraised : (explorer.iterate queries threadIds maxDepth answers).raised = none) :
    RootEntered (explorer.iterate queries threadIds maxDepth answers).explorer.contexts := by
  obtain ⟨borrowed, contexts⟩ := explorer
  cases contexts with
  | nil => exact fun context hmem => nomatch hmem
  | cons context below =>
    obtain ⟨hframes, hbelow⟩ := htop context below rfl
    obtain ⟨ownedGraph, frames⟩ := context
    cases frames with
    | nil => exact hbelow
    | cons frame rest =>
      cases ownedGraph with
      | some owned =>
        have hleft := (handleFrame_step queries threadIds maxDepth answers owned frame).entered_of_steady hsteady hraised
        exact rootEntered_append (rootEntered_settle (fun h => nomatch h) hleft) hbelow
      | none =>
        have hleft := (handleFrame_step queries threadIds maxDepth answers borrowed frame).entered_of_steady hsteady hraised
        exact rootEntered_append (rootEntered_settle hframes hleft) hbelow

/-! ## Which frames throw on an Error terminal -/

section Threw
variable {queries : Queries V} {threadIds : List ℕ} {maxDepth : ℕ} {answers : ExecutorAnswers V}
  {entry graph : WorkerGraph V}

theorem EnterStep.fails_of_threw (h : EnterStep queries maxDepth answers graph frame step)
    (hthrew : step.Threw) :
    ∃ thread index error e, FailsOnError queries maxDepth answers graph frame thread index error e := by
  obtain ⟨⟨terminal, hpublished, hkind⟩, e, hraised⟩ := hthrew
  cases h with
  | threwOnError thread index error e hfails => exact ⟨thread, index, error, e, hfails⟩
  | engine _ _ hengine _ => cases hengine.symm.trans hraised
  | threw kind e hne =>
    cases hpublished
    exact absurd hkind hne
  | refused | refusedLate | stopped | dropped | rescheduled | keeps | pushes => cases hpublished
  | published | recovered => cases hraised

variable [DecidableEq V] {thread index : ℕ} {error : ErrorLabel} {e : DporError}
  (hprogress : answers.stopAfterProgress = false) (hdeclined : answers.publishDeclined = false)
  (hfails : FailsOnError queries maxDepth answers graph frame thread index error e)
include hprogress hdeclined hfails

theorem FailsOnError.enterVisit_threw :
    (enterVisit queries threadIds maxDepth answers graph frame).Threw := by
  obtain ⟨suppressed, hnext⟩ := hfails.next
  have hadd := graph.addEvent_eq thread (.error error)
  rw [hfails.indexed] at hadd
  have heq : enterVisit queries threadIds maxDepth answers graph frame =
      enterError answers graph frame thread (.error error) := by
    unfold enterVisit
    rw [hfails.progress]
    dsimp only
    rw [hprogress, if_neg Bool.false_ne_true, if_neg (not_le.mpr hfails.depth), hnext]
    rfl
  rw [heq]
  unfold enterError publishAndPop
  rw [hadd, hdeclined]
  dsimp only [Except.map]
  rw [if_neg Bool.false_ne_true, hfails.observer]
  exact ⟨⟨_, rfl, rfl⟩, e, rfl⟩

theorem FailsOnError.handleFrame_threw (hkind : frame.kind = .enter) (hentry : answers.stopOnEntry = false)
    (hcheck : answers.stopBeforeCheck = false) (hadmits : Admits queries entry frame.mode graph) :
    (handleFrame queries threadIds maxDepth answers entry frame).Threw := by
  unfold handleFrame handleEnterFrame
  rw [hentry, if_neg Bool.false_ne_true, hkind]
  dsimp only
  generalize hmode : frame.mode = mode at hadmits
  cases hadmits with
  | visit => exact hfails.enterVisit_threw hprogress hdeclined
  | checked result marks hresult hconsistent =>
    dsimp only
    rw [hcheck, if_neg Bool.false_ne_true, hresult]
    dsimp only
    rw [hconsistent]
    exact FailsOnError.enterVisit_threw hprogress hdeclined
      ⟨hfails.progress, hfails.depth, hfails.next, hfails.indexed, hfails.observer⟩

end Threw

/-! ## Runs -/

section Runs
variable [DecidableEq V] (code : UserCode V) (threadIds : List ℕ) (maxDepth : ℕ)

omit [DecidableEq V] in
theorem answers_steady (run : SequentialRun V) : (SequentialRun.answers code run).Steady :=
  ⟨rfl, fun _ => rfl⟩

/-- What holds of the caller's graph after the first round of a run. -/
structure Underway (entry : WorkerGraph V) (run : SequentialRun V) : Prop where
  restorable : Restorable entry run.explorer.borrowedGraph run.explorer.contexts
  rootEntered : RootEntered run.explorer.contexts

theorem underway_iterate (entry : WorkerGraph V) (run : SequentialRun V)
    (hrestorable : Restorable entry run.explorer.borrowedGraph run.explorer.contexts)
    (htop : ∀ context below, run.explorer.contexts = context :: below →
      (context.ownedGraph = none → LastEntered context.frames.tail) ∧ RootEntered below)
    (hraised : (SequentialRun.iterate code threadIds maxDepth run).2 = none) :
    Underway entry (SequentialRun.iterate code threadIds maxDepth run).1 :=
  ⟨restorable_iterate _ threadIds maxDepth _ hrestorable hraised,
    rootEntered_iterate (answers_steady code run) htop hraised⟩

omit [DecidableEq V] in
theorem Underway.top {entry : WorkerGraph V} {run : SequentialRun V} (h : Underway entry run)
    (context : Context V) (below : List (Context V)) (hcontexts : run.explorer.contexts = context :: below) :
    (context.ownedGraph = none → LastEntered context.frames.tail) ∧ RootEntered below := by
  have hroot := h.rootEntered
  rw [hcontexts] at hroot
  refine ⟨fun hnone => ?_, fun c hmem => hroot c (mem_cons_of_mem context hmem)⟩
  have hlast := hroot context mem_cons_self hnone
  cases hframes : context.frames with
  | nil => exact fun frame hframe => nomatch hframe
  | cons frame rest =>
    rw [hframes] at hlast
    exact hlast.tail

/-- Once the first round is over, every exit by a normal return, a stop or an exception of user code
leaves the caller's graph as it was. -/
theorem layered_of_underway (entry : WorkerGraph V) (rounds : ℕ) (run : SequentialRun V)
    (exit : Exit V) (h : Underway entry run)
    (hexit : SequentialRun.runLoop code threadIds maxDepth rounds run = some exit)
    (hengine : ∀ e, exit.raised ≠ some (.engine e)) : Layered entry exit.graph [] := by
  induction rounds generalizing run with
  | zero => cases hexit
  | succ rounds ih =>
    unfold SequentialRun.runLoop at hexit
    split at hexit
    · rename_i hempty
      cases hexit
      have hcontexts : run.explorer.contexts = [] := by simpa using hempty
      have hrestorable := h.restorable
      rw [hcontexts] at hrestorable
      exact hrestorable.2
    · split at hexit
      · rename_i next raised hiter
        cases hexit
        cases raised with
        | engine e => exact absurd rfl (hengine e)
        | query e =>
          have hnext : next = (SequentialRun.iterate code threadIds maxDepth run).1 := by rw [hiter]
          subst hnext
          exact layered_unwind_of_raise _ threadIds maxDepth _ h.restorable
            h.rootEntered (congrArg Prod.snd hiter)
      · rename_i next hiter
        have hnext : next = (SequentialRun.iterate code threadIds maxDepth run).1 := by rw [hiter]
        subst hnext
        exact ih _ (underway_iterate code threadIds maxDepth entry run h.restorable (h.top)
          (congrArg Prod.snd hiter)) hexit

/-- What the caller can see of its graph. -/
structure Restored (entry graph : WorkerGraph V) : Prop where
  events : graph.graph.events = entry.graph.events
  readsFrom : graph.graph.readsFrom = entry.graph.readsFrom
  threadEventCount : graph.graph.threadEventCount = entry.graph.threadEventCount
  eventUndoLog : graph.eventUndoLog.length = entry.eventUndoLog.length
  rfUndoLog : graph.rfUndoLog.length = entry.rfUndoLog.length

omit [DecidableEq V] in
theorem Layered.restored (entry graph : WorkerGraph V) (h : Layered entry graph []) :
    Restored entry graph := by
  cases h with
  | base known pending => exact ⟨rfl, rfl, rfl, rfl, rfl⟩

/-- The next event of the caller's graph is an Error that `add_event` accepts, and the observer throws on its
terminal. -/
structure ThrowsOnError (entry : WorkerGraph V) (depth : ℕ) (mode : ExplorationTaskMode) (result : VerifyResult) :
    Prop where
  notStopped : result.stopped = false
  progress : code.progress 0 = none
  depth : depth < maxDepth
  throws : ∃ graph tid error suppressed id extended e, Admits (code.queries 0) entry mode graph ∧
    (code.queries 0).computeNextEvent graph.graph = .ok ⟨some (tid, .error error), suppressed⟩ ∧
    graph.addEvent tid (.error error) = .ok (id, extended) ∧ code.observer [⟨extended.graph, .error⟩] = .error e

omit [DecidableEq V] in
theorem restorable_start (entry : WorkerGraph V) (hsound : entry.graph.Sound) (depth : ℕ)
    (mode : ExplorationTaskMode) :
    Restorable entry (Explorer.start entry depth mode).borrowedGraph
      (Explorer.start entry depth mode).contexts :=
  ⟨hsound, Layered.enter entry _ [] rfl
    (Layered.base entry.graph.knownAcyclic entry.graph.pendingFreshReceiveId), rfl⟩

omit [DecidableEq V] in
theorem unwind_root (graph : WorkerGraph V) (hkind : frame.kind = .enter) :
    Explorer.unwind graph [⟨none, [frame]⟩] = graph :=
  unwind_kept_borrowed hkind rfl

omit [DecidableEq V] in
theorem not_restored_appended (entry : WorkerGraph V) (known : Bool) (pending : Option ℕ)
    (thread index : ℕ) (label : EventLabel V) :
    ¬ Restored entry ((entry.withMetadata known pending).appended thread index label) := by
  intro h
  have hlength := h.eventUndoLog
  simp [appended, withMetadata] at hlength

section First
variable (entry : WorkerGraph V) (depth : ℕ) (mode : ExplorationTaskMode) (result : VerifyResult)

omit [DecidableEq V] in
theorem first_observer (terminal : Terminal V) (e : DporError) :
    (SequentialRun.answers code (SequentialRun.start entry depth mode result)).observer terminal = some e ↔
      code.observer [terminal] = .error e := by
  unfold SequentialRun.answers SequentialRun.start
  dsimp only
  rw [nil_append]
  cases code.observer [terminal] <;> simp

/-- The first frame of a run throws on its Error terminal for these inputs and no others. -/
theorem handleFrame_threw_iff :
    (handleFrame (code.queries 0) threadIds maxDepth
      (SequentialRun.answers code (SequentialRun.start entry depth mode result)) entry (Frame.enter depth mode)).Threw ↔
      ThrowsOnError code maxDepth entry depth mode result := by
  constructor
  · intro hthrew
    cases handleFrame_step (code.queries 0) threadIds maxDepth _ entry (Frame.enter depth mode) with
    | unwound _ hstep => exact absurd hthrew (not_threw_of_silent (by rw [hstep]; rfl))
    | resumed hkind _ => exact absurd rfl hkind
    | entered known pending entered _ hstop hgate hstep =>
      obtain ⟨thread, index, error, e, hfails⟩ := hstep.fails_of_threw hthrew
      obtain ⟨suppressed, hnext⟩ := hfails.next
      rcases hgate with hpublished | hadmits
      · exact absurd hthrew (not_threw_of_silent hpublished)
      refine ⟨hstop, hfails.progress, hfails.depth, _, thread, error, suppressed, entry.graph.eventCount, _, e,
        hadmits, hnext, ?_,
        (first_observer code entry depth mode result _ e).mp hfails.observer⟩
      rw [addEvent_eq, hfails.indexed]
      rfl
  · rintro ⟨hstop, hprogress, hdepth, graph, tid, error, suppressed, id, extended, e, hadmits, hnext, hadd, hthrows⟩
    obtain ⟨index, hindex, -, rfl⟩ := addEvent_inv hadd
    exact FailsOnError.handleFrame_threw hstop rfl ⟨hprogress, hdepth, ⟨suppressed, hnext⟩, hindex,
      (first_observer code entry depth mode result _ e).mpr hthrows⟩ rfl hstop hstop hadmits

end First

theorem restored_iff_of_first_raise (entry : WorkerGraph V) (hsound : entry.graph.Sound) (depth : ℕ)
    (mode : ExplorationTaskMode) (result : VerifyResult) (next : SequentialRun V) (e : DporError)
    (hiter : SequentialRun.iterate code threadIds maxDepth
      (SequentialRun.start entry depth mode result) = (next, some (.query e))) :
    Restored entry (Explorer.unwind next.explorer.borrowedGraph next.explorer.contexts) ↔
      ¬ ThrowsOnError code maxDepth entry depth mode result := by
  rw [← handleFrame_threw_iff code threadIds]
  let run := SequentialRun.start entry depth mode result
  have hnext : next = (SequentialRun.iterate code threadIds maxDepth run).1 := by rw [hiter]
  have hraised := congrArg Prod.snd hiter
  subst hnext
  let step := handleFrame (code.queries run.round) threadIds maxDepth (SequentialRun.answers code run)
    entry (Frame.enter depth mode)
  have hkeeps : StepKeepsLayers entry [] entry step :=
    (handleFrame_step (code.queries run.round) threadIds maxDepth _ entry (Frame.enter depth mode)).keepsLayers _ maxDepth
      entry entry [] (Layered.enter entry _ [] rfl (layered_self entry)) hsound
  rcases hkeeps with ⟨e', he'⟩ | hleft | ⟨hdisposed, hsound', hcalm⟩
  · exact absurd (he'.symm.trans hraised) (by simp)
  · obtain ⟨kept, hkept, hkind⟩ := hleft.kept
    obtain ⟨known, pending, thread, index, label, _, _, hgraph⟩ := hleft.graph_eq
    have hcontexts : (SequentialRun.iterate code threadIds maxDepth run).1.explorer =
        ⟨(entry.withMetadata known pending).appended thread index label, [⟨none, [kept]⟩]⟩ := by
      show Explorer.mk step.graph (Context.settle none [] step.disposition ++ []) = _
      rw [hgraph, hkept]
      rfl
    rw [hcontexts, unwind_root _ hkind]
    refine ⟨fun h => absurd h (not_restored_appended entry known pending thread index label), ?_⟩
    intro hcalm
    exact absurd ⟨hleft.published, hleft.raised⟩ hcalm
  · refine ⟨fun _ => hcalm, fun _ => ?_⟩
    exact (unwind_restorable
      (restorable_settle_borrowed hsound' hdisposed)).restored entry _

/-- The caller's graph is restored on every exit by a normal return, a stop or an exception of user
code, unless the very first frame publishes an Error terminal and the observer throws on it. -/
theorem restored_iff (entry : WorkerGraph V) (hbuilt : entry.Built) (depth : ℕ)
    (mode : ExplorationTaskMode) (result : VerifyResult) (exit : Exit V)
    (hexit : SequentialRun.Exits code threadIds maxDepth (SequentialRun.start entry depth mode result)
      exit) (hengine : ∀ e, exit.raised ≠ some (.engine e)) :
    Restored entry exit.graph ↔ ¬ ThrowsOnError code maxDepth entry depth mode result := by
  obtain ⟨rounds, hrun⟩ := hexit
  have hsound := hbuilt.sound
  cases rounds with
  | zero => cases hrun
  | succ rounds =>
    unfold SequentialRun.runLoop at hrun
    rw [if_neg (by simp [SequentialRun.start, Explorer.start])] at hrun
    split at hrun
    · rename_i next raised hiter
      cases hrun
      cases raised with
      | engine e => exact absurd rfl (hengine e)
      | query e =>
        exact restored_iff_of_first_raise code threadIds maxDepth entry hsound depth mode result next e
          hiter
    · rename_i next hiter
      have hnext : next = (SequentialRun.iterate code threadIds maxDepth
          (SequentialRun.start entry depth mode result)).1 := by rw [hiter]
      have hraised := congrArg Prod.snd hiter
      subst hnext
      refine ⟨fun _ => ?_, fun _ => ?_⟩
      · rw [← handleFrame_threw_iff code threadIds]
        rintro ⟨_, e, he⟩
        exact absurd (hraised.symm.trans he) (by simp)
      · refine (layered_of_underway code threadIds maxDepth entry rounds _ exit ?_ hrun
          hengine).restored entry _
        apply underway_iterate code threadIds maxDepth entry _ (restorable_start entry hsound depth mode)
        · intro context below hcontexts
          cases hcontexts
          exact ⟨fun _ frame hframe => (nomatch hframe), fun _ hmem => (nomatch hmem)⟩
        · exact hraised

end Runs
/-! ## A thread that fails at once -/

def failingProgram (throwsOn : TerminalExecutionKind → Bool) : UserCode ℕ :=
  let config : DporConfig ℕ :=
    ⟨⟨⟨[some fun _ step => if step = 0 then some (.error ⟨"boom"⟩) else none]⟩⟩, 10, 0, .async⟩
  { UserCode.ofConfig config [0] (fun _ => .continue) with
    observer := fun terminals =>
      if terminals.any (fun t => throwsOn t.kind) then
        .error (.userCodeError .terminalObserver none "observer failed")
      else .ok .continue }

/-- An observer that throws on the Error terminal of the first frame: the error event and its undo
record stay behind. -/
theorem failing_not_restored :
    ∃ exit, SequentialRun.Exits (failingProgram fun kind => kind = .error) [0] 10
        (SequentialRun.start (ofGraph ExplorationGraph.empty) 0 .visit VerifyResult.initial)
        exit ∧
      exit.raised = some (.query (.userCodeError .terminalObserver none "observer failed")) ∧
      exit.graph.graph.events.length = 1 ∧ exit.graph.eventUndoLog.length = 1 ∧
      ¬ Restored (ofGraph ExplorationGraph.empty) exit.graph := by
  refine ⟨_, ⟨1, rfl⟩, rfl, rfl, rfl, ?_⟩
  intro h
  exact absurd h.eventUndoLog (by decide)

theorem failing_restored :
    ∃ exit, SequentialRun.Exits (failingProgram fun _ => false) [0] 10
        (SequentialRun.start (ofGraph ExplorationGraph.empty) 0 .visit VerifyResult.initial)
        exit ∧ exit.terminals.length = 1 ∧
      Restored (ofGraph ExplorationGraph.empty) exit.graph := by
  refine ⟨_, ⟨2, rfl⟩, rfl, ?_⟩
  refine (restored_iff (failingProgram fun _ => false) [0] 10 _ WorkerGraph.Built.empty 0 .visit
    VerifyResult.initial _ ⟨2, rfl⟩ (fun e => by simp)).mpr ?_
  rintro ⟨-, -, -, _, _, _, _, _, _, e, -, -, -, hthrows⟩
  cases hthrows

end MustDpor

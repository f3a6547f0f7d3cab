import Mathlib.Data.Multiset.DershowitzManna
import Mathlib.Data.Prod.Lex
import MustDpor.Algo.HandlerSteps
import MustDpor.Algo.Verify

/-! # The exploration loop ends

Every round takes one frame off the stacks and puts back only frames of smaller rank: an Enter frame
ranks above every other frame of its depth and below every frame that waits for it, and among the
Enter frames of one depth the rank is the number of Block events left, which a reschedule lowers. So
the multiset of ranks decreases, whatever user code answers round by round. -/

namespace MustDpor
set_option autoImplicit false
open List

variable {V : Type}

/-! ## Ranks -/

/-- The rank of a frame over a graph with `blocks` Block events. -/
def Frame.rank (maxDepth blocks : ℕ) (frame : Frame V) : ℕ ×ₗ ℕ :=
  match frame.kind with
  | .enter => toLex (2 * (maxDepth - frame.dporTreeDepth) + 1, blocks)
  | _ => toLex (2 * (maxDepth - frame.dporTreeDepth), frame.resumptions)

/-- A frame that waits below others, or is about to be resumed. -/
def Frame.Resumes (maxDepth : ℕ) (frame : Frame V) : Prop :=
  frame.kind ≠ .enter ∧ frame.dporTreeDepth < maxDepth

theorem Frame.rank_of_ne (maxDepth blocks : ℕ) (frame : Frame V) (h : frame.kind ≠ .enter) :
    frame.rank maxDepth blocks = toLex (2 * (maxDepth - frame.dporTreeDepth), frame.resumptions) := by
  unfold rank
  split
  · rename_i hk
    exact absurd hk h
  · rfl

theorem Frame.rank_enter (maxDepth blocks depth : ℕ) (mode : ExplorationTaskMode) :
    (Frame.enter depth mode : Frame V).rank maxDepth blocks
      = toLex (2 * (maxDepth - depth) + 1, blocks) := rfl

theorem Frame.rank_child_lt {maxDepth : ℕ} (blocks blocks' : ℕ) (frame : Frame V)
    (mode : ExplorationTaskMode) (h : frame.dporTreeDepth < maxDepth) :
    (Frame.enter (frame.dporTreeDepth + 1) mode : Frame V).rank maxDepth blocks'
      < frame.rank maxDepth blocks := by
  rw [Frame.rank_enter]
  by_cases hkind : frame.kind = .enter
  · unfold Frame.rank
    rw [hkind]
    exact Prod.Lex.toLex_lt_toLex.mpr (.inl (by omega))
  · rw [frame.rank_of_ne maxDepth blocks hkind]
    exact Prod.Lex.toLex_lt_toLex.mpr (.inl (by omega))

theorem Frame.rank_resumed_lt (maxDepth blocks blocks' : ℕ) (frame resumed : Frame V)
    (hkind : frame.kind = .enter) (hresumed : resumed.kind ≠ .enter)
    (hdepth : resumed.dporTreeDepth = frame.dporTreeDepth) :
    resumed.rank maxDepth blocks' < frame.rank maxDepth blocks := by
  rw [resumed.rank_of_ne maxDepth blocks' hresumed, hdepth]
  unfold Frame.rank
  rw [hkind]
  exact Prod.Lex.toLex_lt_toLex.mpr (.inl (by omega))

theorem Frame.rank_advanced_lt (maxDepth blocks blocks' : ℕ) (frame advanced : Frame V)
    (hkind : frame.kind ≠ .enter) (hadvanced : advanced.kind ≠ .enter)
    (hdepth : advanced.dporTreeDepth = frame.dporTreeDepth) (hremaining : advanced.resumptions < frame.resumptions) :
    advanced.rank maxDepth blocks' < frame.rank maxDepth blocks := by
  rw [advanced.rank_of_ne maxDepth blocks' hadvanced, frame.rank_of_ne maxDepth blocks hkind, hdepth]
  exact Prod.Lex.toLex_lt_toLex.mpr (.inr ⟨rfl, hremaining⟩)

/-! ## What one handler puts back -/

/-- Everything a disposition leaves in the place of the top frame ranks below `bound`. -/
def Disposition.Below (maxDepth : ℕ) (bound : ℕ ×ₗ ℕ) : Disposition V → Prop
  | .pop => True
  | .keep frame => frame.Resumes maxDepth ∧ frame.rank maxDepth 0 < bound
  | .push frame child =>
    (frame.Resumes maxDepth ∧ frame.rank maxDepth 0 < bound) ∧
      child.kind = .enter ∧ ∀ blocks, child.rank maxDepth blocks < bound
  | .replaceByOwned graph depth =>
    (Frame.enter depth .visit : Frame V).rank maxDepth graph.blockCount < bound
  | .pushOwned frame graph depth =>
    (frame.Resumes maxDepth ∧ frame.rank maxDepth 0 < bound) ∧
      (Frame.enter depth .visitIfConsistent : Frame V).rank maxDepth graph.blockCount < bound

/-- The frame stays as it is, because a stop was seen. -/
def Stalls (answers : ExecutorAnswers V) (graph : WorkerGraph V) (frame : Frame V)
    (step : FrameStep V) : Prop :=
  answers.sawStop ∧ frame.kind = .enter ∧ step.graph.graph.blockCount = graph.graph.blockCount ∧
    ∃ kept, step.disposition = .keep kept ∧ kept.kind = .enter ∧
      kept.dporTreeDepth = frame.dporTreeDepth

/-- What a round does to the top frame: it raises, puts back smaller frames, or stalls. -/
def Moves (maxDepth : ℕ) (answers : ExecutorAnswers V) (graph : WorkerGraph V) (frame : Frame V)
    (step : FrameStep V) : Prop :=
  step.raised ≠ none ∨
    step.disposition.Below maxDepth (frame.rank maxDepth graph.graph.blockCount) ∨
      Stalls answers graph frame step

section Steps
variable {queries : Queries V} (maxDepth : ℕ) (answers : ExecutorAnswers V) (graph : WorkerGraph V) (frame : Frame V) (step : FrameStep V)

theorem EnterStep.moves (h : EnterStep queries maxDepth answers graph frame step) (hkind : frame.kind = .enter) :
    Moves maxDepth answers graph frame step := by
  have hkeeps (next : Frame V) (hdepth : frame.dporTreeDepth < maxDepth) (henters : frame.Enters graph next) :
      next.Resumes maxDepth ∧ next.rank maxDepth 0 < frame.rank maxDepth graph.graph.blockCount :=
    ⟨⟨henters.kind, henters.depth ▸ hdepth⟩,
      frame.rank_resumed_lt maxDepth _ 0 next hkind henters.kind henters.depth⟩
  cases h with
  | engine _ e hraised _ => exact .inl (by rw [hraised]; exact (nomatch ·))
  | stopped hstop => exact .inr (.inr ⟨hstop, hkind, rfl, frame, rfl, hkind, rfl⟩)
  | rescheduled child _ hless =>
    refine .inr (.inl ?_)
    show (Frame.enter frame.dporTreeDepth .visit : Frame V).rank maxDepth child.blockCount < _
    rw [Frame.rank_enter]
    unfold Frame.rank
    rw [hkind]
    exact Prod.Lex.toLex_lt_toLex.mpr (.inr ⟨rfl, hless⟩)
  | keeps above next hdepth henters _ => exact .inr (.inl (hkeeps next hdepth henters))
  | pushes above next hdepth henters _ =>
    exact .inr (.inl ⟨hkeeps next hdepth henters, rfl, fun blocks =>
      frame.rank_child_lt _ blocks .visit hdepth⟩)
  | refused | refusedLate | threw | threwOnError => exact .inl (nomatch ·)
  | dropped | published | recovered => exact .inr (.inl trivial)

theorem ResumeStep.moves (h : ResumeStep answers graph frame step) (hkind : frame.kind ≠ .enter)
    (hdepth : frame.dporTreeDepth < maxDepth) : Moves maxDepth answers graph frame step := by
  have hkeeps (next : Frame V) (hadvances : frame.Advances next) :
      next.Resumes maxDepth ∧ next.rank maxDepth 0 < frame.rank maxDepth graph.graph.blockCount :=
    ⟨⟨hadvances.kind, hadvances.depth ▸ hdepth⟩,
      frame.rank_advanced_lt maxDepth _ 0 next hkind hadvances.kind hadvances.depth hadvances.less⟩
  have hchild (blocks : ℕ) (mode : ExplorationTaskMode) :=
    frame.rank_child_lt graph.graph.blockCount blocks mode hdepth
  cases h with
  | engine | refused => exact .inl (nomatch ·)
  | popped => exact .inr (.inl trivial)
  | pushes _ _ next mode _ hadvances _ =>
    exact .inr (.inl ⟨hkeeps next hadvances, rfl, fun blocks => hchild blocks mode⟩)
  | handsOn _ next _ _ hadvances _ | revisitHandsOn next _ hadvances _ => exact .inr (.inl (hkeeps next hadvances))
  | revisits next child hadvances _ => exact .inr (.inl ⟨hkeeps next hadvances, hchild child.blockCount _⟩)
  | revisited next hadvances =>
    exact .inr (.inl ⟨hkeeps next hadvances, rfl, fun blocks => hchild blocks .visit⟩)

theorem Handled.moves (h : Handled queries maxDepth answers graph frame step)
    (hframe : frame.kind = .enter ∨ frame.Resumes maxDepth) : Moves maxDepth answers graph frame step := by
  cases h with
  | unwound _ hstep =>
    rw [hstep]
    exact .inr (.inl trivial)
  | entered known pending mode hkind _ _ hstep =>
    exact hstep.moves maxDepth answers (graph.withMetadata known pending) { frame with mode := mode } step hkind
  | resumed hkind hstep =>
    exact hstep.moves maxDepth answers graph frame step hkind (hframe.resolve_left hkind).2

theorem unwindFrame_pops : (unwindFrame graph frame).raised ≠ none ∨
    (unwindFrame graph frame).disposition = .pop := by
  unfold unwindFrame
  split
  · exact .inr rfl
  · unfold rollbackAndPopTopFrame
    split
    · exact .inl (nomatch ·)
    · exact .inr rfl

end Steps

/-! ## The context stack -/

/-- A context below the top: its frames all wait. -/
def Context.Waits (maxDepth : ℕ) (context : Context V) : Prop :=
  context.frames ≠ [] ∧ ∀ frame ∈ context.frames, frame.Resumes maxDepth

/-- Only the top frame of the top context may be an Enter frame. -/
def Explorer.Stacked (maxDepth : ℕ) (explorer : Explorer V) : Prop :=
  match explorer.contexts with
  | [] => True
  | context :: below =>
    (∃ frame rest, context.frames = frame :: rest ∧
      (frame.kind = .enter ∨ frame.Resumes maxDepth) ∧ ∀ waiting ∈ rest, waiting.Resumes maxDepth) ∧
    ∀ context ∈ below, context.Waits maxDepth

/-- Ranks of waiting frames, which do not depend on a graph. -/
def waitingRanks (maxDepth : ℕ) (frames : List (Frame V)) : Multiset (ℕ ×ₗ ℕ) :=
  frames.map (fun frame => frame.rank maxDepth 0)

/-- The ranks of all frames; those of the top context over its graph. -/
def Explorer.ranks (maxDepth : ℕ) (explorer : Explorer V) : Multiset (ℕ ×ₗ ℕ) :=
  match explorer.contexts with
  | [] => 0
  | context :: below =>
    (context.frames.map (fun frame =>
      frame.rank maxDepth (context.graph explorer.borrowedGraph).graph.blockCount) : List (ℕ ×ₗ ℕ)) +
    waitingRanks maxDepth (below.flatMap Context.frames)

theorem Frame.Resumes.rank_eq {maxDepth : ℕ} {frame : Frame V} (h : frame.Resumes maxDepth)
    (blocks : ℕ) : frame.rank maxDepth blocks = frame.rank maxDepth 0 := by
  rw [frame.rank_of_ne maxDepth blocks h.1, frame.rank_of_ne maxDepth 0 h.1]

theorem ranks_of_waits {maxDepth : ℕ} (blocks : ℕ) {frames : List (Frame V)}
    (h : ∀ frame ∈ frames, frame.Resumes maxDepth) :
    ((frames.map (fun frame => frame.rank maxDepth blocks) : List (ℕ ×ₗ ℕ)) : Multiset (ℕ ×ₗ ℕ))
      = waitingRanks maxDepth frames := by
  unfold waitingRanks
  rw [map_congr_left (fun frame hframe => (h frame hframe).rank_eq blocks)]

theorem stacked_of_waits {maxDepth : ℕ} (borrowed : WorkerGraph V) {contexts : List (Context V)}
    (h : ∀ context ∈ contexts, context.Waits maxDepth) :
    Explorer.Stacked maxDepth ⟨borrowed, contexts⟩ ∧
      Explorer.ranks maxDepth ⟨borrowed, contexts⟩
        = waitingRanks maxDepth (contexts.flatMap Context.frames) := by
  cases contexts with
  | nil => exact ⟨trivial, rfl⟩
  | cons context below =>
    obtain ⟨hne, hwaits⟩ := h context mem_cons_self
    have hbelow := fun c hc => h c (mem_cons_of_mem _ hc)
    obtain ⟨frame, rest, hframes⟩ := exists_cons_of_ne_nil hne
    have hall : ∀ waiting ∈ frame :: rest, waiting.Resumes maxDepth := hframes ▸ hwaits
    refine ⟨⟨⟨frame, rest, hframes, .inr (hall frame mem_cons_self), fun waiting hw =>
      hall waiting (mem_cons_of_mem _ hw)⟩, hbelow⟩, ?_⟩
    show ((context.frames.map _ : List (ℕ ×ₗ ℕ)) : Multiset (ℕ ×ₗ ℕ)) + _ = _
    rw [ranks_of_waits _ hwaits]
    unfold waitingRanks
    rw [flatMap_cons, map_append, Multiset.coe_add]

theorem waits_unlessEmpty {maxDepth : ℕ} (ownedGraph : Option (WorkerGraph V)) {rest : List (Frame V)}
    {below : List (Context V)} (hrest : ∀ waiting ∈ rest, waiting.Resumes maxDepth)
    (hbelow : ∀ context ∈ below, context.Waits maxDepth) :
    (∀ context ∈ Context.unlessEmpty ⟨ownedGraph, rest⟩ ++ below, context.Waits maxDepth) ∧
      (Context.unlessEmpty ⟨ownedGraph, rest⟩ ++ below).flatMap Context.frames
        = rest ++ below.flatMap Context.frames := by
  unfold Context.unlessEmpty
  cases rest with
  | nil => exact ⟨hbelow, rfl⟩
  | cons frame rest =>
    refine ⟨fun context hcontext => ?_, rfl⟩
    rcases mem_cons.mp hcontext with rfl | hcontext
    · exact ⟨cons_ne_nil _ _, hrest⟩
    · exact hbelow context hcontext

/-- Everything above `rest` and `below` after a disposition, ranked over the graphs it runs on. -/
def Disposition.ranks (maxDepth blocks : ℕ) : Disposition V → Multiset (ℕ ×ₗ ℕ)
  | .pop => 0
  | .keep frame => {frame.rank maxDepth blocks}
  | .push frame child => {child.rank maxDepth blocks, frame.rank maxDepth blocks}
  | .replaceByOwned graph depth =>
    {(Frame.enter depth .visit : Frame V).rank maxDepth graph.blockCount}
  | .pushOwned frame graph depth =>
    {(Frame.enter depth .visitIfConsistent : Frame V).rank maxDepth graph.blockCount,
      frame.rank maxDepth 0}

/-- The frames a disposition leaves may stand where they are put. -/
def Disposition.Placed (maxDepth : ℕ) : Disposition V → Prop
  | .pop => True
  | .keep frame => frame.kind = .enter ∨ frame.Resumes maxDepth
  | .push frame child => frame.Resumes maxDepth ∧ child.kind = .enter
  | .replaceByOwned _ _ => True
  | .pushOwned frame _ _ => frame.Resumes maxDepth

theorem Disposition.Below.placed {maxDepth : ℕ} {bound : ℕ ×ₗ ℕ} {disposition : Disposition V}
    (h : disposition.Below maxDepth bound) : disposition.Placed maxDepth := by
  cases disposition with
  | pop => trivial
  | keep frame => exact .inr h.1
  | push frame child => exact ⟨h.1.1, h.2.1⟩
  | replaceByOwned graph depth => trivial
  | pushOwned frame graph depth => exact h.1.1

theorem Disposition.Below.ranks_lt {maxDepth blocks : ℕ} {bound : ℕ ×ₗ ℕ} {disposition : Disposition V}
    (h : disposition.Below maxDepth bound) : ∀ rank ∈ disposition.ranks maxDepth blocks, rank < bound := by
  cases disposition with
  | pop => exact fun rank hrank => absurd hrank (Multiset.notMem_zero rank)
  | keep frame =>
    intro rank hrank
    rw [Multiset.mem_singleton.mp hrank, h.1.rank_eq]
    exact h.2
  | push frame child =>
    intro rank hrank
    rcases Multiset.mem_cons.mp (show rank ∈ _ ::ₘ {frame.rank maxDepth blocks} from hrank) with rfl | hrank
    · exact h.2.2 blocks
    · rw [Multiset.mem_singleton.mp hrank, h.1.1.rank_eq]
      exact h.1.2
  | replaceByOwned graph depth =>
    intro rank hrank
    rw [Multiset.mem_singleton.mp hrank]
    exact h
  | pushOwned frame graph depth =>
    intro rank hrank
    rcases Multiset.mem_cons.mp (show rank ∈ _ ::ₘ {frame.rank maxDepth 0} from hrank) with rfl | hrank
    · exact h.2
    · rw [Multiset.mem_singleton.mp hrank]
      exact h.1.2

theorem settle_stacked (maxDepth : ℕ) (borrowed graph : WorkerGraph V) (ownedGraph : Option (WorkerGraph V))
    (hgraph : ownedGraph.getD borrowed = graph) (rest : List (Frame V)) (below : List (Context V))
    (hrest : ∀ waiting ∈ rest, waiting.Resumes maxDepth)
    (hbelow : ∀ context ∈ below, context.Waits maxDepth) (disposition : Disposition V)
    (hplaced : disposition.Placed maxDepth) :
    Explorer.Stacked maxDepth ⟨borrowed, Context.settle ownedGraph rest disposition ++ below⟩ ∧
      Explorer.ranks maxDepth ⟨borrowed, Context.settle ownedGraph rest disposition ++ below⟩
        = disposition.ranks maxDepth graph.graph.blockCount
          + waitingRanks maxDepth (rest ++ below.flatMap Context.frames) := by
  obtain ⟨hwaits, hframes⟩ := waits_unlessEmpty ownedGraph hrest hbelow
  have hsplit : ∀ top : Multiset (ℕ ×ₗ ℕ),
      top + waitingRanks maxDepth rest + waitingRanks maxDepth (below.flatMap Context.frames)
        = top + waitingRanks maxDepth (rest ++ below.flatMap Context.frames) := by
    intro top
    unfold waitingRanks
    rw [map_append, ← Multiset.coe_add, add_assoc]
  cases disposition with
  | pop =>
    obtain ⟨hstacked, hranks⟩ := stacked_of_waits borrowed hwaits
    refine ⟨hstacked, hranks.trans ?_⟩
    rw [hframes]
    exact (zero_add _).symm
  | keep frame =>
    refine ⟨⟨⟨frame, rest, rfl, hplaced, hrest⟩, hbelow⟩, ?_⟩
    show (((frame :: rest).map fun f => f.rank maxDepth (ownedGraph.getD borrowed).graph.blockCount
      : List (ℕ ×ₗ ℕ)) : Multiset (ℕ ×ₗ ℕ)) + _ = _
    rw [hgraph, map_cons, ← Multiset.cons_coe, ranks_of_waits _ hrest,
      ← Multiset.singleton_add]
    exact hsplit _
  | push frame child =>
    have hall : ∀ waiting ∈ frame :: rest, waiting.Resumes maxDepth := by
      intro waiting hw
      rcases mem_cons.mp hw with rfl | hw
      · exact hplaced.1
      · exact hrest waiting hw
    refine ⟨⟨⟨child, frame :: rest, rfl, .inl hplaced.2, hall⟩, hbelow⟩, ?_⟩
    show (((child :: frame :: rest).map fun f => f.rank maxDepth (ownedGraph.getD borrowed).graph.blockCount
      : List (ℕ ×ₗ ℕ)) : Multiset (ℕ ×ₗ ℕ)) + _ = _
    rw [hgraph, map_cons, map_cons, ← Multiset.cons_coe, ← Multiset.cons_coe,
      ranks_of_waits _ hrest, ← Multiset.singleton_add, ← Multiset.singleton_add, ← add_assoc]
    exact hsplit _
  | replaceByOwned g depth =>
    refine ⟨⟨⟨Frame.enter depth .visit, [], rfl, .inl rfl, fun _ h => nomatch h⟩, hwaits⟩, ?_⟩
    show ((_ : List (ℕ ×ₗ ℕ)) : Multiset (ℕ ×ₗ ℕ)) + waitingRanks maxDepth
      ((Context.unlessEmpty ⟨ownedGraph, rest⟩ ++ below).flatMap Context.frames) = _
    rw [hframes]
    rfl
  | pushOwned frame g depth =>
    have hcontext : Context.Waits maxDepth (⟨ownedGraph, frame :: rest⟩ : Context V) := by
      refine ⟨cons_ne_nil _ _, fun waiting hw => ?_⟩
      rcases mem_cons.mp hw with rfl | hw
      · exact hplaced
      · exact hrest waiting hw
    refine ⟨⟨⟨Frame.enter depth .visitIfConsistent, [], rfl, .inl rfl, fun _ h => nomatch h⟩,
      fun context hc => ?_⟩, ?_⟩
    · rcases mem_cons.mp hc with rfl | hc
      · exact hcontext
      · exact hbelow context hc
    · show {(Frame.enter depth .visitIfConsistent : Frame V).rank maxDepth g.blockCount}
        + waitingRanks maxDepth (frame :: rest ++ below.flatMap Context.frames) = _
      exact (Multiset.singleton_add _ _).trans (by
        unfold waitingRanks
        rw [cons_append, map_cons, ← Multiset.cons_coe]
        rfl)

/-! ## A round -/

section Rounds
variable [DecidableEq V] (maxDepth : ℕ) (threadIds : List ℕ)

theorem iterate_ranks {queries : Queries V} {answers : ExecutorAnswers V} {explorer : Explorer V}
    (hstacked : explorer.Stacked maxDepth) (hcontexts : explorer.contexts ≠ [])
    (hraised : (explorer.iterate queries threadIds maxDepth answers).raised = none) :
    (explorer.iterate queries threadIds maxDepth answers).explorer.Stacked maxDepth ∧
      (Multiset.IsDershowitzMannaLT
          ((explorer.iterate queries threadIds maxDepth answers).explorer.ranks maxDepth)
          (explorer.ranks maxDepth) ∨
        answers.sawStop ∧ answers.stopOnEntry = false ∧
          (explorer.iterate queries threadIds maxDepth answers).explorer.ranks maxDepth
            = explorer.ranks maxDepth) := by
  obtain ⟨borrowed, contexts⟩ := explorer
  obtain ⟨context, below, rfl⟩ := exists_cons_of_ne_nil hcontexts
  obtain ⟨owned, frames⟩ := context
  obtain ⟨⟨frame, rest, rfl, htop, hrest⟩, hbelow⟩ := hstacked
  set graph := Context.graph ⟨owned, frame :: rest⟩ borrowed with hgraph
  have hmoves := (handleFrame_step queries threadIds maxDepth answers graph frame).moves maxDepth answers graph frame _ htop
  have hiterate : Explorer.iterate queries threadIds maxDepth answers ⟨borrowed, ⟨owned, frame :: rest⟩ :: below⟩
      = Explorer.settle borrowed ⟨owned, frame :: rest⟩ rest below
        (handleFrame queries threadIds maxDepth answers graph frame) := rfl
  rw [hiterate] at hraised ⊢
  set step := handleFrame queries threadIds maxDepth answers graph frame with hstep
  have hranks : Explorer.ranks maxDepth ⟨borrowed, ⟨owned, frame :: rest⟩ :: below⟩
      = {frame.rank maxDepth graph.graph.blockCount}
        + waitingRanks maxDepth (rest ++ below.flatMap Context.frames) :=
    (settle_stacked maxDepth borrowed graph owned rfl rest below hrest hbelow (.keep frame) htop).2
  have hsettled : ∀ _ : step.disposition.Placed maxDepth,
      (Explorer.settle borrowed ⟨owned, frame :: rest⟩ rest below step).explorer.Stacked maxDepth ∧
        (Explorer.settle borrowed ⟨owned, frame :: rest⟩ rest below step).explorer.ranks maxDepth
          = step.disposition.ranks maxDepth step.graph.graph.blockCount
            + waitingRanks maxDepth (rest ++ below.flatMap Context.frames) := by
    intro hplaced
    cases owned with
    | none =>
      exact settle_stacked maxDepth step.graph step.graph none rfl rest below hrest hbelow _ hplaced
    | some ownedGraph =>
      exact settle_stacked maxDepth borrowed step.graph (some step.graph) rfl rest below hrest hbelow _
        hplaced
  rcases hmoves with h | h | ⟨hstop, hkind, hblocks, kept, hkept, hkeptKind, hdepth⟩
  · exact absurd hraised h
  · obtain ⟨hnext, hnextRanks⟩ := hsettled (h.placed)
    refine ⟨hnext, .inl ⟨waitingRanks maxDepth (rest ++ below.flatMap Context.frames),
      step.disposition.ranks maxDepth step.graph.graph.blockCount,
      {frame.rank maxDepth graph.graph.blockCount}, Multiset.singleton_ne_zero _, ?_, ?_, ?_⟩⟩
    · rw [hnextRanks, add_comm]
    · rw [hranks, add_comm]
    · exact fun rank hrank => ⟨_, Multiset.mem_singleton_self _,
        h.ranks_lt rank hrank⟩
  · obtain ⟨hnext, hnextRanks⟩ := hsettled (by rw [hkept]; exact .inl hkeptKind)
    refine ⟨hnext, .inr ⟨hstop, ?_, ?_⟩⟩
    · -- with a stop on entry the frame would have been unwound
      by_contra hentry
      have hunwound : step = unwindFrame graph frame := by
        rw [hstep]
        unfold handleFrame
        rw [if_pos (by simpa using hentry)]
      rcases unwindFrame_pops graph frame with hfail | hpop
      · exact hfail (hunwound ▸ hraised)
      · rw [← hunwound, hkept] at hpop
        cases hpop
    · rw [hnextRanks, hranks, hkept, hblocks]
      show {kept.rank maxDepth graph.graph.blockCount} + _ = _
      unfold Frame.rank
      rw [hkind, hkeptKind, hdepth]

/-! ## The loop -/

/-- A stop that was seen once is seen on entry to every later round. -/
def StopSticks (answers : ℕ → ExecutorAnswers V) : Prop :=
  ∀ round, (answers round).sawStop → (answers (round + 1)).stopOnEntry = true

/-- `run_loop` of any executor, at most `fuel` rounds of it, from a round on: the explorer it leaves,
and the exception if one ended it. -/
def Explorer.runLoop (queries : ℕ → Queries V) (answers : ℕ → ExecutorAnswers V) :
    ℕ → ℕ → Explorer V → Option (Explorer V × Option Raised)
  | 0, _, _ => none
  | fuel + 1, round, explorer =>
    if explorer.contexts.isEmpty then some (explorer, none)
    else
      let outcome := explorer.iterate (queries round) threadIds maxDepth (answers round)
      match outcome.raised with
      | some raised => some (outcome.explorer, some raised)
      | none => Explorer.runLoop queries answers fuel (round + 1) outcome.explorer

theorem Explorer.runLoop_succ {queries : ℕ → Queries V} {answers : ℕ → ExecutorAnswers V} (fuel round : ℕ)
    {explorer : Explorer V} (hcontexts : explorer.contexts ≠ [])
    (hraised : (explorer.iterate (queries round) threadIds maxDepth (answers round)).raised = none) :
    Explorer.runLoop maxDepth threadIds queries answers (fuel + 1) round explorer =
      Explorer.runLoop maxDepth threadIds queries answers fuel (round + 1)
        (explorer.iterate (queries round) threadIds maxDepth (answers round)).explorer := by
  rw [Explorer.runLoop, if_neg (by simpa using hcontexts)]
  dsimp only
  rw [hraised]

/-- The loop has ended this way. -/
def Explorer.Ends (queries : ℕ → Queries V) (answers : ℕ → ExecutorAnswers V) (round : ℕ)
    (explorer : Explorer V) : Prop :=
  ∃ fuel exit, Explorer.runLoop maxDepth threadIds queries answers fuel round explorer = some exit

theorem Explorer.ends_of_next {queries : ℕ → Queries V} {answers : ℕ → ExecutorAnswers V} {round : ℕ}
    {explorer : Explorer V} (h : explorer.contexts ≠ [] →
      (explorer.iterate (queries round) threadIds maxDepth (answers round)).raised = none →
      Explorer.Ends maxDepth threadIds queries answers (round + 1)
        (explorer.iterate (queries round) threadIds maxDepth (answers round)).explorer) :
    Explorer.Ends maxDepth threadIds queries answers round explorer := by
  by_cases hempty : explorer.contexts = []
  · exact ⟨1, (explorer, none), by rw [Explorer.runLoop, hempty]; rfl⟩
  · cases hraised : (explorer.iterate (queries round) threadIds maxDepth (answers round)).raised with
    | some raised =>
      refine ⟨1, ((explorer.iterate (queries round) threadIds maxDepth (answers round)).explorer,
        some raised), ?_⟩
      rw [Explorer.runLoop, if_neg (by simpa using hempty)]
      dsimp only
      rw [hraised]
    | none =>
      obtain ⟨fuel, exit, hexit⟩ := h hempty hraised
      exact ⟨fuel + 1, exit,
        (Explorer.runLoop_succ maxDepth threadIds fuel round hempty hraised).trans hexit⟩

theorem Explorer.ends_of_stacked (queries : ℕ → Queries V) (answers : ℕ → ExecutorAnswers V)
    (hsticks : StopSticks answers) (ranks : Multiset (ℕ ×ₗ ℕ)) :
    ∀ (explorer : Explorer V) (round : ℕ), explorer.Stacked maxDepth → explorer.ranks maxDepth = ranks →
      Explorer.Ends maxDepth threadIds queries answers round explorer := by
  -- induction on the ranks; a stalled round is joined with the unwinding round behind it
  induction Multiset.wellFounded_isDershowitzMannaLT.apply ranks with
  | intro ranks _ ih =>
  intro explorer round hstacked hranks
  refine Explorer.ends_of_next maxDepth threadIds fun hempty hraised => ?_
  obtain ⟨hnext, hless | ⟨hstop, _, hsame⟩⟩ :=
    iterate_ranks maxDepth threadIds hstacked hempty hraised
  · exact ih _ (hranks ▸ hless) _ (round + 1) hnext rfl
  · refine Explorer.ends_of_next maxDepth threadIds fun hempty' hraised' => ?_
    obtain ⟨hunwound, hless | ⟨_, hentry, _⟩⟩ :=
      iterate_ranks maxDepth threadIds hnext hempty' hraised'
    · exact ih _ (hranks ▸ hsame ▸ hless) _ (round + 1 + 1) hunwound rfl
    · rw [hsticks round hstop] at hentry
      cases hentry

end Rounds

/-! ## The sequential executor -/

namespace SequentialRun
variable [DecidableEq V] (code : UserCode V) (threadIds : List ℕ) (maxDepth : ℕ)

omit [DecidableEq V] in
theorem answers_sawStop (run : SequentialRun V) (h : (answers code run).stopOnEntry = false) :
    ¬ (answers code run).sawStop := by
  rintro (hstop | ⟨tid, hstop⟩)
  · exact absurd (h.symm.trans hstop) (nomatch ·)
  · exact absurd (h.symm.trans hstop) (nomatch ·)

theorem exits_of_stacked (ranks : Multiset (ℕ ×ₗ ℕ)) :
    ∀ run : SequentialRun V, run.explorer.Stacked maxDepth → run.explorer.ranks maxDepth = ranks →
      ∃ exit, Exits code threadIds maxDepth run exit := by
  induction Multiset.wellFounded_isDershowitzMannaLT.apply ranks with
  | intro ranks _ ih =>
  intro run hstacked hranks
  by_cases hempty : run.explorer.contexts = []
  · exact ⟨_, 1, by rw [runLoop, hempty]; rfl⟩
  · cases hraised : (iterate code threadIds maxDepth run).2 with
    | some raised =>
      have hnext : iterate code threadIds maxDepth run
          = ((iterate code threadIds maxDepth run).1, some raised) := Prod.ext rfl hraised
      have hlast : ∃ exit, runLoop code threadIds maxDepth 1 run = some exit := by
        rw [runLoop, if_neg (by simpa using hempty), hnext]
        exact ⟨_, rfl⟩
      exact hlast.imp fun exit hexit => ⟨1, hexit⟩
    | none =>
      obtain ⟨hnext, hless | ⟨hstop, hentry, _⟩⟩ := iterate_ranks maxDepth threadIds hstacked hempty hraised
      · obtain ⟨exit, rounds, hexit⟩ := ih _ (hranks ▸ hless)
          (iterate code threadIds maxDepth run).1 hnext rfl
        refine ⟨exit, rounds + 1, ?_⟩
        rw [runLoop, if_neg (by simpa using hempty)]
        rw [show iterate code threadIds maxDepth run = ((iterate code threadIds maxDepth run).1, none)
          from Prod.ext rfl hraised]
        exact hexit
      · exact absurd hstop (answers_sawStop code run hentry)

end SequentialRun

theorem start_stacked (maxDepth : ℕ) (graph : WorkerGraph V) (depth : ℕ) (mode : ExplorationTaskMode) :
    (Explorer.start graph depth mode).Stacked maxDepth :=
  ⟨⟨Frame.enter depth mode, [], rfl, .inl rfl, fun _ h => nomatch h⟩, fun _ h => nomatch h⟩

/-- The exploration loop ends: for every start graph, depth and depth limit, whatever user code
answers or throws in each round, under the sequential executor and under any executor whose stop
request stands once it was seen. -/
theorem run_loop_terminates [DecidableEq V] (threadIds : List ℕ) (maxDepth : ℕ) (graph : WorkerGraph V)
    (depth : ℕ) (mode : ExplorationTaskMode) :
    (∀ (code : UserCode V) (result : VerifyResult), ∃ exit,
      SequentialRun.Exits code threadIds maxDepth (SequentialRun.start graph depth mode result) exit) ∧
    (∀ (queries : ℕ → Queries V) (answers : ℕ → ExecutorAnswers V), StopSticks answers →
      Explorer.Ends maxDepth threadIds queries answers 0 (Explorer.start graph depth mode)) :=
  ⟨fun code _ => SequentialRun.exits_of_stacked code threadIds maxDepth _ _
      (start_stacked maxDepth graph depth mode) rfl,
    fun queries answers hsticks => Explorer.ends_of_stacked maxDepth threadIds queries answers hsticks _ _ 0
      (start_stacked maxDepth graph depth mode) rfl⟩

/-- A thread that never stops sending to itself. -/
def chattyProgram : Program ℕ := ⟨⟨[some fun _ _ => some (.send ⟨0, 0⟩)]⟩⟩

def chattyCode : UserCode ℕ := UserCode.ofConfig ⟨chattyProgram, 5, 0, .async⟩ [0] fun _ => .continue

def chattyRun : SequentialRun ℕ :=
  SequentialRun.start (WorkerGraph.ofGraph ExplorationGraph.empty) 0 .visit VerifyResult.initial

theorem chatty_loop_terminates :
    StopSticks (fun _ => SequentialRun.answers chattyCode chattyRun) ∧
    Explorer.Ends 5 [0] chattyCode.queries (fun _ => SequentialRun.answers chattyCode chattyRun) 0
      chattyRun.explorer := by
  have hsticks : StopSticks (fun _ => SequentialRun.answers chattyCode chattyRun) :=
    fun _ hstop => absurd hstop (SequentialRun.answers_sawStop chattyCode chattyRun rfl)
  exact ⟨hsticks, (run_loop_terminates [0] 5 (WorkerGraph.ofGraph ExplorationGraph.empty) 0 .visit).2
    chattyCode.queries _ hsticks⟩

end MustDpor

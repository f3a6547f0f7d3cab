import Mathlib.Algebra.BigOperators.Group.Finset.Piecewise
import Mathlib.Algebra.BigOperators.Pi
import Mathlib.Algebra.BigOperators.Ring.Finset
import Mathlib.Algebra.Order.BigOperators.Group.Finset
import Mathlib.Algebra.Order.Group.Multiset
import Mathlib.Tactic.Abel
import MustDpor.Foundations.SharedTally
import MustDpor.Parallel.Exploration

/-! # Conservation of the search

What the workers have still to do is the calls pending in each worker plus the calls of the queued tasks.
As long as nobody stops the search, every step keeps the terminals published so far together with those
still to come (`Balanced`), and makes the work left smaller (`Certificate`). -/

namespace MustDpor
set_option autoImplicit false
open List Function

variable {V : Type}

/-! ## What a forest yields -/

/-- The answers and failures of a forest, in any order. -/
def Forest.yield {N A E : Type} (f : Forest N A E) : Multiset A × Multiset E := (f.leaves, f.fails)

variable {N A E : Type}

theorem Forest.Opens.yield_eq (f g : Forest N A E) (calls : List N) (h : f.Opens calls g) : f.yield = g.yield := by
  unfold Forest.yield
  rw [h.leaves_eq, h.fails_eq]

@[simp] theorem Forest.yield_append (f g : Forest N A E) : (f ++ g).yield = f.yield + g.yield := by
  simp [Forest.yield]

@[simp] theorem Forest.yield_nil : (Forest.nil : Forest N A E).yield = 0 := rfl

/-- Answers that have been given. -/
def given {A E : Type} (answers : List A) : Multiset A × Multiset E := (answers, 0)

@[simp] theorem given_append (a b : List A) : (given (a ++ b) : Multiset A × Multiset E) = given a + given b := by
  simp [given]

@[simp] theorem given_nil : (given [] : Multiset A × Multiset E) = 0 := rfl

theorem Forest.yield_ofAnswer (a : Option A) : (Forest.ofAnswer a : Forest N A E).yield = given a.toList := by
  simp [Forest.yield, given]

/-! ## Work left -/

section Weights
variable [LinearOrder V] (config : DporConfig V) (tids : List ℕ) (n : ℕ)

def taskCalls (task : ExplorationTask V) : Search V :=
  visitTask (Queries.ofConfig config tids) tids config.maxDepth task.graph.graph
    task.dporTreeDepth task.mode

def ExplorerPending (explorer : Explorer V) (calls : Search V) : Prop :=
  PendingContexts (Queries.ofConfig config tids) tids config.maxDepth explorer.borrowedGraph
    explorer.contexts calls

/-- More than a worker needs from the end of a task to its next wait, waking all others on the way. -/
def restWeight : ℕ := 3 * n + 8

def exploreWeight (size rank : ℕ) : ℕ := 4 * ((n + 5 + 2) * size + rank - (n + 5)) + restWeight n

/-- A queued task pays for being taken. -/
def taskWeight (size : ℕ) : ℕ := exploreWeight n size 0 + 2

/-- The calls left in `process_task`, and their weight. -/
inductive Carries : ProcessState V → Search V → ℕ → Prop where
  | entering (task : ExplorationTask V) : task.graph.graph.Sound →
      Carries (.entering task) (taskCalls config tids task)
        (exploreWeight n (taskCalls config tids task).size 0 + 1)
  | exploring (explorer : Explorer V) (calls : Search V) : ExplorerPending config tids explorer calls →
      Carries (.exploring explorer false) calls
        (exploreWeight n calls.size (rank (n + 5) explorer.contexts))
  | failed (calls : Search V) (raised : Raised) : calls.run = ⟨[], some raised⟩ →
      Carries .failed calls (restWeight n)

/-- The steps an idle worker has before it waits or exits. -/
def idleWeight : WorkerPc (ExplorationTask V) (ProcessState V) → Option ℕ
  | .exited | .waiting => some 0
  | .leaving | .parking => some 1
  | .idling => some 2
  | .notified | .firstCheck => some 3
  | .acquire => some 4
  | .completeNotify => some (3 * n + 5)
  | .finishLocked => some (3 * n + 6)
  | .finishing => some (3 * n + 7)
  | _ => none

/-- Both ways an offer can go leave the same calls. -/
structure Offered (task : ExplorationTask V) (accepted refused : ProcessState V) (calls : Search V)
    (weight : ℕ) : Prop where
  sound : task.graph.graph.Sound
  refused : ∃ rest k, Carries config tids n refused rest k ∧ calls.yield = rest.yield ∧
    calls.run = rest.run ∧ k ≤ weight
  accepted : ∃ rest k, Carries config tids n accepted rest k ∧
    calls.yield = (taskCalls config tids task).yield + rest.yield ∧
    k + taskWeight n (taskCalls config tids task).size + 4 ≤ weight

/-- The calls a worker has left, and a bound on its steps. -/
inductive Certificate : WorkerPc (ExplorationTask V) (ProcessState V) → Search V → ℕ → Prop where
  | idle (pc : WorkerPc (ExplorationTask V) (ProcessState V)) (weight : ℕ) :
      idleWeight n pc = some weight → Certificate pc .nil weight
  | processing (state : ProcessState V) (calls : Search V) (weight : ℕ) :
      Carries config tids n state calls weight → Certificate (.processing state) calls weight
  | notifyOne (state : ProcessState V) (calls : Search V) (weight : ℕ) :
      Carries config tids n state calls weight → Certificate (.notifyOne state) calls (weight + 4)
  | enqueueing (task : ExplorationTask V) (accepted refused : ProcessState V) (calls : Search V)
      (weight : ℕ) : Offered config tids n task accepted refused calls weight →
      Certificate (.enqueueing task accepted refused) calls (weight + 2)
  | enqueueLocked (task : ExplorationTask V) (accepted refused : ProcessState V) (calls : Search V)
      (weight : ℕ) : Offered config tids n task accepted refused calls weight →
      Certificate (.enqueueLocked task accepted refused) calls (weight + 1)

end Weights

/-! ## Handing a child on -/

variable {task : ExplorationTask V}

section Spawning
variable [DecidableEq V] (queries : Queries V) (tids : List ℕ) (maxDepth : ℕ) (answers : ExecutorAnswers V)

/-- A round that hands a child on goes on with the same frame, and publishes nothing whichever way the
queue answers. -/
theorem iterate_spawned {explorer : Explorer V}
    (h : (explorer.iterate queries tids maxDepth answers).spawned = some task) (answers' : ExecutorAnswers V) :
    (explorer.iterate queries tids maxDepth answers).raised = none ∧
      (explorer.iterate queries tids maxDepth answers).published = none ∧
      (explorer.iterate queries tids maxDepth answers).explorer.contexts ≠ [] ∧
      (explorer.iterate queries tids maxDepth answers').published = none := by
  obtain ⟨borrowed, contexts⟩ := explorer
  cases contexts with
  | nil => cases h
  | cons context below =>
    obtain ⟨ownedGraph, frames⟩ := context
    cases frames with
    | nil => cases h
    | cons frame rest =>
      have hquiet : ∀ graph, frame.kind ≠ .enter →
          (handleFrame queries tids maxDepth answers' graph frame).published = none := by
        intro graph hkind
        cases hp : (handleFrame queries tids maxDepth answers' graph frame).published with
        | none => rfl
        | some terminal =>
          exact absurd (kind_of_published queries tids maxDepth answers' graph frame hp) hkind
      cases ownedGraph with
      | none | some =>
        simp only [iterate_borrowed, iterate_owned] at h ⊢
        obtain ⟨hkind, -, g, kept, hstep⟩ := handleFrame_spawned queries tids maxDepth answers _ frame h
        rw [hstep]
        exact ⟨rfl, rfl, cons_ne_nil _ _, hquiet _ hkind⟩

end Spawning

/-! ## One round -/

variable {state : ProcessState V} {weight : ℕ}

section Rounds
variable [LinearOrder V] {config : DporConfig V} {tids : List ℕ}
  {observer : List (Terminal V) → TerminalExecutionAction} {n : ℕ}

omit [LinearOrder V] in
theorem AnswersAllowed.calm {answers : ExecutorAnswers V} (h : AnswersAllowed n false false answers)
    (accepted : Bool) : (answers.withEnqueue accepted).Calm := by
  have hpoll : ∀ poll, PollAllowed false false poll → poll = false := by
    intro poll hp
    cases poll with
    | false => rfl
    | true => rcases hp.1 rfl with h | h <;> cases h
  exact ⟨hpoll _ h.onEntry, hpoll _ h.beforeCheck, h.progress, hpoll _ h.afterProgress,
    fun tid => hpoll _ (h.atThread tid), hpoll _ h.declined, h.observer⟩

theorem slack_lt_of_pending {explorer : Explorer V} {calls : Search V} (slack : ℕ)
    (h : ExplorerPending config tids explorer calls) (hne : explorer.contexts ≠ []) :
    slack < (slack + 2) * calls.size + rank slack explorer.contexts := by
  have htop : ∀ (graph : WorkerGraph V) (frame : Frame V) (rest : List (Frame V)) (top : Search V),
      Pending (Queries.ofConfig config tids) tids config.maxDepth graph (frame :: rest) top →
      slack < (slack + 2) * top.size + frame.load slack := by
    intro graph frame rest top hpending
    by_cases hkind : frame.kind = .enter
    · cases hpending with
      | enter _ _ later _ _ =>
        have hpos := size_visitTask_pos (Queries.ofConfig config tids) tids config.maxDepth
          graph.graph frame.dporTreeDepth frame.mode
        rw [Forest.size_append]
        have := Nat.mul_le_mul_left (slack + 2) (le_trans hpos (Nat.le_add_right _ later.size))
        omega
      | revisits _ _ _ _ _ hkind' => simp [hkind] at hkind'
      | rolling _ _ _ hwaiting =>
        cases hwaiting with
        | frame _ _ _ _ _ hrolling =>
          unfold Frame.Rolling at hrolling
          rw [hkind] at hrolling
          exact hrolling.elim
    · rw [Frame.load, if_neg hkind]
      omega
  obtain ⟨borrowed, contexts⟩ := explorer
  cases h with
  | done => exact absurd rfl hne
  | borrowed frames _ _ hpending =>
    cases frames with
    | nil => cases hpending
    | cons frame rest =>
      have := htop _ frame rest calls hpending
      rw [rank_cons]
      omega
  | owned graph frames below top later _ hpending =>
    cases frames with
    | nil => cases hpending
    | cons frame rest =>
      have := htop _ frame rest top hpending
      rw [rank_cons, Forest.size_append, Nat.mul_add]
      omega

omit [LinearOrder V] in
theorem rollingFrames_waiting [DecidableEq V] {queries : Queries V} {maxDepth : ℕ} {graph : WorkerGraph V}
    {frames : List (Frame V)} {calls : Search V}
    (h : Waiting queries tids maxDepth graph frames calls) : frames.length = rollingFrames frames := by
  induction h with
  | bottom => rfl
  | frame graph below frame rest calls hrolling _ _ ih =>
    have hkind : frame.kind ≠ .enter := by
      intro hkind
      unfold Frame.Rolling at hrolling
      rw [hkind] at hrolling
      exact hrolling
    unfold rollingFrames at ih ⊢
    rw [countP_cons, length_cons, ih]
    simp [hkind]

theorem length_le_of_pending {graph : WorkerGraph V} {frames : List (Frame V)} {calls : Search V}
    (h : Pending (Queries.ofConfig config tids) tids config.maxDepth graph frames calls) :
    frames.length ≤ rollingFrames frames + calls.size := by
  have hcons : ∀ (frame : Frame V) rest, rollingFrames rest ≤ rollingFrames (frame :: rest) := by
    intro frame rest
    unfold rollingFrames
    rw [countP_cons]
    omega
  cases h with
  | rolling frame rest _ hwaiting =>
    rw [rollingFrames_waiting hwaiting]
    omega
  | enter frame rest later _ hwaiting =>
    have hrest := rollingFrames_waiting hwaiting
    have hpos := size_visitTask_pos (Queries.ofConfig config tids) tids config.maxDepth
      graph.graph frame.dporTreeDepth frame.mode
    have hle := hcons frame rest
    rw [length_cons, Forest.size_append]
    omega
  | revisits below frame rest sendId later hkind _ _ _ hwaiting =>
    have hrest := rollingFrames_waiting hwaiting
    have htop : rollingFrames (frame :: rest) = rollingFrames rest + 1 := by
      unfold rollingFrames
      rw [countP_cons]
      simp [hkind]
    rw [length_cons, htop]
    omega

theorem frameCount_le {explorer : Explorer V} {calls : Search V} (slack : ℕ)
    (h : ExplorerPending config tids explorer calls) :
    frameCount explorer.contexts ≤ rank slack explorer.contexts + calls.size := by
  have hrolling : ∀ (borrowed : WorkerGraph V) (contexts : List (Context V)) (calls : Search V),
      PendingContexts (Queries.ofConfig config tids) tids config.maxDepth borrowed contexts
        calls → frameCount contexts ≤ (contexts.map fun c => rollingFrames c.frames).sum + calls.size := by
    intro borrowed contexts calls h
    induction h with
    | done => simp [frameCount]
    | borrowed frames calls _ hpending =>
      have := length_le_of_pending hpending
      simpa [frameCount] using this
    | owned graph frames below calls later _ hpending _ ih =>
      have := length_le_of_pending hpending
      unfold frameCount at ih ⊢
      simp only [map_cons, sum_cons, Forest.size_append]
      omega
  have hsum := hrolling _ _ _ h
  have hrank : (explorer.contexts.map fun c => rollingFrames c.frames).sum ≤ rank slack explorer.contexts := by
    cases explorer.contexts with
    | nil => simp [rank]
    | cons context below =>
      simp only [map_cons, sum_cons, rank]
      omega
  omega

theorem exploreWeight_lt {size rank size' rank' opened : ℕ}
    (hslack : n + 5 < (n + 5 + 2) * size + rank) (hsize : size = opened + size')
    (hrank : rank' + 1 ≤ (n + 5 + 2) * opened + rank) :
    exploreWeight n size' rank' + 4 ≤ exploreWeight n size rank := by
  subst hsize
  unfold exploreWeight
  rw [Nat.mul_add] at hslack ⊢
  omega

theorem taskWeight_lt {size rank size' rank' child opened : ℕ} (hchild : 0 < child)
    (hslack : n + 5 < (n + 5 + 2) * size' + rank') (hsize : size = opened + (child + size'))
    (hrank : rank' ≤ (n + 5 + 2) * opened + rank) :
    exploreWeight n size' rank' + taskWeight n child + 4 + 3 ≤ exploreWeight n size rank := by
  subst hsize
  have hone : n + 5 + 2 ≤ (n + 5 + 2) * child := Nat.le_mul_of_pos_right _ hchild
  unfold taskWeight exploreWeight restWeight
  rw [Nat.mul_add, Nat.mul_add]
  omega

variable (config tids observer n) in
/-- What a move does to the calls left and their weight when nobody has stopped the search. -/
def MoveKeeps (published : List (Terminal V)) (calls : Search V) (weight : ℕ) : ExploreMove V → Prop
  | .work out next => ∃ rest k, Carries config tids n next rest k ∧
      calls.yield = given out.toList + rest.yield ∧ calls.run = (Forest.ofAnswer out ++ rest).run ∧
      (∀ terminal, out = some terminal → observer (published ++ [terminal]) = .continue) ∧ k < weight
  | .offer task accepted refused =>
      ∃ k, Offered config tids n task accepted refused calls k ∧ k + 2 < weight
  | .stop out next => observer (published ++ [out]) = .stop ∧ ∃ explorer rest,
      next = .exploring explorer true ∧ ExplorerPending config tids explorer rest ∧
      calls.run = (Forest.ofAnswer (some out) ++ rest).run ∧
      frameCount explorer.contexts + 22 < 4 * weight
  | .raise => (∃ raised, calls.run = ⟨[], some raised⟩) ∧ restWeight n ≤ weight
  | .done => calls = .nil ∧ restWeight n ≤ weight

section Explore
variable (explorer : Explorer V) (calls : Search V) (hpending : ExplorerPending config tids explorer calls)
  (hne : explorer.contexts ≠ []) (answers : ExecutorAnswers V) (hallowed : AnswersAllowed n false false answers)
include hpending hne hallowed

theorem refused_round :
    let outcome := exploreRound config tids explorer (answers.withEnqueue false)
    (∃ raised, outcome.raised = some raised ∧ calls.run = ⟨[], some raised⟩) ∨
    (outcome.raised = none ∧ ∃ rest, ExplorerPending config tids outcome.explorer rest ∧
      calls.yield = given outcome.published.toList + rest.yield ∧
      calls.run = (Forest.ofAnswer outcome.published ++ rest).run ∧
      exploreWeight n rest.size (rank (n + 5) outcome.explorer.contexts) + 4 ≤
        exploreWeight n calls.size (rank (n + 5) explorer.contexts)) := by
  intro outcome
  have hslack := slack_lt_of_pending (n + 5) hpending hne
  have hspawned : outcome.spawned = none :=
    spawned_iterate (Queries.ofConfig config tids) tids config.maxDepth _ rfl explorer
  have hround : RoundRefines (Queries.ofConfig config tids) tids config.maxDepth (n + 5) calls
      explorer.contexts outcome :=
    roundRefines_iterate (Nat.succ_pos _) (hallowed.calm false) hne hpending
  rcases hround with ⟨raised, opened, later, hraised, _, hopens⟩ |
    ⟨opened, rest, hraised, _, hopens, hrest, hrank⟩
  · exact .inl ⟨raised, hraised, hopens.run_eq⟩
  · rw [hspawned] at hopens hrank
    change calls.Opens opened (Forest.ofAnswer outcome.published ++ rest) at hopens
    refine .inr ⟨hraised, rest, hrest, ?_, hopens.run_eq, ?_⟩
    · rw [hopens.yield_eq, Forest.yield_append, Forest.yield_ofAnswer]
    · have hsize := hopens.size_eq
      rw [Forest.size_append, Forest.size_ofAnswer, Nat.zero_add] at hsize
      exact exploreWeight_lt hslack hsize hrank

theorem offered_round
    (hspawned : (exploreRound config tids explorer (answers.withEnqueue true)).spawned = some task) :
    ∃ k, Offered config tids n task
        (.exploring (exploreRound config tids explorer (answers.withEnqueue true)).explorer false)
        (afterRefusal false (exploreRound config tids explorer (answers.withEnqueue false))) calls k ∧
      k + 2 < exploreWeight n calls.size (rank (n + 5) explorer.contexts) := by
  have hslack := slack_lt_of_pending (n + 5) hpending hne
  obtain ⟨hraised, hpublished, hcontexts, hquiet⟩ := iterate_spawned (Queries.ofConfig config tids)
    tids config.maxDepth _ hspawned (answers.withEnqueue false)
  have hround : RoundRefines (Queries.ofConfig config tids) tids config.maxDepth (n + 5) calls
      explorer.contexts (exploreRound config tids explorer (answers.withEnqueue true)) :=
    roundRefines_iterate (Nat.succ_pos _) (hallowed.calm true) hne hpending
  have hweight : restWeight n + 4 ≤ exploreWeight n calls.size (rank (n + 5) explorer.contexts) := by
    unfold exploreWeight
    omega
  refine ⟨exploreWeight n calls.size (rank (n + 5) explorer.contexts) - 3, ?_, by omega⟩
  rcases hround with ⟨raised, _, _, hraised', _, _⟩ | ⟨opened, rest, _, hsound, hopens, hrest, hrank⟩
  · exact absurd (hraised.symm.trans hraised') (by simp)
  · refine ⟨hsound task hspawned, ?_, ?_⟩
    · unfold afterRefusal
      rcases refused_round explorer calls hpending hne answers hallowed with
        ⟨raised, hrefused, hrun⟩ | ⟨hrefused, left, hleft, hyield, hrun, hless⟩
      · rw [hrefused]
        exact ⟨calls, _, .failed calls raised hrun, rfl, rfl, by omega⟩
      · change (exploreRound config tids explorer (answers.withEnqueue false)).published = none
          at hquiet
        rw [hquiet] at hyield hrun
        rw [hrefused]
        refine ⟨left, _, .exploring _ left hleft, ?_, hrun, by omega⟩
        rw [hyield]
        simp
    · have hyield := hopens.yield_eq
      have hsize := hopens.size_eq
      change (exploreRound config tids explorer (answers.withEnqueue true)).published = none
        at hpublished
      rw [hpublished, hspawned] at hyield hsize
      change calls.yield = (taskCalls config tids task ++ rest).yield at hyield
      change calls.size = opened.length + (taskCalls config tids task ++ rest).size at hsize
      rw [Forest.yield_append] at hyield
      rw [Forest.size_append] at hsize
      refine ⟨rest, _, .exploring _ rest hrest, hyield, ?_⟩
      have hchild : 0 < (taskCalls config tids task).size := size_visitTask_pos _ tids _ _ _ _
      have hless := taskWeight_lt hchild
        (slack_lt_of_pending (n + 5) hrest hcontexts) hsize (le_trans (Nat.le_add_right _ _) hrank)
      omega

end Explore

theorem frameCount_lt_exploreWeight {explorer next : Explorer V} {calls rest : Search V}
    (hpending : ExplorerPending config tids explorer calls) (hne : explorer.contexts ≠ [])
    (hrest : ExplorerPending config tids next rest)
    (hless : exploreWeight n rest.size (rank (n + 5) next.contexts) + 4 ≤
      exploreWeight n calls.size (rank (n + 5) explorer.contexts)) :
    frameCount next.contexts + 22 < 4 * exploreWeight n calls.size (rank (n + 5) explorer.contexts) := by
  have hslack := slack_lt_of_pending (n + 5) hpending hne
  have hframes := frameCount_le (n + 5) hrest
  have hsize : rest.size ≤ (n + 5 + 2) * rest.size := Nat.le_mul_of_pos_left _ (by omega)
  unfold exploreWeight restWeight at hless ⊢
  omega

theorem explorerPending_start (h : task.graph.graph.Sound) :
    ExplorerPending config tids (Explorer.start task.graph task.dporTreeDepth task.mode)
      (taskCalls config tids task) :=
  runPending_start config tids task.graph h task.dporTreeDepth task.mode VerifyResult.initial

theorem moveKeeps {published : List (Terminal V)} {calls : Search V}
    {move : ExploreMove V} (hmove : ExploreMoves config tids observer n false published state move)
    (h : Carries config tids n state calls weight) :
    MoveKeeps config tids observer n published calls weight move := by
  cases h with
  | entering task hsound =>
    cases hmove with
    | skip _ hstop => cases hstop
    | enter =>
      refine ⟨taskCalls config tids task, _, .exploring _ _ (explorerPending_start hsound), ?_,
        rfl, nofun, ?_⟩
      · simp
      · show exploreWeight n _ (rank (n + 5) [⟨none, [Frame.enter task.dporTreeDepth task.mode]⟩]) < _
        rw [rank_cons]
        exact Nat.lt_succ_self _
  | exploring explorer _ hpending =>
    cases hmove with
    | returned _ _ hcontexts =>
      refine ⟨?_, by unfold exploreWeight; omega⟩
      unfold ExplorerPending at hpending
      rw [hcontexts] at hpending
      cases hpending
      rfl
    | round _ _ answers hne hallowed =>
      unfold roundMove
      rcases refused_round explorer calls hpending hne answers hallowed with
        ⟨raised, hraised, hrun⟩ | ⟨hraised, rest, hrest, hyield, hrun, hless⟩
      · rw [hraised]
        exact ⟨⟨raised, hrun⟩, by unfold exploreWeight; omega⟩
      · rw [hraised]
        cases hpublished : (exploreRound config tids explorer (answers.withEnqueue false)).published with
        | none =>
          rw [hpublished] at hyield hrun
          exact ⟨rest, _, .exploring _ rest hrest, hyield, hrun, nofun, by omega⟩
        | some terminal =>
          rw [hpublished] at hyield hrun
          dsimp only
          cases haction : observer (published ++ [terminal]) with
          | stop =>
            refine ⟨haction, _, rest, rfl, hrest, hrun, ?_⟩
            exact frameCount_lt_exploreWeight hpending hne hrest hless
          | «continue» =>
            refine ⟨rest, _, .exploring _ rest hrest, hyield, hrun, ?_, by omega⟩
            rintro _ ⟨⟩
            exact haction
    | split _ _ answers task hne hallowed hspawned =>
      exact offered_round explorer calls hpending hne answers hallowed hspawned
  | failed _ raised hrun =>
    cases hmove with
    | fail => exact ⟨⟨raised, hrun⟩, le_refl _⟩

end Rounds

/-! ## The pool as a whole -/

namespace Pool

/-- About to raise the stop flag. -/
def isStopStore {Task State : Type} : WorkerPc Task State → Bool
  | .stopStore _ | .failStore => true
  | _ => false

/-- Nobody has stopped the search or is about to. -/
def Undisturbed {n : ℕ} {Task State Out : Type} (s : Pool n Task State Out) : Prop :=
  s.stopRequested = false ∧ ∀ v, isStopStore (s.pc v) = false

theorem undisturbed_of_step {n : ℕ} {Task State Out : Type} {processing : Processing Task State Out}
    {maxQueuedTasks : ℕ} {w : Fin n} {s t : Pool n Task State Out}
    (h : Step processing maxQueuedTasks w s t) (ht : t.Undisturbed) : s.Undisturbed := by
  have hflag : s.stopRequested = false := by
    cases hs : s.stopRequested with
    | false => rfl
    | true => exact absurd ((h.stop_mono hs).symm.trans ht.1) (by simp)
  refine ⟨hflag, fun v => ?_⟩
  by_cases hv : v = w
  · subst hv
    cases h with
    | stopStore | failStore => exact absurd ht.1 (by simp)
    | _ => simp_all [isStopStore]
  · rcases h.others hv with heq | ⟨hwait, _⟩
    · rw [← heq]
      exact ht.2 v
    · rw [hwait]
      rfl

section Steps
variable [LinearOrder V] {config : DporConfig V} {tids : List ℕ}
  {observer : List (Terminal V) → TerminalExecutionAction} {n maxQueuedTasks : ℕ}

abbrev ExplorerPool (n : ℕ) (V : Type) := Pool n (ExplorationTask V) (ProcessState V) (Terminal V)

variable (config tids) in
def queueYield (s : ExplorerPool n V) : Multiset (Terminal V) × Multiset Raised :=
  (s.queue.map fun task => (taskCalls config tids task).yield).sum

variable (config tids) in
def queueWeight (s : ExplorerPool n V) : ℕ :=
  (s.queue.map fun task => taskWeight n (taskCalls config tids task).size).sum

/-- How many other workers a step wakes. -/
def wokenCount (s t : ExplorerPool n V) (w : Fin n) : ℕ :=
  ∑ v ∈ Finset.univ.erase w, if (s.pc v).isWaiting && !(t.pc v).isWaiting then 1 else 0

omit [LinearOrder V] in
theorem wokenCount_eq_zero {s t : ExplorerPool n V} {w : Fin n} (h : ∀ v, v ≠ w → t.pc v = s.pc v) :
    wokenCount s t w = 0 := by
  apply Finset.sum_eq_zero
  intro v hv
  rw [h v (Finset.ne_of_mem_erase hv)]
  simp

omit [LinearOrder V] in
theorem wokenCount_le (s t : ExplorerPool n V) (w : Fin n) : wokenCount s t w ≤ n := by
  calc wokenCount s t w ≤ ∑ v ∈ Finset.univ.erase w, 1 := by
        apply Finset.sum_le_sum
        intro v _
        split <;> omega
    _ ≤ ∑ v : Fin n, 1 := Finset.sum_le_sum_of_subset (Finset.erase_subset _ _)
    _ = n := by simp

omit [LinearOrder V] in
theorem wokenCount_single (s t : ExplorerPool n V) (w u : Fin n)
    (h : ∀ v, v ≠ w → v ≠ u → t.pc v = s.pc v) : wokenCount s t w ≤ 1 := by
  calc wokenCount s t w ≤ ∑ v ∈ Finset.univ.erase w, if v = u then 1 else 0 := by
        apply Finset.sum_le_sum
        intro v hv
        by_cases hvu : v = u
        · rw [if_pos hvu]
          split <;> omega
        · rw [h v (Finset.ne_of_mem_erase hv) hvu]
          simp
    _ ≤ ∑ v : Fin n, if v = u then 1 else 0 := Finset.sum_le_sum_of_subset (Finset.erase_subset _ _)
    _ = 1 := by simp

variable (config tids) in
/-- What one step does to the worker that takes it, to the queue and to what is published. -/
def StepKeeps (s t : ExplorerPool n V) (w : Fin n) (calls : Search V) (weight : ℕ) : Prop :=
  ∃ calls' weight', Certificate config tids n (t.pc w) calls' weight' ∧
    (∀ task ∈ t.queue, task.graph.graph.Sound) ∧
    given s.published + (queueYield config tids s + calls.yield) =
      given t.published + (queueYield config tids t + calls'.yield) ∧
    weight' + queueWeight config tids t + 3 * wokenCount s t w <
      weight + queueWeight config tids s

theorem certificate_idle {pc : WorkerPc (ExplorationTask V) (ProcessState V)} {calls : Search V}
    {weight idle : ℕ} (hidle : idleWeight n pc = some idle)
    (h : Certificate config tids n pc calls weight) : calls = .nil ∧ weight = idle := by
  cases h with
  | idle _ _ hweight => exact ⟨rfl, Option.some.inj (hweight.symm.trans hidle)⟩
  | _ => cases hidle

section Moves
variable {s t : ExplorerPool n V} {w : Fin n} {calls rest : Search V} {left : ℕ}
  {pc : WorkerPc (ExplorationTask V) (ProcessState V)} (hsound : ∀ task ∈ s.queue, task.graph.graph.Sound)
include hsound

theorem stepKeeps_same {out : List (Terminal V)} (hrest : Certificate config tids n (t.pc w) rest left)
    (hyield : calls.yield = given out + rest.yield) (hless : left + 3 * wokenCount s t w < weight)
    (hqueue : t.queue = s.queue) (hpublished : t.published = s.published ++ out) :
    StepKeeps config tids s t w calls weight := by
  refine ⟨rest, left, hrest, ?_, ?_, ?_⟩
  · rw [hqueue]
    exact hsound
  · unfold queueYield
    rw [hqueue, hpublished, hyield, given_append]
    abel
  · unfold queueWeight
    rw [hqueue]
    omega

theorem stepKeeps_silent (hrest : Certificate config tids n (t.pc w) calls left)
    (hless : left + 3 * wokenCount s t w < weight) (hqueue : t.queue = s.queue) (hpublished : t.published = s.published) :
    StepKeeps config tids s t w calls weight :=
  stepKeeps_same hsound hrest (by rw [given_nil, zero_add]) hless hqueue (hpublished.trans (append_nil _).symm)

theorem stepKeeps_processing {out : List (Terminal V)} (hcarries : Carries config tids n state rest left)
    (hyield : calls.yield = given out + rest.yield) (hless : left < weight)
    (hpc : t.pc w = .processing state) (hothers : ∀ v, v ≠ w → t.pc v = s.pc v)
    (hqueue : t.queue = s.queue) (hpublished : t.published = s.published ++ out) :
    StepKeeps config tids s t w calls weight := by
  refine stepKeeps_same hsound (by rw [hpc]; exact .processing state rest left hcarries) hyield ?_ hqueue hpublished
  rw [wokenCount_eq_zero hothers]
  omega

theorem stepKeeps_offer (hcert : Certificate config tids n pc calls left) (hless : left < weight)
    (hpc : t.pc = (s.setPc w pc).pc) (hqueue : t.queue = s.queue) (hpublished : t.published = s.published) :
    StepKeeps config tids s t w calls weight := by
  refine stepKeeps_silent hsound (by rw [hpc, setPc_self]; exact hcert) ?_ hqueue hpublished
  rw [wokenCount_eq_zero fun v hv => by rw [hpc, setPc_of_ne s pc hv]]
  omega

theorem stepKeeps_quiet (pc : WorkerPc (ExplorationTask V) (ProcessState V)) (before after : ℕ)
    (hcert : Certificate config tids n (s.pc w) calls weight)
    (hbefore : idleWeight n (s.pc w) = some before) (hpc : t.pc = (s.setPc w pc).pc)
    (hafter : idleWeight n pc = some after) (hless : after < before) (hqueue : t.queue = s.queue)
    (hpublished : t.published = s.published) : StepKeeps config tids s t w calls weight := by
  obtain ⟨rfl, rfl⟩ := certificate_idle hbefore hcert
  exact stepKeeps_offer hsound (.idle _ after hafter) hless hpc hqueue hpublished

theorem stepKeeps_take {rest : List (ExplorationTask V)}
    (hcert : Certificate config tids n (s.pc w) calls weight) (hw : s.pc w = .leaving)
    (hs : s.queue = task :: rest) (hpc : t.pc = (s.setPc w (.processing (.entering task))).pc)
    (hqueue : t.queue = rest) (hpublished : t.published = s.published) :
    StepKeeps config tids s t w calls weight := by
  obtain ⟨rfl, rfl⟩ := certificate_idle (by rw [hw]; rfl) hcert
  rw [hs] at hsound
  refine ⟨taskCalls config tids task, exploreWeight n (taskCalls config tids task).size 0 + 1,
    ?_, ?_, ?_, ?_⟩
  · rw [hpc, setPc_self]
    exact .processing _ _ _ (.entering task (hsound task (mem_cons_self)))
  · rw [hqueue]
    exact fun other hother => hsound other (mem_cons_of_mem _ hother)
  · unfold queueYield
    rw [hs, hqueue, hpublished, map_cons, sum_cons, Forest.yield_nil]
    abel
  · unfold queueWeight
    rw [hs, hqueue, map_cons, sum_cons,
      wokenCount_eq_zero fun v hv => by rw [hpc, setPc_of_ne s _ hv]]
    unfold taskWeight
    omega

theorem stepKeeps_push {accepted refused : ProcessState V}
    (hcert : Certificate config tids n (s.pc w) calls weight)
    (hw : s.pc w = .enqueueLocked task accepted refused)
    (hpc : t.pc = (s.setPc w (.notifyOne accepted)).pc) (hqueue : t.queue = s.queue ++ [task])
    (hpublished : t.published = s.published) : StepKeeps config tids s t w calls weight := by
  rw [hw] at hcert
  cases hcert with
  | idle _ _ hidle => cases hidle
  | enqueueLocked _ _ _ _ k hoffered =>
    obtain ⟨rest, k', hcarries, hyield, hk⟩ := hoffered.accepted
    refine ⟨rest, k' + 4, ?_, ?_, ?_, ?_⟩
    · rw [hpc, setPc_self]
      exact .notifyOne accepted rest k' hcarries
    · rw [hqueue]
      intro other hother
      rcases mem_append.mp hother with hother | hother
      · exact hsound other hother
      · rw [mem_singleton.mp hother]
        exact hoffered.sound
    · unfold queueYield
      rw [hqueue, hpublished, hyield, map_append, sum_append]
      simp only [map_cons, map_nil, sum_cons, sum_nil, add_zero]
      abel
    · unfold queueWeight
      rw [hqueue, map_append, sum_append,
        wokenCount_eq_zero fun v hv => by rw [hpc, setPc_of_ne s _ hv]]
      simp only [map_cons, map_nil, sum_cons, sum_nil]
      omega

theorem stepKeeps_notify (hcert : Certificate config tids n (s.pc w) calls weight)
    (hw : s.pc w = .notifyOne state) (hpc : t.pc w = .processing state) (hwoken : wokenCount s t w ≤ 1)
    (hqueue : t.queue = s.queue) (hpublished : t.published = s.published) :
    StepKeeps config tids s t w calls weight := by
  rw [hw] at hcert
  cases hcert with
  | idle _ _ hidle => cases hidle
  | notifyOne _ _ k hcarries =>
    have hnext : Certificate config tids n (t.pc w) calls k := by
      rw [hpc]
      exact .processing state calls k hcarries
    exact stepKeeps_silent hsound hnext (by omega) hqueue hpublished

end Moves

theorem certificate_processing {calls : Search V}
    (h : Certificate config tids n (.processing state) calls weight) :
    Carries config tids n state calls weight := by
  cases h with
  | idle _ _ hidle => cases hidle
  | processing _ _ _ hcarries => exact hcarries

theorem stepKeeps {s t : ExplorerPool n V} {w : Fin n} {calls : Search V}
    (h : Step (exploration config tids observer n) maxQueuedTasks w s t) (ht : t.Undisturbed)
    (hcert : Certificate config tids n (s.pc w) calls weight)
    (hsound : ∀ task ∈ s.queue, task.graph.graph.Sound) : StepKeeps config tids s t w calls weight := by
  have hs := undisturbed_of_step h ht
  have hothers : ∀ pc v, v ≠ w → (s.setPc w pc).pc v = s.pc v := fun pc v hv => setPc_of_ne s pc hv
  have hmove : ∀ state move, s.pc w = .processing state →
      (exploration config tids observer n).moves s.stopRequested s.published state move →
      MoveKeeps config tids observer n s.published calls weight move := by
    intro state move hw hmove
    rw [hw] at hcert
    rw [hs.1] at hmove
    exact moveKeeps hmove (certificate_processing hcert)
  cases h with
  | lock hw | checkReady hw | checkIdle hw | waitReady hw | waitFalse hw | park hw | relock hw | exit hw
  | finishLock hw | finishComplete hw | finishPlain hw =>
    exact stepKeeps_quiet hsound _ _ _ hcert (by rw [hw]; rfl) rfl rfl (by omega) rfl rfl
  | completeNotify hw =>
    obtain ⟨rfl, rfl⟩ := certificate_idle (by rw [hw]; rfl) hcert
    refine stepKeeps_silent hsound (.idle _ 4 (by simp [setPc, idleWeight])) ?_ rfl rfl
    have := wokenCount_le s (s.wakeAll.setPc w .acquire) w
    omega
  | take task rest hw hflags hqueue =>
    exact stepKeeps_take hsound hcert hw hqueue rfl rfl rfl
  | work state next out hw hwork =>
    obtain ⟨rest, k, hcarries, hyield, _, _, hless⟩ := hmove state _ hw hwork
    exact stepKeeps_processing hsound hcarries hyield hless (setPc_self s w _) (hothers _) rfl rfl
  | offerDeclined state accepted refused task hw hoffer =>
    obtain ⟨k, hoffered, hless⟩ := hmove state _ hw hoffer
    obtain ⟨rest, k', hcarries, hyield, _, hk⟩ := hoffered.refused
    exact stepKeeps_processing hsound hcarries (by rw [hyield, given_nil, zero_add]) (by omega) (setPc_self s w _)
      (hothers _) rfl (append_nil _).symm
  | offer state accepted refused task hw hoffer =>
    obtain ⟨k, hoffered, hless⟩ := hmove state _ hw hoffer
    exact stepKeeps_offer hsound (.enqueueing task accepted refused calls k hoffered) hless rfl rfl rfl
  | enqueueLock task accepted refused hw =>
    rw [hw] at hcert
    cases hcert with
    | idle _ _ hidle => cases hidle
    | enqueueing _ _ _ _ k hoffered =>
      exact stepKeeps_offer hsound (.enqueueLocked task accepted refused calls k hoffered) (by omega) rfl rfl rfl
  | push task accepted refused hw =>
    exact stepKeeps_push hsound hcert hw rfl rfl rfl
  | pushRefused task accepted refused hw =>
    rw [hw] at hcert
    cases hcert with
    | idle _ _ hidle => cases hidle
    | enqueueLocked _ _ _ _ k hoffered =>
      obtain ⟨rest, k', hcarries, hyield, _, hk⟩ := hoffered.refused
      exact stepKeeps_processing hsound hcarries (by rw [hyield, given_nil, zero_add]) (by omega) (setPc_self s w _)
        (hothers _) rfl (append_nil _).symm
  | notifyOne state u hw hu =>
    refine stepKeeps_notify hsound hcert hw (setPc_self _ w _) ?_ rfl rfl
    refine wokenCount_single s _ w u fun v hvw hvu => ?_
    rw [setPc_of_ne _ _ hvw, setPc_of_ne _ _ hvu]
  | notifyNobody state hw =>
    refine stepKeeps_notify hsound hcert hw (setPc_self _ w _) ?_ rfl rfl
    rw [wokenCount_eq_zero (hothers _)]
    omega
  | stop | raise => exact absurd (ht.2 w) (by simp [setPc, isStopStore])
  | stopStore | failStore => exact absurd ht.1 (by simp)
  | stopNotify _ hw | failNotify hw =>
    rw [hw] at hcert
    cases hcert with
    | idle _ _ hidle => cases hidle
  | done state hw hdone =>
    obtain ⟨rfl, hrest⟩ := hmove state _ hw hdone
    refine ⟨.nil, 3 * n + 7, ?_, hsound, rfl, ?_⟩
    · rw [setPc_self]
      exact .idle _ _ rfl
    · rw [wokenCount_eq_zero (hothers _)]
      unfold restWeight at hrest
      show _ + queueWeight config tids s + _ < _
      omega

/-! ## Whole runs -/

variable (config tids) in
/-- Every worker's calls and weight, and the balance of what is published and what is left. -/
structure Certified (total : Multiset (Terminal V) × Multiset Raised) (s : ExplorerPool n V)
    (calls : Fin n → Search V) (weights : Fin n → ℕ) : Prop where
  workers : ∀ v, Certificate config tids n (s.pc v) (calls v) (weights v)
  queued : ∀ task ∈ s.queue, task.graph.graph.Sound
  balanced : given s.published + (queueYield config tids s + ∑ v, (calls v).yield) = total

variable (config tids) in
def workLeft (s : ExplorerPool n V) (weights : Fin n → ℕ) : ℕ :=
  queueWeight config tids s + ∑ v, weights v

theorem certified_initial {root : ExplorationTask V} (h : root.graph.graph.Sound) :
    Certified config tids (taskCalls config tids root).yield
      (initial root : ExplorerPool n V) (fun _ => .nil) (fun _ => 4) where
  workers := fun _ => .idle _ 4 rfl
  queued := fun task htask => by
    rw [mem_singleton.mp htask]
    exact h
  balanced := by
    simp [initial, queueYield]

theorem certified_step {total : Multiset (Terminal V) × Multiset Raised} {s t : ExplorerPool n V}
    {w : Fin n} {calls : Fin n → Search V} {weights : Fin n → ℕ}
    (h : Step (exploration config tids observer n) maxQueuedTasks w s t) (ht : t.Undisturbed)
    (hs : Certified config tids total s calls weights) :
    ∃ calls' weights', Certified config tids total t calls' weights' ∧
      workLeft config tids t weights' < workLeft config tids s weights := by
  obtain ⟨mine, weight, hmine, hqueued, hbalance, hless⟩ :=
    stepKeeps h ht (hs.workers w) hs.queued
  let woken : Fin n → ℕ := fun v => if (s.pc v).isWaiting && !(t.pc v).isWaiting then 1 else 0
  refine ⟨update calls w mine, update (fun v => weights v + 3 * woken v) w weight,
    ⟨?_, hqueued, ?_⟩, ?_⟩
  · intro v
    by_cases hv : v = w
    · subst hv
      rw [update_self, update_self]
      exact hmine
    · rw [update_of_ne hv, update_of_ne hv]
      have hold := hs.workers v
      rcases h.others hv with heq | ⟨hwait, hnotified⟩
      · have hzero : woken v = 0 := by simp [woken, heq]
        rw [heq, hzero]
        exact hold
      · obtain ⟨hnil, hweight⟩ := certificate_idle (by rw [hwait]; rfl) hold
        have hone : woken v = 1 := by simp [woken, hwait, hnotified, WorkerPc.isWaiting]
        rw [hnotified, hnil, hweight, hone]
        exact .idle _ _ rfl
  · have hsum := sum_update_add (fun c : Search V => c.yield) calls w mine
    have hold := hs.balanced
    apply add_right_cancel (b := (calls w).yield)
    calc given t.published + (queueYield config tids t +
            ∑ v, (update calls w mine v).yield) + (calls w).yield
        = given t.published + queueYield config tids t +
            (∑ v, (update calls w mine v).yield + (calls w).yield) := by abel
      _ = given t.published + queueYield config tids t + (∑ v, (calls v).yield + mine.yield) := by
          rw [hsum]
      _ = (given t.published + (queueYield config tids t + mine.yield)) + ∑ v, (calls v).yield := by
          abel
      _ = (given s.published + (queueYield config tids s + (calls w).yield)) +
            ∑ v, (calls v).yield := by rw [hbalance]
      _ = (given s.published + (queueYield config tids s + ∑ v, (calls v).yield)) +
            (calls w).yield := by abel
      _ = total + (calls w).yield := by rw [hold]
  · have hrest : ∑ v ∈ Finset.univ.erase w, update (fun v => weights v + 3 * woken v) w weight v =
        ∑ v ∈ Finset.univ.erase w, weights v + 3 * wokenCount s t w := by
      unfold wokenCount
      rw [Finset.mul_sum, ← Finset.sum_add_distrib]
      apply Finset.sum_congr rfl
      intro v hv
      rw [update_of_ne (Finset.ne_of_mem_erase hv)]
    unfold workLeft
    rw [← Finset.add_sum_erase _ _ (Finset.mem_univ w), hrest, update_self,
      ← Finset.add_sum_erase _ weights (Finset.mem_univ w)]
    omega

theorem certified_of_steps {total : Multiset (Terminal V) × Multiset Raised} {s t : ExplorerPool n V}
    (h : Steps (exploration config tids observer n) maxQueuedTasks s t) (ht : t.Undisturbed)
    (hs : ∃ calls weights, Certified config tids total s calls weights) :
    ∃ calls weights, Certified config tids total t calls weights := by
  induction h with
  | refl => exact hs
  | tail _ hstep ih =>
    obtain ⟨w, hstep⟩ := hstep
    obtain ⟨calls, weights, hcert⟩ := ih (undisturbed_of_step hstep ht)
    obtain ⟨calls', weights', hcert', _⟩ := certified_step hstep ht hcert
    exact ⟨calls', weights', hcert'⟩

theorem undisturbed_step {total : Multiset (Terminal V) × Multiset Raised} (hfails : total.2 = 0)
    (hcontinue : ∀ terminals, observer terminals = .continue) {s t : ExplorerPool n V} {w : Fin n}
    {calls : Fin n → Search V} {weights : Fin n → ℕ}
    (h : Step (exploration config tids observer n) maxQueuedTasks w s t) (hs : s.Undisturbed)
    (hcert : Certified config tids total s calls weights) : t.Undisturbed := by
  have hmove : ∀ state move, s.pc w = .processing state →
      (exploration config tids observer n).moves s.stopRequested s.published state move →
      MoveKeeps config tids observer n s.published (calls w) (weights w) move := by
    intro state move hw hmove
    have hmine := hcert.workers w
    rw [hw] at hmine
    rw [hs.1] at hmove
    exact moveKeeps hmove (certificate_processing hmine)
  have hothers : ∀ v, v ≠ w → isStopStore (t.pc v) = false := by
    intro v hv
    rcases h.others hv with heq | ⟨_, hnotified⟩
    · rw [heq]
      exact hs.2 v
    · rw [hnotified]
      rfl
  have hmine : t.stopRequested = false ∧ isStopStore (t.pc w) = false := by
    have hw := hs.2 w
    cases h with
    | stop state next out hpc hstop =>
      have haction : observer (s.published ++ [out]) = .stop := (hmove state _ hpc hstop).1
      rw [hcontinue] at haction
      cases haction
    | raise state hpc hraise =>
      obtain ⟨⟨raised, hraised⟩, _⟩ := hmove state _ hpc hraise
      -- a failure of one worker's calls is a failure of the whole search
      have hnone : (calls w).fails = [] := by
        have hbalanced := congrArg Prod.snd hcert.balanced
        rw [hfails, Prod.snd_add, Prod.snd_add, Prod.snd_sum] at hbalanced
        have hsum := (add_eq_zero.mp (add_eq_zero.mp hbalanced).2).2
        have hzero := (Finset.sum_eq_zero_iff.mp hsum) w (Finset.mem_univ w)
        exact (Multiset.coe_eq_zero _).mp hzero
      have hquiet := (Forest.run_raised_none_iff _).mpr hnone
      rw [hraised] at hquiet
      cases hquiet
    | stopStore _ hpc | failStore hpc =>
      rw [hpc] at hw
      cases hw
    | _ => exact ⟨hs.1, by simp [setPc, isStopStore]⟩
  refine ⟨hmine.1, fun v => ?_⟩
  by_cases hv : v = w
  · rw [hv]
    exact hmine.2
  · exact hothers v hv

end Steps

end Pool
end MustDpor

import MustDpor.Parallel.Conservation

/-! # Parallel and sequential exploration

An undisturbed run of the pool ends, and has then published the terminals of `verify` in some order. A
pool of one worker publishes them in the very order of `verify`, also when the observer stops the search. -/

namespace MustDpor
set_option autoImplicit false

variable {V : Type}

namespace Pool

/-! ## Bounded runs -/

/-- No run from this state has more steps. -/
def Bounded {n : ℕ} {Task State Out : Type} (processing : Processing Task State Out) (maxQueuedTasks : ℕ)
    (s : Pool n Task State Out) (bound : ℕ) : Prop :=
  ∀ (run : ℕ → Pool n Task State Out) (k : ℕ), run 0 = s →
    (∀ i < k, ∃ w, Step processing maxQueuedTasks w (run i) (run (i + 1))) → k ≤ bound

theorem bounded_of_measure {n : ℕ} {Task State Out : Type} {processing : Processing Task State Out}
    {maxQueuedTasks : ℕ} (Good : Pool n Task State Out → ℕ → Prop)
    (hstep : ∀ s m w t, Good s m → Step processing maxQueuedTasks w s t → ∃ m' < m, Good t m')
    (s : Pool n Task State Out) (m : ℕ) (hs : Good s m) : Bounded processing maxQueuedTasks s m := by
  rintro run k rfl hrun
  have hdown : ∀ i ≤ k, ∃ m', m' + i ≤ m ∧ Good (run i) m' := by
    intro i
    induction i with
    | zero => exact fun _ => ⟨m, le_refl m, hs⟩
    | succ i ih =>
      intro hi
      obtain ⟨m', hm', hgood⟩ := ih (by omega)
      obtain ⟨w, hw⟩ := hrun i (by omega)
      obtain ⟨m'', hless, hgood'⟩ := hstep _ m' w _ hgood hw
      exact ⟨m'', by omega, hgood'⟩
  obtain ⟨m', hm', _⟩ := hdown k (le_refl k)
  omega

section Explorer
variable [LinearOrder V] {config : DporConfig V} {tids : List ℕ}
  {observer : List (Terminal V) → TerminalExecutionAction}

omit [LinearOrder V] in
theorem rootTask_sound : (rootTask : ExplorationTask V).graph.graph.Sound :=
  WorkerGraph.Built.empty.sound

/-! ## Any number of workers -/

section Many
variable {n maxQueuedTasks : ℕ} (hcontinue : ∀ terminals, observer terminals = .continue)
  (hfails : (taskCalls config tids rootTask).fails = [])
include hcontinue hfails

variable (config tids) in
/-- Undisturbed, with this much work left. -/
def Progressing (s : ExplorerPool n V) (left : ℕ) : Prop :=
  s.Undisturbed ∧ ∃ calls weights,
    Certified config tids (taskCalls config tids rootTask).yield s calls weights ∧
      workLeft config tids s weights = left

omit hcontinue hfails in
variable (config tids n) in
theorem progressing_initial :
    ∃ left, Progressing config tids (initial rootTask : ExplorerPool n V) left :=
  ⟨_, ⟨rfl, fun _ => rfl⟩, _, _, certified_initial rootTask_sound, rfl⟩

theorem progressing_step (s : ExplorerPool n V) (left : ℕ) (w : Fin n) (t : ExplorerPool n V)
    (hs : Progressing config tids s left)
    (h : Step (exploration config tids observer n) maxQueuedTasks w s t) :
    ∃ left' < left, Progressing config tids t left' := by
  obtain ⟨hquiet, calls, weights, hcert, rfl⟩ := hs
  have htotal : (taskCalls config tids (rootTask : ExplorationTask V)).yield.2 = 0 := by
    unfold Forest.yield
    rw [hfails]
    rfl
  have ht := undisturbed_step htotal hcontinue h hquiet hcert
  obtain ⟨calls', weights', hcert', hless⟩ := certified_step h ht hcert
  exact ⟨_, hless, ht, calls', weights', hcert', rfl⟩

theorem progressing_of_steps (s : ExplorerPool n V)
    (h : Steps (exploration config tids observer n) maxQueuedTasks (initial rootTask) s) :
    ∃ left, Progressing config tids s left := by
  induction h with
  | refl => exact progressing_initial config tids n
  | tail _ hstep ih =>
    obtain ⟨w, hstep⟩ := hstep
    obtain ⟨left, hleft⟩ := ih
    obtain ⟨left', _, hleft'⟩ := progressing_step hcontinue hfails _ left w _ hleft hstep
    exact ⟨left', hleft'⟩

theorem exited_of_stuck (hn : 0 < n) (s : ExplorerPool n V)
    (h : Steps (exploration config tids observer n) maxQueuedTasks (initial rootTask) s)
    (hstuck : ∀ w t, ¬ Step (exploration config tids observer n) maxQueuedTasks w s t) (v : Fin n) :
    s.pc v = .exited := by
  by_contra hv
  have hs := inv_of_steps _ s h (inv_initial rootTask hn)
  obtain ⟨left, hprogress⟩ := progressing_of_steps hcontinue hfails s h
  have hheard : s.Heard := fun hstop => absurd (hstop.symm.trans hprogress.1.1) (by simp)
  obtain ⟨u, hexited, hwaiting⟩ := exists_awake_or_holder s hs hheard v hv
  obtain ⟨w, t, hstep⟩ : ∃ w t, Step (exploration config tids observer n) maxQueuedTasks w s t :=
    exists_step_of_awake (exploration_live config tids observer n) s hs u hexited hwaiting
  exact hstuck w t hstep

end Many

/-- When all workers have left and nobody stopped them, everything has been published, and nothing
failed. -/
theorem published_of_exited {n maxQueuedTasks : ℕ} (hn : 0 < n) (s : ExplorerPool n V)
    (h : Steps (exploration config tids observer n) maxQueuedTasks (initial rootTask) s)
    (hstop : s.stopRequested = false) (hexited : ∀ v, s.pc v = .exited) :
    s.published.Perm (taskCalls config tids rootTask).leaves ∧
      (taskCalls config tids rootTask).fails = [] := by
  have hs := inv_of_steps _ s h (inv_initial rootTask hn)
  have hcomplete : s.searchComplete = true := by
    have := hs.exited ⟨0, hn⟩ (hexited _)
    rwa [hstop, Bool.false_or] at this
  have hquiet : s.Undisturbed := ⟨hstop, fun v => by rw [hexited v]; rfl⟩
  obtain ⟨calls, weights, hcert⟩ := certified_of_steps h hquiet
    ⟨_, _, certified_initial rootTask_sound⟩
  have hcalls : ∀ v, (calls v).yield = 0 := by
    intro v
    rw [(certificate_idle (by rw [hexited v]; rfl) (hcert.workers v)).1]
    rfl
  have hbalanced := hcert.balanced
  unfold queueYield at hbalanced
  rw [(hs.complete hcomplete).1, Finset.sum_eq_zero fun v _ => hcalls v] at hbalanced
  simp only [List.map_nil, List.sum_nil, add_zero, given, Forest.yield, Prod.mk.injEq] at hbalanced
  exact ⟨Multiset.coe_eq_coe.mp hbalanced.1, (Multiset.coe_eq_zero _).mp hbalanced.2.symm⟩

/-! ## One worker -/

section One

variable (config tids) in
/-- Where a lone worker is once everything has been published: perhaps still unwinding after a stop. -/
inductive Over : WorkerPc (ExplorationTask V) (ProcessState V) → ℕ → Prop where
  | idle (pc : WorkerPc (ExplorationTask V) (ProcessState V)) (weight : ℕ) :
      idleWeight 1 pc = some weight → Over pc weight
  | unwinding (explorer : Explorer V) (calls : Search V) : ExplorerPending config tids explorer calls →
      Over (.processing (.exploring explorer true)) (frameCount explorer.contexts + 20)
  | stopNotify (explorer : Explorer V) (calls : Search V) : ExplorerPending config tids explorer calls →
      Over (.stopNotify (.exploring explorer true)) (frameCount explorer.contexts + 21)
  | stopStore (explorer : Explorer V) (calls : Search V) : ExplorerPending config tids explorer calls →
      Over (.stopStore (.exploring explorer true)) (frameCount explorer.contexts + 22)
  | failNotify : Over .failNotify 20
  | failStore : Over .failStore 21

variable (config tids observer) in
/-- A lone worker: before it takes the root task, while it works on it, and when all of `terminals` is
published. -/
inductive Solo (terminals : List (Terminal V)) (s : ExplorerPool 1 V) : ℕ → Prop where
  | fresh (weight : ℕ) : idleWeight 1 (s.pc 0) = some weight → s.pc 0 ≠ .exited → s.queue = [rootTask] →
      s.published = [] → s.stopRequested = false → s.searchComplete = false →
      Solo terminals s (weight + 4 * taskWeight 1 (taskCalls config tids rootTask).size)
  | working (state : ProcessState V) (calls : Search V) (weight : ℕ) : s.pc 0 = .processing state →
      s.queue = [] → s.stopRequested = false → Carries config tids 1 state calls weight →
      terminals = s.published ++ (observed observer s.published calls.run.answers).1 →
      Solo terminals s (4 * weight)
  | finished (weight : ℕ) : Over config tids (s.pc 0) weight → s.queue = [] → s.published = terminals →
      Solo terminals s weight

variable {maxQueuedTasks : ℕ}

variable {weight : ℕ}

theorem idle_step {s t : ExplorerPool 1 V} (h : Step (exploration config tids observer 1) maxQueuedTasks 0 s t)
    (hidle : idleWeight 1 (s.pc 0) = some weight) :
    ((∃ left < weight, idleWeight 1 (t.pc 0) = some left) ∧ t.queue = s.queue ∧
      t.published = s.published ∧ t.stopRequested = s.stopRequested ∧
      (t.searchComplete = s.searchComplete ∨ s.queue = []) ∧
      (t.pc 0 = .exited → (s.stopRequested || s.searchComplete) = true)) ∨
    (∃ task, s.queue = task :: t.queue ∧ t.pc 0 = .processing (.entering task) ∧
      t.published = s.published ∧ t.stopRequested = s.stopRequested) := by
  cases h with
  | lock hw | checkReady hw | checkIdle hw | waitReady hw | waitFalse hw | park hw | relock hw
  | finishLock hw | finishPlain hw | completeNotify hw =>
    rw [hw] at hidle
    cases hidle
    left
    refine ⟨⟨_, ?_, by rw [setPc_self]; rfl⟩, rfl, rfl, rfl, .inl rfl, fun hpc => ?_⟩
    · omega
    · rw [setPc_self] at hpc
      cases hpc
  | exit hw hflags =>
    rw [hw] at hidle
    cases hidle
    left
    exact ⟨⟨0, by omega, by rw [setPc_self]; rfl⟩, rfl, rfl, rfl, .inl rfl, fun _ => hflags⟩
  | finishComplete hw _ hqueue =>
    rw [hw] at hidle
    cases hidle
    left
    refine ⟨⟨_, ?_, by rw [setPc_self]; rfl⟩, rfl, rfl, rfl, .inr hqueue, fun hpc => ?_⟩
    · omega
    · rw [setPc_self] at hpc
      cases hpc
  | take task rest hw _ hqueue =>
    exact .inr ⟨task, hqueue, setPc_self s 0 _, rfl, rfl⟩
  | work _ _ _ hw | offerDeclined _ _ _ _ hw | offer _ _ _ _ hw | enqueueLock _ _ _ hw | push _ _ _ hw
  | pushRefused _ _ _ hw | notifyOne _ _ hw | notifyNobody _ hw | stop _ _ _ hw | stopStore _ hw
  | stopNotify _ hw | raise _ hw | failStore hw | failNotify hw | done _ hw =>
    rw [hw] at hidle
    cases hidle

section Solo
variable (terminals : List (Terminal V)) (s t : ExplorerPool 1 V)
  (h : Step (exploration config tids observer 1) maxQueuedTasks 0 s t)
include h

theorem solo_fresh_step (hterminals : terminals =
      (observed observer [] (taskCalls config tids rootTask).run.answers).1)
    (hidle : idleWeight 1 (s.pc 0) = some weight) (hqueue : s.queue = [rootTask])
    (hpublished : s.published = []) (hstop : s.stopRequested = false) (hcomplete : s.searchComplete = false) :
    ∃ left < weight + 4 * taskWeight 1 (taskCalls config tids (rootTask : ExplorationTask V)).size,
      Solo config tids observer terminals t left := by
  rcases idle_step h hidle with
    ⟨⟨left, hleft, hidle'⟩, hq, hp, hs, hc, hexit⟩ | ⟨task, hq, hpc, hp, hs⟩
  · refine ⟨_, Nat.add_lt_add_right hleft _, .fresh left hidle' (fun hpc => ?_) (hq.trans hqueue)
      (hp.trans hpublished) (hs.trans hstop) ?_⟩
    · have := hexit hpc
      rw [hstop, hcomplete] at this
      cases this
    · rcases hc with hc | hc
      · exact hc.trans hcomplete
      · rw [hqueue] at hc
        cases hc
  · rw [hqueue] at hq
    obtain ⟨rfl, hempty⟩ := List.cons.inj hq
    refine ⟨_, ?_, .working _ _ _ hpc hempty.symm (hs.trans hstop) (.entering rootTask rootTask_sound) ?_⟩
    · unfold taskWeight
      omega
    · rw [hp, hpublished, hterminals]
      rfl

theorem solo_working_step (state : ProcessState V) (calls : Search V) (weight : ℕ)
    (hpc : s.pc 0 = .processing state) (hqueue : s.queue = []) (hstop : s.stopRequested = false)
    (hcarries : Carries config tids 1 state calls weight)
    (hterminals : terminals = s.published ++ (observed observer s.published calls.run.answers).1) :
    ∃ left < 4 * weight, Solo config tids observer terminals t left := by
  have hmove : ∀ state' move, s.pc 0 = .processing state' →
      (exploration config tids observer 1).moves s.stopRequested s.published state' move →
      MoveKeeps config tids observer 1 s.published calls weight move := by
    intro state' move hw hmove
    cases hpc.symm.trans hw
    rw [hstop] at hmove
    exact moveKeeps hmove hcarries
  cases h with
  | work state' next out hw hwork =>
    obtain ⟨rest, k, hrest, _, hrun, hcontinue, hless⟩ := hmove state' _ hw hwork
    refine ⟨4 * k, by omega, .working next rest k (setPc_self s 0 _) hqueue hstop hrest ?_⟩
    rw [hterminals, hrun]
    cases out with
    | none => simp [Forest.ofAnswer]
    | some terminal =>
      show _ ++ (observed observer s.published (terminal :: rest.run.answers)).1 = _
      rw [observed, hcontinue terminal rfl]
      simp
  | offerDeclined state' accepted refused task hw hoffer =>
    obtain ⟨k, hoffered, hless⟩ := hmove state' _ hw hoffer
    obtain ⟨rest, k', hrest, _, hrun, hk⟩ := hoffered.refused
    refine ⟨4 * k', by omega, .working refused rest k' (setPc_self s 0 _) hqueue hstop hrest ?_⟩
    rw [hterminals, hrun]
    rfl
  | offer state' accepted refused task hw hoffer hn => exact absurd hn (by omega)
  | stop state' next out hw hmove' =>
    obtain ⟨haction, explorer, rest, rfl, hrest, hrun, hless⟩ := hmove state' _ hw hmove'
    refine ⟨_, hless, .finished _ ?_ hqueue ?_⟩
    · rw [setPc_self]
      exact .stopStore explorer rest hrest
    · rw [hterminals, hrun]
      show s.published ++ [out] = _ ++ (observed observer s.published (out :: rest.run.answers)).1
      rw [observed, haction]
  | raise state' hw hraise =>
    obtain ⟨⟨raised, hrun⟩, hweight⟩ := hmove state' _ hw hraise
    refine ⟨21, by unfold restWeight at hweight; omega, .finished 21 ?_ hqueue ?_⟩
    · rw [setPc_self]
      exact .failStore
    · rw [hterminals, hrun]
      simp [observed, setPc]
  | done state' hw hdone =>
    obtain ⟨rfl, hweight⟩ := hmove state' _ hw hdone
    refine ⟨10, by unfold restWeight at hweight; omega, .finished 10 ?_ hqueue ?_⟩
    · rw [setPc_self]
      exact .idle _ _ rfl
    · rw [hterminals]
      simp [observed, Forest.run, setPc]
  | _ => simp_all

theorem solo_unwinding_step (explorer : Explorer V) (calls : Search V)
    (hpc : s.pc 0 = .processing (.exploring explorer true)) (hqueue : s.queue = [])
    (hpublished : s.published = terminals) (hpending : ExplorerPending config tids explorer calls) :
    ∃ left < frameCount explorer.contexts + 20, Solo config tids observer terminals t left := by
  have hunwind : ∀ answers : ExecutorAnswers V, AnswersAllowed 1 s.stopRequested true answers →
      explorer.contexts ≠ [] → ∀ accepted, ∃ next later,
      exploreRound config tids explorer (answers.withEnqueue accepted) = ⟨next, none, none, none⟩ ∧
      ExplorerPending config tids next later ∧
      frameCount next.contexts < frameCount explorer.contexts := by
    intro answers hallowed hne accepted
    exact unwinding_iterate (answers.withEnqueue accepted) (hallowed.onEntry.2 rfl) explorer calls hne
      hpending
  have hmove : ∀ state' move, s.pc 0 = .processing state' →
      (exploration config tids observer 1).moves s.stopRequested s.published state' move →
      move = .done ∨ ∃ next later, move = .work none (.exploring next true) ∧
        ExplorerPending config tids next later ∧
        frameCount next.contexts < frameCount explorer.contexts := by
    intro state' move hw hmove
    cases hpc.symm.trans hw
    cases hmove with
    | returned => exact .inl rfl
    | round _ _ answers hne hallowed =>
      obtain ⟨next, later, hround, hnext, hless⟩ := hunwind answers hallowed hne false
      rw [hround]
      exact .inr ⟨next, later, rfl, hnext, hless⟩
    | split _ _ answers task hne hallowed hspawned =>
      obtain ⟨next, later, hround, _, _⟩ := hunwind answers hallowed hne true
      rw [hround] at hspawned
      cases hspawned
  cases h with
  | work state' next out hw hwork =>
    rcases hmove state' _ hw hwork with hdone | ⟨explorer', later, heq, hnext, hless⟩
    · cases hdone
    · cases heq
      refine ⟨_, Nat.add_lt_add_right hless 20, .finished _ ?_ hqueue ?_⟩
      · rw [setPc_self]
        exact .unwinding explorer' later hnext
      · simpa [setPc] using hpublished
  | done state' hw hdone =>
    refine ⟨10, by omega, .finished 10 ?_ hqueue hpublished⟩
    rw [setPc_self]
    exact .idle _ _ rfl
  | offerDeclined state' accepted refused task hw hoffer =>
    rcases hmove state' _ hw hoffer with hdone | ⟨_, _, heq, _⟩
    · cases hdone
    · cases heq
  | offer state' accepted refused task hw hoffer hn => exact absurd hn (by omega)
  | stop state' next out hw hstop =>
    rcases hmove state' _ hw hstop with hdone | ⟨_, _, heq, _⟩
    · cases hdone
    · cases heq
  | raise state' hw hraise =>
    rcases hmove state' _ hw hraise with hdone | ⟨_, _, heq, _⟩
    · cases hdone
    · cases heq
  | _ => simp_all

theorem solo_over_step (hover : Over config tids (s.pc 0) weight)
    (hqueue : s.queue = []) (hpublished : s.published = terminals) :
    ∃ left < weight, Solo config tids observer terminals t left := by
  generalize hpc : s.pc 0 = pc at hover
  cases hover with
  | idle _ _ hidle =>
    rw [← hpc] at hidle
    rcases idle_step h hidle with
      ⟨⟨left, hleft, hidle'⟩, hq, hp, _⟩ | ⟨task, hq, _⟩
    · exact ⟨left, hleft, .finished left (.idle _ _ hidle') (hq.trans hqueue) (hp.trans hpublished)⟩
    · rw [hqueue] at hq
      cases hq
  | unwinding explorer calls hpending =>
    exact solo_unwinding_step terminals s t h explorer calls hpc hqueue hpublished hpending
  | stopNotify explorer calls hpending =>
    cases h with
    | stopNotify state hw =>
      cases hpc.symm.trans hw
      refine ⟨_, Nat.lt_succ_self _, .finished _ ?_ hqueue hpublished⟩
      rw [setPc_self]
      exact .unwinding explorer calls hpending
    | _ => simp_all
  | stopStore explorer calls hpending =>
    cases h with
    | stopStore state hw =>
      cases hpc.symm.trans hw
      refine ⟨_, Nat.lt_succ_self _, .finished _ ?_ hqueue hpublished⟩
      rw [setPc_self]
      exact .stopNotify explorer calls hpending
    | _ => simp_all
  | failNotify =>
    cases h with
    | failNotify hw =>
      refine ⟨10, by omega, .finished _ ?_ hqueue hpublished⟩
      rw [setPc_self]
      exact .idle _ _ rfl
    | _ => simp_all
  | failStore =>
    cases h with
    | failStore hw =>
      refine ⟨20, by omega, .finished _ ?_ hqueue hpublished⟩
      rw [setPc_self]
      exact .failNotify
    | _ => simp_all

end Solo

/-- What `verify` publishes. -/
def soloTerminals (config : DporConfig V) (tids : List ℕ)
    (observer : List (Terminal V) → TerminalExecutionAction) : List (Terminal V) :=
  (observed observer [] (taskCalls config tids rootTask).run.answers).1

variable (config tids observer) in
theorem solo_initial :
    ∃ weight, Solo config tids observer (soloTerminals config tids observer) (initial rootTask)
      weight :=
  ⟨_, .fresh 4 rfl nofun rfl rfl rfl rfl⟩

theorem solo_step (s : ExplorerPool 1 V) (weight : ℕ) (w : Fin 1) (t : ExplorerPool 1 V)
    (hs : Solo config tids observer (soloTerminals config tids observer) s weight)
    (h : Step (exploration config tids observer 1) maxQueuedTasks w s t) :
    ∃ left < weight, Solo config tids observer (soloTerminals config tids observer) t left := by
  obtain rfl : w = 0 := Fin.fin_one_eq_zero w
  cases hs with
  | fresh k hidle _ hqueue hpublished hstop hcomplete =>
    exact solo_fresh_step _ s t h rfl hidle hqueue hpublished hstop hcomplete
  | working state calls k hpc hqueue hstop hcarries hterminals =>
    exact solo_working_step _ s t h state calls k hpc hqueue hstop hcarries hterminals
  | finished _ hover hqueue hpublished => exact solo_over_step _ s t h hover hqueue hpublished

theorem solo_of_steps {s : ExplorerPool 1 V}
    (h : Steps (exploration config tids observer 1) maxQueuedTasks (initial rootTask) s) :
    ∃ weight, Solo config tids observer (soloTerminals config tids observer) s weight := by
  induction h with
  | refl => exact solo_initial config tids observer
  | tail _ hstep ih =>
    obtain ⟨w, hstep⟩ := hstep
    obtain ⟨weight, hweight⟩ := ih
    obtain ⟨left, _, hleft⟩ := solo_step _ weight w _ hweight hstep
    exact ⟨left, hleft⟩

theorem solo_published (s : ExplorerPool 1 V)
    (h : Steps (exploration config tids observer 1) maxQueuedTasks (initial rootTask) s)
    (hexited : ∀ v, s.pc v = .exited) : s.published = soloTerminals config tids observer := by
  obtain ⟨weight, hsolo⟩ := solo_of_steps h
  cases hsolo with
  | fresh _ _ hne => exact absurd (hexited 0) hne
  | working state _ _ hpc => exact absurd (hpc.symm.trans (hexited 0)) (by simp)
  | finished _ _ _ hpublished => exact hpublished

theorem solo_careful {s t : ExplorerPool 1 V}
    (h : Steps (exploration config tids observer 1) maxQueuedTasks s t) :
    CarefulSteps (exploration config tids observer 1) maxQueuedTasks s t := by
  refine Relation.ReflTransGen.mono ?_ _ _ h
  rintro a b ⟨w, hstep⟩
  refine ⟨w, hstep, ?_⟩
  rintro ⟨hnotify, v, hparking⟩
  rw [Fin.fin_one_eq_zero w, ← Fin.fin_one_eq_zero v, hparking] at hnotify
  cases hnotify

theorem solo_exited_of_stuck (s : ExplorerPool 1 V)
    (h : Steps (exploration config tids observer 1) maxQueuedTasks (initial rootTask) s)
    (hstuck : ∀ w t, ¬ Step (exploration config tids observer 1) maxQueuedTasks w s t) (v : Fin 1) :
    s.pc v = .exited := by
  by_contra hv
  have hs := inv_of_steps _ s h (inv_initial rootTask Nat.one_pos)
  have hheard := heard_of_carefulSteps _ s (solo_careful h) fun hstop => by cases hstop
  obtain ⟨u, hexited, hwaiting⟩ := exists_awake_or_holder s hs hheard v hv
  obtain ⟨w, t, hstep⟩ : ∃ w t, Step (exploration config tids observer 1) maxQueuedTasks w s t :=
    exists_step_of_awake (exploration_live config tids observer 1) s hs u hexited hwaiting
  exact hstuck w t hstep

end One

/-! ## Equivalence -/

variable (config tids observer) in
theorem verifies_follows (hids : sortedThreadIds config.program = .ok tids) :
    ∃ exit, Verifies config observer exit ∧ exit.terminals = soloTerminals config tids observer ∧
      ((∀ terminals, observer terminals = .continue) →
        exit.terminals = (taskCalls config tids rootTask).run.answers ∧
        exit.raised = (taskCalls config tids rootTask).run.raised) := by
  obtain ⟨exit, hexits, hfollows⟩ := exits_follows config tids observer
    (SequentialRun.start (WorkerGraph.ofGraph ExplorationGraph.empty) 0 .visit VerifyResult.initial)
    (taskCalls config tids rootTask) rfl
    (runPending_start config tids _ rootTask_sound 0 .visit VerifyResult.initial)
  refine ⟨exit, ⟨tids, hids, hexits⟩, hfollows.terminals, fun hcontinue => ?_⟩
  have hobserved := observed_of_continues observer [] (taskCalls config tids rootTask).run.answers
    fun k _ _ => hcontinue _
  have hterminals := hfollows.terminals
  have hraised := hfollows.raised
  change exit.terminals = (observed observer [] _).1 at hterminals
  change exit.raised = if (observed observer [] _).2 then _ else _ at hraised
  rw [hobserved] at hterminals hraised
  exact ⟨hterminals, hraised⟩

/-- Parallel exploration publishes what `verify` publishes. The search is never declared complete while a
task is queued or being processed; if no observer stops the search, a run of the pool that nobody stopped
ends with the terminals of `verify` in some order, and when `verify` raises nothing every run is such a
run and ends; and a single worker publishes exactly the sequence of `verify`, whatever the observer does. -/
theorem parallel_conserves (config : DporConfig V) (threadIds : List ℕ)
    (hids : sortedThreadIds config.program = .ok threadIds)
    (observer : List (Terminal V) → TerminalExecutionAction) (n : ℕ) (hn : 0 < n) (maxQueuedTasks : ℕ) :
    let step := Step (n := n) (exploration config threadIds observer n) maxQueuedTasks
    let reached := Steps (exploration config threadIds observer n) maxQueuedTasks (initial rootTask)
    let returns := (∃ bound, Bounded (n := n) (exploration config threadIds observer n) maxQueuedTasks
        (initial rootTask) bound) ∧
      ∀ s, reached s → (∀ w t, ¬ step w s t) → ∀ v, s.pc v = .exited
    (∀ s, reached s → s.searchComplete = true → s.queue = [] ∧ ∀ v, (s.pc v).isActive = false) ∧
    ((∀ terminals, observer terminals = .continue) → ∃ exit, Verifies config observer exit ∧
      (∀ s, reached s → s.stopRequested = false → (∀ v, s.pc v = .exited) →
        exit.raised = none ∧ s.published.Perm exit.terminals) ∧
      (exit.raised = none → returns ∧ ∀ s, reached s → s.stopRequested = false)) ∧
    (n = 1 → ∃ exit, Verifies config observer exit ∧ returns ∧
      ∀ s, reached s → (∀ v, s.pc v = .exited) → s.published = exit.terminals) := by
  intro step reached returns
  refine ⟨?_, ?_, ?_⟩
  · intro s hs hcomplete
    have hinv := inv_of_steps _ s hs (inv_initial rootTask hn)
    obtain ⟨hqueue, hidle⟩ := hinv.complete hcomplete
    refine ⟨hqueue, fun v => ?_⟩
    by_contra hv
    have hpos := isActive_le_activeCount s v (by simpa using hv)
    rw [← hinv.active, hidle] at hpos
    exact absurd hpos (Nat.lt_irrefl 0)
  · intro hcontinue
    obtain ⟨exit, hexit, _, hall⟩ := verifies_follows config threadIds observer hids
    obtain ⟨hterminals, hraised⟩ := hall hcontinue
    refine ⟨exit, hexit, ?_, ?_⟩
    · intro s hs hstop hexited
      obtain ⟨hperm, hfails⟩ := published_of_exited hn s hs hstop hexited
      rw [hterminals, hraised, Forest.run_of_fails_eq_nil _ hfails]
      exact ⟨rfl, hperm⟩
    · intro hnone
      have hfails := (Forest.run_raised_none_iff _).mp (hraised.symm.trans hnone)
      refine ⟨⟨?_, exited_of_stuck hcontinue hfails hn⟩, ?_⟩
      · obtain ⟨left, hleft⟩ := progressing_initial config threadIds n
        exact ⟨left, bounded_of_measure _ (progressing_step hcontinue hfails) _ left hleft⟩
      · intro s hs
        obtain ⟨left, hleft⟩ := progressing_of_steps hcontinue hfails s hs
        exact hleft.1.1
  · rintro rfl
    obtain ⟨exit, hexit, hterminals, _⟩ := verifies_follows config threadIds observer hids
    refine ⟨exit, hexit, ⟨?_, ?_⟩, ?_⟩
    · obtain ⟨weight, hweight⟩ := solo_initial config threadIds observer
      exact ⟨weight, bounded_of_measure _ solo_step _ weight hweight⟩
    · exact solo_exited_of_stuck
    · intro s hs hexited
      rw [hterminals]
      exact solo_published s hs hexited

/-- Two workers on the ping program. -/
theorem ping_parallel_conserves :
    ∃ exit, Verifies ⟨pingProgram, 10, 0, .fifoP2P⟩ (fun _ => .continue) exit ∧
      ∀ s : ExplorerPool 2 ℕ, Steps (exploration ⟨pingProgram, 10, 0, .fifoP2P⟩ [0, 1] (fun _ => .continue) 2) 8
        (initial rootTask) s → s.stopRequested = false → (∀ v, s.pc v = .exited) →
        s.published.Perm exit.terminals := by
  obtain ⟨exit, hexit, hall, _⟩ := (parallel_conserves ⟨pingProgram, 10, 0, .fifoP2P⟩ [0, 1] rfl
    (fun _ => .continue) 2 (by decide) 8).2.1 fun _ => rfl
  exact ⟨exit, hexit, fun s hs hstop hexited => (hall s hs hstop hexited).2⟩

end Explorer
end Pool
end MustDpor

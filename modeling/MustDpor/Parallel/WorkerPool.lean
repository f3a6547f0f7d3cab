import Mathlib.Algebra.BigOperators.Group.Finset.Basic
import Mathlib.Data.Fintype.Basic
import Mathlib.Logic.Relation
import MustDpor.Model.Event

/-! # The worker pool

`ParallelExecutor::worker_loop_impl`, `try_enqueue`, `request_stop` and `record_exception` of
`include/dpor/algo/dpor.hpp` as a step relation of one worker at a time. A worker that holds
`queue_mutex_` evaluates the wait predicate in one step and joins the wait set in another; flag stores
and notifications outside the mutex are steps of their own. A waiting worker moves only when it is
notified. What `process_task` does is a parameter; `idle_workers_` only feeds the split hint, which may
answer anything. -/

namespace MustDpor
set_option autoImplicit false

/-- One move of `process_task`. -/
inductive Move (Task State Out : Type) where
  /-- private work, perhaps with a terminal published on the way -/
  | work (out : Option Out) (next : State)
  /-- a call of `try_enqueue` and how the explorer goes on after either answer -/
  | offer (task : Task) (accepted refused : State)
  /-- a terminal on which the observer answers Stop -/
  | stop (out : Out) (next : State)
  | raise
  | done

/-- What `process_task` may do next, given the stop flag and everything published so far. -/
structure Processing (Task State Out : Type) where
  start : Task → State
  moves : Bool → List Out → State → Move Task State Out → Prop

/-- Where a worker is in `worker_loop_impl`. -/
inductive WorkerPc (Task State : Type) where
  | acquire
  | firstCheck
  /-- inside `wait(lock, ready)`, about to evaluate the predicate -/
  | idling
  /-- the predicate was false; the mutex is still held -/
  | parking
  | waiting
  | notified
  | leaving
  | processing (state : State)
  | enqueueing (task : Task) (accepted refused : State)
  | enqueueLocked (task : Task) (accepted refused : State)
  | notifyOne (state : State)
  | stopStore (state : State)
  | stopNotify (state : State)
  | failStore
  | failNotify
  | finishing
  | finishLocked
  | completeNotify
  | exited

namespace WorkerPc
variable {Task State : Type}

def holdsMutex : WorkerPc Task State → Bool
  | firstCheck | idling | parking | leaving | enqueueLocked _ _ _ | finishLocked => true
  | _ => false

/-- Counted in `active_workers_`. -/
def isActive : WorkerPc Task State → Bool
  | processing _ | enqueueing _ _ _ | enqueueLocked _ _ _ | notifyOne _ | stopStore _ | stopNotify _
  | failStore | failNotify | finishing | finishLocked => true
  | _ => false

/-- Will look at the queue again before it can wait. -/
def isAwake : WorkerPc Task State → Bool
  | parking | waiting | exited => false
  | _ => true

/-- About to broadcast a stop. -/
def isStopNotify : WorkerPc Task State → Bool
  | stopNotify _ | failNotify => true
  | _ => false

def isWaiting : WorkerPc Task State → Bool
  | waiting => true
  | _ => false

/-- The effect of a broadcast on one worker. -/
def wake : WorkerPc Task State → WorkerPc Task State
  | waiting => notified
  | pc => pc

variable (pc : WorkerPc Task State)

theorem wake_ne_waiting : pc.wake ≠ .waiting := by
  cases pc <;> simp [wake]

end WorkerPc

structure Pool (n : ℕ) (Task State Out : Type) where
  pc : Fin n → WorkerPc Task State
  queue : List Task
  mutex : Option (Fin n)
  stopRequested : Bool
  searchComplete : Bool
  activeWorkers : ℕ
  published : List Out

namespace Pool
variable {n : ℕ} {Task State Out : Type}

/-- The root task is queued before any worker starts. -/
def initial (root : Task) : Pool n Task State Out :=
  ⟨fun _ => .acquire, [root], none, false, false, 0, []⟩

def ready (s : Pool n Task State Out) : Bool :=
  s.stopRequested || s.searchComplete || !s.queue.isEmpty

def setPc (s : Pool n Task State Out) (w : Fin n) (pc : WorkerPc Task State) : Pool n Task State Out :=
  { s with pc := Function.update s.pc w pc }

def wakeAll (s : Pool n Task State Out) : Pool n Task State Out :=
  { s with pc := fun v => (s.pc v).wake }

/-- One step of worker `w`. -/
inductive Step (processing : Processing Task State Out) (maxQueuedTasks : ℕ) (w : Fin n) :
    Pool n Task State Out → Pool n Task State Out → Prop where
  | lock (s) : s.pc w = .acquire → s.mutex = none →
      Step processing maxQueuedTasks w s { s.setPc w .firstCheck with mutex := some w }
  | checkReady (s) : s.pc w = .firstCheck → s.ready = true →
      Step processing maxQueuedTasks w s (s.setPc w .leaving)
  | checkIdle (s) : s.pc w = .firstCheck → s.ready = false →
      Step processing maxQueuedTasks w s (s.setPc w .idling)
  | waitReady (s) : s.pc w = .idling → s.ready = true →
      Step processing maxQueuedTasks w s (s.setPc w .leaving)
  | waitFalse (s) : s.pc w = .idling → s.ready = false →
      Step processing maxQueuedTasks w s (s.setPc w .parking)
  | park (s) : s.pc w = .parking →
      Step processing maxQueuedTasks w s { s.setPc w .waiting with mutex := none }
  | relock (s) : s.pc w = .notified → s.mutex = none →
      Step processing maxQueuedTasks w s { s.setPc w .idling with mutex := some w }
  | exit (s) : s.pc w = .leaving → (s.stopRequested || s.searchComplete) = true →
      Step processing maxQueuedTasks w s { s.setPc w .exited with mutex := none }
  | take (s) (task : Task) (rest : List Task) : s.pc w = .leaving →
      (s.stopRequested || s.searchComplete) = false → s.queue = task :: rest →
      Step processing maxQueuedTasks w s
        { s.setPc w (.processing (processing.start task)) with
          queue := rest, mutex := none, activeWorkers := s.activeWorkers + 1 }
  | work (s) (state next : State) (out : Option Out) : s.pc w = .processing state →
      processing.moves s.stopRequested s.published state (.work out next) →
      Step processing maxQueuedTasks w s
        { s.setPc w (.processing next) with published := s.published ++ out.toList }
  | offerDeclined (s) (state accepted refused : State) (task : Task) : s.pc w = .processing state →
      processing.moves s.stopRequested s.published state (.offer task accepted refused) →
      n ≤ 1 ∨ s.stopRequested = true →
      Step processing maxQueuedTasks w s (s.setPc w (.processing refused))
  | offer (s) (state accepted refused : State) (task : Task) : s.pc w = .processing state →
      processing.moves s.stopRequested s.published state (.offer task accepted refused) → 1 < n →
      Step processing maxQueuedTasks w s (s.setPc w (.enqueueing task accepted refused))
  | enqueueLock (s) (task : Task) (accepted refused : State) :
      s.pc w = .enqueueing task accepted refused → s.mutex = none →
      Step processing maxQueuedTasks w s
        { s.setPc w (.enqueueLocked task accepted refused) with mutex := some w }
  | push (s) (task : Task) (accepted refused : State) :
      s.pc w = .enqueueLocked task accepted refused → s.stopRequested = false →
      s.searchComplete = false → s.queue.length < maxQueuedTasks →
      Step processing maxQueuedTasks w s
        { s.setPc w (.notifyOne accepted) with queue := s.queue ++ [task], mutex := none }
  | pushRefused (s) (task : Task) (accepted refused : State) :
      s.pc w = .enqueueLocked task accepted refused →
      s.stopRequested = true ∨ s.searchComplete = true ∨ maxQueuedTasks ≤ s.queue.length →
      Step processing maxQueuedTasks w s { s.setPc w (.processing refused) with mutex := none }
  | notifyOne (s) (state : State) (v : Fin n) : s.pc w = .notifyOne state → s.pc v = .waiting →
      Step processing maxQueuedTasks w s ((s.setPc v .notified).setPc w (.processing state))
  | notifyNobody (s) (state : State) : s.pc w = .notifyOne state → (∀ v, s.pc v ≠ .waiting) →
      Step processing maxQueuedTasks w s (s.setPc w (.processing state))
  | stop (s) (state next : State) (out : Out) : s.pc w = .processing state →
      processing.moves s.stopRequested s.published state (.stop out next) →
      Step processing maxQueuedTasks w s
        { s.setPc w (.stopStore next) with published := s.published ++ [out] }
  | stopStore (s) (state : State) : s.pc w = .stopStore state →
      Step processing maxQueuedTasks w s { s.setPc w (.stopNotify state) with stopRequested := true }
  | stopNotify (s) (state : State) : s.pc w = .stopNotify state →
      Step processing maxQueuedTasks w s (s.wakeAll.setPc w (.processing state))
  | raise (s) (state : State) : s.pc w = .processing state →
      processing.moves s.stopRequested s.published state .raise →
      Step processing maxQueuedTasks w s (s.setPc w .failStore)
  | failStore (s) : s.pc w = .failStore →
      Step processing maxQueuedTasks w s { s.setPc w .failNotify with stopRequested := true }
  | failNotify (s) : s.pc w = .failNotify →
      Step processing maxQueuedTasks w s (s.wakeAll.setPc w .finishing)
  | done (s) (state : State) : s.pc w = .processing state →
      processing.moves s.stopRequested s.published state .done →
      Step processing maxQueuedTasks w s (s.setPc w .finishing)
  | finishLock (s) : s.pc w = .finishing → s.mutex = none →
      Step processing maxQueuedTasks w s { s.setPc w .finishLocked with mutex := some w }
  | finishComplete (s) : s.pc w = .finishLocked → s.stopRequested = false → s.queue = [] →
      s.activeWorkers - 1 = 0 →
      Step processing maxQueuedTasks w s
        { s.setPc w .completeNotify with
          mutex := none, activeWorkers := s.activeWorkers - 1, searchComplete := true }
  | finishPlain (s) : s.pc w = .finishLocked →
      s.stopRequested = true ∨ s.queue ≠ [] ∨ s.activeWorkers - 1 ≠ 0 →
      Step processing maxQueuedTasks w s
        { s.setPc w .acquire with mutex := none, activeWorkers := s.activeWorkers - 1 }
  | completeNotify (s) : s.pc w = .completeNotify →
      Step processing maxQueuedTasks w s (s.wakeAll.setPc w .acquire)

/-! ## What one step can change -/

section Effects
variable {processing : Processing Task State Out} {maxQueuedTasks : ℕ} {w : Fin n} {s t : Pool n Task State Out}

@[simp] theorem setPc_self (s : Pool n Task State Out) (w : Fin n) (pc : WorkerPc Task State) :
    (s.setPc w pc).pc w = pc := by
  simp [setPc]

theorem setPc_of_ne (s : Pool n Task State Out) {w v : Fin n} (pc : WorkerPc Task State) (h : v ≠ w) :
    (s.setPc w pc).pc v = s.pc v := by
  simp [setPc, h]

theorem Step.others (h : Step processing maxQueuedTasks w s t) {v : Fin n} (hne : v ≠ w) :
    t.pc v = s.pc v ∨ (s.pc v = .waiting ∧ t.pc v = .notified) := by
  have hwake : ∀ pc : WorkerPc Task State, pc.wake = pc ∨ (pc = .waiting ∧ pc.wake = .notified) := by
    intro pc
    cases pc <;> simp [WorkerPc.wake]
  cases h with
  | notifyOne state u hw hu =>
    by_cases hvu : v = u
    · subst hvu
      right
      rw [setPc_of_ne _ _ hne, setPc_self]
      exact ⟨hu, rfl⟩
    · left
      rw [setPc_of_ne _ _ hne, setPc_of_ne _ _ hvu]
  | stopNotify | failNotify | completeNotify =>
    rw [setPc_of_ne _ _ hne]
    exact hwake (s.pc v)
  | _ => exact .inl (setPc_of_ne _ _ hne)

theorem Step.others_holdsMutex (h : Step processing maxQueuedTasks w s t) {v : Fin n} (hne : v ≠ w) :
    (t.pc v).holdsMutex = (s.pc v).holdsMutex := by
  rcases h.others hne with heq | ⟨hs, ht⟩
  · rw [heq]
  · rw [hs, ht]
    rfl

theorem Step.others_isActive (h : Step processing maxQueuedTasks w s t) {v : Fin n} (hne : v ≠ w) :
    (t.pc v).isActive = (s.pc v).isActive := by
  rcases h.others hne with heq | ⟨hs, ht⟩
  · rw [heq]
  · rw [hs, ht]
    rfl

theorem Step.others_isAwake (h : Step processing maxQueuedTasks w s t) {v : Fin n} (hne : v ≠ w)
    (hawake : (s.pc v).isAwake = true) : (t.pc v).isAwake = true := by
  rcases h.others hne with heq | ⟨_, ht⟩
  · rw [heq]
    exact hawake
  · rw [ht]
    rfl

theorem Step.others_eq (h : Step processing maxQueuedTasks w s t) {v : Fin n} (hne : v ≠ w)
    {pc : WorkerPc Task State} (hpc : pc ≠ .notified) (ht : t.pc v = pc) : s.pc v = pc := by
  rcases h.others hne with heq | ⟨_, hnotified⟩
  · rw [← heq]
    exact ht
  · exact absurd (ht.symm.trans hnotified) hpc

theorem Step.protected (h : Step processing maxQueuedTasks w s t) (hfree : (s.pc w).holdsMutex = false) :
    t.queue = s.queue ∧ t.searchComplete = s.searchComplete := by
  cases h with
  | take _ _ hw | push _ _ _ hw | finishComplete hw => rw [hw] at hfree; cases hfree
  | _ => exact ⟨rfl, rfl⟩

theorem Step.stop_mono (h : Step processing maxQueuedTasks w s t) (hstop : s.stopRequested = true) :
    t.stopRequested = true := by
  cases h with
  | stopStore => rfl
  | failStore => rfl
  | _ => exact hstop

theorem Step.complete_mono (h : Step processing maxQueuedTasks w s t) (hc : s.searchComplete = true) :
    t.searchComplete = true := by
  cases h with
  | finishComplete => rfl
  | _ => exact hc

theorem Step.published_of_exited (h : Step processing maxQueuedTasks w s t) (hexited : t.pc w = .exited) :
    t.published = s.published := by
  cases h with
  | work | stop =>
    rw [setPc_self] at hexited
    cases hexited
  | _ => rfl

theorem Step.mutex_cases (h : Step processing maxQueuedTasks w s t) :
    (t.mutex = s.mutex ∧ (t.pc w).holdsMutex = (s.pc w).holdsMutex) ∨
    (s.mutex = none ∧ t.mutex = some w ∧ (s.pc w).holdsMutex = false ∧ (t.pc w).holdsMutex = true) ∨
    ((s.pc w).holdsMutex = true ∧ t.mutex = none ∧ (t.pc w).holdsMutex = false) := by
  cases h with
  | lock hw hm | relock hw hm | enqueueLock _ _ _ hw hm | finishLock hw hm =>
    refine .inr (.inl ⟨hm, rfl, by rw [hw]; rfl, ?_⟩)
    simp [setPc, WorkerPc.holdsMutex]
  | park hw | exit hw | take _ _ hw | push _ _ _ hw | pushRefused _ _ _ hw | finishComplete hw
  | finishPlain hw =>
    refine .inr (.inr ⟨by rw [hw]; rfl, rfl, ?_⟩)
    simp [setPc, WorkerPc.holdsMutex]
  | checkReady hw | checkIdle hw | waitReady hw | waitFalse hw | work _ _ _ hw
  | offerDeclined _ _ _ _ hw | offer _ _ _ _ hw | notifyOne _ _ hw | notifyNobody _ hw
  | stop _ _ _ hw | stopStore _ hw | stopNotify _ hw | raise _ hw | failStore hw | failNotify hw
  | done _ hw | completeNotify hw =>
    refine .inl ⟨rfl, ?_⟩
    rw [hw]
    simp [setPc, WorkerPc.holdsMutex]

theorem Step.active_eq (h : Step processing maxQueuedTasks w s t)
    (hpos : s.pc w = .finishLocked → 0 < s.activeWorkers) :
    t.activeWorkers + (if (s.pc w).isActive then 1 else 0) =
      s.activeWorkers + (if (t.pc w).isActive then 1 else 0) := by
  cases h with
  | take task rest hw =>
    rw [hw]
    simp [setPc, WorkerPc.isActive]
  | finishComplete hw | finishPlain hw =>
    have hlt := hpos hw
    rw [hw]
    simp only [setPc, WorkerPc.isActive, Function.update_self, if_true, Bool.false_eq_true, if_false]
    omega
  | lock hw | relock hw | enqueueLock _ _ _ hw | finishLock hw | park hw | exit hw | push _ _ _ hw
  | pushRefused _ _ _ hw | checkReady hw | checkIdle hw | waitReady hw | waitFalse hw | work _ _ _ hw
  | offerDeclined _ _ _ _ hw | offer _ _ _ _ hw | notifyOne _ _ hw | notifyNobody _ hw
  | stop _ _ _ hw | stopStore _ hw | stopNotify _ hw | raise _ hw | failStore hw | failNotify hw
  | done _ hw | completeNotify hw =>
    rw [hw]
    simp [setPc, wakeAll, WorkerPc.isActive]

theorem Step.of_completeNotify (h : Step processing maxQueuedTasks w s t)
    (hw : s.pc w = .completeNotify) : t = s.wakeAll.setPc w .acquire := by
  cases h <;> first
    | rfl
    | simp_all

end Effects

/-! ## Invariants of every run -/

def activeCount (s : Pool n Task State Out) : ℕ := ∑ v, if (s.pc v).isActive then 1 else 0

theorem activeCount_split (s : Pool n Task State Out) (w : Fin n) :
    s.activeCount = (if (s.pc w).isActive then 1 else 0) +
      ∑ v ∈ Finset.univ.erase w, if (s.pc v).isActive then 1 else 0 :=
  (Finset.add_sum_erase Finset.univ _ (Finset.mem_univ w)).symm

theorem isActive_le_activeCount (s : Pool n Task State Out) (w : Fin n)
    (h : (s.pc w).isActive = true) : 0 < s.activeCount := by
  rw [activeCount_split s w, h, if_pos rfl]
  omega

theorem exists_isActive {s : Pool n Task State Out} (h : 0 < s.activeCount) :
    ∃ w, (s.pc w).isActive = true := by
  by_contra hnone
  have hzero : s.activeCount = 0 := by
    apply Finset.sum_eq_zero
    intro v _
    rw [if_neg fun hv => hnone ⟨v, hv⟩]
  omega

structure Inv (s : Pool n Task State Out) : Prop where
  mutex : ∀ v, (s.pc v).holdsMutex = true ↔ s.mutex = some v
  active : s.activeWorkers = s.activeCount
  /-- before the end there is a task queued or being processed -/
  working : s.stopRequested = false → s.searchComplete = false → s.queue ≠ [] ∨ 0 < s.activeWorkers
  complete : s.searchComplete = true → s.queue = [] ∧ s.activeWorkers = 0
  completeNotified : s.searchComplete = true → ∀ v, s.pc v = .waiting → ∃ u, s.pc u = .completeNotify
  parking : ∀ v, s.pc v = .parking → s.searchComplete = false ∧ s.queue = []
  leaving : ∀ v, s.pc v = .leaving → s.ready = true
  awake : s.queue ≠ [] → s.stopRequested = false → ∃ v, (s.pc v).isAwake = true
  exited : ∀ v, s.pc v = .exited → (s.stopRequested || s.searchComplete) = true

theorem inv_initial (root : Task) (hn : 0 < n) : (initial root : Pool n Task State Out).Inv where
  mutex := fun v => by simp [initial, WorkerPc.holdsMutex]
  active := by simp [initial, activeCount, WorkerPc.isActive]
  working := fun _ _ => .inl (by simp [initial])
  complete := fun h => by simp [initial] at h
  completeNotified := fun h => by simp [initial] at h
  parking := fun v h => by simp [initial] at h
  leaving := fun v h => by simp [initial] at h
  awake := fun _ _ => ⟨⟨0, hn⟩, rfl⟩
  exited := fun v h => by simp [initial] at h

section Preservation
variable {processing : Processing Task State Out} {maxQueuedTasks : ℕ} {w : Fin n}
  {s t : Pool n Task State Out} (h : Step processing maxQueuedTasks w s t) (hs : s.Inv)
include h hs

theorem mutex_step (v : Fin n) : (t.pc v).holdsMutex = true ↔ t.mutex = some v := by
  by_cases hv : v = w
  · subst hv
    rcases h.mutex_cases with ⟨hm, hpc⟩ | ⟨_, hm, _, hpc⟩ | ⟨_, hm, hpc⟩
    · rw [hm, hpc]
      exact hs.mutex v
    · simp [hm, hpc]
    · simp [hm, hpc]
  · rw [h.others_holdsMutex hv]
    rcases h.mutex_cases with ⟨hm, _⟩ | ⟨hnone, hm, _, _⟩ | ⟨hw, hm, _⟩
    · rw [hm]
      exact hs.mutex v
    · rw [hs.mutex v, hnone, hm]
      simp [Ne.symm hv]
    · rw [hs.mutex v, hm, (hs.mutex w).mp hw]
      simp [Ne.symm hv]

theorem protected_of_holder {v : Fin n} (hv : v ≠ w) (hholds : (s.pc v).holdsMutex = true) :
    t.queue = s.queue ∧ t.searchComplete = s.searchComplete := by
  apply h.protected
  by_contra hw
  have hw' := (hs.mutex w).mp (by simpa using hw)
  have hv' := (hs.mutex v).mp hholds
  rw [hw'] at hv'
  exact hv (Option.some.inj hv').symm

omit h in
theorem active_pos (hw : s.pc w = .finishLocked) : 0 < s.activeWorkers := by
  rw [hs.active]
  exact isActive_le_activeCount s w (by rw [hw]; rfl)

theorem active_step : t.activeWorkers = t.activeCount := by
  have hstep := h.active_eq fun hw => active_pos hs hw
  have hrest : ∑ v ∈ Finset.univ.erase w, (if (t.pc v).isActive then 1 else 0) =
      ∑ v ∈ Finset.univ.erase w, if (s.pc v).isActive then 1 else 0 := by
    apply Finset.sum_congr rfl
    intro v hv
    rw [h.others_isActive (Finset.ne_of_mem_erase hv)]
  have hsplit := activeCount_split s w
  have hsplit' := activeCount_split t w
  have hactive := hs.active
  omega

theorem working_step (hstop : t.stopRequested = false) (hcomplete : t.searchComplete = false) :
    t.queue ≠ [] ∨ 0 < t.activeWorkers := by
  have hworking := hs.working
  have hactive := hs.active
  cases h with
  | take task rest hw => exact .inr (Nat.succ_pos _)
  | push task accepted refused hw => exact .inl (by simp)
  | finishComplete hw => cases hcomplete
  | finishPlain hw hrest =>
    rcases hrest with hrest | hrest | hrest
    · exact absurd (hstop.symm.trans hrest) (by simp)
    · exact .inl hrest
    · exact .inr (Nat.pos_of_ne_zero hrest)
  | stopStore | failStore => cases hstop
  | _ => exact hworking hstop hcomplete

theorem complete_step (hcomplete : t.searchComplete = true) : t.queue = [] ∧ t.activeWorkers = 0 := by
  have hold := hs.complete
  have hidle : s.searchComplete = true → (s.pc w).isActive = false := by
    intro hc
    by_contra hw
    have hpos := isActive_le_activeCount s w (by simpa using hw)
    rw [← hs.active, (hold hc).2] at hpos
    cases hpos
  cases h with
  | take task rest hw hflags =>
    change s.searchComplete = true at hcomplete
    simp [hcomplete] at hflags
  | push _ _ _ hw | finishPlain hw =>
    have := hidle hcomplete
    rw [hw] at this
    cases this
  | finishComplete hw _ hqueue hzero => exact ⟨hqueue, hzero⟩
  | _ => exact hold hcomplete

theorem completeNotified_step (hcomplete : t.searchComplete = true) {v : Fin n}
    (hv : t.pc v = .waiting) : ∃ u, t.pc u = .completeNotify := by
  by_cases hc : s.searchComplete = true
  · -- already complete: whoever waits did so before
    have hwaiting : v ≠ w → ∃ u, s.pc u = .completeNotify := fun hne =>
      hs.completeNotified hc v (h.others_eq hne (by simp) hv)
    have hkeeps : ∀ u, s.pc u = .completeNotify → u ≠ w → ∃ u, t.pc u = .completeNotify := by
      intro u hu hne
      refine ⟨u, ?_⟩
      rcases h.others hne with heq | ⟨hwait, _⟩
      · rw [heq, hu]
      · rw [hwait] at hu
        cases hu
    by_cases hvw : v = w
    · subst hvw
      cases h with
      | park hw =>
        have := (hs.parking v hw).1
        rw [hc] at this
        cases this
      | _ => simp [setPc, wakeAll] at hv
    · obtain ⟨u, hu⟩ := hwaiting hvw
      by_cases huw : u = w
      · subst huw
        -- the broadcast leaves nobody waiting
        rw [h.of_completeNotify hu, setPc_of_ne _ _ hvw] at hv
        exact absurd hv (s.pc v).wake_ne_waiting
      · exact hkeeps u hu huw
  · cases h with
    | finishComplete hw => exact ⟨w, by simp [setPc]⟩
    | _ => exact absurd hcomplete hc

theorem parking_step (v : Fin n) (hv : t.pc v = .parking) : t.searchComplete = false ∧ t.queue = [] := by
  by_cases hvw : v = w
  · subst hvw
    cases h with
    | waitFalse hw hready =>
      simp only [ready, Bool.or_eq_false_iff, Bool.not_eq_false', List.isEmpty_iff] at hready
      exact ⟨hready.1.2, hready.2⟩
    | _ => simp [setPc] at hv
  · have hold := h.others_eq hvw (by simp) hv
    have hkeep := protected_of_holder h hs hvw (by rw [hold]; rfl)
    rw [hkeep.1, hkeep.2]
    exact hs.parking v hold

theorem leaving_step (v : Fin n) (hv : t.pc v = .leaving) : t.ready = true := by
  by_cases hvw : v = w
  · subst hvw
    cases h with
    | checkReady _ hready | waitReady _ hready => exact hready
    | _ => simp [setPc] at hv
  · have hold := h.others_eq hvw (by simp) hv
    have hkeep := protected_of_holder h hs hvw (by rw [hold]; rfl)
    have hready := hs.leaving v hold
    have hstop := h.stop_mono
    unfold ready at hready ⊢
    rw [hkeep.1, hkeep.2]
    cases hflag : s.stopRequested with
    | true => simp [hstop hflag]
    | false =>
      rw [hflag] at hready
      simp only [Bool.false_or] at hready
      rw [Bool.or_assoc, hready, Bool.or_true]

theorem awake_step (hqueue : t.queue ≠ []) (hstop : t.stopRequested = false) :
    ∃ v, (t.pc v).isAwake = true := by
  by_cases hw : (t.pc w).isAwake = true
  · exact ⟨w, hw⟩
  · -- the worker that moved went to sleep: the queue did not grow in this step
    have hsame : t.queue = s.queue ∧ s.stopRequested = false ∧ (s.pc w).isAwake = false := by
      cases h with
      | waitFalse hpc hready =>
        simp only [ready, Bool.or_eq_false_iff, Bool.not_eq_false', List.isEmpty_iff] at hready
        exact absurd hready.2 hqueue
      | park hpc => exact ⟨rfl, hstop, by rw [hpc]; rfl⟩
      | exit hpc hflags =>
        have hcomplete : s.searchComplete = true := by
          change s.stopRequested = false at hstop
          simpa [hstop] using hflags
        exact absurd (hs.complete hcomplete).1 hqueue
      | _ => simp [setPc, WorkerPc.isAwake] at hw
    obtain ⟨hq, hflag, hwold⟩ := hsame
    obtain ⟨v, hv⟩ := hs.awake (hq ▸ hqueue) hflag
    have hvw : v ≠ w := by
      rintro rfl
      rw [hwold] at hv
      cases hv
    exact ⟨v, h.others_isAwake hvw hv⟩

theorem exited_step (v : Fin n) (hv : t.pc v = .exited) :
    (t.stopRequested || t.searchComplete) = true := by
  have hold : (s.stopRequested || s.searchComplete) = true := by
    by_cases hvw : v = w
    · subst hvw
      cases h with
      | exit hw hflags => exact hflags
      | _ => simp [setPc] at hv
    · exact hs.exited v (h.others_eq hvw (by simp) hv)
  rcases Bool.or_eq_true_iff.mp hold with hstop | hcomplete
  · rw [h.stop_mono hstop]
    rfl
  · rw [h.complete_mono hcomplete, Bool.or_true]

theorem inv_step : t.Inv where
  mutex := mutex_step h hs
  active := active_step h hs
  working := working_step h hs
  complete := complete_step h hs
  completeNotified := completeNotified_step h hs
  parking := parking_step h hs
  leaving := leaving_step h hs
  awake := awake_step h hs
  exited := exited_step h hs

end Preservation

/-! ## Runs -/

section Runs
variable (processing : Processing Task State Out) (maxQueuedTasks : ℕ)

def Steps : Pool n Task State Out → Pool n Task State Out → Prop :=
  Relation.ReflTransGen fun s t => ∃ w, Step processing maxQueuedTasks w s t

/-- A stop is broadcast while some worker has found the predicate false and not yet joined the wait
set. -/
def LosesWakeup (s : Pool n Task State Out) (w : Fin n) : Prop :=
  (s.pc w).isStopNotify = true ∧ ∃ v, s.pc v = .parking

/-- Runs in which every stop broadcast finds the workers waiting or awake. -/
def CarefulSteps : Pool n Task State Out → Pool n Task State Out → Prop :=
  Relation.ReflTransGen fun s t => ∃ w, Step processing maxQueuedTasks w s t ∧ ¬ s.LosesWakeup w

variable {processing maxQueuedTasks}

theorem inv_of_steps (s t : Pool n Task State Out) (h : Steps processing maxQueuedTasks s t)
    (hs : s.Inv) : t.Inv := by
  induction h with
  | refl => exact hs
  | tail _ hstep ih =>
    obtain ⟨w, hstep⟩ := hstep
    exact inv_step hstep ih

theorem CarefulSteps.steps (s t : Pool n Task State Out)
    (h : CarefulSteps processing maxQueuedTasks s t) : Steps processing maxQueuedTasks s t := by
  refine Relation.ReflTransGen.mono ?_ _ _ h
  rintro a b ⟨w, hstep, _⟩
  exact ⟨w, hstep⟩

/-- A sleeping worker will be told of the stop. -/
def Heard (s : Pool n Task State Out) : Prop :=
  s.stopRequested = true → ∀ v, s.pc v = .waiting ∨ s.pc v = .parking →
    ∃ u, (s.pc u).isStopNotify = true

theorem Step.of_isStopNotify {s t : Pool n Task State Out} {w : Fin n}
    (h : Step processing maxQueuedTasks w s t) (hw : (s.pc w).isStopNotify = true) :
    ∃ pc, t = s.wakeAll.setPc w pc := by
  cases h with
  | stopNotify | failNotify => exact ⟨_, rfl⟩
  | _ => simp_all [WorkerPc.isStopNotify]

theorem heard_step {s t : Pool n Task State Out} {w : Fin n} (h : Step processing maxQueuedTasks w s t)
    (hcareful : ¬ s.LosesWakeup w) (hs : s.Heard) : t.Heard := by
  intro hstop v hv
  by_cases hold : s.stopRequested = true
  · -- the sleeper was asleep before, and somebody was about to broadcast
    have hsleep : s.pc v = .waiting ∨ s.pc v = .parking := by
      by_cases hvw : v = w
      · subst hvw
        cases h with
        | park hw => exact .inr hw
        | waitFalse hw hready => simp [ready, hold] at hready
        | _ => simp [setPc] at hv
      · rcases hv with hv | hv
        · exact .inl (h.others_eq hvw (by simp) hv)
        · exact .inr (h.others_eq hvw (by simp) hv)
    obtain ⟨u, hu⟩ := hs hold v hsleep
    by_cases huw : u = w
    · subst huw
      have hparking : s.pc v ≠ .parking := fun hp => hcareful ⟨hu, v, hp⟩
      have hwaiting : s.pc v = .waiting := hsleep.resolve_right hparking
      have hvu : v ≠ u := by
        rintro rfl
        rw [hwaiting] at hu
        cases hu
      obtain ⟨pc, rfl⟩ := h.of_isStopNotify hu
      rw [setPc_of_ne _ _ hvu] at hv
      change (s.pc v).wake = .waiting ∨ (s.pc v).wake = .parking at hv
      rw [hwaiting] at hv
      rcases hv with hv | hv <;> cases hv
    · refine ⟨u, ?_⟩
      rcases h.others huw with heq | ⟨hwait, _⟩
      · rw [heq]
        exact hu
      · rw [hwait] at hu
        cases hu
  · cases h with
    | stopStore | failStore => exact ⟨w, by simp [setPc, WorkerPc.isStopNotify]⟩
    | _ => exact absurd hstop hold

theorem heard_of_carefulSteps (s t : Pool n Task State Out)
    (h : CarefulSteps processing maxQueuedTasks s t) (hs : s.Heard) : t.Heard := by
  induction h with
  | refl => exact hs
  | tail _ hstep ih =>
    obtain ⟨w, hstep, hcareful⟩ := hstep
    exact heard_step hstep hcareful ih

/-! ## Nobody is stranded -/

theorem exists_awake_or_holder (s : Pool n Task State Out) (hs : s.Inv) (hheard : s.Heard) (w : Fin n)
    (hw : s.pc w ≠ .exited) : ∃ v, s.pc v ≠ .exited ∧ s.pc v ≠ .waiting := by
  by_cases hwaiting : s.pc w = .waiting
  swap
  · exact ⟨w, hw, hwaiting⟩
  by_cases hstop : s.stopRequested = true
  · obtain ⟨u, hu⟩ := hheard hstop w (.inl hwaiting)
    refine ⟨u, ?_, ?_⟩ <;>
    · intro hpc
      rw [hpc] at hu
      cases hu
  by_cases hcomplete : s.searchComplete = true
  · obtain ⟨u, hu⟩ := hs.completeNotified hcomplete w hwaiting
    exact ⟨u, by simp [hu], by simp [hu]⟩
  rcases hs.working (by simpa using hstop) (by simpa using hcomplete) with hqueue | hactive
  · obtain ⟨u, hu⟩ := hs.awake hqueue (by simpa using hstop)
    refine ⟨u, ?_, ?_⟩ <;>
    · intro hpc
      rw [hpc] at hu
      cases hu
  · rw [hs.active] at hactive
    obtain ⟨u, hu⟩ := exists_isActive hactive
    refine ⟨u, ?_, ?_⟩ <;>
    · intro hpc
      rw [hpc] at hu
      cases hu

theorem exists_step_of_holder {s : Pool n Task State Out} (hs : s.Inv) {w : Fin n}
    (hw : (s.pc w).holdsMutex = true) : ∃ t, Step processing maxQueuedTasks w s t := by
  cases hpc : s.pc w with
  | firstCheck =>
    cases hready : s.ready with
    | true => exact ⟨_, .checkReady s hpc hready⟩
    | false => exact ⟨_, .checkIdle s hpc hready⟩
  | idling =>
    cases hready : s.ready with
    | true => exact ⟨_, .waitReady s hpc hready⟩
    | false => exact ⟨_, .waitFalse s hpc hready⟩
  | parking => exact ⟨_, .park s hpc⟩
  | leaving =>
    cases hflags : s.stopRequested || s.searchComplete with
    | true => exact ⟨_, .exit s hpc hflags⟩
    | false =>
      have hready := hs.leaving w hpc
      unfold ready at hready
      rw [hflags, Bool.false_or] at hready
      cases hqueue : s.queue with
      | nil => simp [hqueue] at hready
      | cons task rest => exact ⟨_, .take s task rest hpc hflags hqueue⟩
  | enqueueLocked task accepted refused =>
    by_cases hpush : s.stopRequested = false ∧ s.searchComplete = false ∧ s.queue.length < maxQueuedTasks
    · exact ⟨_, .push s task accepted refused hpc hpush.1 hpush.2.1 hpush.2.2⟩
    · refine ⟨_, .pushRefused s task accepted refused hpc ?_⟩
      by_contra hnot
      simp only [not_or, Bool.not_eq_true, not_le] at hnot
      exact hpush hnot
  | finishLocked =>
    by_cases hdone : s.stopRequested = false ∧ s.queue = [] ∧ s.activeWorkers - 1 = 0
    · exact ⟨_, .finishComplete s hpc hdone.1 hdone.2.1 hdone.2.2⟩
    · refine ⟨_, .finishPlain s hpc ?_⟩
      by_contra hnot
      simp only [not_or, Bool.not_eq_true, not_not] at hnot
      exact hdone hnot
  | _ =>
    rw [hpc] at hw
    cases hw

theorem exists_step_of_awake (hlive : ∀ stop published state, ∃ move,
    processing.moves stop published state move) (s : Pool n Task State Out) (hs : s.Inv) (w : Fin n)
    (hexited : s.pc w ≠ .exited) (hwaiting : s.pc w ≠ .waiting) :
    ∃ v t, Step processing maxQueuedTasks v s t := by
  by_cases hholds : (s.pc w).holdsMutex = true
  · exact ⟨w, exists_step_of_holder hs hholds⟩
  cases hmutex : s.mutex with
  | some v => exact ⟨v, exists_step_of_holder hs ((hs.mutex v).mpr hmutex)⟩
  | none =>
    refine ⟨w, ?_⟩
    cases hpc : s.pc w with
    | acquire => exact ⟨_, .lock s hpc hmutex⟩
    | notified => exact ⟨_, .relock s hpc hmutex⟩
    | enqueueing task accepted refused => exact ⟨_, .enqueueLock s task accepted refused hpc hmutex⟩
    | finishing => exact ⟨_, .finishLock s hpc hmutex⟩
    | stopStore state => exact ⟨_, .stopStore s state hpc⟩
    | stopNotify state => exact ⟨_, .stopNotify s state hpc⟩
    | failStore => exact ⟨_, .failStore s hpc⟩
    | failNotify => exact ⟨_, .failNotify s hpc⟩
    | completeNotify => exact ⟨_, .completeNotify s hpc⟩
    | notifyOne state =>
      by_cases hv : ∃ v, s.pc v = .waiting
      · obtain ⟨v, hv⟩ := hv
        exact ⟨_, .notifyOne s state v hpc hv⟩
      · exact ⟨_, .notifyNobody s state hpc fun v h => hv ⟨v, h⟩⟩
    | processing state =>
      obtain ⟨move, hmove⟩ := hlive s.stopRequested s.published state
      cases move with
      | work out next => exact ⟨_, .work s state next out hpc hmove⟩
      | stop out next => exact ⟨_, .stop s state next out hpc hmove⟩
      | raise => exact ⟨_, .raise s state hpc hmove⟩
      | done => exact ⟨_, .done s state hpc hmove⟩
      | offer task accepted refused =>
        by_cases hn : 1 < n
        · exact ⟨_, .offer s state accepted refused task hpc hmove hn⟩
        · exact ⟨_, .offerDeclined s state accepted refused task hpc hmove (.inl (by omega))⟩
    | exited => exact absurd hpc hexited
    | waiting => exact absurd hpc hwaiting
    | _ => simp [hpc, WorkerPc.holdsMutex] at hholds

/-- In every run without a stop broadcast into the gap between a false predicate and the wait set,
some worker can move as long as some worker has not exited. -/
theorem no_worker_stranded (hlive : ∀ stop published state, ∃ move,
    processing.moves stop published state move) (root : Task) (s : Pool n Task State Out)
    (hrun : CarefulSteps processing maxQueuedTasks (initial root) s) (w : Fin n)
    (hw : s.pc w ≠ .exited) : ∃ v t, Step processing maxQueuedTasks v s t := by
  have hn : 0 < n := Nat.lt_of_le_of_lt (Nat.zero_le w.val) w.isLt
  have hs := inv_of_steps _ s hrun.steps (inv_initial root hn)
  have hheard := heard_of_carefulSteps _ s hrun fun h => by cases h
  obtain ⟨v, hexited, hwaiting⟩ := exists_awake_or_holder s hs hheard w hw
  exact exists_step_of_awake hlive s hs v hexited hwaiting

end Runs

end Pool
end MustDpor

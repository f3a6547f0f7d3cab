import MustDpor.Model.Causality
import MustDpor.Model.ExplorationGraph
import MustDpor.Model.Relation
import MustDpor.Model.UsedIndices
import Mathlib.Order.Bounds.Basic

/-! # Event indices

The tables of `ExecutionGraphT` that hand out event indices, as the vectors they are, and calls that say
what they leave behind when they throw. `add_event` advances the next index of a thread in place and both
paths grow the vectors first, so that a call leaves nothing behind is a fact about the tables: a next
index is in use only when the thread has used the last one, and a thread without storage has no event. -/

namespace MustDpor
set_option autoImplicit false
open List Function

variable {V : Type}

/-! ## One thread -/

/-- What the two tables hold for a thread whose events have the given indices. -/
structure Slot (indices : Set ℕ) (next : ℕ) (used : UsedEventIndexSet) : Prop where
  bounded : ∀ i ∈ indices, i ≤ maxEventIndex
  used : ∀ i, used.contains i = true ↔ i ∈ indices
  next : (indices = ∅ ∧ next = 0) ∨
    ∃ highest, IsGreatest indices highest ∧ next = if highest = maxEventIndex then highest else highest + 1

variable {index : ℕ}

namespace Slot

theorem unused : Slot ∅ 0 .empty :=
  ⟨fun _ hi => absurd hi (Set.notMem_empty _),
    fun _ => iff_of_false Bool.false_ne_true (Set.notMem_empty _), .inl ⟨rfl, rfl⟩⟩

section Thread
variable (indices : Set ℕ) (next : ℕ) (used : UsedEventIndexSet) (h : Slot indices next used)
include h

theorem lt_of_unused {index : ℕ} (hnext : next ≤ index) (hunused : used.contains index = false) :
    ∀ i ∈ indices, i < index := by
  intro i hi
  rw [← Bool.not_eq_true, h.used] at hunused
  rcases h.next with ⟨rfl, -⟩ | ⟨highest, hgreatest, rfl⟩
  · exact absurd hi (Set.notMem_empty _)
  · have hmax := hgreatest.2 hi
    split at hnext
    · exact lt_of_le_of_ne (hmax.trans hnext) fun heq => hunused (heq ▸ hi)
    · exact lt_of_le_of_lt hmax hnext

theorem unused_of_lt (hindex : index ≤ maxEventIndex) (hall : ∀ i ∈ indices, i < index) :
    next ≤ index ∧ used.contains index = false := by
  rw [← Bool.not_eq_true, h.used]
  refine ⟨?_, fun hi => lt_irrefl _ (hall index hi)⟩
  rcases h.next with ⟨-, rfl⟩ | ⟨highest, hgreatest, rfl⟩
  · exact Nat.zero_le _
  · have hlt := hall highest hgreatest.1
    rw [if_neg (ne_of_lt (hlt.trans_le hindex))]
    exact hlt

theorem next_used_iff : used.contains next = true ↔ maxEventIndex ∈ indices := by
  rw [h.used]
  rcases h.next with ⟨rfl, rfl⟩ | ⟨highest, hgreatest, rfl⟩
  · exact Iff.rfl
  · by_cases hlast : highest = maxEventIndex
    · rw [if_pos hlast, hlast]
    · rw [if_neg hlast]
      refine iff_of_false (fun hi => Nat.not_succ_le_self highest (hgreatest.2 hi)) fun hi => hlast ?_
      exact le_antisymm (h.bounded highest hgreatest.1) (hgreatest.2 hi)

theorem next_of_full (hfull : maxEventIndex ∈ indices) : next = maxEventIndex := by
  rcases h.next with ⟨rfl, -⟩ | ⟨highest, hgreatest, rfl⟩
  · exact absurd hfull (Set.notMem_empty _)
  · rw [le_antisymm (h.bounded highest hgreatest.1) (hgreatest.2 hfull), if_pos rfl]

theorem next_le : next ≤ maxEventIndex := by
  rcases h.next with ⟨-, rfl⟩ | ⟨highest, hgreatest, rfl⟩
  · exact Nat.zero_le _
  · have := h.bounded highest hgreatest.1
    split <;> omega

theorem next_eq (hleft : maxEventIndex ∉ indices) :
    (indices = ∅ → next = 0) ∧ ∀ highest, IsGreatest indices highest → next = highest + 1 := by
  rcases h.next with ⟨rfl, rfl⟩ | ⟨highest, hgreatest, rfl⟩
  · exact ⟨fun _ => rfl, fun _ hhighest => absurd hhighest.1 (Set.notMem_empty _)⟩
  · have hlast : highest ≠ maxEventIndex := fun heq => hleft (heq ▸ hgreatest.1)
    rw [if_neg hlast]
    refine ⟨fun hempty => ?_, fun other hother => ?_⟩
    · rw [hempty] at hgreatest
      exact absurd hgreatest.1 (Set.notMem_empty _)
    · rw [hgreatest.unique hother]

theorem append (hindex : index ≤ maxEventIndex) (hall : ∀ i ∈ indices, i < index) :
    Slot (insert index indices) (if index = maxEventIndex then index else index + 1) (used.insert index) where
  bounded := fun i hi => by
    rcases Set.mem_insert_iff.mp hi with rfl | hi
    · exact hindex
    · exact h.bounded i hi
  used := fun i => by
    rw [UsedEventIndexSet.contains_insert, h.used, Set.mem_insert_iff]
  next := Or.inr ⟨index, ⟨Set.mem_insert _ _, fun i hi => by
    rcases Set.mem_insert_iff.mp hi with rfl | hi
    · exact le_refl _
    · exact le_of_lt (hall i hi)⟩, rfl⟩

end Thread
end Slot

/-! ## The vectors -/

structure StoredGraph (V : Type) where
  events : List (Event V)
  nextEventIndexByThread : List ℕ
  usedEventIndicesByThread : List UsedEventIndexSet

namespace StoredGraph

def empty : StoredGraph V := ⟨[], [], []⟩

/-- The bound is checked only where storage is missing. -/
def ensureThreadStorage (g : StoredGraph V) (thread : ℕ) : Except DporError (StoredGraph V) :=
  if g.nextEventIndexByThread.length ≤ thread then
    if kMaxThreadId < thread then
      .error (.preconditionError "thread id exceeds the maximum supported thread id")
    else .ok
      { g with
        nextEventIndexByThread := resize g.nextEventIndexByThread (thread + 1) 0
        usedEventIndicesByThread := resize g.usedEventIndicesByThread (thread + 1) .empty }
  else .ok g

/-- The loop of `next_event_index`, which advances the stored index. -/
def scanEventIndex (thread : ℕ) : ℕ → StoredGraph V → Except DporError ℕ × StoredGraph V
  | 0, g => (.error (.preconditionError "no available event index for thread"), g)
  | fuel + 1, g =>
    let next := g.nextEventIndexByThread.getD thread 0
    if (g.usedEventIndicesByThread.getD thread .empty).contains next then
      if next = maxEventIndex then (.error (.preconditionError "no available event index for thread"), g)
      else scanEventIndex thread fuel
        { g with nextEventIndexByThread := g.nextEventIndexByThread.set thread (next + 1) }
    else (.ok next, g)

def nextEventIndex (g : StoredGraph V) (thread : ℕ) : Except DporError ℕ × StoredGraph V :=
  match g.ensureThreadStorage thread with
  | .error e => (.error e, g)
  | .ok g => g.scanEventIndex thread (maxEventIndex + 1 - g.nextEventIndexByThread.getD thread 0)

def appendEventUnchecked (g : StoredGraph V) (thread index : ℕ) (label : EventLabel V) : ℕ × StoredGraph V :=
  (g.events.length,
    { events := g.events ++ [⟨thread, index, label⟩]
      nextEventIndexByThread :=
        g.nextEventIndexByThread.set thread (if index = maxEventIndex then index else index + 1)
      usedEventIndicesByThread := g.usedEventIndicesByThread.set thread
        ((g.usedEventIndicesByThread.getD thread .empty).insert index) })

def addEvent (g : StoredGraph V) (thread : ℕ) (label : EventLabel V) :
    Except DporError ℕ × StoredGraph V :=
  match g.nextEventIndex thread with
  | (.error e, g) => (.error e, g)
  | (.ok index, g) =>
    let (id, g) := g.appendEventUnchecked thread index label
    (.ok id, g)

def addEventWithIndex (g : StoredGraph V) (thread : ℕ) (index : Fin (maxEventIndex + 1))
    (label : EventLabel V) : Except DporError ℕ × StoredGraph V :=
  match g.ensureThreadStorage thread with
  | .error e => (.error e, g)
  | .ok g =>
    if (g.usedEventIndicesByThread.getD thread .empty).contains index then
      (.error (.preconditionError "event index already used in this thread"), g)
    else if index < g.nextEventIndexByThread.getD thread 0 then
      (.error (.preconditionError
        "event indices must be inserted in increasing order within each thread"), g)
    else
      let (id, g) := g.appendEventUnchecked thread index label
      (.ok id, g)

/-- The graph as the other modules see it: a slot that was never grown reads as its default. -/
def view (g : StoredGraph V) : ExecutionGraph V where
  events := g.events
  readsFrom := AscendingMap.empty
  nextEventIndexByThread := fun thread => g.nextEventIndexByThread.getD thread 0
  usedEventIndicesByThread := fun thread => g.usedEventIndicesByThread.getD thread .empty

def indices (g : StoredGraph V) (thread : ℕ) : Set ℕ :=
  { index | ∃ e ∈ g.events, e.thread = thread ∧ e.index = index }

structure Sound (g : StoredGraph V) : Prop where
  sizes : g.usedEventIndicesByThread.length = g.nextEventIndexByThread.length
  ordered : g.view.IndexOrdered
  stored : ∀ e ∈ g.events, e.thread < g.nextEventIndexByThread.length
  slots : ∀ thread, Slot (g.indices thread) (g.nextEventIndexByThread.getD thread 0)
    (g.usedEventIndicesByThread.getD thread .empty)
  range : g.nextEventIndexByThread.length ≤ kMaxThreadId + 1

theorem empty_sound : (empty : StoredGraph V).Sound where
  sizes := rfl
  ordered := nofun
  stored := nofun
  slots := fun thread => by
    have hnone : (empty : StoredGraph V).indices thread = ∅ :=
      Set.eq_empty_of_forall_notMem fun _ ⟨_, he, _⟩ => absurd he not_mem_nil
    rw [hnone]
    exact Slot.unused
  range := Nat.zero_le _

/-! ## Storage -/

theorem getD_resize {α : Type} {l : List α} (n i : ℕ) (d : α) (h : l.length ≤ n) :
    (resize l n d).getD i d = l.getD i d := by
  unfold resize
  rw [take_of_length_le h, getD_eq_getElem?_getD, getD_eq_getElem?_getD]
  by_cases hi : i < l.length
  · rw [getElem?_append_left hi]
  · rw [getElem?_append_right (not_lt.mp hi), getElem?_replicate,
      getElem?_eq_none (not_lt.mp hi)]
    split <;> rfl

theorem length_resize {α : Type} (l : List α) (n : ℕ) (d : α) : (resize l n d).length = n := by
  unfold resize
  rw [length_append, length_take, length_replicate]
  omega

theorem Sound.congr {g g' : StoredGraph V} (h : g.Sound) (hview : g'.view = g.view)
    (hsizes : g'.usedEventIndicesByThread.length = g'.nextEventIndexByThread.length)
    (hgrown : g.nextEventIndexByThread.length ≤ g'.nextEventIndexByThread.length)
    (hrange : g'.nextEventIndexByThread.length ≤ kMaxThreadId + 1) : g'.Sound := by
  have hevents : g'.events = g.events := congrArg ExecutionGraph.events hview
  refine ⟨hsizes, hview ▸ h.ordered, fun e he => (h.stored e (hevents ▸ he)).trans_le hgrown, fun thread => ?_, hrange⟩
  have hnext := congrFun (congrArg ExecutionGraph.nextEventIndexByThread hview) thread
  have hused := congrFun (congrArg ExecutionGraph.usedEventIndicesByThread hview) thread
  simp only [view] at hnext hused
  rw [hnext, hused]
  unfold indices
  rw [hevents]
  exact h.slots thread

section Calls
variable (g : StoredGraph V) (h : g.Sound) (thread : ℕ)
include h

theorem Sound.ensureThreadStorage_ok (hthread : thread ≤ kMaxThreadId) :
    ∃ g', g.ensureThreadStorage thread = .ok g' ∧ g'.Sound ∧ g'.view = g.view ∧
      thread < g'.nextEventIndexByThread.length ∧ ((g.indices thread).Nonempty → g' = g) := by
  unfold ensureThreadStorage
  by_cases hsize : g.nextEventIndexByThread.length ≤ thread
  · rw [if_pos hsize, if_neg (not_lt.mpr hthread)]
    have hnext := length_resize g.nextEventIndexByThread (thread + 1) 0
    have hview : StoredGraph.view { g with
        nextEventIndexByThread := resize g.nextEventIndexByThread (thread + 1) 0
        usedEventIndicesByThread := resize g.usedEventIndicesByThread (thread + 1) .empty } = g.view := by
      unfold view
      simp only [ExecutionGraph.mk.injEq, true_and]
      exact ⟨funext fun i => getD_resize _ i 0 (hsize.trans (Nat.le_succ _)),
        funext fun i => getD_resize _ i .empty (h.sizes.trans_le (hsize.trans (Nat.le_succ _)))⟩
    refine ⟨_, rfl, h.congr hview ?_ ?_ ?_, hview, ?_, ?_⟩
    · rw [hnext, length_resize]
    · rw [hnext]
      exact hsize.trans (Nat.le_succ _)
    · rw [hnext]
      exact Nat.succ_le_succ hthread
    · rw [hnext]
      exact Nat.lt_succ_self _
    · rintro ⟨index, e, he, rfl, -⟩
      exact absurd (h.stored e he) (not_lt.mpr hsize)
  · rw [if_neg hsize]
    exact ⟨g, rfl, h, rfl, not_le.mp hsize, fun _ => rfl⟩

theorem Sound.ensureThreadStorage_error (hthread : kMaxThreadId < thread) :
    g.ensureThreadStorage thread =
      .error (.preconditionError "thread id exceeds the maximum supported thread id") := by
  unfold ensureThreadStorage
  rw [if_pos (h.range.trans hthread), if_pos hthread]

theorem Sound.scanEventIndex_full (hfull : maxEventIndex ∈ g.indices thread) (fuel : ℕ) :
    g.scanEventIndex thread fuel = (.error (.preconditionError "no available event index for thread"), g) := by
  cases fuel with
  | zero => rfl
  | succ fuel =>
    unfold scanEventIndex
    have hslot := h.slots thread
    rw [if_pos ((hslot.next_used_iff _ _ _).mpr hfull), if_pos (hslot.next_of_full _ _ _ hfull)]

theorem Sound.scanEventIndex_left (hleft : maxEventIndex ∉ g.indices thread) :
    g.scanEventIndex thread (maxEventIndex + 1 - g.nextEventIndexByThread.getD thread 0) =
      (.ok (g.nextEventIndexByThread.getD thread 0), g) := by
  have hslot := h.slots thread
  have hle := hslot.next_le
  obtain ⟨fuel, hfuel⟩ : ∃ fuel, maxEventIndex + 1 - g.nextEventIndexByThread.getD thread 0 = fuel + 1 :=
    ⟨maxEventIndex - g.nextEventIndexByThread.getD thread 0, by omega⟩
  rw [hfuel]
  unfold scanEventIndex
  rw [if_neg ((hslot.next_used_iff _ _ _).not.mpr hleft)]

omit h in
theorem indices_append (index : ℕ) (label : EventLabel V) (other : ℕ) :
    (g.appendEventUnchecked thread index label).2.indices other =
      if other = thread then insert index (g.indices thread) else g.indices other := by
  ext i
  have hmem : i ∈ (g.appendEventUnchecked thread index label).2.indices other ↔
      i ∈ g.indices other ∨ thread = other ∧ index = i := by
    unfold indices appendEventUnchecked
    simp only [Set.mem_ofPred_eq, mem_append, mem_singleton]
    constructor
    · rintro ⟨e, he | rfl, hthread⟩
      · exact .inl ⟨e, he, hthread⟩
      · exact .inr hthread
    · rintro (⟨e, he, hthread⟩ | hthread)
      · exact ⟨e, .inl he, hthread⟩
      · exact ⟨_, .inr rfl, hthread⟩
  rw [hmem]
  split
  · rename_i hother
    subst hother
    rw [Set.mem_insert_iff, or_comm, eq_comm (a := i)]
    simp only [true_and]
  · rename_i hother
    exact or_iff_left fun hnew => hother hnew.1.symm

theorem Sound.view_append (hthread : thread < g.nextEventIndexByThread.length) (index : ℕ) (label : EventLabel V) :
    (g.appendEventUnchecked thread index label).2.view = (g.view.appendEventUnchecked thread index label).2 := by
  have hset : ∀ {α : Type} (l : List α) (d a : α), thread < l.length →
      (fun i => (l.set thread a).getD i d) = update (fun i => l.getD i d) thread a := by
    intro α l d a hlt
    funext i
    rw [getD_eq_getElem?_getD, update_apply]
    by_cases hi : i = thread
    · rw [if_pos hi, hi, getElem?_set_self hlt, Option.getD_some]
    · rw [if_neg hi, getElem?_set_ne (Ne.symm hi), getD_eq_getElem?_getD]
  unfold appendEventUnchecked view ExecutionGraph.appendEventUnchecked
  simp only [ExecutionGraph.mk.injEq, true_and]
  exact ⟨hset _ _ _ hthread, hset _ _ _ (hthread.trans_eq h.sizes.symm)⟩

theorem Sound.indexed : g.view.Indexed where
  ordered := h.ordered
  below := fun _ e he _ hnext hunused =>
    (h.slots e.thread).lt_of_unused _ _ _ hnext hunused e.index ⟨e, mem_of_getElem? he, rfl, rfl⟩

theorem Sound.append (hthread : thread < g.nextEventIndexByThread.length) (label : EventLabel V)
    (hindex : index ≤ maxEventIndex) (hall : ∀ i ∈ g.indices thread, i < index) :
    (g.appendEventUnchecked thread index label).2.Sound := by
  have hview := h.view_append g thread hthread index label
  obtain ⟨hnext, hunused⟩ := (h.slots thread).unused_of_lt _ _ _ hindex hall
  have hordered := ((h.indexed g).append label hnext hunused).ordered
  rw [← hview] at hordered
  have hlength : (g.appendEventUnchecked thread index label).2.nextEventIndexByThread.length
      = g.nextEventIndexByThread.length := length_set
  refine ⟨?_, hordered, fun e he => ?_, fun other => ?_, hlength.trans_le h.range⟩
  · rw [hlength, ← h.sizes]
    exact length_set
  · rw [hlength]
    rcases mem_append.mp he with he | he
    · exact h.stored e he
    · rw [mem_singleton.mp he]
      exact hthread
  · have hnextView := congrFun (congrArg ExecutionGraph.nextEventIndexByThread hview) other
    have husedView := congrFun (congrArg ExecutionGraph.usedEventIndicesByThread hview) other
    simp only [view, ExecutionGraph.appendEventUnchecked, update_apply] at hnextView husedView
    rw [hnextView, husedView, indices_append]
    split
    · exact (h.slots thread).append _ _ _ hindex hall
    · exact h.slots other

theorem Sound.addEvent_ok (label : EventLabel V) (hthread : thread ≤ kMaxThreadId)
    (hleft : maxEventIndex ∉ g.indices thread) :
    ∃ index g', g.addEvent thread label = (.ok g.events.length, g') ∧ g'.Sound ∧
      g'.events = g.events ++ [⟨thread, index, label⟩] ∧ (g.indices thread = ∅ → index = 0) ∧
      ∀ highest, IsGreatest (g.indices thread) highest → index = highest + 1 := by
  obtain ⟨g', hensure, hsound, hview, hstored, -⟩ := h.ensureThreadStorage_ok g thread hthread
  have hevents : g'.events = g.events := congrArg ExecutionGraph.events hview
  have hindices : g'.indices thread = g.indices thread := by
    unfold indices
    rw [hevents]
  rw [← hindices] at hleft ⊢
  have hslot := hsound.slots thread
  have hscan := hsound.scanEventIndex_left g' thread hleft
  obtain ⟨hempty, hgreatest⟩ := hslot.next_eq _ _ _ hleft
  have hall := hslot.lt_of_unused _ _ _ (le_refl _)
    (Bool.eq_false_iff.mpr ((hslot.next_used_iff _ _ _).not.mpr hleft))
  refine ⟨_, _, ?_, hsound.append g' thread hstored label (hslot.next_le _ _ _) hall, ?_, hempty, hgreatest⟩
  · unfold addEvent nextEventIndex
    simp only [hensure, hscan, appendEventUnchecked, hevents]
  · simp only [appendEventUnchecked, hevents]

theorem Sound.addEvent_error (label : EventLabel V)
    (hfails : kMaxThreadId < thread ∨ maxEventIndex ∈ g.indices thread) :
    ∃ message, g.addEvent thread label = (.error (.preconditionError message), g) := by
  unfold addEvent nextEventIndex
  by_cases hthread : kMaxThreadId < thread
  · simp only [h.ensureThreadStorage_error g thread hthread]
    exact ⟨_, rfl⟩
  · have hfull := hfails.resolve_left hthread
    obtain ⟨g', hensure, -, -, -, hsame⟩ := h.ensureThreadStorage_ok g thread (not_lt.mp hthread)
    rw [hsame ⟨_, hfull⟩] at hensure
    simp only [hensure, h.scanEventIndex_full g thread hfull]
    exact ⟨_, rfl⟩

theorem Sound.addEventWithIndex_ok (index : Fin (maxEventIndex + 1)) (label : EventLabel V)
    (hthread : thread ≤ kMaxThreadId) (hall : ∀ i ∈ g.indices thread, i < index) :
    ∃ g', g.addEventWithIndex thread index label = (.ok g.events.length, g') ∧ g'.Sound ∧
      g'.events = g.events ++ [⟨thread, index, label⟩] := by
  obtain ⟨g', hensure, hsound, hview, hstored, -⟩ := h.ensureThreadStorage_ok g thread hthread
  have hevents : g'.events = g.events := congrArg ExecutionGraph.events hview
  have hindices : g'.indices thread = g.indices thread := by
    unfold indices
    rw [hevents]
  rw [← hindices] at hall
  have hindex : (index : ℕ) ≤ maxEventIndex := Nat.le_of_lt_succ index.isLt
  obtain ⟨hnext, hunused⟩ := (hsound.slots thread).unused_of_lt _ _ _ hindex hall
  refine ⟨_, ?_, hsound.append g' thread hstored label hindex hall, ?_⟩
  · unfold addEventWithIndex
    simp only [hensure, hunused, Bool.false_eq_true, if_false, if_neg (not_lt.mpr hnext), appendEventUnchecked,
      hevents]
  · simp only [appendEventUnchecked, hevents]

theorem Sound.addEventWithIndex_error (index : Fin (maxEventIndex + 1)) (label : EventLabel V)
    (hfails : ¬ (thread ≤ kMaxThreadId ∧ ∀ i ∈ g.indices thread, i < index)) :
    ∃ message, g.addEventWithIndex thread index label = (.error (.preconditionError message), g) := by
  unfold addEventWithIndex
  by_cases hthread : kMaxThreadId < thread
  · simp only [h.ensureThreadStorage_error g thread hthread]
    exact ⟨_, rfl⟩
  · have hnot : ¬ ∀ i ∈ g.indices thread, i < index := fun hall => hfails ⟨not_lt.mp hthread, hall⟩
    obtain ⟨g', hensure, -, -, -, hsame⟩ := h.ensureThreadStorage_ok g thread (not_lt.mp hthread)
    -- only a thread with events can refuse, and its storage does not grow
    have hsome : (g.indices thread).Nonempty := by
      rw [Set.nonempty_iff_ne_empty]
      intro hempty
      exact hnot fun i hi => absurd hi (hempty ▸ Set.notMem_empty i)
    rw [hsame hsome] at hensure
    simp only [hensure]
    split
    · exact ⟨_, rfl⟩
    · rename_i hunused
      split
      · exact ⟨_, rfl⟩
      · rename_i hnext
        exact absurd ((h.slots thread).lt_of_unused _ _ _ (not_lt.mp hnext)
          (Bool.eq_false_iff.mpr hunused)) hnot

/-! The execution graphs of the other modules take the same steps. -/

omit h in
/-- What a call of the stored graph looks like through the view. -/
def seen (r : Except DporError ℕ × StoredGraph V) : Except DporError (ℕ × ExecutionGraph V) :=
  r.1.map fun id => (id, r.2.view)

theorem Sound.nextEventIndex_view :
    ∃ outcome g', g.nextEventIndex thread = (outcome, g') ∧ g.view.nextEventIndex thread = outcome ∧
      ∀ index, outcome = .ok index →
        g'.view = g.view ∧ g'.Sound ∧ thread < g'.nextEventIndexByThread.length := by
  unfold nextEventIndex ExecutionGraph.nextEventIndex
  by_cases hthread : kMaxThreadId < thread
  · rw [if_pos hthread]
    simp only [h.ensureThreadStorage_error g thread hthread]
    exact ⟨_, _, rfl, rfl, nofun⟩
  · obtain ⟨g', hensure, hsound, hview, hstored, -⟩ := h.ensureThreadStorage_ok g thread (not_lt.mp hthread)
    have hslot := hsound.slots thread
    obtain ⟨fuel, hfuel⟩ : ∃ fuel, maxEventIndex + 1 - g'.nextEventIndexByThread.getD thread 0 = fuel + 1 :=
      ⟨maxEventIndex - g'.nextEventIndexByThread.getD thread 0, by have := hslot.next_le; omega⟩
    rw [if_neg hthread, ← hview]
    simp only [hensure]
    by_cases hfull : maxEventIndex ∈ g'.indices thread
    · refine ⟨_, g', hsound.scanEventIndex_full g' thread hfull _, ?_, nofun⟩
      simp only [view]
      rw [hfuel, ExecutionGraph.scanEventIndex, if_pos ((hslot.next_used_iff _ _ _).mpr hfull),
        if_pos (hslot.next_of_full _ _ _ hfull)]
    · refine ⟨_, g', hsound.scanEventIndex_left g' thread hfull, ?_, fun _ _ => ⟨rfl, hsound, hstored⟩⟩
      simp only [view]
      rw [hfuel, ExecutionGraph.scanEventIndex, if_neg ((hslot.next_used_iff _ _ _).not.mpr hfull)]

theorem Sound.addEvent_view (label : EventLabel V) :
    g.view.addEvent thread label = seen (g.addEvent thread label) := by
  obtain ⟨outcome, g', hnext, hindex, hleft⟩ := h.nextEventIndex_view g thread
  unfold ExecutionGraph.addEvent addEvent
  rw [hindex, hnext]
  cases outcome with
  | error e => rfl
  | ok index =>
    obtain ⟨hview, hsound, hstored⟩ := hleft index rfl
    show Except.ok (g.view.appendEventUnchecked thread index label) =
      .ok (g'.events.length, (g'.appendEventUnchecked thread index label).2.view)
    rw [hsound.view_append g' thread hstored index label, ← hview]
    rfl

theorem Sound.addEventWithIndex_view (index : Fin (maxEventIndex + 1)) (label : EventLabel V) :
    g.view.addEventWithIndex thread index label = seen (g.addEventWithIndex thread index label) := by
  unfold ExecutionGraph.addEventWithIndex addEventWithIndex
  by_cases hthread : kMaxThreadId < thread
  · rw [if_pos hthread]
    simp only [h.ensureThreadStorage_error g thread hthread]
    rfl
  · obtain ⟨g', hensure, hsound, hview, hstored, -⟩ := h.ensureThreadStorage_ok g thread (not_lt.mp hthread)
    rw [if_neg hthread, ← hview]
    have happend := hsound.view_append g' thread hstored index label
    simp only [hensure]
    by_cases hused : (g'.usedEventIndicesByThread.getD thread .empty).contains index = true
    · rw [if_pos hused, if_pos (show (g'.view.usedEventIndicesByThread thread).contains index = true from hused)]
      rfl
    · rw [if_neg hused, if_neg (show ¬ (g'.view.usedEventIndicesByThread thread).contains index = true from hused)]
      by_cases hlt : index < g'.nextEventIndexByThread.getD thread 0
      · rw [if_pos hlt, if_pos (show index < g'.view.nextEventIndexByThread thread from hlt)]
        rfl
      · rw [if_neg hlt, if_neg (show ¬ index < g'.view.nextEventIndexByThread thread from hlt)]
        show _ = Except.ok (g'.events.length, (g'.appendEventUnchecked thread index label).2.view)
        rw [happend]
        rfl

end Calls
end StoredGraph

/-! ## The program-order relation -/

namespace ExecutionGraph

/-- `po_relation` with the index that its constructor builds. -/
def poIndex (g : ExecutionGraph V) : Except DporError ProgramOrderIndex := do
  let po ← g.poRelation
  ProgramOrderIndex.rebuildIndex po.nodeCount 0 po.threadEvents .initial

theorem mem_threadSequences (g : ExecutionGraph V) (evts : List ℕ) :
    evts ∈ g.threadSequences ↔ evts ≠ [] ∧ ∃ tid < g.threadSlots, g.eventIdsOfThread tid = evts := by
  unfold threadSequences
  rw [mem_filter, mem_map, and_comm, Bool.not_eq_true', isEmpty_eq_false_iff]
  simp only [mem_range]

theorem mem_flatten_threadSequences (g : ExecutionGraph V) {id : ℕ} :
    id ∈ g.threadSequences.flatten → id < g.events.length := by
  intro hmem
  obtain ⟨evts, hevts, hid⟩ := mem_flatten.mp hmem
  obtain ⟨-, tid, -, rfl⟩ := (g.mem_threadSequences evts).mp hevts
  obtain ⟨e, he, -⟩ := (mem_eventIdsOfThread g tid id).mp hid
  exact lt_of_getElem? he

theorem nodup_threadSequences (g : ExecutionGraph V) : g.threadSequences.flatten.Nodup := by
  refine nodup_flatten.mpr ⟨fun evts hevts => ?_, ?_⟩
  · obtain ⟨-, tid, -, rfl⟩ := (g.mem_threadSequences evts).mp hevts
    exact (eventIdsOfThread_ascending g tid).imp ne_of_lt
  · have hdisjoint : ((range g.threadSlots).map g.eventIdsOfThread).Pairwise List.Disjoint := by
      refine List.Pairwise.map _ (fun s t hlt id hs ht => ?_) pairwise_lt_range
      obtain ⟨es, hes, hthread⟩ := (mem_eventIdsOfThread g s id).mp hs
      obtain ⟨et, het, hthread'⟩ := (mem_eventIdsOfThread g t id).mp ht
      rw [hes] at het
      cases het
      exact absurd (hthread.symm.trans hthread') (ne_of_lt hlt)
    exact hdisjoint.sublist filter_sublist

theorem exists_place (g : ExecutionGraph V) {id : ℕ} {e : Event V} (he : g.events[id]? = some e) :
    ∃ k i : ℕ, g.threadSequences[k]? = some (g.eventIdsOfThread e.thread) ∧
      (g.eventIdsOfThread e.thread)[i]? = some id := by
  have hmem := (mem_eventIdsOfThread g e.thread id).mpr ⟨e, he, rfl⟩
  have hsequence := (g.mem_threadSequences _).mpr
    ⟨ne_nil_of_mem hmem, e.thread, thread_lt_threadSlots g (mem_of_getElem? he), rfl⟩
  obtain ⟨k, hk⟩ := mem_iff_getElem?.mp hsequence
  obtain ⟨i, hi⟩ := mem_iff_getElem?.mp hmem
  exact ⟨k, i, hk, hi⟩

theorem place_lt_iff (g : ExecutionGraph V) {tid i j a b : ℕ} (ha : (g.eventIdsOfThread tid)[i]? = some a)
    (hb : (g.eventIdsOfThread tid)[j]? = some b) : i < j ↔ a < b := by
  have hascending := List.pairwise_iff_getElem.mp (eventIdsOfThread_ascending g tid)
  obtain ⟨hi, rfl⟩ := List.getElem?_eq_some_iff.mp ha
  obtain ⟨hj, rfl⟩ := List.getElem?_eq_some_iff.mp hb
  refine ⟨hascending i j hi hj, fun hlt => ?_⟩
  rcases lt_trichotomy i j with h | rfl | h
  · exact h
  · exact absurd hlt (lt_irrefl _)
  · exact absurd (hascending j i hj hi h) (lt_asymm hlt)

theorem IndexOrdered.poIndex_ok (g : ExecutionGraph V) (h : g.IndexOrdered) :
    ∃ index, g.poIndex = .ok index ∧
      ∀ a b, index.contains g.events.length a b = true ↔ g.ProgramOrder a b := by
  obtain ⟨index, hindex, hplace, -⟩ := ProgramOrderIndex.rebuildIndex_ok g.events.length 0
    .initial g.nodup_threadSequences fun e he => ⟨g.mem_flatten_threadSequences he, rfl⟩
  refine ⟨index, ?_, fun a b => ?_⟩
  · unfold poIndex
    rw [poRelation_ok g h]
    exact hindex
  rw [h.programOrder_iff g]
  unfold ProgramOrderIndex.contains
  by_cases hrange : g.events.length ≤ a ∨ g.events.length ≤ b
  · rw [if_pos hrange]
    refine iff_of_false Bool.false_ne_true ?_
    rintro ⟨-, ea, eb, ha, hb, -⟩
    have halt := lt_of_getElem? ha
    have hblt := lt_of_getElem? hb
    omega
  · rw [not_or, not_le, not_le] at hrange
    have ha := getElem?_eq_getElem hrange.1
    have hb := getElem?_eq_getElem hrange.2
    obtain ⟨k, i, hk, hi⟩ := g.exists_place ha
    obtain ⟨l, j, hl, hj⟩ := g.exists_place hb
    obtain ⟨hthreadA, hpositionA⟩ := hplace k i a _ hk hi
    obtain ⟨hthreadB, hpositionB⟩ := hplace l j b _ hl hj
    -- two events lie in one sequence exactly when they share a thread
    have hsame : l = k ↔ g.events[a].thread = g.events[b].thread := by
      constructor
      · rintro rfl
        rw [hk] at hl
        have hmem := (mem_eventIdsOfThread g _ a).mp (Option.some.inj hl ▸ mem_of_getElem? hi)
        obtain ⟨e, he, hthread⟩ := hmem
        rw [ha] at he
        cases he
        exact hthread
      · intro hthread
        rw [hthread] at hi
        have hother := (hplace l i a _ hl hi).1
        rw [hthreadA] at hother
        simpa using hother.symm
    rw [if_neg (by omega), hthreadA]
    simp only [hthreadB, hpositionA, hpositionB, ne_eq, Option.some.injEq, Nat.zero_add, ite_not]
    by_cases hkl : l = k
    · have hthread := hsame.mp hkl
      rw [← hthread] at hj
      rw [if_pos hkl, decide_eq_true_eq, g.place_lt_iff hi hj]
      exact ⟨fun hlt => ⟨hlt, _, _, ha, hb, hthread⟩, And.left⟩
    · rw [if_neg hkl]
      refine iff_of_false Bool.false_ne_true ?_
      rintro ⟨-, ea, eb, hea, heb, hthread⟩
      rw [ha] at hea
      rw [hb] at heb
      cases hea
      cases heb
      exact hkl (hsame.mpr hthread)

end ExecutionGraph

/-! ## Sequences of calls -/

inductive IndexCall (V : Type) where
  | addEvent (thread : ℕ) (label : EventLabel V)
  | addEventWithIndex (thread : ℕ) (index : Fin (maxEventIndex + 1)) (label : EventLabel V)

namespace ExecutionGraph

def perform (g : ExecutionGraph V) : IndexCall V → Except DporError (ℕ × ExecutionGraph V)
  | .addEvent thread label => g.addEvent thread label
  | .addEventWithIndex thread index label => g.addEventWithIndex thread index label

/-- The graph behind a sequence of calls, of which those that throw return none. -/
def afterCalls (calls : List (IndexCall V)) : ExecutionGraph V :=
  calls.foldl (fun g call => ((g.perform call).toOption.map Prod.snd).getD g) empty

end ExecutionGraph

namespace StoredGraph

def perform (g : StoredGraph V) : IndexCall V → Except DporError ℕ × StoredGraph V
  | .addEvent thread label => g.addEvent thread label
  | .addEventWithIndex thread index label => g.addEventWithIndex thread index label

/-- The graph behind a sequence of calls, those that threw included. -/
def afterCalls (calls : List (IndexCall V)) : StoredGraph V :=
  calls.foldl (fun g call => (g.perform call).2) empty

theorem Sound.perform_cases (g : StoredGraph V) (h : g.Sound) (call : IndexCall V) :
    (∃ message, g.perform call = (.error (.preconditionError message), g)) ∨
      ∃ g', g.perform call = (.ok g.events.length, g') ∧ g'.Sound := by
  cases call with
  | addEvent thread label =>
    by_cases hfails : kMaxThreadId < thread ∨ maxEventIndex ∈ g.indices thread
    · exact .inl (h.addEvent_error g thread label hfails)
    · rw [not_or, not_lt] at hfails
      obtain ⟨_, g', hadd, hsound, -⟩ := h.addEvent_ok g thread label hfails.1 hfails.2
      exact .inr ⟨g', hadd, hsound⟩
  | addEventWithIndex thread index label =>
    by_cases hok : thread ≤ kMaxThreadId ∧ ∀ i ∈ g.indices thread, i < index
    · obtain ⟨g', hadd, hsound, -⟩ := h.addEventWithIndex_ok g thread index label hok.1 hok.2
      exact .inr ⟨g', hadd, hsound⟩
    · exact .inl (h.addEventWithIndex_error g thread index label hok)

theorem afterCalls_sound (calls : List (IndexCall V)) : (afterCalls calls).Sound := by
  unfold afterCalls
  refine foldlRecOn calls _ empty_sound fun g h call _ => ?_
  rcases h.perform_cases g call with ⟨message, hthrows⟩ | ⟨g', hok, hsound⟩
  · rw [hthrows]
    exact h
  · rw [hok]
    exact hsound

theorem Sound.perform_view (g : StoredGraph V) (h : g.Sound) (call : IndexCall V) :
    g.view.perform call = seen (g.perform call) := by
  cases call with
  | addEvent thread label => exact h.addEvent_view g thread label
  | addEventWithIndex thread index label => exact h.addEventWithIndex_view g thread index label

/-- The vectors behave as the tables of the execution graphs: after any calls, those that threw included, they read
the same, and every further call answers the same and leaves the same behind. -/
theorem vectors_refine_tables (calls : List (IndexCall V)) :
    (afterCalls calls).view = .afterCalls calls ∧
      ∀ call, ExecutionGraph.perform (.afterCalls calls) call = seen ((afterCalls calls).perform call) := by
  have hview : (afterCalls calls).view = .afterCalls calls := by
    induction calls using reverseRecOn with
    | nil => rfl
    | append_singleton calls call ih =>
      have hsound := afterCalls_sound calls
      have hstored : afterCalls (calls ++ [call]) = ((afterCalls calls).perform call).2 := foldl_concat ..
      have hgraph : ExecutionGraph.afterCalls (calls ++ [call]) =
          (((ExecutionGraph.afterCalls calls).perform call).toOption.map Prod.snd).getD (.afterCalls calls) :=
        foldl_concat ..
      rw [hstored, hgraph, ← ih, hsound.perform_view _ call]
      rcases hsound.perform_cases _ call with ⟨message, hthrows⟩ | ⟨g', hok, -⟩
      · rw [hthrows]
        rfl
      · rw [hok]
        rfl
  exact ⟨hview, fun call => hview ▸ (afterCalls_sound calls).perform_view _ call⟩

/-- What holds of a graph and of the next call on it. -/
structure ConflictFree (g : StoredGraph V) : Prop where
  increasing : ∀ (a b : ℕ) (ea eb : Event V), a < b → g.events[a]? = some ea → g.events[b]? = some eb →
    ea.thread = eb.thread → ea.index < eb.index
  programOrder : ∃ index, g.view.poIndex = .ok index ∧
    ∀ a b, index.contains g.events.length a b = true ↔
      ∃ ea eb, g.events[a]? = some ea ∧ g.events[b]? = some eb ∧ ea.thread = eb.thread ∧ ea.index < eb.index
  automatic : ∀ thread label,
    ((∃ message, (g.addEvent thread label).1 = .error (.preconditionError message)) ↔
      kMaxThreadId < thread ∨ maxEventIndex ∈ g.indices thread) ∧
    (¬ (kMaxThreadId < thread ∨ maxEventIndex ∈ g.indices thread) →
      ∃ index g', g.addEvent thread label = (.ok g.events.length, g') ∧
        g'.events = g.events ++ [⟨thread, index, label⟩] ∧ (g.indices thread = ∅ → index = 0) ∧
        ∀ highest, IsGreatest (g.indices thread) highest → index = highest + 1)
  explicit : ∀ thread (index : Fin (maxEventIndex + 1)) label,
    ((∃ id, (g.addEventWithIndex thread index label).1 = .ok id) ↔
      thread ≤ kMaxThreadId ∧ ∀ i ∈ g.indices thread, i < index) ∧
    ∀ id, (g.addEventWithIndex thread index label).1 = .ok id →
      (g.addEventWithIndex thread index label).2.events = g.events ++ [⟨thread, index, label⟩]
  unchanged : ∀ call e, (g.perform call).1 = .error e → (g.perform call).2 = g

/-- Explicit and automatic indices never get in each other's way, whatever calls were made before and
whether they threw or not. -/
theorem indices_never_conflict (calls : List (IndexCall V)) : (afterCalls calls).ConflictFree := by
  have h := afterCalls_sound calls
  generalize afterCalls calls = g at h
  refine ⟨h.ordered, h.ordered.poIndex_ok g.view, fun thread label => ⟨?_, fun hfails => ?_⟩,
    fun thread index label => ?_, fun call e hthrows => ?_⟩
  · refine ⟨fun ⟨message, hthrows⟩ => ?_, fun hfails => ?_⟩
    · by_contra hfails
      rw [not_or, Nat.not_lt] at hfails
      obtain ⟨_, _, hadd, -⟩ := h.addEvent_ok g thread label hfails.1 hfails.2
      rw [hadd] at hthrows
      cases hthrows
    · obtain ⟨message, hadd⟩ := h.addEvent_error g thread label hfails
      exact ⟨message, congrArg Prod.fst hadd⟩
  · rw [not_or, Nat.not_lt] at hfails
    obtain ⟨index, g', hadd, -, hindex⟩ := h.addEvent_ok g thread label hfails.1 hfails.2
    exact ⟨index, g', hadd, hindex⟩
  · by_cases hok : thread ≤ kMaxThreadId ∧ ∀ i ∈ g.indices thread, i < index
    · obtain ⟨g', hadd, -, hevents⟩ := h.addEventWithIndex_ok g thread index label hok.1 hok.2
      rw [hadd]
      exact ⟨iff_of_true ⟨_, rfl⟩ hok, fun _ _ => hevents⟩
    · obtain ⟨message, hadd⟩ := h.addEventWithIndex_error g thread index label hok
      rw [hadd]
      exact ⟨iff_of_false (fun ⟨_, hid⟩ => nomatch hid) hok, fun _ hid => nomatch hid⟩
  · rcases h.perform_cases g call with ⟨message, hcall⟩ | ⟨g', hcall, -⟩
    · rw [hcall]
    · rw [hcall] at hthrows
      cases hthrows

end StoredGraph
end MustDpor

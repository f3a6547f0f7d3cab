import Mathlib.Data.List.GetD
import MustDpor.Model.ExplorationGraph

/-! # Rolling back to a checkpoint

`rollback` puts back everything that `add_event` and `set_reads_from_source` changed since the
checkpoint. The only tables that need an invariant for this are the per-thread index sets and the
reader counts (`Sound`): an undo of the others takes away what was pushed. The acyclicity metadata is
overwritten by the checkpoint, so a rollback does not depend on it. -/

namespace MustDpor
set_option autoImplicit false
open List Function ExplorationGraph WorkerGraph

/-! ## What an append does -/

namespace ExplorationGraph
variable {V : Type}

/-- `addEvent` with the index the thread hands out. -/
def appended (g : ExplorationGraph V) (thread : ℕ) (index : ℕ)
    (label : EventLabel V) : ExplorationGraph V where
  graph := (g.graph.appendEventUnchecked thread index label).2
  threadState := Function.update g.threadState thread
    ⟨(g.threadState thread).eventCount + 1, some g.eventCount⟩
  threadEventIds := Function.update g.threadEventIds thread (g.threadEventIds thread ++ [g.eventCount])
  receiveEventIdsByThread :=
    if label.isReceive then
      Function.update g.receiveEventIdsByThread thread
        (g.receiveEventIdsByThread thread ++ [g.eventCount])
    else g.receiveEventIdsByThread
  sendEventIds := if label.isSend then g.sendEventIds ++ [g.eventCount] else g.sendEventIds
  sendReaderCounts := resize g.sendReaderCounts (g.eventCount + 1) 0
  unreadSendMask :=
    if label.isSend then (resize g.unreadSendMask (g.eventCount + 1) false).set g.eventCount true
    else resize g.unreadSendMask (g.eventCount + 1) false
  knownAcyclic := g.knownAcyclic
  pendingFreshReceiveId := if g.knownAcyclic && label.isReceive then some g.eventCount else none

variable (g : ExplorationGraph V)

@[simp] theorem appended_events (thread : ℕ) (index : ℕ) (label : EventLabel V) :
    (g.appended thread index label).graph.events = g.graph.events ++ [⟨thread, index, label⟩] := rfl

@[simp] theorem appended_readsFrom (thread : ℕ) (index : ℕ)
    (label : EventLabel V) : (g.appended thread index label).graph.readsFrom = g.graph.readsFrom := rfl

theorem label?_appended_of_lt {g : ExplorationGraph V} (thread : ℕ) (index : ℕ)
    (label : EventLabel V) {id : ℕ} (h : id < g.eventCount) :
    (g.appended thread index label).label? id = g.label? id := by
  unfold label?
  rw [appended_events, getElem?_append_left h]

theorem label?_appended_self (thread : ℕ) (index : ℕ)
    (label : EventLabel V) : (g.appended thread index label).label? g.eventCount = some label := by
  unfold label? eventCount
  rw [appended_events, getElem?_concat_length]
  rfl

theorem label?_of_ge {id : ℕ} (h : g.eventCount ≤ id) : g.label? id = none := by
  unfold label?
  rw [getElem?_eq_none h]
  rfl

theorem addEvent_eq (thread : ℕ) (label : EventLabel V) : g.addEvent thread label =
      (g.graph.nextEventIndex thread).map (fun index => (g.eventCount, g.appended thread index label)) := by
  unfold addEvent ExecutionGraph.addEvent
  cases h : g.graph.nextEventIndex thread with
  | error e => rfl
  | ok index =>
    have hself := label?_appended_self g thread index label
    have hreceive : isReceiveId (g.appended thread index label) g.eventCount = label.isReceive := by
      unfold isReceiveId
      rw [hself]
      rfl
    show Except.ok (g.eventCount, _) = Except.ok (g.eventCount, _)
    congr 2
    show updateAcyclicityAfterAddEvent _ g.eventCount = _
    unfold updateAcyclicityAfterAddEvent appended
    congr 2
    exact congrArg (fun b => (g.knownAcyclic && b) = true) hreceive

/-- The graph with other acyclicity metadata. -/
def withMetadata (g : ExplorationGraph V) (known : Bool) (pending : Option ℕ) :
    ExplorationGraph V :=
  { g with knownAcyclic := known, pendingFreshReceiveId := pending }

end ExplorationGraph

namespace WorkerGraph
variable {V : Type}

def withMetadata (w : WorkerGraph V) (known : Bool) (pending : Option ℕ) : WorkerGraph V :=
  { w with graph := w.graph.withMetadata known pending }

/-- `addEvent` with the index the thread hands out, undo record included. -/
def appended (w : WorkerGraph V) (thread : ℕ) (index : ℕ) (label : EventLabel V) :
    WorkerGraph V where
  graph := w.graph.appended thread index label
  eventUndoLog :=
    { eventId := w.graph.eventCount
      thread := thread
      eventIndex := index
      previousThreadState := w.graph.threadState thread
      previousNextEventIndex := w.graph.graph.nextEventIndexByThread thread } :: w.eventUndoLog
  rfUndoLog := w.rfUndoLog

theorem addEvent_eq (w : WorkerGraph V) (thread : ℕ) (label : EventLabel V) :
    w.addEvent thread label = (w.graph.graph.nextEventIndex thread).map
      (fun index => (w.graph.eventCount, w.appended thread index label)) := by
  unfold addEvent
  rw [ExplorationGraph.addEvent_eq]
  cases h : w.graph.graph.nextEventIndex thread with
  | error e => rfl
  | ok index =>
    have hevent : (w.graph.appended thread index label).event w.graph.eventCount =
        .ok ⟨thread, index, label⟩ := by
      unfold event ExecutionGraph.event eventCount
      rw [appended_events, getElem?_concat_length]
    show (do
      let evt ← (w.graph.appended thread index label).event w.graph.eventCount
      _) = _
    rw [hevent]
    rfl

end WorkerGraph

/-! ## Sound tables -/

/-- The index set of a thread that only ever got the next index: dense up to it, or full. -/
def DenseIndices (next : ℕ) (used : UsedEventIndexSet) : Prop :=
  (used = ⟨next, []⟩ ∧ next ≤ maxEventIndex) ∨
    (used = ⟨maxEventIndex, [maxEventIndex]⟩ ∧ next = maxEventIndex)

theorem scanEventIndex_dense {next index : ℕ} {used : UsedEventIndexSet} (h : DenseIndices next used) {fuel : ℕ}
    (hscan : ExecutionGraph.scanEventIndex used fuel next = .ok index) :
    index = next ∧ used = ⟨next, []⟩ ∧ next ≤ maxEventIndex := by
  cases fuel with
  | zero => cases hscan
  | succ fuel =>
    rw [ExecutionGraph.scanEventIndex] at hscan
    rcases h with ⟨hused, hle⟩ | ⟨hused, hnext⟩
    · subst hused
      have hfree : (UsedEventIndexSet.mk next []).contains next = false := by
        simp [UsedEventIndexSet.contains]
      rw [hfree] at hscan
      cases hscan
      exact ⟨rfl, rfl, hle⟩
    · subst hused hnext
      have hfull : (UsedEventIndexSet.mk maxEventIndex [maxEventIndex]).contains maxEventIndex = true := by
        simp [UsedEventIndexSet.contains]
      rw [hfull] at hscan
      cases hscan

theorem dense_insert {next : ℕ} (hle : next ≤ maxEventIndex) :
    DenseIndices (if next = maxEventIndex then next else next + 1)
      ((UsedEventIndexSet.mk next []).insert next) := by
  by_cases h : next = maxEventIndex
  · right
    rw [if_pos h]
    refine ⟨?_, h⟩
    unfold UsedEventIndexSet.insert
    rw [if_neg (by simp [h]), h]
    rfl
  · left
    rw [if_neg h]
    refine ⟨?_, lt_of_le_of_ne hle h⟩
    unfold UsedEventIndexSet.insert
    rw [if_pos ⟨rfl, h⟩]
    rfl

theorem erase_insert (next : ℕ) :
    ((UsedEventIndexSet.mk next []).insert next).erase next = (1, ⟨next, []⟩) := by
  unfold UsedEventIndexSet.insert
  by_cases h : next = maxEventIndex
  · rw [if_neg (by simp [h])]
    simp [UsedEventIndexSet.erase, UsedEventIndexSet.swapRemove]
  · rw [if_pos ⟨rfl, h⟩]
    simp [UsedEventIndexSet.absorbSparse, UsedEventIndexSet.erase]

namespace ExplorationGraph
variable {V : Type}

structure Sound (g : ExplorationGraph V) : Prop where
  indices : ∀ tid, DenseIndices (g.graph.nextEventIndexByThread tid) (g.graph.usedEventIndicesByThread tid)
  counts_length : g.sendReaderCounts.length = g.eventCount
  mask_length : g.unreadSendMask.length = g.eventCount
  mask_eq : ∀ id, g.isSendId id = true →
    g.unreadSendMask.getD id false = decide (g.sendReaderCounts.getD id 0 = 0)

variable {g : ExplorationGraph V}

theorem Sound.withMetadata (h : g.Sound) (known : Bool) (pending : Option ℕ) : (g.withMetadata known pending).Sound :=
  ⟨h.indices, h.counts_length, h.mask_length, h.mask_eq⟩

theorem nextEventIndex_eq (h : g.Sound) {thread : ℕ} {index : ℕ} (hnext : g.graph.nextEventIndex thread = .ok index) :
    index = g.graph.nextEventIndexByThread thread ∧
      g.graph.usedEventIndicesByThread thread = ⟨index, []⟩ ∧ index ≤ maxEventIndex := by
  unfold ExecutionGraph.nextEventIndex at hnext
  split at hnext
  · cases hnext
  · obtain ⟨hi, hused, hle⟩ := scanEventIndex_dense (h.indices thread) hnext
    rw [hi]
    exact ⟨rfl, hused, hle⟩

theorem appended_counts (h : g.Sound) (thread : ℕ) (index : ℕ) (label : EventLabel V) :
    (g.appended thread index label).sendReaderCounts = g.sendReaderCounts ++ [0] := by
  show resize g.sendReaderCounts (g.eventCount + 1) 0 = _
  rw [← h.counts_length, resize_succ_length]

theorem appended_mask (h : g.Sound) (thread : ℕ) (index : ℕ) (label : EventLabel V) :
    (g.appended thread index label).unreadSendMask = g.unreadSendMask ++ [label.isSend] := by
  show (if label.isSend then (resize g.unreadSendMask (g.eventCount + 1) false).set g.eventCount true
    else resize g.unreadSendMask (g.eventCount + 1) false) = _
  rw [← h.mask_length, resize_succ_length]
  cases label.isSend with
  | true =>
    rw [if_pos rfl, set_append_right _ _ (le_refl _), Nat.sub_self]
    rfl
  | false => rfl

theorem Sound.appended (h : g.Sound) {thread : ℕ}
    {index : ℕ} (label : EventLabel V) (hnext : g.graph.nextEventIndex thread = .ok index) :
    (g.appended thread index label).Sound := by
  obtain ⟨hi, hused, hle⟩ := nextEventIndex_eq h hnext
  have hcount : (g.appended thread index label).eventCount = g.eventCount + 1 := by
    show (g.graph.events ++ [_]).length = _
    rw [length_append]
    rfl
  refine ⟨fun tid => ?_, ?_, ?_, fun id hid => ?_⟩
  · show DenseIndices (update g.graph.nextEventIndexByThread thread _ tid)
      (update g.graph.usedEventIndicesByThread thread _ tid)
    by_cases ht : tid = thread
    · subst ht
      rw [update_self, update_self, hused]
      exact dense_insert hle
    · rw [update_of_ne ht, update_of_ne ht]
      exact h.indices tid
  · rw [appended_counts h, hcount, length_append, h.counts_length]
    rfl
  · rw [appended_mask h, hcount, length_append, h.mask_length]
    rfl
  · rw [appended_mask h, appended_counts h]
    rcases lt_trichotomy id g.eventCount with hlt | heq | hgt
    · have hid' : g.isSendId id = true := by
        unfold isSendId at hid ⊢
        rwa [label?_appended_of_lt thread index label hlt] at hid
      have := h.mask_eq id hid'
      rw [getD_append _ _ _ _ (by rw [h.mask_length]; exact hlt),
        getD_append _ _ _ _ (by rw [h.counts_length]; exact hlt)]
      exact this
    · subst heq
      have hsend : label.isSend = true := by
        unfold isSendId at hid
        rwa [label?_appended_self] at hid
      rw [getD_append_right _ _ _ _ (by rw [h.mask_length]),
        getD_append_right _ _ _ _ (by rw [h.counts_length]), h.mask_length, h.counts_length,
        Nat.sub_self, hsend]
      rfl
    · unfold isSendId at hid
      rw [label?_of_ge _ (by rw [hcount]; omega)] at hid
      cases hid

/-! ## Reader counts -/

def setReaders (g : ExplorationGraph V) (id count : ℕ) : ExplorationGraph V :=
  { g with
    sendReaderCounts := g.sendReaderCounts.set id count
    unreadSendMask := g.unreadSendMask.set id (decide (count = 0)) }

/-- The send whose counter a source moves, if it moves one. -/
def readerTarget (g : ExplorationGraph V) : Option ReadsFromSource → Option ℕ
  | some (.send id) =>
    if g.isSendId id && decide (id < g.sendReaderCounts.length) && decide (id < g.unreadSendMask.length)
    then some id else none
  | _ => none

def readers (g : ExplorationGraph V) (id : ℕ) : ℕ := g.sendReaderCounts.getD id 0

theorem adjustSendReaderCount_eq (g : ExplorationGraph V) (source : Option ReadsFromSource) (add : Bool) :
    g.adjustSendReaderCount source add =
      match g.readerTarget source with
      | none => .ok g
      | some id =>
        if !add && decide (g.readers id < 1) then .error (.internalError "send reader count underflow")
        else .ok (g.setReaders id (if add then g.readers id + 1 else g.readers id - 1)) := by
  rcases source with _ | _ | id
  · rfl
  · rfl
  · unfold adjustSendReaderCount readerTarget
    by_cases h : (!g.isSendId id || g.sendReaderCounts.length ≤ id || g.unreadSendMask.length ≤ id) = true
    · have hnone : ¬ (g.isSendId id && decide (id < g.sendReaderCounts.length)
          && decide (id < g.unreadSendMask.length)) = true := by
        simp only [Bool.or_eq_true, Bool.not_eq_true', decide_eq_true_eq, Bool.and_eq_true] at h ⊢
        rintro ⟨⟨h1, h2⟩, h3⟩
        rcases h with (h | h) | h
        · rw [h1] at h
          cases h
        · omega
        · omega
      simp only [h, hnone, if_true]
      rfl
    · have hsome : (g.isSendId id && decide (id < g.sendReaderCounts.length)
          && decide (id < g.unreadSendMask.length)) = true := by
        simp only [Bool.or_eq_true, Bool.not_eq_true', decide_eq_true_eq, Bool.and_eq_true,
          not_or, not_le, Bool.not_eq_false] at h ⊢
        exact ⟨⟨h.1.1, h.1.2⟩, h.2⟩
      simp only [h, hsome, if_true]
      rfl

variable {source : Option ReadsFromSource}

theorem readerTarget_some (g : ExplorationGraph V) {id : ℕ} (h : g.readerTarget source = some id) :
    source = some (.send id) ∧ g.isSendId id = true ∧ id < g.sendReaderCounts.length ∧
      id < g.unreadSendMask.length := by
  rcases source with _ | _ | s
  · cases h
  · cases h
  · simp only [readerTarget, Option.ite_none_right_eq_some, Option.some.injEq, Bool.and_eq_true,
      decide_eq_true_eq] at h
    obtain ⟨⟨⟨hsend, hcounts⟩, hmask⟩, rfl⟩ := h
    exact ⟨rfl, hsend, hcounts, hmask⟩

@[simp] theorem readerTarget_setReaders (g : ExplorationGraph V) (id count : ℕ) (source : Option ReadsFromSource) :
    (g.setReaders id count).readerTarget source = g.readerTarget source := by
  rcases source with _ | _ | s
  · rfl
  · rfl
  · unfold readerTarget setReaders
    simp only [length_set]
    rfl

theorem readers_setReaders_self {id : ℕ} (count : ℕ)
    (h : id < g.sendReaderCounts.length) : (g.setReaders id count).readers id = count := by
  unfold readers setReaders
  rw [getD_eq_getElem?_getD, getElem?_set_self h]
  rfl

theorem setReaders_setReaders (g : ExplorationGraph V) (id : ℕ) (a b : ℕ) :
    (g.setReaders id a).setReaders id b = g.setReaders id b := by
  unfold setReaders
  simp only [set_set]

theorem set_getD_self {α : Type} (l : List α) (i : ℕ) (d : α) : l.set i (l.getD i d) = l := by
  apply ext_getElem?
  intro j
  rw [getElem?_set]
  split
  · rename_i h
    subst h
    split
    · rename_i hlt
      rw [getD_eq_getElem?_getD, getElem?_eq_getElem hlt]
      rfl
    · rename_i hlt
      rw [getElem?_eq_none (by omega)]
  · rfl

theorem setReaders_readers (h : g.Sound) {id : ℕ}
    (hid : g.isSendId id = true) : g.setReaders id (g.readers id) = g := by
  unfold setReaders readers
  rw [set_getD_self, ← h.mask_eq id hid, set_getD_self]

theorem Sound.setReaders (h : g.Sound) (id count : ℕ) : (g.setReaders id count).Sound := by
  refine ⟨h.indices, ?_, ?_, fun j hj => ?_⟩
  · show (g.sendReaderCounts.set id count).length = g.eventCount
    rw [length_set, h.counts_length]
  · show (g.unreadSendMask.set id (decide (count = 0))).length = g.eventCount
    rw [length_set, h.mask_length]
  · have hj' : g.isSendId j = true := hj
    show (g.unreadSendMask.set id (decide (count = 0))).getD j false =
      decide ((g.sendReaderCounts.set id count).getD j 0 = 0)
    have hold := h.mask_eq j hj'
    by_cases hji : id = j
    · subst hji
      by_cases hlt : id < g.eventCount
      · rw [getD_eq_getElem?_getD, getElem?_set_self (by rw [h.mask_length]; exact hlt),
          getD_eq_getElem?_getD, getElem?_set_self (by rw [h.counts_length]; exact hlt)]
        rfl
      · unfold isSendId at hj'
        rw [label?_of_ge g (by omega)] at hj'
        cases hj'
    · rw [getD_eq_getElem?_getD, getElem?_set_ne hji, getD_eq_getElem?_getD,
        getElem?_set_ne hji]
      rwa [getD_eq_getElem?_getD, getD_eq_getElem?_getD] at hold

variable {g' : ExplorationGraph V}

theorem Sound.adjustSendReaderCount (h : g.Sound) {add : Bool} (heq : g.adjustSendReaderCount source add = .ok g') :
    g'.Sound := by
  rw [adjustSendReaderCount_eq] at heq
  split at heq
  · cases heq
    exact h
  · split at heq
    · cases heq
    · cases heq
      exact h.setReaders _ _

theorem adjust_add_remove (h : g.Sound) (heq : g.adjustSendReaderCount source true = .ok g') :
    g'.adjustSendReaderCount source false = .ok g := by
  rw [adjustSendReaderCount_eq] at heq ⊢
  cases ht : g.readerTarget source with
  | none =>
    rw [ht] at heq
    cases heq
    rw [ht]
  | some id =>
    obtain ⟨_, hsend, hlt, _⟩ := readerTarget_some g ht
    rw [ht] at heq
    simp only [Bool.not_true, Bool.false_and, Bool.false_eq_true, if_false, if_true] at heq
    cases heq
    rw [readerTarget_setReaders, ht]
    simp only [readers_setReaders_self _ hlt, setReaders_setReaders, Nat.add_sub_cancel]
    rw [if_neg (by simp), if_neg (by simp), setReaders_readers h hsend]

theorem adjust_remove_add (h : g.Sound) (heq : g.adjustSendReaderCount source false = .ok g') :
    g'.adjustSendReaderCount source true = .ok g := by
  rw [adjustSendReaderCount_eq] at heq ⊢
  cases ht : g.readerTarget source with
  | none =>
    rw [ht] at heq
    cases heq
    rw [ht]
  | some id =>
    obtain ⟨_, hsend, hlt, _⟩ := readerTarget_some g ht
    rw [ht] at heq
    simp only [Bool.not_false, Bool.true_and, decide_eq_true_eq, Bool.false_eq_true, if_false] at heq
    split at heq
    · cases heq
    · rename_i hpos
      cases heq
      rw [readerTarget_setReaders, ht]
      simp only [readers_setReaders_self _ hlt, setReaders_setReaders, Bool.not_true,
        Bool.false_and, Bool.false_eq_true, if_false, if_true]
      rw [show g.readers id - 1 + 1 = g.readers id by omega, setReaders_readers h hsend]

/-! The reader counts do not depend on the relation itself or on the metadata. -/

def withReadsFrom (g : ExplorationGraph V) (rf : ReadsFromRelation) : ExplorationGraph V :=
  { g with graph := { g.graph with readsFrom := rf } }

theorem Sound.withReadsFrom (h : g.Sound) (rf : ReadsFromRelation) : (g.withReadsFrom rf).Sound :=
  ⟨h.indices, h.counts_length, h.mask_length, h.mask_eq⟩

/-- What leaves the counts and the kinds of the events alone commutes with counting. -/
theorem adjust_map {source : Option ReadsFromSource} (f : ExplorationGraph V → ExplorationGraph V)
    (htarget : (f g).readerTarget source = g.readerTarget source)
    (hreaders : ∀ id, g.readerTarget source = some id → (f g).readers id = g.readers id ∧
      ∀ count, (f g).setReaders id count = f (g.setReaders id count)) (add : Bool) :
    (f g).adjustSendReaderCount source add = (g.adjustSendReaderCount source add).map f := by
  rw [adjustSendReaderCount_eq, adjustSendReaderCount_eq, htarget]
  cases ht : g.readerTarget source with
  | none => rfl
  | some id =>
    simp only [(hreaders id ht).1, (hreaders id ht).2]
    split <;> rfl

theorem updateSendReaderState_map {previous next : Option ReadsFromSource}
    (f : ExplorationGraph V → ExplorationGraph V)
    (hprevious : (f g).adjustSendReaderCount previous false = (g.adjustSendReaderCount previous false).map f)
    (hnext : ∀ a, g.adjustSendReaderCount previous false = .ok a →
      (f a).adjustSendReaderCount next true = (a.adjustSendReaderCount next true).map f) :
    (f g).updateSendReaderState previous next = (g.updateSendReaderState previous next).map f := by
  unfold updateSendReaderState
  rw [hprevious]
  cases ha : g.adjustSendReaderCount previous false with
  | error e => rfl
  | ok a => exact hnext a ha

theorem adjust_withReadsFrom (g : ExplorationGraph V) (rf : ReadsFromRelation)
    (source : Option ReadsFromSource) (add : Bool) :
    (g.withReadsFrom rf).adjustSendReaderCount source add =
      (g.adjustSendReaderCount source add).map (fun g' => g'.withReadsFrom rf) :=
  adjust_map (fun g' => g'.withReadsFrom rf) rfl (fun _ _ => ⟨rfl, fun _ => rfl⟩) add

theorem updateSendReaderState_withReadsFrom (g : ExplorationGraph V) (rf : ReadsFromRelation)
    (previous next : Option ReadsFromSource) :
    (g.withReadsFrom rf).updateSendReaderState previous next =
      (g.updateSendReaderState previous next).map (fun g' => g'.withReadsFrom rf) :=
  updateSendReaderState_map (fun g' => g'.withReadsFrom rf) (adjust_withReadsFrom g rf previous false)
    fun a _ => adjust_withReadsFrom a rf next true

theorem adjust_withMetadata (g : ExplorationGraph V) (known : Bool) (pending : Option ℕ)
    (source : Option ReadsFromSource) (add : Bool) :
    (g.withMetadata known pending).adjustSendReaderCount source add =
      (g.adjustSendReaderCount source add).map (fun g' => g'.withMetadata known pending) :=
  adjust_map (fun g' => g'.withMetadata known pending) rfl (fun _ _ => ⟨rfl, fun _ => rfl⟩) add

theorem updateSendReaderState_withMetadata (g : ExplorationGraph V) (known : Bool)
    (pending : Option ℕ) (previous next : Option ReadsFromSource) :
    (g.withMetadata known pending).updateSendReaderState previous next =
      (g.updateSendReaderState previous next).map (fun g' => g'.withMetadata known pending) :=
  updateSendReaderState_map (fun g' => g'.withMetadata known pending) (adjust_withMetadata g known pending previous false)
    fun a _ => adjust_withMetadata a known pending next true

/-- No entry names the id that the next event gets. -/
def NextUnnamed (g : ExplorationGraph V) : Prop :=
  ∀ receiveId, g.graph.readsFrom.find receiveId ≠ some (.send g.eventCount)

end ExplorationGraph

/-! ## Undoing one step -/

namespace WorkerGraph
variable {V : Type}

variable {g : ExplorationGraph V}

theorem rollbackLastEvent_appended (h : g.Sound) {thread index : ℕ}
    (label : EventLabel V) (hnext : g.graph.nextEventIndex thread = .ok index) :
    (g.appended thread index label).graph.rollbackLastEvent g.eventCount thread index
      (g.graph.nextEventIndexByThread thread) = .ok g.graph := by
  obtain ⟨_, hused, _⟩ := nextEventIndex_eq h hnext
  unfold ExecutionGraph.rollbackLastEvent
  rw [appended_events, getLast?_append_of_ne_nil _ (by simp)]
  have hid : ¬ g.eventCount ≠ (g.graph.events ++ [(⟨thread, index, label⟩ : Event V)]).length - 1 := by
    rw [length_append]
    exact fun hne => hne rfl
  have husedNow : (g.appended thread index label).graph.usedEventIndicesByThread thread =
      (UsedEventIndexSet.mk index []).insert index := by
    show update _ _ _ thread = _
    rw [update_self, hused]
  simp only [getLast?_singleton, hid, if_false, ne_eq, not_true_eq_false, or_self, husedNow,
    erase_insert]
  congr 1
  show ExecutionGraph.mk _ _ _ _ = g.graph
  have hnextTable : update (g.appended thread index label).graph.nextEventIndexByThread thread
      (g.graph.nextEventIndexByThread thread) = g.graph.nextEventIndexByThread := by
    show update (update _ _ _) _ _ = _
    rw [update_idem, update_eq_self]
  have husedTable : update (g.appended thread index label).graph.usedEventIndicesByThread thread
      ⟨index, []⟩ = g.graph.usedEventIndicesByThread := by
    show update (update _ _ _) _ _ = _
    rw [update_idem, ← hused, update_eq_self]
  rw [hnextTable, husedTable, dropLast_concat]
  rfl

variable {w : WorkerGraph V}

theorem undoLastEventAppend_appended (h : w.graph.Sound) {thread index : ℕ}
    (label : EventLabel V) (hnext : w.graph.graph.nextEventIndex thread = .ok index) :
    (w.appended thread index label).undoLastEventAppend =
      .ok (w.withMetadata w.graph.knownAcyclic
        (w.appended thread index label).graph.pendingFreshReceiveId) := by
  have hevent : (w.graph.appended thread index label).event w.graph.eventCount =
      .ok ⟨thread, index, label⟩ := by
    unfold event ExecutionGraph.event eventCount
    rw [appended_events, getElem?_concat_length]
  have hlength : (w.graph.appended thread index label).events.length - 1 = w.graph.eventCount := by
    show (w.graph.graph.events ++ [_]).length - 1 = _
    rw [length_append]
    rfl
  have hgraph := rollbackLastEvent_appended h label hnext
  have hthread : (w.graph.appended thread index label).threadEventIds thread =
      w.graph.threadEventIds thread ++ [w.graph.eventCount] := update_self _ _ _
  have hcounts := appended_counts h thread index label
  have hmask := appended_mask h thread index label
  have hstate : update (w.graph.appended thread index label).threadState thread
      (w.graph.threadState thread) = w.graph.threadState := by
    show update (update _ _ _) _ _ = _
    rw [update_idem, update_eq_self]
  have hids : update (w.graph.appended thread index label).threadEventIds thread
      (w.graph.threadEventIds thread) = w.graph.threadEventIds := by
    show update (update _ _ _) _ _ = _
    rw [update_idem, update_eq_self]
  have hreceive : label.isReceive = true →
      (w.graph.appended thread index label).receiveEventIdsByThread = update
        w.graph.receiveEventIdsByThread thread
        (w.graph.receiveEventIdsByThread thread ++ [w.graph.eventCount]) := by
    intro hr
    show (if label.isReceive then _ else _) = _
    rw [if_pos hr]
  have hsend : label.isSend = true → (w.graph.appended thread index label).sendEventIds =
      w.graph.sendEventIds ++ [w.graph.eventCount] := by
    intro hs
    show (if label.isSend then _ else _) = _
    rw [if_pos hs]
  have hreceiveTable : (if label.isReceive then
      update (w.graph.appended thread index label).receiveEventIdsByThread thread
        ((w.graph.appended thread index label).receiveEventIdsByThread thread).dropLast
      else (w.graph.appended thread index label).receiveEventIdsByThread) =
      w.graph.receiveEventIdsByThread := by
    by_cases hr : label.isReceive = true
    · rw [if_pos hr, hreceive hr, update_self, dropLast_concat, update_idem,
        update_eq_self]
    · rw [if_neg hr]
      exact if_neg hr
  have hsendTable : (if label.isSend then (w.graph.appended thread index label).sendEventIds.dropLast
      else (w.graph.appended thread index label).sendEventIds) = w.graph.sendEventIds := by
    by_cases hs : label.isSend = true
    · rw [if_pos hs, hsend hs, dropLast_concat]
    · rw [if_neg hs]
      exact if_neg hs
  have hcheck : checkTailCaches (w.graph.appended thread index label)
      ⟨w.graph.eventCount, thread, index, w.graph.threadState thread,
        w.graph.graph.nextEventIndexByThread thread⟩ ⟨thread, index, label⟩ = .ok () := by
    unfold checkTailCaches
    rw [if_neg (by simp [hthread]), if_neg, if_neg (by simp [hcounts, hmask]), if_neg, if_neg]
    · rintro ⟨_, hne⟩
      exact hne (by rw [hcounts, getLast?_concat])
    · rintro ⟨hs, hne⟩
      exact hne (by rw [hsend hs, getLast?_concat])
    · rintro ⟨hr, hne⟩
      exact hne (by rw [hreceive hr, update_self, getLast?_concat])
  unfold undoLastEventAppend
  simp only [appended, hevent, hlength, hgraph, hcheck, hthread, hcounts, hmask, hstate, hids,
    hreceiveTable, hsendTable, dropLast_concat, bind, Except.bind, pure, Except.pure, ne_eq,
    not_true_eq_false, if_false]
  rfl

theorem updateAcyclicity_eq_withMetadata (g : ExplorationGraph V) (recv : ℕ) (source : ReadsFromSource) :
    ∃ known pending, g.updateAcyclicityAfterRfAssignment recv source = g.withMetadata known pending := by
  unfold updateAcyclicityAfterRfAssignment
  split
  · exact ⟨false, none, rfl⟩
  · cases source with
    | bottom => exact ⟨g.knownAcyclic, none, rfl⟩
    | send id =>
      dsimp only
      split
      · exact ⟨false, none, rfl⟩
      · exact ⟨g.knownAcyclic, none, rfl⟩

variable {g' : ExplorationGraph V} {recv : ℕ} {source : ReadsFromSource}

theorem assignReadsFrom_inv (h : g.assignReadsFrom recv source = .ok g') :
    ∃ a b known pending, g.adjustSendReaderCount (g.readsFrom.find recv) false = .ok a ∧
      a.adjustSendReaderCount (some source) true = .ok b ∧
      g' = (b.withReadsFrom (g.readsFrom.set recv source)).withMetadata known pending := by
  unfold assignReadsFrom at h
  obtain ⟨rf, hrf, h⟩ := Except.bind_ok_iff.mp h
  obtain ⟨counted, hcounted, h⟩ := Except.bind_ok_iff.mp h
  have hrf' := ReadsFromRelation.assign_inv hrf
  change (g.withReadsFrom rf).updateSendReaderState _ _ = .ok counted at hcounted
  rw [updateSendReaderState_withReadsFrom] at hcounted
  obtain ⟨b, hb, rfl⟩ := (Except.map_ok_iff _ _ _).mp hcounted
  obtain ⟨a, ha, hb⟩ := Except.bind_ok_iff.mp hb
  obtain ⟨known, pending, hmeta⟩ := updateAcyclicity_eq_withMetadata (b.withReadsFrom rf) recv source
  cases h
  exact ⟨a, b, known, pending, ha, hb, by rw [← hrf', ← hmeta]⟩

/-- The relation `rollbackReadsFrom` leaves behind. -/
def restoredReadsFrom (rf : ReadsFromRelation) (receiveId : ℕ) :
    Option ReadsFromSource → ReadsFromRelation
  | some source => rf.set receiveId source
  | none => rf.clear receiveId

theorem find_restoredReadsFrom (rf : ReadsFromRelation) (recv j : ℕ) (previous : Option ReadsFromSource) :
    (restoredReadsFrom rf recv previous).find j = if j = recv then previous else rf.find j := by
  cases previous with
  | none => exact AscendingMap.find_clear rf recv j
  | some source => exact AscendingMap.find_set rf recv j source

theorem rollbackReadsFrom_eq (g : ExecutionGraph V) (recv : ℕ) (previous : Option ReadsFromSource) :
    g.rollbackReadsFrom recv previous =
      { g with readsFrom := restoredReadsFrom g.readsFrom recv previous } := by
  cases previous with
  | none => rfl
  | some source => rfl

theorem restoredReadsFrom_set (rf : ReadsFromRelation) (recv : ℕ) (source : ReadsFromSource) :
    restoredReadsFrom (rf.set recv source) recv (rf.find recv) = rf := by
  refine AscendingMap.ext_find fun j => ?_
  rw [find_restoredReadsFrom]
  split
  · rename_i hj
    rw [hj]
  · rename_i hj
    rw [AscendingMap.find_set, if_neg hj]

theorem undoLastRfAssignment_cons (g : ExplorationGraph V) (events : List EventUndo) (undo : ReadsFromUndo)
    (log : List ReadsFromUndo) : undoLastRfAssignment ⟨g, events, undo :: log⟩ =
      (g.updateSendReaderState (g.readsFrom.find undo.receiveId) undo.previousSource).map (fun b =>
        ⟨b.withReadsFrom (restoredReadsFrom g.graph.readsFrom undo.receiveId undo.previousSource), events, log⟩) := by
  show (updateSendReaderState
    { g with graph := g.graph.rollbackReadsFrom undo.receiveId undo.previousSource } _ _ >>= _) = _
  rw [rollbackReadsFrom_eq]
  show ((g.withReadsFrom _).updateSendReaderState _ _ >>= _) = _
  rw [updateSendReaderState_withReadsFrom]
  cases g.updateSendReaderState (g.readsFrom.find undo.receiveId) undo.previousSource with
  | error e => rfl
  | ok b => rfl

theorem undoLastRfAssignment_setReadsFromSource {w' : WorkerGraph V} (h : w.graph.Sound)
    (hset : w.setReadsFromSource recv source = .ok w') :
    w'.undoLastRfAssignment =
      .ok (w.withMetadata w'.graph.knownAcyclic w'.graph.pendingFreshReceiveId) := by
  obtain ⟨g', hg', rfl⟩ := setReadsFromSource_inv hset
  obtain ⟨a, b, known, pending, ha, hb, rfl⟩ := assignReadsFrom_inv hg'
  have hback : b.updateSendReaderState (some source) (w.graph.readsFrom.find recv) = .ok w.graph :=
    Except.bind_ok_iff.mpr ⟨a, adjust_add_remove (h.adjustSendReaderCount ha) hb, adjust_remove_add h ha⟩
  have hfind : (w.graph.readsFrom.set recv source).find recv = some source := by
    rw [AscendingMap.find_set, if_pos rfl]
  rw [undoLastRfAssignment_cons, updateSendReaderState_withMetadata, updateSendReaderState_withReadsFrom]
  show ((b.updateSendReaderState ((w.graph.readsFrom.set recv source).find recv) _).map _ |>.map _ |>.map _) = _
  rw [hfind, hback]
  show Except.ok (⟨(w.graph.withMetadata known pending).withReadsFrom
    (restoredReadsFrom (w.graph.readsFrom.set recv source) recv (w.graph.readsFrom.find recv)), _, _⟩ :
      WorkerGraph V) = _
  rw [restoredReadsFrom_set]
  rfl

/-! ## Rollback and the metadata -/

theorem undoLastRfAssignment_withMetadata (w : WorkerGraph V) (known : Bool) (pending : Option ℕ) :
    (w.withMetadata known pending).undoLastRfAssignment =
      w.undoLastRfAssignment.map (fun u => u.withMetadata known pending) := by
  obtain ⟨g, events, rfs⟩ := w
  cases rfs with
  | nil => rfl
  | cons undo log =>
    show undoLastRfAssignment ⟨g.withMetadata known pending, events, undo :: log⟩ = _
    rw [undoLastRfAssignment_cons, undoLastRfAssignment_cons, updateSendReaderState_withMetadata]
    show Except.map _ (Except.map _ (g.updateSendReaderState (g.readsFrom.find undo.receiveId) _)) = _
    cases g.updateSendReaderState (g.readsFrom.find undo.receiveId) undo.previousSource with
    | error e => rfl
    | ok b => rfl

theorem undoLastEventAppend_withMetadata (w : WorkerGraph V) (known : Bool) (pending : Option ℕ) :
    (w.withMetadata known pending).undoLastEventAppend =
      w.undoLastEventAppend.map (fun u => u.withMetadata known pending) := by
  obtain ⟨g, events, rfs⟩ := w
  cases events with
  | nil => rfl
  | cons undo log =>
    unfold undoLastEventAppend
    have hevent : (g.withMetadata known pending).event undo.eventId = g.event undo.eventId := rfl
    have hlength : (g.withMetadata known pending).events.length = g.events.length := rfl
    have hgraph : (g.withMetadata known pending).graph = g.graph := rfl
    have hcheck : ∀ tail, checkTailCaches (g.withMetadata known pending) undo tail =
        checkTailCaches g undo tail := fun _ => rfl
    simp only [withMetadata, hevent, hlength, hgraph, hcheck, bind, Except.bind, pure, Except.pure]
    cases g.event undo.eventId with
    | error e => rfl
    | ok tail =>
      dsimp only
      split
      · rfl
      · cases g.graph.rollbackLastEvent undo.eventId undo.thread undo.eventIndex
          undo.previousNextEventIndex with
        | error e => rfl
        | ok graph =>
          dsimp only
          cases checkTailCaches g undo tail with
          | error | ok => rfl

theorem undoRfAssignments_withMetadata (n : ℕ) (w : WorkerGraph V) (known : Bool) (pending : Option ℕ) :
    undoRfAssignments n (w.withMetadata known pending) =
      (undoRfAssignments n w).map (fun u => u.withMetadata known pending) := by
  induction n generalizing w with
  | zero => rfl
  | succ n ih =>
    unfold undoRfAssignments
    rw [undoLastRfAssignment_withMetadata]
    cases w.undoLastRfAssignment with
    | error e => rfl
    | ok u => exact ih u

theorem undoEventAppends_withMetadata (n : ℕ) (w : WorkerGraph V) (known : Bool) (pending : Option ℕ) :
    undoEventAppends n (w.withMetadata known pending) =
      (undoEventAppends n w).map (fun u => u.withMetadata known pending) := by
  induction n generalizing w with
  | zero => rfl
  | succ n ih =>
    unfold undoEventAppends
    rw [undoLastEventAppend_withMetadata]
    cases w.undoLastEventAppend with
    | error e => rfl
    | ok u => exact ih u

/-- The undos of a rollback, before the checkpoint's metadata is put back. -/
def undoTo (w : WorkerGraph V) (cp : Checkpoint) : Except DporError (WorkerGraph V) := do
  let u ← undoRfAssignments (w.rfUndoLog.length - cp.rfUndoSize) w
  undoEventAppends (u.eventUndoLog.length - cp.eventUndoSize) u

theorem rollback_eq (w : WorkerGraph V) (cp : Checkpoint) :
    w.rollback cp =
      if w.eventUndoLog.length < cp.eventUndoSize ∨ w.rfUndoLog.length < cp.rfUndoSize then
        .error (.preconditionError "checkpoint does not belong to the current graph state")
      else (w.undoTo cp).map (fun u => u.withMetadata cp.knownAcyclic cp.pendingFreshReceiveId) := by
  unfold rollback undoTo
  split
  · rfl
  · cases undoRfAssignments (w.rfUndoLog.length - cp.rfUndoSize) w with
    | error e => rfl
    | ok u =>
      show (do
        let v ← undoEventAppends (u.eventUndoLog.length - cp.eventUndoSize) u
        _) = (undoEventAppends (u.eventUndoLog.length - cp.eventUndoSize) u).map _
      cases undoEventAppends (u.eventUndoLog.length - cp.eventUndoSize) u with
      | error e => rfl
      | ok v => rfl

theorem undoTo_withMetadata (w : WorkerGraph V) (cp : Checkpoint) (known : Bool) (pending : Option ℕ) :
    (w.withMetadata known pending).undoTo cp =
      (w.undoTo cp).map (fun u => u.withMetadata known pending) := by
  unfold undoTo
  show (do
    let u ← undoRfAssignments (w.rfUndoLog.length - cp.rfUndoSize) (w.withMetadata known pending)
    _) = _
  rw [undoRfAssignments_withMetadata]
  cases undoRfAssignments (w.rfUndoLog.length - cp.rfUndoSize) w with
  | error e => rfl
  | ok u => exact undoEventAppends_withMetadata _ u known pending

theorem rollback_withMetadata (w : WorkerGraph V) (cp : Checkpoint) (known : Bool)
    (pending : Option ℕ) : (w.withMetadata known pending).rollback cp = w.rollback cp := by
  rw [rollback_eq, rollback_eq, undoTo_withMetadata]
  show (if w.eventUndoLog.length < cp.eventUndoSize ∨ w.rfUndoLog.length < cp.rfUndoSize then _ else _) = _
  split
  · rfl
  · cases w.undoTo cp with
    | error e => rfl
    | ok u => rfl

/-! ## Rollback after the explorer's mutations -/

theorem rollback_checkpoint (w : WorkerGraph V) : w.rollback w.checkpoint = .ok w := by
  rw [rollback_eq, if_neg (by simp [checkpoint])]
  unfold undoTo checkpoint
  simp only [Nat.sub_self]
  show (undoEventAppends (w.eventUndoLog.length - w.eventUndoLog.length) w).map _ = _
  rw [Nat.sub_self]
  rfl

theorem rollback_appended (w : WorkerGraph V) (h : w.graph.Sound) {thread index : ℕ}
    (label : EventLabel V) (hnext : w.graph.graph.nextEventIndex thread = .ok index) :
    (w.appended thread index label).rollback w.checkpoint = .ok w := by
  have hone : w.eventUndoLog.length + 1 - w.eventUndoLog.length = 1 := by omega
  rw [rollback_eq, if_neg (by simp [checkpoint, appended])]
  have hundo : (w.appended thread index label).undoTo w.checkpoint =
      (w.appended thread index label).undoLastEventAppend := by
    unfold undoTo
    show (do
      let u ← undoRfAssignments (w.rfUndoLog.length - w.rfUndoLog.length) (w.appended thread index label)
      undoEventAppends (u.eventUndoLog.length - w.eventUndoLog.length) u) = _
    rw [Nat.sub_self]
    show undoEventAppends (w.eventUndoLog.length + 1 - w.eventUndoLog.length)
      (w.appended thread index label) = _
    rw [hone]
    unfold undoEventAppends
    cases (w.appended thread index label).undoLastEventAppend with
    | error e => rfl
    | ok u => rfl
  rw [hundo, undoLastEventAppend_appended h label hnext]
  rfl

theorem rollback_setReadsFromSource_older {w' w₀ : WorkerGraph V} (h : w.graph.Sound)
    (hset : w.setReadsFromSource recv source = .ok w') {cp : Checkpoint}
    (hroll : w.rollback cp = .ok w₀) : w'.rollback cp = .ok w₀ := by
  have hundo := undoLastRfAssignment_setReadsFromSource h hset
  have hlogs : w'.eventUndoLog = w.eventUndoLog ∧ w'.rfUndoLog.length = w.rfUndoLog.length + 1 := by
    obtain ⟨g', _, rfl⟩ := setReadsFromSource_inv hset
    exact ⟨rfl, rfl⟩
  rw [rollback_eq] at hroll ⊢
  split at hroll
  · cases hroll
  · rename_i hsizes
    have hle : cp.rfUndoSize ≤ w.rfUndoLog.length := Nat.le_of_not_lt fun hc => hsizes (.inr hc)
    rw [hlogs.1, hlogs.2, if_neg fun hc => hsizes (hc.imp id (by omega))]
    have hto : w'.undoTo cp =
        (w.withMetadata w'.graph.knownAcyclic w'.graph.pendingFreshReceiveId).undoTo cp := by
      unfold undoTo
      rw [hlogs.2, Nat.succ_sub hle]
      conv_lhs => unfold undoRfAssignments
      rw [hundo]
      rfl
    rw [hto, undoTo_withMetadata]
    obtain ⟨u, hu, rfl⟩ := (Except.map_ok_iff _ _ _).mp hroll
    rw [hu]
    rfl

theorem rollback_appended_setReadsFromSource (w w' : WorkerGraph V) (h : w.graph.Sound)
    {thread index : ℕ} {label : EventLabel V} (hnext : w.graph.graph.nextEventIndex thread = .ok index)
    (hset : (w.appended thread index label).setReadsFromSource recv source = .ok w') :
    w'.rollback w.checkpoint = .ok w :=
  rollback_setReadsFromSource_older (h.appended label hnext)
    hset (rollback_appended w h label hnext)

/-! ## A trailing event on top of older history

An event commutes with the rf undos below it unless it is a send that they name, so rolling back
to an older checkpoint gives the same graph with and without it. -/

/-- No entry, and none of the `n` newest rf undo records, names the id that the next event gets. -/
def NextUnnamed (w : WorkerGraph V) (n : ℕ) : Prop :=
  w.graph.NextUnnamed ∧
    ∀ record ∈ w.rfUndoLog.take n, record.previousSource ≠ some (.send w.graph.eventCount)

section Trailing
variable (thread index : ℕ) (label : EventLabel V)

theorem adjust_cases {source : Option ReadsFromSource} {add : Bool}
    (h : g.adjustSendReaderCount source add = .ok g') : g' = g ∨ ∃ id count, g' = g.setReaders id count := by
  rw [adjustSendReaderCount_eq] at h
  split at h
  · cases h
    exact .inl rfl
  · split at h
    · cases h
    · cases h
      exact .inr ⟨_, _, rfl⟩

theorem readerTarget_appended (h : g.Sound) {source : Option ReadsFromSource}
    (hsend : label.isSend = true → source ≠ some (.send g.eventCount)) :
    (g.appended thread index label).readerTarget source = g.readerTarget source := by
  rcases source with _ | _ | id
  · rfl
  · rfl
  · have hcounts : id < (g.appended thread index label).sendReaderCounts.length ↔ id < g.eventCount + 1 := by
      rw [appended_counts h, length_append, h.counts_length]
      rfl
    have hmask : id < (g.appended thread index label).unreadSendMask.length ↔ id < g.eventCount + 1 := by
      rw [appended_mask h, length_append, h.mask_length]
      rfl
    simp only [readerTarget, hcounts, hmask, h.counts_length, h.mask_length]
    rcases lt_trichotomy id g.eventCount with hlt | heq | hgt
    · have hid : (g.appended thread index label).isSendId id = g.isSendId id := by
        unfold isSendId
        rw [label?_appended_of_lt thread index label hlt]
      rw [hid]
      simp [hlt, Nat.lt_succ_of_lt hlt]
    · subst heq
      have hid : (g.appended thread index label).isSendId g.eventCount = false := by
        unfold isSendId
        rw [label?_appended_self]
        by_contra hlabel
        exact hsend (by simpa using hlabel) rfl
      simp [hid]
    · have h1 : ¬ id < g.eventCount + 1 := by omega
      have h2 : ¬ id < g.eventCount := by omega
      simp [h1, h2]

theorem appended_setReaders (h : g.Sound) (id count : ℕ) (hid : id < g.eventCount) :
    (g.appended thread index label).setReaders id count =
      (g.setReaders id count).appended thread index label := by
  have hs := h.setReaders id count
  have hcounts := appended_counts hs thread index label
  have hmask := appended_mask hs thread index label
  have hcounts' := appended_counts h thread index label
  have hmask' := appended_mask h thread index label
  have e1 : (g.appended thread index label).sendReaderCounts.set id count =
      ((g.setReaders id count).appended thread index label).sendReaderCounts := by
    rw [hcounts, hcounts', set_append_left _ _ (by rw [h.counts_length]; exact hid)]
    rfl
  have e2 : (g.appended thread index label).unreadSendMask.set id (decide (count = 0)) =
      ((g.setReaders id count).appended thread index label).unreadSendMask := by
    rw [hmask, hmask', set_append_left _ _ (by rw [h.mask_length]; exact hid)]
    rfl
  unfold setReaders at e1 e2 ⊢
  rw [e1, e2]
  rfl

theorem adjust_appended (h : g.Sound) {source : Option ReadsFromSource}
    (add : Bool) (hsend : label.isSend = true → source ≠ some (.send g.eventCount)) :
    (g.appended thread index label).adjustSendReaderCount source add =
      (g.adjustSendReaderCount source add).map (fun g' => g'.appended thread index label) := by
  refine adjust_map (fun g' => g'.appended thread index label) (readerTarget_appended thread index label h hsend)
    (fun id ht => ?_) add
  obtain ⟨_, _, hlt, _⟩ := readerTarget_some g ht
  refine ⟨?_, fun count => appended_setReaders thread index label h _ _ (by rwa [h.counts_length] at hlt)⟩
  unfold readers
  rw [appended_counts h, getD_append _ _ _ _ hlt]

/-- What an rf undo leaves alone. -/
structure SameEvents (w u : WorkerGraph V) : Prop where
  events : u.graph.graph.events = w.graph.graph.events
  next : u.graph.graph.nextEventIndexByThread = w.graph.graph.nextEventIndexByThread
  used : u.graph.graph.usedEventIndicesByThread = w.graph.graph.usedEventIndicesByThread
  threadState : u.graph.threadState = w.graph.threadState
  log : u.eventUndoLog = w.eventUndoLog

theorem adjust_same {source : Option ReadsFromSource} {add : Bool} (h : g.adjustSendReaderCount source add = .ok g') :
    g'.graph = g.graph ∧ g'.threadState = g.threadState := by
  rcases adjust_cases h with rfl | ⟨id, count, rfl⟩
  · exact ⟨rfl, rfl⟩
  · exact ⟨rfl, rfl⟩

variable {u : WorkerGraph V}

theorem undoLastRfAssignment_inv (h : w.undoLastRfAssignment = .ok u) :
    ∃ undo log a b, w.rfUndoLog = undo :: log ∧
      w.graph.adjustSendReaderCount (w.graph.readsFrom.find undo.receiveId) false = .ok a ∧
      a.adjustSendReaderCount undo.previousSource true = .ok b ∧
      u = ⟨b.withReadsFrom (restoredReadsFrom w.graph.graph.readsFrom undo.receiveId undo.previousSource),
        w.eventUndoLog, log⟩ := by
  obtain ⟨g, events, rfs⟩ := w
  cases rfs with
  | nil => cases h
  | cons undo log =>
    rw [undoLastRfAssignment_cons] at h
    obtain ⟨b, hb, rfl⟩ := (Except.map_ok_iff _ _ _).mp h
    obtain ⟨a, ha, hb⟩ := Except.bind_ok_iff.mp hb
    exact ⟨undo, log, a, b, rfl, ha, hb, rfl⟩

theorem updateSendReaderState_same {previous next : Option ReadsFromSource}
    (h : g.updateSendReaderState previous next = .ok g') : g'.graph = g.graph ∧ g'.threadState = g.threadState := by
  obtain ⟨a, ha, hb⟩ := Except.bind_ok_iff.mp h
  exact ⟨(adjust_same hb).1.trans (adjust_same ha).1, (adjust_same hb).2.trans (adjust_same ha).2⟩

theorem undoLastRfAssignment_same (h : w.undoLastRfAssignment = .ok u) :
    SameEvents w u ∧ (w.graph.Sound → u.graph.Sound) := by
  obtain ⟨undo, log, a, b, _, ha, hb, rfl⟩ := undoLastRfAssignment_inv h
  have hcounted : w.graph.updateSendReaderState (w.graph.readsFrom.find undo.receiveId) undo.previousSource = .ok b :=
    Except.bind_ok_iff.mpr ⟨a, ha, hb⟩
  obtain ⟨hgraph, hstate⟩ := updateSendReaderState_same hcounted
  refine ⟨⟨?_, ?_, ?_, hstate, rfl⟩, fun hs =>
    ((hs.adjustSendReaderCount ha).adjustSendReaderCount hb).withReadsFrom _⟩
  · show b.graph.events = _
    rw [hgraph]
  · show b.graph.nextEventIndexByThread = _
    rw [hgraph]
  · show b.graph.usedEventIndicesByThread = _
    rw [hgraph]

theorem undoLastRfAssignment_appended (h : w.graph.Sound) {n : ℕ}
    (hsend : label.isSend = true → w.NextUnnamed (n + 1)) :
    (w.appended thread index label).undoLastRfAssignment =
      w.undoLastRfAssignment.map (fun u => u.appended thread index label) := by
  obtain ⟨g, events, rfs⟩ := w
  cases rfs with
  | nil => rfl
  | cons undo log =>
    have hcounted : (g.appended thread index label).updateSendReaderState
        (g.readsFrom.find undo.receiveId) undo.previousSource = (g.updateSendReaderState
          (g.readsFrom.find undo.receiveId) undo.previousSource).map (fun g' => g'.appended thread index label) := by
      refine updateSendReaderState_map (fun g' => g'.appended thread index label)
        (adjust_appended thread index label h _ fun hl => (hsend hl).1 undo.receiveId) fun a ha => ?_
      refine adjust_appended thread index label (h.adjustSendReaderCount ha) _ fun hl => ?_
      unfold eventCount
      rw [(adjust_same ha).1]
      exact (hsend hl).2 undo mem_cons_self
    unfold WorkerGraph.appended
    rw [undoLastRfAssignment_cons, undoLastRfAssignment_cons]
    show Except.map _ ((g.appended thread index label).updateSendReaderState
      (g.readsFrom.find undo.receiveId) undo.previousSource) = _
    rw [hcounted]
    cases hb : g.updateSendReaderState (g.readsFrom.find undo.receiveId) undo.previousSource with
    | error e => rfl
    | ok b =>
      obtain ⟨hgraph, hstate⟩ := updateSendReaderState_same hb
      have hrecord : (⟨g.eventCount, thread, index, g.threadState thread, g.graph.nextEventIndexByThread thread⟩ :
          EventUndo) = ⟨b.eventCount, thread, index, b.threadState thread, b.graph.nextEventIndexByThread thread⟩ := by
        unfold eventCount
        rw [hgraph, hstate]
      dsimp only
      rw [hrecord]
      rfl

theorem NextUnnamed.undo {n : ℕ} (h : w.NextUnnamed (n + 1))
    (hundo : w.undoLastRfAssignment = .ok u) : u.NextUnnamed n := by
  obtain ⟨undo, log, a, b, hlog, ha, hb, rfl⟩ := undoLastRfAssignment_inv hundo
  have hcount : b.eventCount = w.graph.eventCount := by
    unfold eventCount
    rw [(adjust_same hb).1, (adjust_same ha).1]
  have hrecords := h.2
  rw [hlog, take_succ_cons] at hrecords
  constructor
  · intro recv
    show (restoredReadsFrom w.graph.graph.readsFrom undo.receiveId undo.previousSource).find recv ≠
      some (.send b.eventCount)
    rw [hcount, find_restoredReadsFrom]
    split
    · exact hrecords undo mem_cons_self
    · exact h.1 recv
  · intro record hrecord
    show record.previousSource ≠ some (.send b.eventCount)
    rw [hcount]
    exact hrecords record (mem_cons_of_mem _ hrecord)

theorem undoRfAssignments_appended (n : ℕ) (w : WorkerGraph V) (h : w.graph.Sound)
    (hsend : label.isSend = true → w.NextUnnamed n) :
    undoRfAssignments n (w.appended thread index label) =
      (undoRfAssignments n w).map (fun u => u.appended thread index label) := by
  induction n generalizing w with
  | zero => rfl
  | succ n ih =>
    unfold undoRfAssignments
    rw [undoLastRfAssignment_appended thread index label h hsend]
    cases hu : w.undoLastRfAssignment with
    | error e => rfl
    | ok u => exact ih u ((undoLastRfAssignment_same hu).2 h) fun hl => (hsend hl).undo hu

theorem undoRfAssignments_same (n : ℕ) (w u : WorkerGraph V) (h : undoRfAssignments n w = .ok u) :
    SameEvents w u ∧ (w.graph.Sound → u.graph.Sound) := by
  induction n generalizing w with
  | zero =>
    cases h
    exact ⟨⟨rfl, rfl, rfl, rfl, rfl⟩, fun hs => hs⟩
  | succ n ih =>
    obtain ⟨v, hv, h⟩ := Except.bind_ok_iff.mp h
    obtain ⟨hwv, hsv⟩ := undoLastRfAssignment_same hv
    obtain ⟨hvu, hsu⟩ := ih v h
    exact ⟨⟨hvu.events.trans hwv.events, hvu.next.trans hwv.next, hvu.used.trans hwv.used,
      hvu.threadState.trans hwv.threadState, hvu.log.trans hwv.log⟩, fun hs => hsu (hsv hs)⟩

theorem rollback_appended_older (w w₀ : WorkerGraph V) (h : w.graph.Sound)
    (hnext : w.graph.graph.nextEventIndex thread = .ok index) (cp : Checkpoint)
    (hsend : label.isSend = true → w.NextUnnamed (w.rfUndoLog.length - cp.rfUndoSize))
    (hroll : w.rollback cp = .ok w₀) : (w.appended thread index label).rollback cp = .ok w₀ := by
  rw [rollback_eq] at hroll ⊢
  split at hroll
  · cases hroll
  · rename_i hsizes
    have hlog : (w.appended thread index label).eventUndoLog.length = w.eventUndoLog.length + 1 := rfl
    rw [if_neg (by rw [hlog]; exact fun hc => hsizes (hc.imp (by omega) id))]
    cases hto : w.undoTo cp with
    | error e =>
      rw [hto] at hroll
      cases hroll
    | ok v =>
      rw [hto] at hroll
      obtain ⟨u, hu, hv⟩ := Except.bind_ok_iff.mp hto
      obtain ⟨hsame, hsound⟩ := undoRfAssignments_same _ w u hu
      have hnextU : u.graph.graph.nextEventIndex thread = .ok index := by
        unfold ExecutionGraph.nextEventIndex at hnext ⊢
        rwa [hsame.next, hsame.used]
      have hto' : (w.appended thread index label).undoTo cp =
          .ok (v.withMetadata u.graph.knownAcyclic
            (u.appended thread index label).graph.pendingFreshReceiveId) := by
        unfold undoTo
        show (do
          let u' ← undoRfAssignments (w.rfUndoLog.length - cp.rfUndoSize) (w.appended thread index label)
          _) = _
        rw [undoRfAssignments_appended thread index label _ w h hsend, hu]
        show undoEventAppends (u.eventUndoLog.length + 1 - cp.eventUndoSize)
          (u.appended thread index label) = _
        have hle : cp.eventUndoSize ≤ u.eventUndoLog.length := by
          rw [hsame.log]
          exact Nat.le_of_not_lt (fun hc => hsizes (.inl hc))
        rw [Nat.succ_sub hle]
        unfold undoEventAppends
        rw [undoLastEventAppend_appended (hsound h) label hnextU]
        show undoEventAppends _ (u.withMetadata _ _) = _
        rw [undoEventAppends_withMetadata, hv]
        rfl
      rw [hto']
      cases hroll
      rfl

end Trailing
end WorkerGraph

/-! ## Graphs built through the public operations -/

namespace ExplorationGraph
variable {V : Type}

theorem empty_sound : (empty : ExplorationGraph V).Sound where
  indices := fun _ => .inl ⟨rfl, Nat.zero_le _⟩
  counts_length := rfl
  mask_length := rfl
  mask_eq := nofun

variable {g g' : ExplorationGraph V}

theorem addEvent_inv {thread id : ℕ} {label : EventLabel V} (h : g.addEvent thread label = .ok (id, g')) :
    ∃ index, g.graph.nextEventIndex thread = .ok index ∧ id = g.eventCount ∧
      g' = g.appended thread index label := by
  rw [addEvent_eq] at h
  cases hnext : g.graph.nextEventIndex thread with
  | error e =>
    rw [hnext] at h
    cases h
  | ok index =>
    rw [hnext] at h
    cases h
    exact ⟨index, rfl, rfl, rfl⟩

theorem Sound.addEvent {g g' : ExplorationGraph V} (hs : g.Sound) {thread id : ℕ}
    {label : EventLabel V} (h : g.addEvent thread label = .ok (id, g')) : g'.Sound := by
  obtain ⟨index, hnext, _, rfl⟩ := addEvent_inv h
  exact hs.appended label hnext

theorem Sound.assignReadsFrom {g g' : ExplorationGraph V} (hs : g.Sound) {recv : ℕ}
    {source : ReadsFromSource} (h : g.assignReadsFrom recv source = .ok g') : g'.Sound := by
  obtain ⟨a, b, known, pending, ha, hb, rfl⟩ := assignReadsFrom_inv h
  exact (((hs.adjustSendReaderCount ha).adjustSendReaderCount hb).withReadsFrom _).withMetadata _ _

/-! A rebuild is made of appends to the empty graph and rf assignments, so what these keep, it keeps. -/

theorem bulkBuild_keeps (P : ExplorationGraph V → Prop)
    (hadd : ∀ g g' thread id label, P g → g.addEvent thread label = .ok (id, g') → P g')
    (events : List (Event V)) (g g' : ExplorationGraph V) (hg : P g) (h : bulkBuild events g = .ok g') :
    P g' := by
  induction events generalizing g with
  | nil =>
    cases h
    exact hg
  | cons e rest ih =>
    rw [bulkBuild_cons] at h
    obtain ⟨⟨id, a⟩, ha, h⟩ := Except.bind_ok_iff.mp h
    exact ih a (hadd g a e.thread id e.label hg ha) h

theorem remapReadsFrom_keeps (P : ExplorationGraph V → Prop)
    (hset : ∀ g g' recv source, P g → g.assignReadsFrom recv source = .ok g' → P g')
    (mask : List Bool) (entries : List (ℕ × ReadsFromSource)) (g g' : ExplorationGraph V) (hg : P g)
    (h : remapReadsFrom mask entries g = .ok g') : P g' := by
  induction entries generalizing g with
  | nil =>
    cases h
    exact hg
  | cons entry rest ih =>
    obtain ⟨recvId, source⟩ := entry
    unfold remapReadsFrom at h
    split at h
    · cases h
    · split at h
      · exact ih g hg h
      · cases source with
        | bottom =>
          obtain ⟨a, ha, h⟩ := Except.bind_ok_iff.mp h
          exact ih a (hset g a _ _ hg ha) h
        | send sendId =>
          dsimp only at h
          split at h
          · cases h
          · split at h
            · exact ih g hg h
            · obtain ⟨a, ha, h⟩ := Except.bind_ok_iff.mp h
              exact ih a (hset g a _ _ hg ha) h

theorem restrictMasked_inv {mask : List Bool} (h : g.restrictMasked mask = .ok g') :
    mask.length = g.eventCount ∧
      ∃ built remapped, bulkBuild (keptEvents g.events mask) empty = .ok built ∧
        remapReadsFrom mask g.readsFrom.entries built = .ok remapped ∧
        g' = remapped.withMetadata g.knownAcyclic none := by
  unfold restrictMasked at h
  split at h
  · cases h
  · rename_i hlen
    obtain ⟨built, hb, h⟩ := Except.bind_ok_iff.mp h
    obtain ⟨remapped, hr, h⟩ := Except.bind_ok_iff.mp h
    refine ⟨by simpa using hlen, built, remapped, hb, hr, ?_⟩
    cases h
    cases g.knownAcyclic <;> rfl

theorem restrictMasked_sound {mask : List Bool} (h : g.restrictMasked mask = .ok g') : g'.Sound := by
  obtain ⟨_, built, remapped, hb, hr, rfl⟩ := restrictMasked_inv h
  have hbuilt : built.Sound := bulkBuild_keeps Sound
    (fun g g' thread id label hg => hg.addEvent) _ _ _ empty_sound hb
  have hremapped : remapped.Sound := remapReadsFrom_keeps Sound
    (fun g g' recv source hg => hg.assignReadsFrom) _ _ _ _ hbuilt hr
  exact hremapped.withMetadata _ none

theorem copyWithRfSource_inv {recv : ℕ} {source : ReadsFromSource}
    {preserve : Bool} (h : g.copyWithRfSource recv source preserve = .ok g') :
    ∃ copy, g.assignReadsFrom recv source = .ok copy ∧ g' = copy.withMetadata preserve none := by
  obtain ⟨copy, hcopy, h⟩ := Except.bind_ok_iff.mp h
  refine ⟨copy, hcopy, ?_⟩
  cases h
  cases preserve <;> rfl

end ExplorationGraph

namespace WorkerGraph
variable {V : Type}

variable {w w' : WorkerGraph V}

theorem rebindRf_inv {recv send : ℕ} {preserve : Bool} (h : w.rebindRf recv send preserve = .ok w') :
    w.eventUndoLog = [] ∧ w.rfUndoLog = [] ∧
      ∃ a b, w.graph.adjustSendReaderCount (w.graph.readsFrom.find recv) false = .ok a ∧
        a.adjustSendReaderCount (some (.send send)) true = .ok b ∧
        w' = ofGraph ((b.withReadsFrom (w.graph.readsFrom.set recv (.send send))).withMetadata preserve none) := by
  obtain ⟨g, events, rfs⟩ := w
  rw [rebindRf_eq] at h
  split at h
  · cases h
  · rename_i hlogs
    simp only [Bool.or_eq_true, Bool.not_eq_true', isEmpty_eq_false_iff, not_or, not_not] at hlogs
    obtain ⟨rfl, rfl⟩ := hlogs
    obtain ⟨rf, hrf, h⟩ := Except.bind_ok_iff.mp h
    obtain ⟨counted, hc, h⟩ := Except.bind_ok_iff.mp h
    have hrf' := ReadsFromRelation.assign_inv hrf
    change (g.withReadsFrom rf).updateSendReaderState _ _ = .ok counted at hc
    rw [updateSendReaderState_withReadsFrom] at hc
    obtain ⟨b, hb, rfl⟩ := (Except.map_ok_iff _ _ _).mp hc
    obtain ⟨a, ha, hb⟩ := Except.bind_ok_iff.mp hb
    refine ⟨rfl, rfl, a, b, ha, hb, ?_⟩
    cases h
    rw [← hrf']
    cases preserve <;> rfl

theorem rebindRf_sound (hs : w.graph.Sound) {recv send : ℕ}
    {preserve : Bool} (h : w.rebindRf recv send preserve = .ok w') : w'.graph.Sound := by
  obtain ⟨_, _, a, b, ha, hb, rfl⟩ := rebindRf_inv h
  exact (((hs.adjustSendReaderCount ha).adjustSendReaderCount hb).withReadsFrom _).withMetadata _ _

/-- The graphs a caller can build: from the empty graph by the public mutators and copies. Rolling
back such a graph leads to an earlier one. -/
inductive Built : WorkerGraph V → Prop where
  | empty : Built (ofGraph empty)
  | copy (w : WorkerGraph V) : Built w → Built (ofGraph w.graph)
  | addEvent (w w' : WorkerGraph V) (thread id : ℕ) (label : EventLabel V) :
      Built w → w.addEvent thread label = .ok (id, w') → Built w'
  | setReadsFromSource (w w' : WorkerGraph V) (receiveId : ℕ) (source : ReadsFromSource) :
      Built w → w.setReadsFromSource receiveId source = .ok w' → Built w'
  | rebindRf (w w' : WorkerGraph V) (recv send : ℕ) (preserve : Bool) :
      Built w → w.rebindRf recv send preserve = .ok w' → Built w'
  | restrict (w : WorkerGraph V) (g : ExplorationGraph V) (keepMask : List Bool) :
      Built w → w.graph.restrictMasked keepMask = .ok g → Built (ofGraph g)
  | copyWithRfSource (w : WorkerGraph V) (g : ExplorationGraph V) (recv : ℕ)
      (source : ReadsFromSource) (preserve : Bool) :
      Built w → w.graph.copyWithRfSource recv source preserve = .ok g → Built (ofGraph g)
  | withNdValue (w : WorkerGraph V) (g : ExplorationGraph V) (ndEvent : ℕ) (value : V) :
      Built w → w.graph.withNdValue ndEvent value = .ok g → Built (ofGraph g)
  | markKnownAcyclic (w : WorkerGraph V) : Built w → Built w.markKnownAcyclic

theorem addEvent_inv {thread id : ℕ} {label : EventLabel V} (h : w.addEvent thread label = .ok (id, w')) :
    ∃ index, w.graph.graph.nextEventIndex thread = .ok index ∧ id = w.graph.eventCount ∧
      w' = w.appended thread index label := by
  rw [addEvent_eq] at h
  cases hnext : w.graph.graph.nextEventIndex thread with
  | error e =>
    rw [hnext] at h
    cases h
  | ok index =>
    rw [hnext] at h
    cases h
    exact ⟨index, rfl, rfl, rfl⟩

theorem withNdValue_sound {g g' : ExplorationGraph V} (hs : g.Sound) {ndEvent : ℕ} {value : V}
    (h : g.withNdValue ndEvent value = .ok g') : g'.Sound := by
  unfold withNdValue at h
  split at h
  · cases h
  · rename_i evt hevt
    split at h
    · rename_i nd hnd
      cases h
      refine ⟨hs.indices, ?_, ?_, fun id hid => hs.mask_eq id ?_⟩
      · rw [hs.counts_length]
        exact (List.length_set ..).symm
      · rw [hs.mask_length]
        exact (List.length_set ..).symm
      · -- the rewritten event is a choice before and after
        unfold isSendId label? at hid ⊢
        by_cases hi : ndEvent = id
        · subst hi
          dsimp only at hid
          rw [List.getElem?_set_self (List.getElem?_eq_some_iff.mp hevt).1] at hid
          cases hid
        · rwa [List.getElem?_set_ne hi] at hid
    · cases h

theorem Built.sound (w : WorkerGraph V) (h : Built w) : w.graph.Sound := by
  induction h with
  | empty => exact empty_sound
  | copy w _ ih => exact ih
  | addEvent w w' thread id label _ hadd ih =>
    obtain ⟨index, hnext, _, rfl⟩ := addEvent_inv hadd
    exact ih.appended label hnext
  | setReadsFromSource w w' recv source _ hset ih =>
    obtain ⟨g', hg', rfl⟩ := setReadsFromSource_inv hset
    exact ih.assignReadsFrom hg'
  | rebindRf w w' recv send preserve _ hrebind ih => exact rebindRf_sound ih hrebind
  | restrict w g mask _ hg _ => exact restrictMasked_sound hg
  | copyWithRfSource w g recv source preserve _ hg ih =>
    obtain ⟨copy, hcopy, rfl⟩ := copyWithRfSource_inv hg
    exact (ih.assignReadsFrom hcopy).withMetadata preserve none
  | withNdValue w g ndEvent value _ hg ih => exact withNdValue_sound ih hg
  | markKnownAcyclic w _ ih => exact ih.withMetadata true none

end WorkerGraph
end MustDpor

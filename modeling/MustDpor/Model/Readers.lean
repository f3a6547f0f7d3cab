import MustDpor.Model.Tables

/-! # Reader counts and the indexed views

The reader count of a send is adjusted by difference. It is the number of reads-from entries that name
the send (`Counted`) as long as no send is added under an id that an entry already names; then every
indexed view of the graph is what a scan of its events and its reads-from relation gives. -/

namespace MustDpor
set_option autoImplicit false
open List ExplorationGraph ExecutionGraph WorkerGraph

variable {V : Type}

/-! ## Counting readers -/

/-- How many entries read from a send. -/
def ReadsFromRelation.readerCount (rf : ReadsFromRelation) (id : ℕ) : ℕ :=
  rf.entries.countP (fun entry => decide (entry.2 = .send id))

/-- One if the source is this send. -/
def points (source : Option ReadsFromSource) (id : ℕ) : ℕ := if source = some (.send id) then 1 else 0

theorem weight_eq_points (id k : ℕ) (source : Option ReadsFromSource) :
    AscendingMap.weight (fun entry : ℕ × ReadsFromSource => decide (entry.2 = .send id)) k source
      = points source id := by
  unfold AscendingMap.weight points
  cases source with
  | none => rfl
  | some s => simp

variable (rf : ReadsFromRelation)

theorem readerCount_set (recv : ℕ) (source : ReadsFromSource) (id : ℕ) :
    ReadsFromRelation.readerCount (rf.set recv source) id + points (rf.find recv) id
      = rf.readerCount id + points (some source) id := by
  have h := AscendingMap.countP_set (fun entry : ℕ × ReadsFromSource => decide (entry.2 = .send id)) rf
    recv source
  rwa [weight_eq_points, weight_eq_points] at h

theorem readerCount_restored (recv : ℕ) (previous : Option ReadsFromSource) (id : ℕ) :
    ReadsFromRelation.readerCount (WorkerGraph.restoredReadsFrom rf recv previous) id
        + points (rf.find recv) id
      = rf.readerCount id + points previous id := by
  cases previous with
  | some source => exact readerCount_set rf recv source id
  | none =>
    have h := AscendingMap.countP_clear (fun entry : ℕ × ReadsFromSource => decide (entry.2 = .send id)) rf
      recv
    rwa [weight_eq_points] at h

theorem readerCount_eq_zero (id : ℕ) : rf.readerCount id = 0 ↔ ∀ recv, rf.find recv ≠ some (.send id) := by
  unfold ReadsFromRelation.readerCount
  rw [countP_eq_zero]
  constructor
  · intro h recv hfind
    exact h (recv, .send id) (AscendingMap.mem_entries.mpr hfind) (by simp)
  · rintro h ⟨recv, source⟩ hmem hsource
    have hsend : source = .send id := of_decide_eq_true hsource
    refine h recv ?_
    rw [AscendingMap.mem_entries.mp hmem, hsend]

variable {id recv : ℕ} {preserve : Bool}

namespace ExplorationGraph

/-- The count kept for each send is the number of entries that name it. -/
def Counted (g : ExplorationGraph V) : Prop :=
  ∀ id, g.isSendId id = true → g.readers id = g.graph.readsFrom.readerCount id

/-- How a kept count may stand to the true one: exactness is kept along, and both may gain and lose the
same. -/
structure Tally (R : ℕ → ℕ → Prop) : Prop where
  exact : ∀ count, R count count
  balanced : ∀ kept named kept' named' less more, R kept named → kept' + less = kept + more →
    named' + less = named + more → R kept' named'

theorem tally_eq : Tally (· = ·) := ⟨fun _ => rfl, fun _ _ _ _ _ _ h _ _ => by omega⟩

theorem tally_le : Tally (· ≤ ·) := ⟨le_refl, fun _ _ _ _ _ _ h _ _ => by omega⟩

def CountedBy (R : ℕ → ℕ → Prop) (g : ExplorationGraph V) : Prop :=
  ∀ id, g.isSendId id = true → R (g.readers id) (g.graph.readsFrom.readerCount id)

theorem readers_setReaders_ne (g : ExplorationGraph V) (id count j : ℕ) (h : id ≠ j) :
    (g.setReaders id count).readers j = g.readers j := by
  unfold readers setReaders
  rw [getD_eq_getElem?_getD, getElem?_set_ne h, ← getD_eq_getElem?_getD]

theorem readerTarget_of_isSendId {g : ExplorationGraph V} (h : g.Sound)
    (hid : g.isSendId id = true) : g.readerTarget (some (.send id)) = some id := by
  have hlt : id < g.eventCount := by
    by_contra hge
    unfold isSendId at hid
    rw [label?_of_ge g (by omega)] at hid
    cases hid
  unfold readerTarget
  dsimp only
  rw [hid, h.counts_length, h.mask_length]
  simp [hlt]

variable {g' : ExplorationGraph V}

theorem adjust_readers {g : ExplorationGraph V} (h : g.Sound) {source : Option ReadsFromSource}
    {add : Bool} (heq : g.adjustSendReaderCount source add = .ok g') (hid : g.isSendId id = true) :
    g'.readers id + (if add then 0 else points source id)
      = g.readers id + (if add then points source id else 0) := by
  rw [adjustSendReaderCount_eq] at heq
  cases ht : g.readerTarget source with
  | none =>
    rw [ht] at heq
    cases heq
    have hpoints : points source id = 0 := by
      refine if_neg fun hs => ?_
      rw [hs, readerTarget_of_isSendId h hid] at ht
      cases ht
    rw [hpoints]
  | some target =>
    obtain ⟨hsource, _, hlt, _⟩ := g.readerTarget_some ht
    rw [ht] at heq
    dsimp only at heq
    by_cases htarget : target = id
    · subst htarget
      have hpoints : points source target = 1 := if_pos hsource
      rw [hpoints]
      cases add with
      | true =>
        cases heq
        rw [readers_setReaders_self _ hlt]
        rfl
      | false =>
        split at heq
        · cases heq
        · rename_i hready
          cases heq
          rw [readers_setReaders_self _ hlt]
          simp only [Bool.not_false, Bool.true_and, decide_eq_true_eq, not_lt] at hready
          simp only [Bool.false_eq_true, if_false]
          omega
    · have hpoints : points source id = 0 :=
        if_neg fun hs => htarget (ReadsFromSource.send.inj (Option.some.inj (hsource.symm.trans hs)))
      rw [hpoints]
      split at heq
      · cases heq
      · cases heq
        rw [readers_setReaders_ne g target _ id htarget]

theorem isSendId_of_events (g g' : ExplorationGraph V) (h : g'.graph.events = g.graph.events) (id : ℕ) :
    g'.isSendId id = g.isSendId id := by
  rw [isSendId_iff, isSendId_iff, h]

section Tally
variable {R : ℕ → ℕ → Prop} (hR : Tally R)

theorem Counted.by {g : ExplorationGraph V} (h : g.Counted) (hR : Tally R) : g.CountedBy R := by
  intro id hid
  rw [h id hid]
  exact hR.exact _

include hR

theorem CountedBy.exchange {g a b : ExplorationGraph V} (h : g.CountedBy R) (hs : g.Sound)
    {previous next : Option ReadsFromSource} {rf : ReadsFromRelation}
    (ha : g.adjustSendReaderCount previous false = .ok a) (hb : a.adjustSendReaderCount next true = .ok b)
    (hrf : ∀ id, rf.readerCount id + points previous id
      = g.graph.readsFrom.readerCount id + points next id) : (b.withReadsFrom rf).CountedBy R := by
  have hsame : ∀ id, b.isSendId id = g.isSendId id := fun id =>
    isSendId_of_events g b (by rw [(adjust_same hb).1,
      (adjust_same ha).1]) id
  have hsamea : ∀ id, a.isSendId id = g.isSendId id := fun id =>
    isSendId_of_events g a (by rw [(adjust_same ha).1]) id
  intro id hid
  have hid' : g.isSendId id = true := (hsame id).symm.trans hid
  have hless := adjust_readers hs ha hid'
  have hmore := adjust_readers (hs.adjustSendReaderCount ha) hb
    ((hsamea id).trans hid')
  simp only [Bool.false_eq_true, if_false, if_true, Nat.add_zero] at hless hmore
  exact hR.balanced _ _ _ _ (points previous id) (points next id) (h id hid')
    (show b.readers id + points previous id = g.readers id + points next id by omega) (hrf id)

theorem CountedBy.assignReadsFrom (g g' : ExplorationGraph V) (h : g.CountedBy R) (hs : g.Sound) (recv : ℕ)
    (source : ReadsFromSource) (hset : g.assignReadsFrom recv source = .ok g') : g'.CountedBy R := by
  obtain ⟨a, b, known, pending, ha, hb, rfl⟩ :=
    assignReadsFrom_inv hset
  exact h.exchange hR hs ha hb (readerCount_set _ recv source)

theorem CountedBy.copyWithRfSource {g : ExplorationGraph V} (h : g.CountedBy R) (hs : g.Sound)
    {source : ReadsFromSource} (hwith : g.copyWithRfSource recv source preserve = .ok g') : g'.CountedBy R := by
  obtain ⟨copy, hcopy, rfl⟩ := copyWithRfSource_inv hwith
  exact h.assignReadsFrom hR g copy hs recv source hcopy

omit hR in
theorem CountedBy.appended {g : ExplorationGraph V} (h : g.CountedBy R) (hs : g.Sound) (thread index : ℕ)
    {label : EventLabel V} (hnew : label.isSend = true → R 0 (g.graph.readsFrom.readerCount g.eventCount)) :
    (g.appended thread index label).CountedBy R := by
  intro id hid
  have hcounts := appended_counts hs thread index label
  rcases lt_trichotomy id g.eventCount with hlt | heq | hgt
  · have hid' : g.isSendId id = true := by
      unfold isSendId at hid ⊢
      rwa [label?_appended_of_lt thread index label hlt] at hid
    have hold := h id hid'
    unfold readers at hold ⊢
    rw [hcounts, getD_append _ _ _ _ (by rw [hs.counts_length]; exact hlt)]
    exact hold
  · subst heq
    have hsend : label.isSend = true := by
      unfold isSendId at hid
      rw [label?_appended_self] at hid
      exact hid
    have hzero : (g.appended thread index label).readers g.eventCount = 0 := by
      unfold readers
      rw [hcounts, ← hs.counts_length, getD_append_right _ _ _ _ (le_refl _), Nat.sub_self]
      rfl
    rw [hzero]
    exact hnew hsend
  · have hnone : (g.appended thread index label).label? id = none :=
      label?_of_ge _ (by
        show (g.graph.events ++ [_]).length ≤ id
        rw [length_append]
        exact hgt)
    unfold isSendId at hid
    rw [hnone] at hid
    cases hid

omit hR in
theorem CountedBy.withNdValue {g : ExplorationGraph V} (h : g.CountedBy R) {ndEvent : ℕ} {value : V}
    (hnd : g.withNdValue ndEvent value = .ok g') : g'.CountedBy R := by
  obtain ⟨e, nd, he, hlabel, rfl⟩ := withNdValue_inv hnd
  intro id hid
  refine h id ?_
  rw [isSendId_iff] at hid ⊢
  dsimp only at hid
  by_cases hi : ndEvent = id
  · subst hi
    rw [getElem?_set_self (lt_of_getElem? he)] at hid
    cases hid
  · rwa [getElem?_set_ne hi] at hid

end Tally

theorem Counted.assignReadsFrom {g : ExplorationGraph V} (h : g.Counted) (hs : g.Sound) {recv : ℕ}
    {source : ReadsFromSource} (hset : g.assignReadsFrom recv source = .ok g') : g'.Counted :=
  CountedBy.assignReadsFrom tally_eq g g' h hs recv source hset

theorem Counted.appended {g : ExplorationGraph V} (h : g.Counted) (hs : g.Sound) (thread index : ℕ)
    {label : EventLabel V} (hunnamed : label.isSend = true → g.NextUnnamed) :
    (g.appended thread index label).Counted :=
  CountedBy.appended h hs thread index fun hsend => ((readerCount_eq_zero _ _).mpr (hunnamed hsend)).symm

theorem empty_counted : (empty : ExplorationGraph V).Counted := nofun

theorem bulkBuild_counted {events : List (Event V)} {built : ExplorationGraph V}
    (h : bulkBuild events empty = .ok built) :
    built.Sound ∧ built.Counted ∧ built.graph.readsFrom = AscendingMap.empty := by
  refine bulkBuild_keeps (fun g => g.Sound ∧ g.Counted ∧ g.graph.readsFrom = AscendingMap.empty) ?_
    _ _ _ ⟨empty_sound, empty_counted, rfl⟩ h
  rintro g g' thread id label ⟨hs, hc, hrf⟩ hadd
  obtain ⟨index, hnext, _, rfl⟩ := addEvent_inv hadd
  refine ⟨hs.appended label hnext, hc.appended hs thread index ?_, hrf⟩
  intro _ recv
  rw [hrf]
  exact (nomatch ·)

theorem restrictMasked_counted {g : ExplorationGraph V} {mask : List Bool}
    (h : g.restrictMasked mask = .ok g') : g'.Counted := by
  obtain ⟨_, built, remapped, hb, hr, rfl⟩ := restrictMasked_inv h
  obtain ⟨hsound, hcounted, -⟩ := bulkBuild_counted hb
  have hremapped : remapped.Sound ∧ remapped.Counted := by
    refine remapReadsFrom_keeps (fun g => g.Sound ∧ g.Counted) ?_ _ _ _ _ ⟨hsound, hcounted⟩ hr
    rintro g g' recv source ⟨hs, hc⟩ hset
    exact ⟨hs.assignReadsFrom hset, hc.assignReadsFrom hs hset⟩
  exact hremapped.2

end ExplorationGraph

variable {w w' : WorkerGraph V}

namespace WorkerGraph
open ExplorationGraph

section Tally
variable {R : ℕ → ℕ → Prop} (hR : Tally R)

include hR in
theorem countedBy_rebindRf (h : w.graph.CountedBy R) (hs : w.graph.Sound) {send : ℕ}
    (hrebind : w.rebindRf recv send preserve = .ok w') : w'.graph.CountedBy R := by
  obtain ⟨_, _, a, b, ha, hb, rfl⟩ := rebindRf_inv hrebind
  exact h.exchange hR hs ha hb (readerCount_set _ recv (.send send))

variable {u : WorkerGraph V}

include hR in
theorem countedBy_undoLastRfAssignment (h : w.graph.CountedBy R) (hs : w.graph.Sound)
    (hundo : w.undoLastRfAssignment = .ok u) : u.graph.CountedBy R := by
  obtain ⟨undo, log, a, b, _, ha, hb, rfl⟩ := undoLastRfAssignment_inv hundo
  exact h.exchange hR hs ha hb (readerCount_restored _ undo.receiveId undo.previousSource)

theorem countedBy_undoLastEventAppend (h : w.graph.CountedBy R) (ht : w.Tabulated)
    (hundo : w.undoLastEventAppend = .ok u) : u.graph.CountedBy R := by
  obtain ⟨init, e, counts, count, log, hevents, hcounts, hlen, _, _, _, rfl⟩ :=
    undoLastEventAppend_inv ht hundo
  intro id hid
  rw [isSendId_iff] at hid
  have hlt : id < init.length := by
    by_contra hge
    rw [show (ExplorationGraph.tabulate init _ counts _ _ : ExplorationGraph V).graph.events = init from rfl,
      getElem?_eq_none (by omega)] at hid
    cases hid
  have hold := h id (by
    rw [isSendId_iff, hevents, getElem?_append_left hlt]
    exact hid)
  unfold ExplorationGraph.readers at hold ⊢
  rw [hcounts, getD_append _ _ _ _ (by rw [hlen]; exact hlt)] at hold
  exact hold

include hR in
theorem countedBy_rollback {cp : Checkpoint} (ht : w.Tabulated) (h : w.graph.CountedBy R)
    (hroll : w.rollback cp = .ok u) : u.graph.CountedBy R := by
  have hboth : u.Tabulated ∧ u.graph.CountedBy R := by
    refine rollback_keeps (fun w => w.Tabulated ∧ w.graph.CountedBy R) ?_ ?_ ?_ ⟨ht, h⟩ hroll
    · rintro w u ⟨ht, h⟩ hundo
      exact ⟨ht.undoLastRfAssignment hundo,
        countedBy_undoLastRfAssignment hR h (ht.graph.sound) hundo⟩
    · rintro w u ⟨ht, h⟩ hundo
      exact ⟨ht.undoLastEventAppend hundo, countedBy_undoLastEventAppend h ht hundo⟩
    · rintro w known pending ⟨ht, h⟩
      exact ⟨ht.withMetadata known pending, h⟩
  exact hboth.2

end Tally

theorem counted_rebindRf (h : w.graph.Counted) (hs : w.graph.Sound) {send : ℕ}
    (hrebind : w.rebindRf recv send preserve = .ok w') : w'.graph.Counted :=
  countedBy_rebindRf tally_eq h hs hrebind

end WorkerGraph

/-! ## The indexed views -/

namespace ExplorationGraph

/-- The sends that no entry names, ascending. -/
def scanUnread (g : ExplorationGraph V) : List ℕ :=
  (positions g.events fun e => e.label.isSend).filter fun id =>
    g.readsFrom.entries.all fun entry => decide (entry.2 ≠ .send id)

/-- The events of a thread in id order. -/
def scanThread (g : ExplorationGraph V) (tid : ℕ) : List ℕ := positions g.events (inThread tid)

/-- Every incrementally maintained view is what a scan of the events and the entries gives. -/
structure MatchesScan (g : ExplorationGraph V) : Prop where
  sends : g.sendEventIds = positions g.events fun e => e.label.isSend
  unread : g.unreadSendEventIds = g.scanUnread
  anyUnread : ∀ predicate, g.anyUnreadSend predicate = g.scanUnread.any predicate
  receives : ∀ id send, g.label? id = some (.send send) →
    g.receivesInDestination id = .ok (positions g.events (receiveIn send.destination))
  eventCounts : ∀ tid, g.threadEventCount tid = (g.scanThread tid).length
  lastEvents : ∀ tid, g.lastEventId tid = (g.scanThread tid).getLast?
  terminated : ∀ tid, g.threadIsTerminated tid =
    (g.scanThread tid).getLast?.any fun id => g.isBlockId id || g.isErrorId id
  blocked : g.hasBlockedThread = true ↔ ∃ tid, (g.scanThread tid).getLast?.any g.isBlockId = true
  traces : ∀ tid, g.threadTrace tid = g.traceOf (g.scanThread tid)
  readerCounts : ∀ id, g.isSendId id = true →
    g.sendReaderCounts.getD id 0 = g.readsFrom.entries.countP fun entry => decide (entry.2 = .send id)

section Views
variable (g : ExplorationGraph V) (h : g.Tabulated)
include h

theorem Tabulated.threadEventIds_eq (tid : ℕ) : g.threadEventIds tid = g.scanThread tid := by
  conv_lhs => rw [h.tables]
  rfl

theorem Tabulated.threadState_eq (tid : ℕ) :
    g.threadState tid = ⟨(g.scanThread tid).length, (g.scanThread tid).getLast?⟩ := by
  unfold scanThread
  rw [length_positions]
  conv_lhs => rw [h.tables]
  rfl

theorem Tabulated.lastEventId_eq (tid : ℕ) : g.lastEventId tid = (g.scanThread tid).getLast? := by
  unfold lastEventId
  rw [h.threadState_eq g tid]
  dsimp only
  split
  · rename_i hlen
    rw [length_eq_zero_iff.mp hlen]
    rfl
  · rfl

theorem Tabulated.sendEventIds_eq : g.sendEventIds = positions g.events fun e => e.label.isSend := by
  conv_lhs => rw [h.tables]
  rfl

theorem Tabulated.receives_eq (tid : ℕ) :
    g.receiveEventIdsByThread tid = positions g.events (receiveIn tid) := by
  conv_lhs => rw [h.tables]
  rfl

theorem Tabulated.unreadMask (id : ℕ) :
    g.unreadSendMask.getD id false = (g.isSendId id && decide (g.readers id = 0)) := by
  conv_lhs => rw [h.tables]
  exact (getD_zipWith_mask h.counts_length id).trans (by rw [isSendId_iff]; rfl)

theorem Tabulated.hasBlockedThread_iff :
    g.hasBlockedThread = true ↔ ∃ tid, (g.scanThread tid).getLast?.any g.isBlockId = true := by
  unfold hasBlockedThread
  rw [any_eq_true]
  constructor
  · rintro ⟨tid, _, hblock⟩
    refine ⟨tid, ?_⟩
    rw [h.lastEventId_eq g tid] at hblock
    cases hid : (g.scanThread tid).getLast? with
    | none => simp [hid] at hblock
    | some id => simpa [hid] using hblock
  · rintro ⟨tid, hblock⟩
    obtain ⟨id, hid, hblock⟩ := (Option.any_eq_true _ _).mp hblock
    refine ⟨tid, ?_, ?_⟩
    · obtain ⟨e, he, hthread⟩ := (mem_positions _ _ id).mp (mem_of_getLast? hid)
      have hlt := thread_lt_threadSlots g.graph (mem_of_getElem? he)
      rw [of_decide_eq_true hthread] at hlt
      exact mem_range.mpr hlt
    · rw [h.lastEventId_eq g tid, hid]
      exact hblock

theorem Tabulated.unread_iff (hc : g.Counted) (hid : g.isSendId id = true) :
    g.unreadSendMask.getD id false = g.readsFrom.entries.all fun entry => decide (entry.2 ≠ .send id) := by
  rw [h.unreadMask g id, hid, Bool.true_and, hc id hid]
  unfold ReadsFromRelation.readerCount
  rw [Bool.eq_iff_iff, decide_eq_true_eq, countP_eq_zero, all_eq_true]
  simp only [decide_eq_true_eq]
  rfl

theorem Tabulated.matchesScan (hc : g.Counted) : g.MatchesScan := by
  have hsend : ∀ id ∈ positions g.events (fun e => e.label.isSend), g.isSendId id = true := by
    intro id hid
    obtain ⟨e, he, hlabel⟩ := (mem_positions _ _ id).mp hid
    rw [isSendId_iff, show g.graph.events[id]? = some e from he]
    exact hlabel
  have hunread : g.unreadSendEventIds = g.scanUnread := by
    unfold unreadSendEventIds scanUnread
    rw [h.sendEventIds_eq g]
    exact filter_congr fun id hid => h.unread_iff g hc (hsend id hid)
  refine
    { sends := h.sendEventIds_eq g
      unread := hunread
      anyUnread := fun predicate => ?_
      receives := fun id send hlabel => ?_
      eventCounts := fun tid => ?_
      lastEvents := h.lastEventId_eq g
      terminated := fun tid => ?_
      blocked := h.hasBlockedThread_iff g
      traces := fun tid => ?_
      readerCounts := hc }
  · rw [← hunread]
    unfold anyUnreadSend unreadSendEventIds
    rw [any_filter]
  · unfold label? at hlabel
    obtain ⟨e, he, hsendLabel⟩ := Option.map_eq_some_iff.mp hlabel
    have hevent : g.event id = .ok e := by
      unfold event ExecutionGraph.event
      rw [he]
    unfold receivesInDestination
    rw [hevent]
    simp only [bind, Except.bind, hsendLabel, h.receives_eq g]
    rfl
  · unfold threadEventCount
    rw [h.threadState_eq g tid]
  · unfold threadIsTerminated
    rw [h.lastEventId_eq g tid]
    cases (g.scanThread tid).getLast? <;> rfl
  · unfold threadTrace
    rw [h.threadEventIds_eq g tid]

end Views

/-! ## Assignments that return -/

section Assignments
variable (g : ExplorationGraph V)

/-- The count of the send that a receive reads can be lowered. -/
def Releasable (receiveId : ℕ) : Prop :=
  ∀ id, g.readsFrom.find receiveId = some (.send id) → g.isSendId id = true → g.readers id ≠ 0

theorem Counted.releasable (hc : g.Counted) (recv : ℕ) : g.Releasable recv := by
  intro id hsource hsend
  rw [hc id hsend]
  exact fun hzero => (readerCount_eq_zero _ id).mp hzero recv hsource

theorem Releasable.exchange_ok {recv : ℕ} (h : g.Releasable recv) (source : ReadsFromSource) :
    ∃ a b, g.adjustSendReaderCount (g.readsFrom.find recv) false = .ok a ∧
      a.adjustSendReaderCount (some source) true = .ok b := by
  have hremove : ∃ a, g.adjustSendReaderCount (g.readsFrom.find recv) false = .ok a := by
    rw [adjustSendReaderCount_eq]
    cases htarget : g.readerTarget (g.readsFrom.find recv) with
    | none => exact ⟨g, rfl⟩
    | some id =>
      obtain ⟨hsource, hsend, -, -⟩ := g.readerTarget_some htarget
      have hreaders := h id hsource hsend
      dsimp only
      rw [if_neg (by simpa using hreaders)]
      exact ⟨_, rfl⟩
  obtain ⟨a, ha⟩ := hremove
  have hadd : ∃ b, a.adjustSendReaderCount (some source) true = .ok b := by
    rw [adjustSendReaderCount_eq]
    cases a.readerTarget (some source) with
    | none => exact ⟨a, rfl⟩
    | some id => exact ⟨_, rfl⟩
  obtain ⟨b, hb⟩ := hadd
  exact ⟨a, b, ha, hb⟩

theorem updateSendReaderState_eq {a b : ExplorationGraph V} (rf : ReadsFromRelation)
    {previous next : Option ReadsFromSource} (ha : g.adjustSendReaderCount previous false = .ok a)
    (hb : a.adjustSendReaderCount next true = .ok b) :
    (g.withReadsFrom rf).updateSendReaderState previous next = .ok (b.withReadsFrom rf) := by
  rw [updateSendReaderState_withReadsFrom,
    show g.updateSendReaderState previous next = .ok b from Except.bind_ok_iff.mpr ⟨a, ha, hb⟩]
  rfl

theorem Releasable.assignReadsFrom_ok {recv : ℕ} (h : g.Releasable recv) (source : ReadsFromSource)
    (hmax : recv < ReadsFromRelation.maxEntries) : ∃ g', g.assignReadsFrom recv source = .ok g' := by
  obtain ⟨a, b, ha, hb⟩ := h.exchange_ok g source
  unfold assignReadsFrom
  rw [ReadsFromRelation.assign_ok _ hmax]
  show ∃ g', ((g.withReadsFrom _).updateSendReaderState _ _ >>= _) = Except.ok g'
  rw [g.updateSendReaderState_eq _ ha hb]
  exact ⟨_, rfl⟩

theorem assignReadsFrom_ok (hc : g.Counted) (recv : ℕ) (source : ReadsFromSource)
    (hmax : recv < ReadsFromRelation.maxEntries) : ∃ g', g.assignReadsFrom recv source = .ok g' :=
  (hc.releasable g recv).assignReadsFrom_ok g source hmax

theorem Counted.updateSendReaderState_ok (hc : g.Counted) (rf : ReadsFromRelation) (recv : ℕ)
    (source : ReadsFromSource) : ∃ counted,
      (g.withReadsFrom rf).updateSendReaderState (g.readsFrom.find recv) (some source) = .ok counted := by
  obtain ⟨a, b, ha, hb⟩ := (hc.releasable g recv).exchange_ok g source
  exact ⟨_, g.updateSendReaderState_eq rf ha hb⟩

end Assignments

end ExplorationGraph

namespace WorkerGraph
variable (hc : w.graph.Counted)
include hc

/-- With exact reader counts only the entry vector can throw, and it does before anything has changed. -/
theorem attemptSetReadsFromSource_cases (recv : ℕ) (source : ReadsFromSource) :
    (∃ e, w.graph.graph.setReadsFromSource recv source = .error e) ∨
      ∃ w', w.setReadsFromSource recv source = .ok w' := by
  unfold setReadsFromSource attemptSetReadsFromSource ExecutionGraph.setReadsFromSource
  cases w.graph.graph.readsFrom.assign recv source with
  | error e => exact .inl ⟨e, rfl⟩
  | ok rf =>
    obtain ⟨counted, hcounted⟩ := hc.updateSendReaderState_ok w.graph rf recv source
    refine .inr ?_
    simp only [bind, Except.bind, pure, Except.pure]
    split
    · rename_i hthrown
      cases hcounted.symm.trans hthrown
    · exact ⟨_, rfl⟩

theorem attemptRebindRf_cases (recv send : ℕ) (preserve : Bool) :
    (w.attemptRebindRf recv send preserve).2 = w ∨ ∃ w', w.rebindRf recv send preserve = .ok w' := by
  unfold rebindRf attemptRebindRf ExecutionGraph.setReadsFromSource
  split
  · exact .inl rfl
  · cases w.graph.graph.readsFrom.assign recv (.send send) with
    | error e => exact .inl rfl
    | ok rf =>
      obtain ⟨counted, hcounted⟩ := hc.updateSendReaderState_ok w.graph rf recv (.send send)
      refine .inr ?_
      simp only [bind, Except.bind, pure, Except.pure]
      split
      · rename_i hthrown
        cases hcounted.symm.trans hthrown
      · exact ⟨_, rfl⟩

end WorkerGraph

/-! ## Runs of the public operations -/

/-- The operations of an exploration graph that change it or make another one of it. -/
inductive GraphOp (V : Type) where
  | addEvent (thread : ℕ) (label : EventLabel V)
  | setReadsFromSource (receiveId : ℕ) (source : ReadsFromSource)
  | rollback (checkpoint : Checkpoint)
  | restrict (keepSet : List ℕ)
  | withRf (recv send : ℕ)
  | withRfPreservingKnownAcyclicity (recv send : ℕ)
  | withBottomRf (recv : ℕ)
  | withNdValue (ndEvent : ℕ) (value : V)
  | rebindRfPreservingKnownAcyclicity (recv send : ℕ)
  | rebindRf (recv send : ℕ) (preserveKnownAcyclicity : Bool)
  | copy

/-- A send gets an id that no entry and no rf undo record names. -/
def WorkerGraph.SendsUnnamed (w : WorkerGraph V) (label : EventLabel V) : Prop :=
  label.isSend = true → w.NextUnnamed w.rfUndoLog.length

namespace GraphOp

def run (w : WorkerGraph V) : GraphOp V → Except DporError (WorkerGraph V)
  | .addEvent thread label => do return (← w.addEvent thread label).2
  | .setReadsFromSource receiveId source => w.setReadsFromSource receiveId source
  | .rollback checkpoint => w.rollback checkpoint
  | .restrict keepSet => do return .ofGraph (← w.graph.restrict keepSet)
  | .withRf recv send => do return .ofGraph (← w.graph.withRf recv send)
  | .withRfPreservingKnownAcyclicity recv send => do
    return .ofGraph (← w.graph.withRfPreservingKnownAcyclicity recv send)
  | .withBottomRf recv => do return .ofGraph (← w.graph.withBottomRf recv)
  | .withNdValue ndEvent value => do return .ofGraph (← w.graph.withNdValue ndEvent value)
  | .rebindRfPreservingKnownAcyclicity recv send => w.rebindRfPreservingKnownAcyclicity recv send
  | .rebindRf recv send preserveKnownAcyclicity => w.rebindRf recv send preserveKnownAcyclicity
  | .copy => .ok (.ofGraph w.graph)

/-- `set_reads_from` and `set_reads_from_bottom` name events that exist. -/
def IdsExist (g : ExplorationGraph V) : GraphOp V → Prop
  | .setReadsFromSource receiveId source =>
    receiveId < g.eventCount ∧ ∀ id, source = .send id → id < g.eventCount
  | _ => True

/-- No send is added under an id that an entry or an rf undo record already names. -/
def AddsUnnamed (w : WorkerGraph V) : GraphOp V → Prop
  | .addEvent _ label => w.SendsUnnamed label
  | _ => True

/-- The graphs that operations allowed in each state lead to. -/
inductive Reaches (allowed : WorkerGraph V → GraphOp V → Prop) : WorkerGraph V → Prop where
  | empty : Reaches allowed (.ofGraph .empty)
  | step (w w' : WorkerGraph V) (op : GraphOp V) : Reaches allowed w → allowed w op →
      op.run w = .ok w' → Reaches allowed w'

variable {op : GraphOp V}

theorem run_tabulated (h : w.Tabulated) (hrun : op.run w = .ok w') : w'.Tabulated := by
  cases op with
  | addEvent thread label =>
    obtain ⟨⟨id, a⟩, ha, hw⟩ := Except.bind_ok_iff.mp hrun
    cases hw
    exact h.addEvent ha
  | setReadsFromSource recv source => exact h.setReadsFromSource hrun
  | rollback checkpoint => exact h.rollback hrun
  | restrict keepSet =>
    obtain ⟨g, hg, hw⟩ := Except.bind_ok_iff.mp hrun
    cases hw
    exact .ofGraph (restrictMasked_tabulated hg)
  | withRf | withRfPreservingKnownAcyclicity | withBottomRf =>
    obtain ⟨g, hg, hw⟩ := Except.bind_ok_iff.mp hrun
    cases hw
    exact .ofGraph (h.graph.copyWithRfSource hg)
  | withNdValue ndEvent value =>
    obtain ⟨g, hg, hw⟩ := Except.bind_ok_iff.mp hrun
    cases hw
    exact .ofGraph (h.graph.withNdValue hg)
  | rebindRfPreservingKnownAcyclicity recv send => exact h.rebindRf w w' recv send _ hrun
  | rebindRf recv send preserve => exact h.rebindRf w w' recv send preserve hrun
  | copy =>
    cases hrun
    exact .ofGraph h.graph

theorem run_countedBy {R : ℕ → ℕ → Prop} (hR : ExplorationGraph.Tally R) (ht : w.Tabulated) (h : w.graph.CountedBy R)
    (hadds : op.AddsUnnamed w ∨ ∀ count, R 0 count) (hrun : op.run w = .ok w') : w'.graph.CountedBy R := by
  have hs := ht.graph.sound
  cases op with
  | addEvent thread label =>
    obtain ⟨⟨id, a⟩, ha, hw⟩ := Except.bind_ok_iff.mp hrun
    cases hw
    obtain ⟨index, hnext, _, rfl⟩ := addEvent_inv ha
    refine h.appended hs thread index fun hsend => ?_
    rcases hadds with hunnamed | hzero
    · rw [(readerCount_eq_zero _ _).mpr (hunnamed hsend).1]
      exact hR.exact 0
    · exact hzero _
  | setReadsFromSource recv source =>
    obtain ⟨g', hg', rfl⟩ := setReadsFromSource_inv hrun
    exact h.assignReadsFrom hR w.graph g' hs recv source hg'
  | rollback checkpoint => exact countedBy_rollback hR ht h hrun
  | restrict keepSet =>
    obtain ⟨g, hg, hw⟩ := Except.bind_ok_iff.mp hrun
    cases hw
    exact (restrictMasked_counted hg).by hR
  | withRf | withRfPreservingKnownAcyclicity | withBottomRf =>
    obtain ⟨g, hg, hw⟩ := Except.bind_ok_iff.mp hrun
    cases hw
    exact h.copyWithRfSource hR hs hg
  | withNdValue ndEvent value =>
    obtain ⟨g, hg, hw⟩ := Except.bind_ok_iff.mp hrun
    cases hw
    exact h.withNdValue hg
  | rebindRfPreservingKnownAcyclicity recv send =>
    exact countedBy_rebindRf hR h hs hrun
  | rebindRf recv send preserve => exact countedBy_rebindRf hR h hs hrun
  | copy =>
    cases hrun
    exact h

theorem run_counted (ht : w.Tabulated) (h : w.graph.Counted)
    (hadds : op.AddsUnnamed w) (hrun : op.run w = .ok w') : w'.graph.Counted :=
  run_countedBy tally_eq ht h (.inl hadds) hrun

theorem Reaches.keeps (allowed : WorkerGraph V → GraphOp V → Prop)
    (hallowed : ∀ w op, allowed w op → op.AddsUnnamed w) (w : WorkerGraph V) (h : Reaches allowed w) :
    w.Tabulated ∧ w.graph.Counted := by
  induction h with
  | empty => exact ⟨.ofGraph empty_tabulated, empty_counted⟩
  | step w w' op _ hop hrun ih =>
    exact ⟨run_tabulated ih.1 hrun, run_counted ih.1 ih.2 (hallowed w op hop) hrun⟩

/-- In every run whose sends get ids that nothing names, the indexed views match a scan. -/
theorem indexed_views_match_scan (w : WorkerGraph V)
    (h : Reaches (fun w op => op.IdsExist w.graph ∧ op.AddsUnnamed w) w) : w.graph.MatchesScan := by
  obtain ⟨ht, hc⟩ := h.keeps _ (fun _ _ hop => hop.2) w
  exact ht.graph.matchesScan w.graph hc

/-- A receive, the send it reads, and the read between them. -/
theorem matched_views_match_scan :
    ∃ w : WorkerGraph ℕ, Reaches (fun w op => op.IdsExist w.graph ∧ op.AddsUnnamed w) w ∧
      w.graph.readsFrom.find 1 = some (.send 0) ∧ w.graph.MatchesScan := by
  have hsend : Reaches (fun w op => op.IdsExist w.graph ∧ op.AddsUnnamed w) _ :=
    .step _ _ (.addEvent 0 (.send ⟨1, 7⟩)) (Reaches.empty (V := ℕ))
      ⟨trivial, fun _ => ⟨fun _ => (nomatch ·), fun _ => (nomatch ·)⟩⟩ rfl
  have hreceive : Reaches (fun w op => op.IdsExist w.graph ∧ op.AddsUnnamed w) _ :=
    .step _ _ (.addEvent 1 (.receive ⟨.blocking, fun _ => true⟩)) hsend ⟨trivial, (nomatch ·)⟩ rfl
  have hread : Reaches (fun w op => op.IdsExist w.graph ∧ op.AddsUnnamed w) _ :=
    .step _ _ (.setReadsFromSource 1 (.send 0)) hreceive
      ⟨⟨by decide, fun id hid => by cases hid; decide⟩, trivial⟩ rfl
  exact ⟨_, hread, rfl, indexed_views_match_scan _ hread⟩

/-- `with_rf` takes the id of a send that does not exist yet; when it does, it has a reader and counts
as unread. -/
theorem read_before_sent_is_unread :
    ∃ w : WorkerGraph ℕ, Reaches (fun w op => op.IdsExist w.graph) w ∧ ¬ w.graph.MatchesScan := by
  have hreceive : Reaches (fun w op => op.IdsExist w.graph) _ :=
    .step _ _ (.addEvent 1 (.receive ⟨.nonBlocking, fun _ => true⟩)) (Reaches.empty (V := ℕ)) trivial rfl
  have hread : Reaches (fun w op => op.IdsExist w.graph) _ := .step _ _ (.withRf 0 1) hreceive trivial rfl
  have hsend : Reaches (fun w op => op.IdsExist w.graph) _ :=
    .step _ _ (.addEvent 0 (.send ⟨1, 7⟩)) hread trivial rfl
  exact ⟨_, hsend, fun h => absurd h.unread (by decide)⟩

end GraphOp
end MustDpor

import MustDpor.Foundations.Positions
import MustDpor.Model.Consistency

/-! # Causality

What the cycle searches and the reachability index decide: the union of program order and reads-from.
Program order is read off the events (same thread, smaller index); in the graphs that can be built it
is also the insertion order of each thread, which is what the source walks along. -/

namespace MustDpor
set_option autoImplicit false
open List

namespace ExecutionGraph
variable {V : Type}

def ProgramOrder (g : ExecutionGraph V) (a b : ℕ) : Prop :=
  ∃ ea eb, g.events[a]? = some ea ∧ g.events[b]? = some eb ∧ ea.thread = eb.thread ∧ ea.index < eb.index

def ReadsFrom (g : ExecutionGraph V) (send receive : ℕ) : Prop :=
  g.readsFrom.find receive = some (.send send)

def Porf (g : ExecutionGraph V) (a b : ℕ) : Prop := g.ProgramOrder a b ∨ g.ReadsFrom a b

def Acyclic (g : ExecutionGraph V) : Prop := ∀ id, ¬ Relation.TransGen g.Porf id id

/-- Indices increase along the insertion order of every thread. -/
def IndexOrdered (g : ExecutionGraph V) : Prop :=
  ∀ (a b : ℕ) (ea eb : Event V), a < b → g.events[a]? = some ea → g.events[b]? = some eb →
    ea.thread = eb.thread → ea.index < eb.index

variable (g : ExecutionGraph V)

theorem IndexOrdered.programOrder_iff (h : g.IndexOrdered) (a b : ℕ) : g.ProgramOrder a b ↔
      a < b ∧ ∃ ea eb, g.events[a]? = some ea ∧ g.events[b]? = some eb ∧ ea.thread = eb.thread := by
  constructor
  · rintro ⟨ea, eb, ha, hb, hthread, hindex⟩
    refine ⟨?_, ea, eb, ha, hb, hthread⟩
    rcases lt_trichotomy a b with hlt | heq | hgt
    · exact hlt
    · subst heq
      rw [ha] at hb
      cases hb
      exact absurd hindex (lt_irrefl _)
    · exact absurd (h b a eb ea hgt hb ha hthread.symm) (lt_asymm hindex)
  · rintro ⟨hlt, ea, eb, ha, hb, hthread⟩
    exact ⟨ea, eb, ha, hb, hthread, h a b ea eb hlt ha hb hthread⟩

theorem ProgramOrder.lt_length (a b : ℕ) (h : g.ProgramOrder a b) : a < g.events.length ∧ b < g.events.length := by
  obtain ⟨ea, eb, ha, hb, -⟩ := h
  exact ⟨lt_of_getElem? ha, lt_of_getElem? hb⟩

/-! ## Graphs that can be built

Indices are handed out, or accepted from outside, in increasing order along each thread; the next index
stops at the largest one, whose use the index set records. -/

/-- The graphs that sequences of insertions and of reads-from assignments, to any ids, lead to. -/
inductive Built : ExecutionGraph V → Prop
  | empty : Built empty
  | addEvent (g g' : ExecutionGraph V) (thread id : ℕ) (label : EventLabel V) :
    Built g → g.addEvent thread label = .ok (id, g') → Built g'
  | addEventWithIndex (g g' : ExecutionGraph V) (thread id : ℕ) (index : Fin (maxEventIndex + 1))
      (label : EventLabel V) :
    Built g → g.addEventWithIndex thread index label = .ok (id, g') → Built g'
  | setReadsFromSource (g g' : ExecutionGraph V) (receiveId : ℕ) (source : ReadsFromSource) :
    Built g → g.setReadsFromSource receiveId source = .ok g' → Built g'

/-- Every event of a thread lies below an index that the thread may still use. -/
structure Indexed (g : ExecutionGraph V) : Prop where
  ordered : g.IndexOrdered
  below : ∀ (id : ℕ) (e : Event V), g.events[id]? = some e → ∀ index,
    g.nextEventIndexByThread e.thread ≤ index →
    (g.usedEventIndicesByThread e.thread).contains index = false → e.index < index

theorem Indexed.withReadsFrom {g : ExecutionGraph V} (h : g.Indexed) (rf : ReadsFromRelation) :
    Indexed { g with readsFrom := rf } :=
  ⟨h.ordered, h.below⟩

theorem contains_insert_max (used : UsedEventIndexSet) :
    (used.insert maxEventIndex).contains maxEventIndex = true := by
  unfold UsedEventIndexSet.insert UsedEventIndexSet.contains
  simp

theorem Indexed.append {g : ExecutionGraph V} (h : g.Indexed) {thread index : ℕ} (label : EventLabel V)
    (hnext : g.nextEventIndexByThread thread ≤ index)
    (hunused : (g.usedEventIndicesByThread thread).contains index = false) :
    (g.appendEventUnchecked thread index label).2.Indexed := by
  have hold : ∀ (id : ℕ) (e : Event V), g.events[id]? = some e → e.thread = thread → e.index < index := by
    rintro id e he rfl
    exact h.below id e he index hnext hunused
  have hevents : ∀ (id : ℕ) (e : Event V), (g.events ++ [⟨thread, index, label⟩])[id]? = some e →
      g.events[id]? = some e ∨ id = g.events.length ∧ e = ⟨thread, index, label⟩ := by
    intro id e he
    rcases lt_trichotomy id g.events.length with hid | rfl | hid
    · rw [getElem?_append_left hid] at he
      exact .inl he
    · rw [getElem?_concat_length] at he
      exact .inr ⟨rfl, (Option.some.inj he).symm⟩
    · rw [getElem?_eq_none (by rw [length_append, length_singleton]; exact hid)] at he
      cases he
  constructor
  · intro a b ea eb hlt ha hb hthread
    rcases hevents b eb hb with hb | ⟨rfl, rfl⟩
    · rcases hevents a ea ha with ha | ⟨rfl, rfl⟩
      · exact h.ordered a b ea eb hlt ha hb hthread
      · exact absurd (lt_of_getElem? hb) (lt_asymm hlt)
    · rcases hevents a ea ha with ha | ⟨rfl, rfl⟩
      · exact hold a ea ha hthread
      · exact absurd hlt (lt_irrefl _)
  · intro id e he other hother hcontains
    simp only [appendEventUnchecked] at hother hcontains
    by_cases hthread : e.thread = thread
    · have hle : e.index ≤ index := by
        rcases hevents id e he with he | ⟨-, rfl⟩
        · exact le_of_lt (hold id e he hthread)
        · exact le_refl _
      rw [hthread, Function.update_self] at hother hcontains
      refine lt_of_le_of_lt hle ?_
      by_cases hmax : index = maxEventIndex
      · rw [if_pos hmax] at hother
        refine lt_of_le_of_ne hother fun heq => ?_
        rw [← heq, hmax, contains_insert_max] at hcontains
        cases hcontains
      · rw [if_neg hmax] at hother
        exact hother
    · rw [Function.update_of_ne hthread] at hother hcontains
      rcases hevents id e he with he | ⟨-, rfl⟩
      · exact h.below id e he other hother hcontains
      · exact absurd rfl hthread

theorem scanEventIndex_spec (used : UsedEventIndexSet) (fuel next index : ℕ)
    (h : scanEventIndex used fuel next = .ok index) :
    next ≤ index ∧ used.contains index = false := by
  induction fuel generalizing next with
  | zero => cases h
  | succ fuel ih =>
    unfold scanEventIndex at h
    by_cases hused : used.contains next = true
    · rw [if_pos hused] at h
      split at h
      · cases h
      · obtain ⟨hle, hunused⟩ := ih (next + 1) h
        exact ⟨Nat.le_of_succ_le hle, hunused⟩
    · rw [if_neg hused] at h
      cases h
      exact ⟨le_refl _, Bool.eq_false_iff.mpr hused⟩

theorem Built.indexed (h : g.Built) : g.Indexed := by
  induction h with
  | empty => exact ⟨nofun, nofun⟩
  | addEvent g g' thread id label _ hadd ih =>
    obtain ⟨index, hindex, hadd⟩ := Except.bind_ok_iff.mp hadd
    cases hadd
    unfold nextEventIndex at hindex
    split at hindex
    · cases hindex
    · obtain ⟨hnext, hunused⟩ := scanEventIndex_spec _ _ _ _ hindex
      exact ih.append label hnext hunused
  | addEventWithIndex g g' thread id index label _ hadd ih =>
    unfold ExecutionGraph.addEventWithIndex at hadd
    split at hadd
    · cases hadd
    · split at hadd
      · cases hadd
      · rename_i hunused
        split at hadd
        · cases hadd
        · rename_i hnext
          cases hadd
          exact ih.append label (not_lt.mp hnext) (Bool.eq_false_iff.mpr hunused)
  | setReadsFromSource g g' recv source _ hset ih =>
    obtain ⟨rf, -, hset⟩ := Except.bind_ok_iff.mp hset
    cases hset
    exact ih.withReadsFrom rf

/-! ## The derived thread sequences -/

theorem eventIdsOfThread_eq (tid : ℕ) :
    g.eventIdsOfThread tid = positions g.events (fun e => decide (e.thread = tid)) := rfl

theorem eventIdsOfThread_ascending (tid : ℕ) : (g.eventIdsOfThread tid).Pairwise (· < ·) :=
  positions_ascending _ _

theorem mem_eventIdsOfThread (tid id : ℕ) :
    id ∈ g.eventIdsOfThread tid ↔ ∃ e, g.events[id]? = some e ∧ e.thread = tid := by
  rw [eventIdsOfThread_eq, mem_positions]
  simp only [decide_eq_true_eq]

theorem validateEventIndices_ok {g : ExecutionGraph V} (h : g.IndexOrdered) {tid : ℕ} {ids : List ℕ}
    (hids : ∀ id ∈ ids, ∃ e, g.events[id]? = some e ∧ e.thread = tid)
    (hascending : ids.Pairwise (· < ·)) : g.validateEventIndices ids = .ok () := by
  induction ids with
  | nil => rfl
  | cons a rest ih =>
    cases rest with
    | nil => rfl
    | cons b rest =>
      obtain ⟨ea, ha, hta⟩ := hids a mem_cons_self
      obtain ⟨eb, hb, htb⟩ := hids b (mem_cons_of_mem _ mem_cons_self)
      have hlt : a < b := rel_of_pairwise_cons hascending mem_cons_self
      have hindex : ea.index < eb.index := h a b ea eb hlt ha hb (hta.trans htb.symm)
      unfold validateEventIndices
      simp only [ha, hb, if_neg (ne_of_lt hindex), if_neg (lt_asymm hindex)]
      exact ih (fun id hid => hids id (mem_cons_of_mem _ hid)) hascending.of_cons

def threadSequences (g : ExecutionGraph V) : List (List ℕ) :=
  ((List.range g.threadSlots).map g.eventIdsOfThread).filter (fun evts => !evts.isEmpty)

theorem forM_validateEventIndices_iff (sequences : List (List ℕ)) :
    sequences.forM g.validateEventIndices = (.ok ⟨⟩ : Except DporError PUnit) ↔
      ∀ evts ∈ sequences, g.validateEventIndices evts = .ok () := by
  induction sequences with
  | nil => exact iff_of_true rfl fun _ hmem => absurd hmem not_mem_nil
  | cons evts rest ih =>
    rw [forall_mem_cons, ← ih]
    show (g.validateEventIndices evts >>= fun _ => rest.forM g.validateEventIndices) = _ ↔ _
    rw [Except.bind_ok_iff]
    exact ⟨fun ⟨⟨⟩, hfirst, hrest⟩ => ⟨hfirst, hrest⟩, fun ⟨hfirst, hrest⟩ => ⟨⟨⟩, hfirst, hrest⟩⟩

theorem poRelation_ok (h : g.IndexOrdered) : g.poRelation = .ok ⟨g.events.length, g.threadSequences⟩ := by
  have hvalid := (g.forM_validateEventIndices_iff g.threadSequences).mpr fun evts hevts => by
    obtain ⟨tid, -, rfl⟩ := mem_map.mp (mem_filter.mp hevts).1
    exact validateEventIndices_ok h (fun id => (mem_eventIdsOfThread g tid id).mp)
      (eventIdsOfThread_ascending g tid)
  unfold threadSequences at hvalid
  unfold poRelation deriveThreadEventSequences
  simp only [hvalid]
  rfl

theorem validateEventIndices_increasing {g : ExecutionGraph V} {ids : List ℕ}
    (h : g.validateEventIndices ids = .ok ()) :
    ids.Pairwise fun a b => ∀ ea eb, g.events[a]? = some ea → g.events[b]? = some eb → ea.index < eb.index := by
  induction ids with
  | nil => exact .nil
  | cons a rest ih =>
    cases rest with
    | nil => exact pairwise_singleton _ _
    | cons b rest =>
      unfold validateEventIndices at h
      split at h
      · rename_i previous current ha hb
        split at h
        · cases h
        rename_i hne
        split at h
        · cases h
        rename_i hnot
        have hlt : previous.index < current.index := by omega
        have hrest := ih h
        refine .cons (fun c hc ea ec hea hec => ?_) hrest
        obtain rfl := Option.some.inj (hea.symm.trans ha)
        rcases mem_cons.mp hc with rfl | hc
        · obtain rfl := Option.some.inj (hec.symm.trans hb)
          exact hlt
        · exact hlt.trans (rel_of_pairwise_cons hrest hc current ec hb hec)
      · cases h

theorem indexOrdered_of_poRelation {po : ProgramOrderRelation} (h : g.poRelation = .ok po) : g.IndexOrdered := by
  intro a b ea eb hlt hea heb hthread
  unfold poRelation deriveThreadEventSequences at h
  obtain ⟨sequences, hderive, -⟩ := Except.bind_ok_iff.mp h
  obtain ⟨⟨⟩, hvalid, -⟩ := Except.bind_ok_iff.mp hderive
  have hmem (id : ℕ) (e : Event V) (he : g.events[id]? = some e) (hsame : e.thread = ea.thread) :
      id ∈ g.eventIdsOfThread ea.thread := (mem_eventIdsOfThread g _ id).mpr ⟨e, he, hsame⟩
  have ha := hmem a ea hea rfl
  have hsequence := (g.forM_validateEventIndices_iff _).mp hvalid (g.eventIdsOfThread ea.thread)
    (mem_filter.mpr ⟨mem_map.mpr ⟨ea.thread, mem_range.mpr
      (g.thread_lt_threadSlots (mem_of_getElem? hea)), rfl⟩, by
        rw [isEmpty_eq_false_iff.mpr (ne_nil_of_mem ha)]; rfl⟩)
  have hindex := pairwise_iff_getElem.mp (validateEventIndices_increasing hsequence)
  have hascending := pairwise_iff_getElem.mp (eventIdsOfThread_ascending g ea.thread)
  obtain ⟨i, hi, rfl⟩ := getElem_of_mem ha
  obtain ⟨j, hj, rfl⟩ := getElem_of_mem (hmem b eb heb hthread.symm)
  rcases lt_trichotomy i j with hij | rfl | hji
  · exact hindex i j hi hj hij ea eb hea heb
  · exact absurd hlt (lt_irrefl _)
  · exact absurd (hascending j i hj hi hji) (lt_asymm hlt)

theorem mem_successors {g : ExecutionGraph V} (h : g.IndexOrdered) (a b : ℕ) :
    b ∈ ProgramOrderRelation.successors ⟨g.events.length, g.threadSequences⟩ a ↔ g.ProgramOrder a b := by
  have hsequence : ∀ evts, evts ∈ g.threadSequences ↔
      evts.isEmpty = false ∧ ∃ tid < g.threadSlots, g.eventIdsOfThread tid = evts := by
    intro evts
    unfold threadSequences
    rw [mem_filter, mem_map, and_comm]
    simp only [Bool.not_eq_true', mem_range]
  unfold ProgramOrderRelation.successors
  cases hfind : g.threadSequences.find? (fun evts => evts.contains a) with
  | none =>
    simp only [not_mem_nil, false_iff]
    rintro ⟨ea, eb, ha, -⟩
    have hmem : a ∈ g.eventIdsOfThread ea.thread := (mem_eventIdsOfThread g _ a).mpr ⟨ea, ha, rfl⟩
    have hnot := find?_eq_none.mp hfind (g.eventIdsOfThread ea.thread)
      ((hsequence _).mpr ⟨?_, ea.thread, thread_lt_threadSlots g (mem_of_getElem? ha), rfl⟩)
    · exact hnot (contains_iff_mem.mpr hmem)
    · exact isEmpty_eq_false_iff.mpr (ne_nil_of_mem hmem)
  | some evts =>
    obtain ⟨-, tid, -, rfl⟩ := (hsequence evts).mp (mem_of_find?_eq_some hfind)
    have hcontains := find?_some hfind
    have ha : a ∈ g.eventIdsOfThread tid := contains_iff_mem.mp hcontains
    obtain ⟨ea, hea, hta⟩ := (mem_eventIdsOfThread g tid a).mp ha
    simp only
    rw [mem_drop_idxOf_succ (eventIdsOfThread_ascending g tid) a b ha, h.programOrder_iff g,
      mem_eventIdsOfThread, and_comm]
    refine and_congr_right fun _ => ?_
    constructor
    · rintro ⟨eb, heb, htb⟩
      exact ⟨ea, eb, hea, heb, hta.trans htb.symm⟩
    · rintro ⟨ea', eb, hea', heb, hthread⟩
      rw [hea] at hea'
      cases hea'
      exact ⟨eb, heb, hthread.symm.trans hta⟩

/-! ## The colour search -/

theorem hasCausalCycle_iff {g : ExecutionGraph V} (h : g.IndexOrdered) {rfEdges : List (ℕ × ℕ)}
    (hedges : ∀ e ∈ rfEdges, e.1 < g.events.length ∧ e.2 < g.events.length) :
    hasCausalCycle ⟨g.events.length, g.threadSequences⟩ rfEdges g.events.length = true ↔
      ∃ id, Relation.TransGen (fun a b => g.ProgramOrder a b ∨ (a, b) ∈ rfEdges) id id := by
  have hedge : ∀ a b, b ∈ cycleSuccessors ⟨g.events.length, g.threadSequences⟩ rfEdges g.events.length a ↔
      g.ProgramOrder a b ∨ (a, b) ∈ rfEdges := by
    intro a b
    unfold cycleSuccessors
    by_cases ha : a < g.events.length
    · rw [if_pos ha, mem_append, mem_successors h, mem_map]
      refine or_congr Iff.rfl ?_
      constructor
      · rintro ⟨⟨s, r⟩, hmem, rfl⟩
        obtain ⟨hedge, hcond⟩ := mem_filter.mp hmem
        obtain ⟨rfl, -⟩ := of_decide_eq_true hcond
        exact hedge
      · intro hmem
        exact ⟨(a, b), mem_filter.mpr ⟨hmem, decide_eq_true ⟨rfl, (hedges _ hmem).2⟩⟩, rfl⟩
    · rw [if_neg ha]
      simp only [not_mem_nil, false_iff]
      rintro (hpo | hmem)
      · exact ha (ProgramOrder.lt_length g a b hpo).1
      · exact ha (hedges _ hmem).1
  unfold hasCausalCycle
  rw [ColourSearch.hasCycle_iff]
  · refine exists_congr fun id => ?_
    have hrel : ColourSearch.Edge (cycleSuccessors ⟨g.events.length, g.threadSequences⟩ rfEdges g.events.length)
        = fun a b => g.ProgramOrder a b ∨ (a, b) ∈ rfEdges := by
      funext a b
      exact propext (hedge a b)
    rw [hrel]
  · intro a b hb
    rcases (hedge a b).mp hb with hpo | hmem
    · exact ProgramOrder.lt_length g a b hpo
    · exact hedges _ hmem

end ExecutionGraph
end MustDpor

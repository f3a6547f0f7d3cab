import MustDpor.Model.Validation

/-! # The cycle test and the reachability index of exploration graphs

On a graph whose tables are in order and whose reads-from entries have valid endpoints, Kahn's
algorithm decides acyclicity of program order and reads-from, and a clock entry answers reachability.
Immediate program order, which the source uses, has the same transitive closure as program order. -/

namespace MustDpor
set_option autoImplicit false
open List Relation ExecutionGraph

variable {V : Type}

/-! ## Neighbours in a list -/

namespace ExplorationGraph

theorem mem_neighbours (l : List ℕ) (a b : ℕ) :
    (a, b) ∈ neighbours l ↔ ∃ i : ℕ, l[i]? = some a ∧ l[i + 1]? = some b := by
  induction l with
  | nil => simp [neighbours]
  | cons x rest ih =>
    cases rest with
    | nil => simp [neighbours]
    | cons y rest =>
      rw [neighbours, mem_cons, ih]
      constructor
      · rintro (heq | ⟨i, ha, hb⟩)
        · cases heq
          exact ⟨0, rfl, rfl⟩
        · exact ⟨i + 1, ha, hb⟩
      · rintro ⟨i, ha, hb⟩
        cases i with
        | zero =>
          cases ha
          cases hb
          exact .inl rfl
        | succ i => exact .inr ⟨i, ha, hb⟩

theorem transGen_neighbours (l : List ℕ) (i d a b : ℕ) (ha : l[i]? = some a)
    (hb : l[i + d + 1]? = some b) : TransGen (fun x y => (x, y) ∈ neighbours l) a b := by
  induction d generalizing b with
  | zero => exact .single ((mem_neighbours l a b).mpr ⟨i, ha, hb⟩)
  | succ d ih =>
    have hlt : i + d + 1 < l.length := by
      have := lt_of_getElem? hb
      omega
    have hmid : l[i + d + 1]? = some l[i + d + 1] := getElem?_eq_getElem hlt
    exact (ih _ hmid).tail ((mem_neighbours l _ b).mpr ⟨i + d + 1, hmid, hb⟩)

variable {a b : ℕ}

theorem transGen_neighbours_of_lt {l : List ℕ} (hascending : l.Pairwise (· < ·)) (ha : a ∈ l)
    (hb : b ∈ l) (hlt : a < b) : TransGen (fun x y => (x, y) ∈ neighbours l) a b := by
  obtain ⟨i, hi, hia⟩ := List.getElem_of_mem ha
  obtain ⟨j, hj, hjb⟩ := List.getElem_of_mem hb
  have hij : i < j := by
    by_contra hnot
    have hle : l[j] ≤ l[i] := by
      rcases Nat.lt_or_eq_of_le (not_lt.mp hnot) with hji | rfl
      · exact le_of_lt (List.pairwise_iff_getElem.mp hascending j i hj hi hji)
      · exact le_refl _
    rw [hia, hjb] at hle
    exact absurd hlt (not_lt.mpr hle)
  exact transGen_neighbours l i (j - i - 1) a b (List.getElem?_eq_some_iff.mpr ⟨hi, hia⟩)
    (by rw [show i + (j - i - 1) + 1 = j by omega]; exact List.getElem?_eq_some_iff.mpr ⟨hj, hjb⟩)

/-! ## Program order -/

theorem numbered_indexOrdered {g : ExecutionGraph V} (h : Numbered g.events) : g.IndexOrdered := by
  intro a b ea eb hlt ha hb hthread
  rw [(h a ea ha).1, (h b eb hb).1, hthread]
  have halt : a < g.events.length := lt_of_getElem? ha
  have htake : g.events.take (a + 1) = g.events.take a ++ [ea] := by
    rw [take_add_one, ha]
    rfl
  calc threadCount (g.events.take a) eb.thread
      < threadCount (g.events.take (a + 1)) eb.thread := by
        rw [htake, threadCount_concat, if_pos hthread]
        exact Nat.lt_succ_self _
    _ ≤ threadCount (g.events.take b) eb.thread :=
        ((take_prefix_take_left (by omega)).sublist).countP_le

section Tabulated
variable (g : ExplorationGraph V) (h : g.Tabulated)
include h

theorem Tabulated.indexOrdered : g.graph.IndexOrdered := numbered_indexOrdered h.numbered

theorem Tabulated.mem_threadEventIds (tid id : ℕ) :
    id ∈ g.threadEventIds tid ↔ ∃ e, g.graph.events[id]? = some e ∧ e.thread = tid := by
  rw [h.threadEventIds_eq g tid]
  exact (mem_positions _ _ id).trans (by simp [inThread, events])

theorem Tabulated.threadEventIds_ascending (tid : ℕ) : (g.threadEventIds tid).Pairwise (· < ·) := by
  rw [h.threadEventIds_eq g tid]
  exact positions_ascending _ _

theorem Tabulated.mem_poEdges (a b : ℕ) :
    (a, b) ∈ g.poEdges ↔
      ∃ tid i : ℕ, (g.threadEventIds tid)[i]? = some a ∧ (g.threadEventIds tid)[i + 1]? = some b := by
  unfold poEdges
  rw [mem_flatMap]
  constructor
  · rintro ⟨tid, -, hmem⟩
    exact ⟨tid, (mem_neighbours _ a b).mp hmem⟩
  · rintro ⟨tid, i, ha, hb⟩
    refine ⟨tid, mem_range.mpr ?_, (mem_neighbours _ a b).mpr ⟨i, ha, hb⟩⟩
    obtain ⟨e, he, rfl⟩ := (h.mem_threadEventIds g tid a).mp (mem_of_getElem? ha)
    exact thread_lt_threadSlots g.graph (mem_of_getElem? he)

theorem Tabulated.programOrder_of_poEdges (hedge : (a, b) ∈ g.poEdges) : g.graph.ProgramOrder a b := by
  obtain ⟨tid, i, ha, hb⟩ := (h.mem_poEdges g a b).mp hedge
  obtain ⟨ea, hea, hta⟩ := (h.mem_threadEventIds g tid a).mp (List.mem_of_getElem? ha)
  obtain ⟨eb, heb, htb⟩ := (h.mem_threadEventIds g tid b).mp (List.mem_of_getElem? hb)
  have hlt : a < b := by
    obtain ⟨hi, rfl⟩ := List.getElem?_eq_some_iff.mp ha
    obtain ⟨hj, rfl⟩ := List.getElem?_eq_some_iff.mp hb
    exact List.pairwise_iff_getElem.mp (h.threadEventIds_ascending g tid) i (i + 1) hi hj (Nat.lt_succ_self i)
  exact ((h.indexOrdered g).programOrder_iff g.graph a b).mpr ⟨hlt, ea, eb, hea, heb, hta.trans htb.symm⟩

theorem Tabulated.poEdges_of_programOrder (hpo : g.graph.ProgramOrder a b) :
    TransGen (fun x y => (x, y) ∈ g.poEdges) a b := by
  obtain ⟨hlt, ea, eb, hea, heb, hthread⟩ := ((h.indexOrdered g).programOrder_iff g.graph a b).mp hpo
  have ha := (h.mem_threadEventIds g eb.thread a).mpr ⟨ea, hea, hthread⟩
  have hb := (h.mem_threadEventIds g eb.thread b).mpr ⟨eb, heb, rfl⟩
  have hpath := transGen_neighbours_of_lt (h.threadEventIds_ascending g eb.thread) ha hb hlt
  refine TransGen.mono (fun x y hxy => ?_) _ _ hpath
  obtain ⟨k, hx, hy⟩ := (mem_neighbours _ x y).mp hxy
  exact (h.mem_poEdges g x y).mpr ⟨eb.thread, k, hx, hy⟩

end Tabulated

/-! ## The edges of the search -/

theorem validatedRfEdges_ok {g : ExecutionGraph V} (h : g.ValidEndpoints) :
    g.validatedRfEdges = .ok (g.readsFrom.entries.filterMap g.validRead) := by
  have hall : ∀ entries : List (ℕ × ReadsFromSource), (∀ entry ∈ entries, g.endpointsOk entry = true) →
      g.validatedRfEdgesOf entries = .ok (entries.filterMap g.validRead) := by
    intro entries
    induction entries with
    | nil => exact fun _ => rfl
    | cons entry rest ih =>
      intro hok
      have hrest := ih fun other hother => hok other (mem_cons_of_mem _ hother)
      have hentry := hok entry mem_cons_self
      obtain ⟨recv, source⟩ := entry
      cases source with
      | bottom =>
        obtain ⟨e, receive, he, hlabel⟩ := (isReceiveAt_iff g recv).mp hentry
        unfold ExecutionGraph.validatedRfEdgesOf
        simp only [he, hlabel, EventLabel.isReceive, hrest]
        rfl
      | send sourceId =>
        have hread : g.validRead (recv, .send sourceId) = some (sourceId, recv) := if_pos hentry
        obtain ⟨hreceive, hsend⟩ := (Bool.and_eq_true _ _).mp hentry
        obtain ⟨e, receive, he, hlabel⟩ := (isReceiveAt_iff g recv).mp hreceive
        obtain ⟨es, send, hes, hslabel⟩ := (isSendAt_iff g sourceId).mp hsend
        unfold ExecutionGraph.validatedRfEdgesOf
        simp only [he, hes, hlabel, hslabel, EventLabel.isReceive, EventLabel.isSend, hrest]
        rw [filterMap_cons_some hread]
        rfl
  exact hall _ ((validEndpoints_iff g).mpr h)

section Edges
variable (g : ExplorationGraph V) (h : g.Tabulated) (hends : g.graph.ValidEndpoints)
include h hends

/-- Immediate program order and reads-from. -/
def immediateEdges (g : ExplorationGraph V) : List (ℕ × ℕ) :=
  g.poEdges ++ g.graph.readsFrom.entries.filterMap g.graph.validRead

omit h in
theorem porfEdges_ok : g.porfEdges = .ok g.immediateEdges := by
  unfold porfEdges
  rw [validatedRfEdges_ok hends]
  rfl

theorem Tabulated.mem_immediateEdges (a b : ℕ) (hedge : (a, b) ∈ g.immediateEdges) : g.graph.Porf a b := by
  rcases mem_append.mp hedge with hpo | hrf
  · exact .inl (h.programOrder_of_poEdges g hpo)
  · exact .inr ((mem_validRead hends a b).mp hrf)

theorem Tabulated.transGen_immediateEdges (a b : ℕ) :
    TransGen (TopologicalOrder.Edge g.immediateEdges) a b ↔ TransGen g.graph.Porf a b := by
  constructor
  · exact TransGen.mono (h.mem_immediateEdges g hends) a b
  · refine fun hpath => TransGen.trans_induction_on hpath (fun {x y} hxy => ?_) fun _ _ => .trans
    rcases hxy with hpo | hrf
    · exact TransGen.mono (fun _ _ hedge => mem_append_left _ hedge) x y
        (h.poEdges_of_programOrder g hpo)
    · exact .single (mem_append_right _ ((mem_validRead hends x y).mpr hrf))

theorem Tabulated.immediateEdges_lt (e : ℕ × ℕ) (he : e ∈ g.immediateEdges) :
    e.1 < g.eventCount ∧ e.2 < g.eventCount := by
  rcases h.mem_immediateEdges g hends e.1 e.2 he with hpo | hrf
  · exact ExecutionGraph.ProgramOrder.lt_length g.graph e.1 e.2 hpo
  · obtain ⟨⟨er, -, her, -⟩, hsource⟩ := hends e.2 _ hrf
    obtain ⟨es, -, hes, -⟩ := hsource e.1 rfl
    exact ⟨lt_of_getElem? hes, lt_of_getElem? her⟩

theorem Tabulated.order_length_iff :
    (TopologicalOrder.order g.eventCount g.immediateEdges).length = g.eventCount ↔ g.graph.Acyclic := by
  rw [TopologicalOrder.order_length_iff (h.immediateEdges_lt g hends)]
  exact forall_congr' fun id => (h.transGen_immediateEdges g hends id id).not

omit h in
theorem buildPorfAdjacencyAndOrder_ok :
    g.buildPorfAdjacencyAndOrder = .ok (TopologicalOrder.order g.eventCount g.immediateEdges) := by
  unfold buildPorfAdjacencyAndOrder
  rw [porfEdges_ok g hends]
  rfl

theorem Tabulated.hasCausalCycleWithoutCache_ok :
    ∃ found, g.hasCausalCycleWithoutCache = .ok found ∧ (found = true ↔ ¬ g.graph.Acyclic) := by
  refine ⟨decide ((TopologicalOrder.order g.eventCount g.immediateEdges).length ≠ g.eventCount), ?_, ?_⟩
  · unfold hasCausalCycleWithoutCache
    rw [buildPorfAdjacencyAndOrder_ok g hends]
    rfl
  · rw [decide_eq_true_eq]
    exact (h.order_length_iff g hends).not

end Edges
theorem acyclic_of_no_events {g : ExecutionGraph V} (hnone : g.events.length = 0)
    (hends : g.ValidEndpoints) : g.Acyclic := by
  intro id hcycle
  obtain ⟨next, hedge, -⟩ := TransGen.head'_iff.mp hcycle
  rcases hedge with hpo | hread
  · have := (ExecutionGraph.ProgramOrder.lt_length g id next hpo).1
    omega
  · obtain ⟨es, -, hes, -⟩ := (hends next _ hread).2 id rfl
    have := lt_of_getElem? hes
    omega

theorem Tabulated.ensurePorfCache_ok (g : ExplorationGraph V) (h : g.Tabulated)
    (hends : g.graph.ValidEndpoints) :
    ∃ cache, g.ensurePorfCache = .ok cache ∧ (cache.hasCycle = true ↔ ¬ g.graph.Acyclic) := by
  have hlength := h.order_length_iff g hends
  unfold ensurePorfCache
  by_cases hempty : g.eventCount = 0
  · rw [if_pos hempty]
    refine ⟨_, rfl, iff_of_false Bool.false_ne_true (not_not.mpr ?_)⟩
    exact acyclic_of_no_events hempty hends
  · rw [if_neg hempty, buildPorfAdjacencyAndOrder_ok g hends]
    by_cases horder : (TopologicalOrder.order g.eventCount g.immediateEdges).length = g.eventCount
    · exact ⟨_, if_neg (not_not.mpr horder), iff_of_false Bool.false_ne_true (not_not.mpr (hlength.mp horder))⟩
    · exact ⟨_, if_pos horder, iff_of_true rfl (hlength.not.mp horder)⟩

/-! ## Vector clocks -/

section Clocks
variable (g : ExplorationGraph V) (h : g.Tabulated)
include h

variable {id : ℕ}

theorem Tabulated.getElem_positionInThread (hid : id < g.eventCount) :
    (g.threadEventIds (g.threadOf id))[g.positionInThread id]? = some id := by
  have hmem : id ∈ g.threadEventIds (g.threadOf id) := by
    rw [h.mem_threadEventIds g]
    refine ⟨g.graph.events[id], getElem?_eq_getElem hid, ?_⟩
    unfold threadOf
    rw [getElem?_eq_getElem hid]
    rfl
  exact getElem?_idxOf hmem

theorem Tabulated.position_of_getElem {tid i : ℕ} (hid : (g.threadEventIds tid)[i]? = some id) :
    g.threadOf id = tid ∧ g.positionInThread id = i ∧ id < g.eventCount := by
  obtain ⟨e, he, hthread⟩ := (h.mem_threadEventIds g tid id).mp (List.mem_of_getElem? hid)
  have htid : g.threadOf id = tid := by
    unfold threadOf
    rw [he]
    exact hthread
  refine ⟨htid, ?_, lt_of_getElem? he⟩
  unfold positionInThread
  rw [htid]
  obtain ⟨hi, rfl⟩ := List.getElem?_eq_some_iff.mp hid
  have hnodup : (g.threadEventIds tid).Nodup := (h.threadEventIds_ascending g tid).imp ne_of_lt
  exact hnodup.idxOf_getElem i hi

theorem Tabulated.poEdge_iff (u v : ℕ) :
    (u, v) ∈ g.poEdges ↔ u < g.eventCount ∧ v < g.eventCount ∧ g.threadOf u = g.threadOf v ∧
      g.positionInThread v = g.positionInThread u + 1 := by
  rw [h.mem_poEdges g u v]
  constructor
  · rintro ⟨tid, i, hu, hv⟩
    obtain ⟨htu, hpu, hltu⟩ := h.position_of_getElem g hu
    obtain ⟨htv, hpv, hltv⟩ := h.position_of_getElem g hv
    exact ⟨hltu, hltv, htu.trans htv.symm, by rw [hpu, hpv]⟩
  · rintro ⟨hltu, hltv, hthread, hposition⟩
    refine ⟨g.threadOf u, g.positionInThread u, h.getElem_positionInThread g hltu, ?_⟩
    rw [← hposition, hthread]
    exact h.getElem_positionInThread g hltv

variable {v : ℕ}

theorem Tabulated.eq_of_position {u : ℕ} (hu : u < g.eventCount) (hv : v < g.eventCount)
    (hthread : g.threadOf u = g.threadOf v) (hposition : g.positionInThread u = g.positionInThread v) :
    u = v := by
  have hgetu := h.getElem_positionInThread g hu
  have hgetv := h.getElem_positionInThread g hv
  rw [hthread, hposition] at hgetu
  exact Option.some.inj (hgetu.symm.trans hgetv)

theorem Tabulated.poPred_iff (u v : ℕ) : g.poPred v = some u ↔ (u, v) ∈ g.poEdges := by
  unfold poPred
  rw [Option.map_eq_some_iff]
  constructor
  · rintro ⟨⟨a, b⟩, hfind, rfl⟩
    have hb := find?_some hfind
    rw [← (of_decide_eq_true hb : b = v)]
    exact mem_of_find?_eq_some hfind
  · intro hedge
    cases hfind : g.poEdges.find? (fun e => decide (e.2 = v)) with
    | none => exact absurd (decide_eq_true rfl) (find?_eq_none.mp hfind (u, v) hedge)
    | some e =>
      refine ⟨e, rfl, ?_⟩
      have hv := find?_some hfind
      have hmem : (e.1, v) ∈ g.poEdges := by
        rw [← (of_decide_eq_true hv : e.2 = v)]
        exact mem_of_find?_eq_some hfind
      obtain ⟨hltu, -, hthread, hposition⟩ := (h.poEdge_iff g u v).mp hedge
      obtain ⟨hlte, -, hthread', hposition'⟩ := (h.poEdge_iff g e.1 v).mp hmem
      exact h.eq_of_position g hlte hltu (hthread'.trans hthread.symm) (by omega)

theorem Tabulated.position_of_poPred_none (hv : v < g.eventCount) (hnone : g.poPred v = none) :
    g.positionInThread v = 0 := by
  cases hposition : g.positionInThread v with
  | zero => rfl
  | succ k =>
    have hget := h.getElem_positionInThread g hv
    rw [hposition] at hget
    have hlt : k < (g.threadEventIds (g.threadOf v)).length := by
      have := lt_of_getElem? hget
      omega
    have hedge := (h.mem_poEdges g _ v).mpr ⟨g.threadOf v, k, getElem?_eq_getElem hlt, hget⟩
    rw [(h.poPred_iff g _ v).mpr hedge] at hnone
    cases hnone

theorem Tabulated.threadClockIndex_valid (hid : id < g.eventCount) :
    g.threadClockIndex (g.threadOf id) = some (g.clockColumn id) := by
  have hne : (g.threadEventIds (g.threadOf id)).isEmpty = false :=
    isEmpty_eq_false_iff.mpr
      (ne_nil_of_mem (mem_of_getElem? (h.getElem_positionInThread g hid)))
  unfold clockColumn threadClockIndex
  rw [hne]
  rfl

theorem Tabulated.threadOf_of_clockColumn {u : ℕ} (hu : u < g.eventCount) (hv : v < g.eventCount)
    (hcolumn : g.clockColumn u = g.clockColumn v) : g.threadOf u = g.threadOf v := by
  have hless : ∀ a b, a < g.eventCount → b < g.eventCount → g.threadOf a < g.threadOf b →
      g.clockColumn a < g.clockColumn b := by
    intro a b ha hb hlt
    have hcolumn : ∀ id, id < g.eventCount → g.clockColumn id =
        (range (g.threadOf id)).countP (fun t => !(g.threadEventIds t).isEmpty) := by
      intro id hid
      have hvalid := h.threadClockIndex_valid g hid
      unfold threadClockIndex at hvalid
      split at hvalid
      · cases hvalid
      · exact (Option.some.inj hvalid).symm
    have hne : (!(g.threadEventIds (g.threadOf a)).isEmpty) = true := by
      rw [Bool.not_eq_true', isEmpty_eq_false_iff]
      exact ne_nil_of_mem (mem_of_getElem? (h.getElem_positionInThread g ha))
    rw [hcolumn a ha, hcolumn b hb]
    calc (range (g.threadOf a)).countP (fun t => !(g.threadEventIds t).isEmpty)
        < (range (g.threadOf a + 1)).countP (fun t => !(g.threadEventIds t).isEmpty) := by
          rw [range_succ, countP_append, countP_singleton, if_pos hne]
          exact Nat.lt_succ_self _
      _ ≤ (range (g.threadOf b)).countP (fun t => !(g.threadEventIds t).isEmpty) :=
          (range_sublist.mpr hlt).countP_le
  rcases lt_trichotomy (g.threadOf u) (g.threadOf v) with hlt | heq | hgt
  · exact absurd hcolumn (ne_of_lt (hless u v hu hv hlt))
  · exact heq
  · exact absurd hcolumn.symm (ne_of_lt (hless v u hv hu hgt))

variable (hends : g.graph.ValidEndpoints)
include hends

omit h hends in
theorem rfSource_iff (u v : ℕ) : g.rfSource v = some u ↔ g.graph.ReadsFrom u v := by
  unfold rfSource ExecutionGraph.ReadsFrom readsFrom
  cases hfind : g.graph.readsFrom.find v with
  | none => simp
  | some source => cases source <;> simp

theorem Tabulated.clockEdge_iff (u v : ℕ) :
    VectorClock.Edge g.poPred g.rfSource u v ↔ TopologicalOrder.Edge g.immediateEdges u v := by
  unfold VectorClock.Edge TopologicalOrder.Edge immediateEdges
  rw [mem_append, h.poPred_iff g u v, rfSource_iff g u v,
    mem_validRead hends u v]

theorem Tabulated.chained (hacyclic : g.graph.Acyclic) :
    VectorClock.Chained g.poPred g.rfSource g.clockColumn g.positionInThread
        (TopologicalOrder.order g.eventCount g.immediateEdges) ∧
      ∀ v, v < g.eventCount → v ∈ TopologicalOrder.order g.eventCount g.immediateEdges := by
  have hlt := h.immediateEdges_lt g hends
  obtain ⟨degree, hinvariant⟩ := TopologicalOrder.order_invariant hlt
  have hbound : ∀ v ∈ TopologicalOrder.order g.eventCount g.immediateEdges, v < g.eventCount :=
    fun v hv => hinvariant.bound v (mem_append_left _ hv)
  refine ⟨⟨?_, ?_, ?_, ?_, ?_⟩, ?_⟩
  · simpa using hinvariant.nodup
  · intro v hv u hpred
    obtain ⟨-, -, hthread, hposition⟩ := (h.poEdge_iff g u v).mp ((h.poPred_iff g u v).mp hpred)
    exact ⟨by unfold clockColumn; rw [hthread], hposition⟩
  · exact fun v hv hnone => h.position_of_poPred_none g (hbound v hv) hnone
  · intro u hu v hv hcolumn hposition
    exact h.eq_of_position g (hbound u hu) (hbound v hv)
      (h.threadOf_of_clockColumn g (hbound u hu) (hbound v hv) hcolumn) hposition
  · intro pre v post horder u hedge
    exact hinvariant.precedes pre v post horder u ((h.clockEdge_iff g hends u v).mp hedge)
  · intro v hv
    refine TopologicalOrder.order_complete_of_acyclic (fun w hw => ?_)
      hinvariant hlt v hv
    exact hacyclic w ((h.transGen_immediateEdges g hends w w).mp hw)

theorem Tabulated.porfContains_ok (hacyclic : g.graph.Acyclic) (a b : ℕ) (ha : a < g.eventCount)
    (hb : b < g.eventCount) :
    ∃ found, g.porfContains a b = .ok found ∧ (found = true ↔ TransGen g.graph.Porf a b) := by
  obtain ⟨hchained, hcomplete⟩ := h.chained g hends hacyclic
  have hlength := (h.order_length_iff g hends).mpr hacyclic
  have hcache : g.ensurePorfCache = .ok
      ⟨VectorClock.clocks g.poPred g.rfSource g.clockColumn g.positionInThread
        (TopologicalOrder.order g.eventCount g.immediateEdges), g.positionInThread, g.threadClockIndex, false⟩ := by
    unfold ensurePorfCache
    rw [if_neg (by omega), buildPorfAdjacencyAndOrder_ok g hends]
    exact if_neg (not_not.mpr hlength)
  have hvalid : ∀ id, id < g.eventCount → g.isValidEventId id = true := fun id hid => decide_eq_true hid
  by_cases hab : a = b
  · subst hab
    refine ⟨false, ?_, iff_of_false Bool.false_ne_true (hacyclic a)⟩
    unfold porfContains
    rw [hvalid a ha, hcache]
    simp [bind, Except.bind, pure, Except.pure]
  · refine ⟨decide (g.positionInThread a + 1 ≤ VectorClock.clocks g.poPred g.rfSource g.clockColumn
      g.positionInThread (TopologicalOrder.order g.eventCount g.immediateEdges) b (g.clockColumn a)), ?_, ?_⟩
    · unfold porfContains
      rw [hvalid a ha, hvalid b hb, hcache]
      simp [bind, Except.bind, pure, Except.pure, hab, h.threadClockIndex_valid g ha]
    · rw [decide_eq_true_eq, VectorClock.clock_iff _ _ _ _ _ hchained b (hcomplete b hb)]
      have hedges : VectorClock.Edge g.poPred g.rfSource = TopologicalOrder.Edge g.immediateEdges := by
        funext u v
        exact propext (h.clockEdge_iff g hends u v)
      rw [← h.transGen_immediateEdges g hends a b, ← hedges]
      constructor
      · rintro ⟨u, hcolumn, hposition, hpath⟩
        have hu := hchained.mem_of_reaches _ _ _ _ (hcomplete b hb) hpath
        obtain rfl : u = a := hchained.unique u hu a (hcomplete a ha) hcolumn hposition
        exact (Relation.reflTransGen_iff_eq_or_transGen.mp hpath).resolve_left fun heq => hab heq.symm
      · exact fun hpath => ⟨a, rfl, rfl, hpath.to_reflTransGen⟩

end Clocks
end ExplorationGraph
end MustDpor

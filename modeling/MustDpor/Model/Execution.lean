import MustDpor.Model.Acceptance
import MustDpor.Model.ClosedRestriction
import MustDpor.Model.Program

/-! # Executions

A graph up to the order in which its events were inserted: what stands at each position of each thread,
with the sources of the receives named by position. What a thread has observed depends on nothing else. -/

namespace MustDpor
set_option autoImplicit false
open List

/-- A thread and an index in it. -/
abbrev Pos := ℕ × ℕ

inductive PosSource where
  | bottom
  | send (pos : Pos)
  deriving DecidableEq, Repr

structure Node (V : Type) where
  label : EventLabel V
  source : Option PosSource

abbrev Execution (V : Type) := Pos → Option (Node V)

variable {V : Type}

/-! ## Reading an execution -/

namespace Execution

/-- The value a source delivers. -/
def delivered (x : Execution V) : PosSource → Option (ObservedValue V)
  | .bottom => some .bottom
  | .send p => (x p).bind fun n => n.label.asSend.map fun send => .value send.value

def observation (x : Execution V) (n : Node V) : Option (ObservedValue V) :=
  match n.label with
  | .receive _ => n.source.bind x.delivered
  | .nondeterministicChoice nd => some (.value nd.value)
  | _ => none

/-- What the first `i` events of a thread have observed. -/
def trace (x : Execution V) (thread i : ℕ) : ThreadTrace V :=
  (List.range i).filterMap fun j => (x (thread, j)).bind x.observation

theorem trace_succ (x : Execution V) (thread i : ℕ) :
    x.trace thread (i + 1) = x.trace thread i ++ ((x (thread, i)).bind x.observation).toList := by
  unfold trace
  rw [range_succ, filterMap_append]
  congr 1

theorem trace_congr (x y : Execution V) {thread i : ℕ}
    (h : ∀ j, j < i → (x (thread, j)).bind x.observation = (y (thread, j)).bind y.observation) :
    x.trace thread i = y.trace thread i :=
  filterMap_congr fun j hj => h j (mem_range.mp hj)

/-- An unread send to the thread, with a value the receive accepts. -/
def Receivable (x : Execution V) (tid : ℕ) (receive : ReceiveLabel V) (p : Pos) : Prop :=
  (∃ n send, x p = some n ∧ n.label = .send send ∧ send.destination = tid ∧ receive.accepts send.value = true) ∧
    ∀ q n, x q = some n → n.source ≠ some (.send p)

end Execution

/-! ## The execution of a graph -/

/-- Where the event at a position was inserted. -/
def idIn (events : List (Event V)) (p : Pos) : Option ℕ :=
  events.findIdx? fun e => decide ((e.thread, e.index) = p)

variable {p : Pos} {id : ℕ} {e : Event V}

namespace ExecutionGraph

def posAt (g : ExecutionGraph V) (id : ℕ) : Option Pos := g.events[id]?.map fun e => (e.thread, e.index)

def posSource (g : ExecutionGraph V) : ReadsFromSource → Option PosSource
  | .bottom => some .bottom
  | .send id => (g.posAt id).map .send

def nodeAt (g : ExecutionGraph V) (id : ℕ) : Option (Node V) :=
  g.events[id]?.map fun e => ⟨e.label, (g.readsFrom.find id).bind g.posSource⟩

def execution (g : ExecutionGraph V) : Execution V := fun p => (idIn g.events p).bind g.nodeAt

theorem posAt_eq_some (g : ExecutionGraph V) (id : ℕ) (p : Pos) :
    g.posAt id = some p ↔ ∃ e, g.events[id]? = some e ∧ (e.thread, e.index) = p := by
  unfold posAt
  exact Option.map_eq_some_iff

theorem IndexOrdered.posAt_injective {g : ExecutionGraph V} (h : g.IndexOrdered) {a b : ℕ}
    (ha : g.posAt a = some p) (hb : g.posAt b = some p) : a = b := by
  obtain ⟨ea, hea, hpa⟩ := (g.posAt_eq_some a p).mp ha
  obtain ⟨eb, heb, hpb⟩ := (g.posAt_eq_some b p).mp hb
  have hsame : (ea.thread, ea.index) = (eb.thread, eb.index) := hpa.trans hpb.symm
  obtain ⟨hthread, hindex⟩ := Prod.mk.inj hsame
  rcases lt_trichotomy a b with hlt | heq | hgt
  · exact absurd (h a b ea eb hlt hea heb hthread) (by omega)
  · exact heq
  · exact absurd (h b a eb ea hgt heb hea hthread.symm) (by omega)

theorem IndexOrdered.idIn_eq_some {g : ExecutionGraph V} (h : g.IndexOrdered) (p : Pos) (id : ℕ) :
    idIn g.events p = some id ↔ g.posAt id = some p := by
  have hsome (id : ℕ) (hid : idIn g.events p = some id) : g.posAt id = some p := by
    obtain ⟨hlt, hp, -⟩ := findIdx?_eq_some_iff_getElem.mp hid
    exact (g.posAt_eq_some id p).mpr ⟨g.events[id], getElem?_eq_getElem hlt, of_decide_eq_true hp⟩
  refine ⟨hsome id, fun hpos => ?_⟩
  cases hid : idIn g.events p with
  | none =>
    obtain ⟨e, he, hp⟩ := (g.posAt_eq_some id p).mp hpos
    have := findIdx?_eq_none_iff.mp hid e (mem_of_getElem? he)
    rw [decide_eq_false_iff_not] at this
    exact absurd hp this
  | some found => rw [h.posAt_injective (hsome found hid) hpos]

theorem IndexOrdered.execution_eq_some {g : ExecutionGraph V} (h : g.IndexOrdered) (p : Pos) (n : Node V) :
    g.execution p = some n ↔ ∃ id, g.posAt id = some p ∧ g.nodeAt id = some n := by
  unfold execution
  rw [Option.bind_eq_some_iff]
  simp only [h.idIn_eq_some]

theorem IndexOrdered.execution_of_posAt {g : ExecutionGraph V} (h : g.IndexOrdered)
    (hid : g.posAt id = some p) : g.execution p = g.nodeAt id := by
  unfold execution
  rw [(h.idIn_eq_some p id).mpr hid]
  rfl

theorem IndexOrdered.execution_event {g : ExecutionGraph V} (h : g.IndexOrdered) (he : g.events[id]? = some e) :
    g.execution (e.thread, e.index) = some ⟨e.label, (g.readsFrom.find id).bind g.posSource⟩ := by
  rw [h.execution_of_posAt ((g.posAt_eq_some id _).mpr ⟨e, he, rfl⟩), nodeAt, he]
  rfl

theorem IndexOrdered.execution_eq_none {g : ExecutionGraph V} (h : g.IndexOrdered) (p : Pos) :
    g.execution p = none ↔ ∀ id, g.posAt id ≠ some p := by
  constructor
  · intro hnone id hid
    rw [h.execution_of_posAt hid] at hnone
    obtain ⟨e, he, -⟩ := (g.posAt_eq_some id p).mp hid
    rw [nodeAt, he] at hnone
    cases hnone
  · intro hnone
    by_contra hsome
    obtain ⟨n, hn⟩ := Option.ne_none_iff_exists'.mp hsome
    obtain ⟨id, hid, -⟩ := (h.execution_eq_some p n).mp hn
    exact hnone id hid

end ExecutionGraph

/-! ## Traces of graphs -/

theorem idIn_concat (events : List (Event V)) (e : Event V) (p : Pos) :
    idIn (events ++ [e]) p =
      (idIn events p).or (if (e.thread, e.index) = p then some events.length else none) := by
  unfold idIn
  rw [findIdx?_append]
  congr 1
  by_cases h : (e.thread, e.index) = p
  · simp [findIdx?_cons, h]
  · simp [findIdx?_cons, h]

variable {events : List (Event V)}

theorem Numbered.index_lt (h : Numbered events)
    (he : events[id]? = some e) : e.index < threadCount events e.thread := by
  have hlt := lt_of_getElem? he
  have hsplit : events.take (id + 1) = events.take id ++ [e] := by
    rw [take_add_one, he]
    rfl
  have hle := threadCount_take_le events (id + 1) e.thread
  rw [hsplit, threadCount_concat, if_pos rfl] at hle
  rw [(h id e he).1]
  exact hle

theorem Numbered.positions_eq (h : Numbered events) (thread : ℕ) : positions events (inThread thread) =
      (range (threadCount events thread)).filterMap fun j => idIn events (thread, j) := by
  induction events using reverseRecOn with
  | nil => rfl
  | append_singleton events e ih =>
    obtain ⟨hevents, hindex, -⟩ := (numbered_concat events e).mp h
    have hold (j : ℕ) (hne : (e.thread, e.index) ≠ (thread, j)) :
        idIn (events ++ [e]) (thread, j) = idIn events (thread, j) := by
      rw [idIn_concat, if_neg hne, Option.or_none]
    rw [positions_inThread_concat, threadCount_concat]
    by_cases hthread : e.thread = thread
    · subst hthread
      have hnew : idIn events (e.thread, e.index) = none := by
        refine findIdx?_eq_none_iff.mpr fun a ha => ?_
        rw [decide_eq_false_iff_not]
        intro hsame
        obtain ⟨hthread, hsame⟩ := Prod.mk.inj hsame
        obtain ⟨id, hid⟩ := getElem?_of_mem ha
        have := hevents.index_lt hid
        rw [hthread, hsame, hindex] at this
        exact absurd this (lt_irrefl _)
      rw [if_pos rfl, if_pos rfl, range_succ, filterMap_append, ih hevents]
      congr 1
      · refine filterMap_congr fun j hj => (hold j fun hsame => ?_).symm
        rw [← (Prod.mk.inj hsame).2, hindex] at hj
        exact absurd (mem_range.mp hj) (lt_irrefl _)
      · rw [← hindex, filterMap_cons, idIn_concat, hnew, if_pos rfl]
        rfl
    · rw [if_neg hthread, if_neg hthread, Nat.add_zero, ih hevents]
      exact filterMap_congr fun j _ => (hold j fun hsame => hthread (Prod.mk.inj hsame).1).symm

theorem Numbered.exists_index (h : Numbered events) (thread j : ℕ) (hj : j < threadCount events thread) :
    ∃ (id : ℕ) (e : Event V), events[id]? = some e ∧ e.thread = thread ∧ e.index = j := by
  induction events using reverseRecOn with
  | nil => exact absurd hj (Nat.not_lt_zero j)
  | append_singleton events e ih =>
    obtain ⟨hevents, hindex, -⟩ := (numbered_concat events e).mp h
    by_cases hold : j < threadCount events thread
    · obtain ⟨id, a, ha, hsame⟩ := ih hevents hold
      exact ⟨id, a, by rw [getElem?_append_left (lt_of_getElem? ha)]; exact ha, hsame⟩
    · rw [threadCount_concat] at hj
      by_cases hthread : e.thread = thread
      · rw [if_pos hthread] at hj
        subst hthread
        exact ⟨events.length, e, getElem?_concat_length, rfl, by omega⟩
      · rw [if_neg hthread] at hj
        omega

theorem Numbered.last_eq (h : Numbered events) (thread : ℕ) :
    ((positions events (inThread thread)).getLast? = none ∧ threadCount events thread = 0) ∨
    ∃ (id : ℕ) (e : Event V), (positions events (inThread thread)).getLast? = some id ∧ events[id]? = some e ∧
      e.thread = thread ∧ e.index + 1 = threadCount events thread := by
  cases hlast : (positions events (inThread thread)).getLast? with
  | none =>
    refine .inl ⟨rfl, ?_⟩
    rw [getLast?_eq_none_iff] at hlast
    rw [threadCount, ← length_positions, hlast]
    rfl
  | some id =>
    obtain ⟨e, he, hthread⟩ := (mem_positions _ _ id).mp (mem_of_getLast? hlast)
    have hthread : e.thread = thread := of_decide_eq_true hthread
    subst hthread
    have hlt := h.index_lt he
    refine .inr ⟨id, e, rfl, he, rfl, ?_⟩
    by_contra hne
    obtain ⟨later, a, ha, hsame, hindex⟩ := h.exists_index e.thread (e.index + 1) (by omega)
    have hmem : later ∈ positions events (inThread e.thread) :=
      (mem_positions _ _ later).mpr ⟨a, ha, decide_eq_true hsame⟩
    -- a later entry of the table would be a larger id
    have hle : later ≤ id := by
      obtain ⟨init, hinit⟩ := getLast?_eq_some_iff.mp hlast
      have hascending := positions_ascending events (inThread e.thread)
      rw [hinit] at hmem hascending
      rcases mem_append.mp hmem with hmem | hmem
      · exact le_of_lt ((pairwise_append.mp hascending).2.2 later hmem id mem_cons_self)
      · exact Nat.le_of_eq (mem_singleton.mp hmem)
    have hcount := (h later a ha).1
    have hcount' := (h id e he).1
    have hmono : threadCount (events.take later) e.thread ≤ threadCount (events.take id) e.thread :=
      (take_sublist_take_left hle).countP_le
    rw [hsame] at hcount
    omega

namespace ExplorationGraph

theorem Tabulated.execution_ne_none_iff {g : ExplorationGraph V} (h : g.Tabulated) (thread i : ℕ) :
    g.graph.execution (thread, i) ≠ none ↔ i < threadCount g.graph.events thread := by
  rw [Ne, (h.indexOrdered g).execution_eq_none, not_forall]
  constructor
  · rintro ⟨id, hid⟩
    obtain ⟨e, he, hp⟩ := (g.graph.posAt_eq_some id _).mp (not_not.mp hid)
    obtain ⟨rfl, rfl⟩ := Prod.mk.inj hp
    exact h.numbered.index_lt he
  · intro hlt
    obtain ⟨id, e, he, hthread, hindex⟩ := h.numbered.exists_index thread i hlt
    exact ⟨id, not_not.mpr ((g.graph.posAt_eq_some id _).mpr ⟨e, he, by rw [hthread, hindex]⟩)⟩

theorem observe_ok (g : ExplorationGraph V) (hordered : g.graph.IndexOrdered)
    (hends : g.graph.ValidEndpoints) (hid : id < g.eventCount) :
    g.observe id = .ok ((g.graph.nodeAt id).bind g.graph.execution.observation) := by
  have hget : g.graph.events[id]? = some g.graph.events[id] := getElem?_eq_getElem hid
  have hevent : g.event id = .ok g.graph.events[id] := by
    unfold event ExecutionGraph.event
    rw [hget]
  unfold observe ExecutionGraph.nodeAt
  rw [hevent, hget]
  simp only [bind, Except.bind, Option.map_some, Option.bind_some, Execution.observation]
  cases hlabel : g.graph.events[id].label with
  | receive receive =>
    cases hfind : g.readsFrom.find id with
    | none =>
      rw [show g.graph.readsFrom.find id = none from hfind]
      rfl
    | some source =>
      rw [show g.graph.readsFrom.find id = some source from hfind]
      cases source with
      | bottom => rfl
      | send sourceId =>
        obtain ⟨es, send, hes, hsend⟩ := (hends id _ hfind).2 sourceId rfl
        have hsource : g.event sourceId = .ok es := by
          unfold event ExecutionGraph.event
          rw [hes]
        have hpos : g.graph.posAt sourceId = some (es.thread, es.index) :=
          (g.graph.posAt_eq_some _ _).mpr ⟨es, hes, rfl⟩
        have hnode : g.graph.execution (es.thread, es.index) =
            some ⟨es.label, (g.graph.readsFrom.find sourceId).bind g.graph.posSource⟩ := by
          rw [hordered.execution_of_posAt hpos, ExecutionGraph.nodeAt, hes]
          rfl
        simp only [hsource, hsend, Option.bind_some, ExecutionGraph.posSource, hpos, Option.map_some,
          Execution.delivered, hnode, EventLabel.asSend]
        rfl
  | nondeterministicChoice | send | block | error => rfl

theorem traceOf_ok (g : ExplorationGraph V) (hordered : g.graph.IndexOrdered)
    (hends : g.graph.ValidEndpoints) {ids : List ℕ} (hids : ∀ id ∈ ids, id < g.eventCount) :
    g.traceOf ids = .ok (ids.filterMap fun id => (g.graph.nodeAt id).bind g.graph.execution.observation) := by
  induction ids with
  | nil => rfl
  | cons id rest ih =>
    unfold traceOf
    rw [g.observe_ok hordered hends (hids id mem_cons_self),
      ih fun id hid => hids id (mem_cons_of_mem _ hid), filterMap_cons]
    cases (g.graph.nodeAt id).bind g.graph.execution.observation <;> rfl

theorem Tabulated.threadTrace_ok {g : ExplorationGraph V} (h : g.Tabulated)
    (hends : g.graph.ValidEndpoints) (thread : ℕ) :
    g.threadTrace thread =
      .ok (g.graph.execution.trace thread (threadCount g.graph.events thread)) := by
  unfold threadTrace
  rw [h.threadEventIds_eq g thread]
  show g.traceOf (positions g.graph.events (inThread thread)) = _
  rw [g.traceOf_ok (h.indexOrdered g) hends fun id hid => lt_of_mem_positions hid,
    h.numbered.positions_eq thread, filterMap_filterMap]
  congr 1
  refine filterMap_congr fun j _ => ?_
  exact (Option.bind_assoc (idIn g.graph.events (thread, j)) _ _).symm

end ExplorationGraph

/-! ## Growing a graph -/

namespace ExecutionGraph

theorem posSource_ne_none (g : ExecutionGraph V) (h : g.ValidEndpoints) {source : ReadsFromSource}
    (hfind : g.readsFrom.find id = some source) : ∃ q, g.posSource source = some q := by
  cases source with
  | bottom => exact ⟨.bottom, rfl⟩
  | send sourceId =>
    obtain ⟨es, -, hes, -⟩ := (h id _ hfind).2 sourceId rfl
    refine ⟨.send (es.thread, es.index), ?_⟩
    rw [posSource, (g.posAt_eq_some sourceId _).mpr ⟨es, hes, rfl⟩]
    rfl

theorem execution_concat {g g' : ExecutionGraph V} {source : Option ReadsFromSource}
    (hevents : g'.events = g.events ++ [e])
    (hrf : ∀ id, g'.readsFrom.find id = if id = g.events.length then source else g.readsFrom.find id)
    (hsource : ∀ id, source = some (.send id) → id < g.events.length)
    (hordered : g.IndexOrdered) (hordered' : g'.IndexOrdered) (hends : g.ValidEndpoints) :
    g'.execution =
      Function.update g.execution (e.thread, e.index) (some ⟨e.label, source.bind g.posSource⟩) := by
  have hold (id : ℕ) (hid : id < g.events.length) : g'.events[id]? = g.events[id]? := by
    rw [hevents, getElem?_append_left hid]
  have hpos (id : ℕ) (hid : id < g.events.length) : g'.posAt id = g.posAt id := by
    rw [posAt, hold id hid, posAt]
  have hposSource (s : ReadsFromSource) (hs : ∀ id, s = .send id → id < g.events.length) :
      g'.posSource s = g.posSource s := by
    cases s with
    | bottom => rfl
    | send id => rw [posSource, hpos id (hs id rfl), posSource]
  have hlast : g'.events[g.events.length]? = some e := by rw [hevents, getElem?_concat_length]
  have hnode (id : ℕ) (hid : id < g.events.length) : g'.nodeAt id = g.nodeAt id := by
    rw [nodeAt, hold id hid, hrf, if_neg (ne_of_lt hid), nodeAt]
    cases hfind : g.readsFrom.find id with
    | none => rfl
    | some s =>
      rw [Option.bind_some, Option.bind_some, hposSource s]
      rintro sourceId rfl
      obtain ⟨es, -, hes, -⟩ := (hends id _ hfind).2 sourceId rfl
      exact lt_of_getElem? hes
  funext p
  by_cases hp : p = (e.thread, e.index)
  · subst hp
    rw [Function.update_self, hordered'.execution_of_posAt
      ((g'.posAt_eq_some _ _).mpr ⟨e, hlast, rfl⟩), nodeAt, hlast, hrf, if_pos rfl]
    cases source with
    | none => rfl
    | some s =>
      rw [Option.bind_some, hposSource s fun id hs => hsource id (congrArg some hs)]
      rfl
  · rw [Function.update_of_ne hp]
    by_cases hid : ∃ id, g.posAt id = some p
    · obtain ⟨id, hid⟩ := hid
      obtain ⟨a, ha, -⟩ := (g.posAt_eq_some id p).mp hid
      have hlt := lt_of_getElem? ha
      rw [hordered.execution_of_posAt hid, ← hnode id hlt]
      exact hordered'.execution_of_posAt ((hpos id hlt).trans hid)
    · rw [(hordered.execution_eq_none p).mpr fun id h => hid ⟨id, h⟩]
      refine (hordered'.execution_eq_none p).mpr fun id h => ?_
      obtain ⟨a, ha, hap⟩ := (g'.posAt_eq_some id p).mp h
      have hlt := lt_of_getElem? ha
      rw [hevents, length_append, length_singleton] at hlt
      rcases Nat.lt_succ_iff_lt_or_eq.mp hlt with hlt | rfl
      · exact hid ⟨id, (hpos id hlt).symm.trans h⟩
      · rw [hlast] at ha
        cases ha
        exact hp hap.symm

end ExecutionGraph

/-! ## Restricting a graph -/

namespace ExplorationGraph
variable {g child : ExplorationGraph V} {mask : List Bool} (h : g.Selects mask child)
include h

variable {newId : ℕ}

theorem Selects.posAt (hid : remapId mask id = some newId) : child.graph.posAt newId = g.graph.posAt id := by
  rw [ExecutionGraph.posAt, h.event id newId hid, ExecutionGraph.posAt]

theorem Selects.execution_kept (hid : remapId mask id = some newId)
    (hp : g.graph.posAt id = some p) {source : Option PosSource}
    (hsource : (child.graph.readsFrom.find newId).bind child.graph.posSource = source) :
    child.graph.execution p = (g.graph.events[id]?).map fun e => ⟨e.label, source⟩ := by
  rw [(h.tabulated.indexOrdered child).execution_of_posAt
    ((h.posAt hid).trans hp), ExecutionGraph.nodeAt, h.event id newId hid, hsource]

theorem Selects.exists_kept {n : Node V} (hn : child.graph.execution p = some n) :
    ∃ id newId, remapId mask id = some newId ∧ g.graph.posAt id = some p := by
  obtain ⟨newId, hpos, -⟩ := ((h.tabulated.indexOrdered child).execution_eq_some p n).mp hn
  obtain ⟨e, he, -⟩ := (child.graph.posAt_eq_some newId p).mp hpos
  obtain ⟨id, -, hid⟩ := h.exists_old (lt_of_getElem? he)
  exact ⟨id, newId, hid, (h.posAt hid).symm.trans hpos⟩

theorem Selects.execution_dropped {p : Pos} (hp : ∀ id, g.graph.posAt id = some p → remapId mask id = none) :
    child.graph.execution p = none := by
  by_contra hsome
  obtain ⟨n, hn⟩ := Option.ne_none_iff_exists'.mp hsome
  obtain ⟨id, newId, hid, hpos⟩ := h.exists_kept hn
  exact absurd (hid.symm.trans (hp id hpos)) nofun

omit h in
theorem RestrictsTo.execution_same (h : g.RestrictsTo mask child) (hordered : g.graph.IndexOrdered)
    (hends : g.graph.ValidEndpoints) (hid : remapId mask id = some newId) (hp : g.graph.posAt id = some p)
    (hsource : ∀ src, g.graph.readsFrom.find id = some (.send src) → ∃ newSrc, remapId mask src = some newSrc) :
    child.graph.execution p = g.graph.execution p := by
  rw [h.execution_kept hid hp rfl, hordered.execution_of_posAt hp, ExecutionGraph.nodeAt,
    h.reads id newId hid]
  congr 1
  funext e
  congr 1
  cases hfind : g.graph.readsFrom.find id with
  | none => rfl
  | some source =>
    cases source with
    | bottom => rfl
    | send src =>
      obtain ⟨newSrc, hnew⟩ := hsource src hfind
      obtain ⟨es, send, hes, -⟩ := (hends id _ hfind).2 src rfl
      simp only [Option.bind_some, remapSource, hnew, Option.map_some, ExecutionGraph.posSource,
        h.posAt hnew]

end ExplorationGraph
end MustDpor

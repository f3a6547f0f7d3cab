import MustDpor.Foundations.Selection
import MustDpor.Model.Fifo
import MustDpor.Model.Robustness

/-! # Induced subgraphs

`restrict_from_keep_mask` for any keep mask. Threads and labels of the kept events stay, indices are handed
out afresh, entries are carried along the new ids where both ends are kept. Program order and reads-from
between kept events are then the same in both graphs. -/

namespace MustDpor
set_option autoImplicit false
open List Relation WorkerGraph

variable {V : Type}

namespace ExplorationGraph

theorem Tabulated.addEvent_ok {g : ExplorationGraph V} (h : g.Tabulated) {thread : ℕ} (label : EventLabel V)
    (hthread : thread ≤ kMaxThreadId) (hcount : threadCount g.graph.events thread ≤ maxEventIndex) :
    g.addEvent thread label = .ok (g.eventCount,
      g.appended thread (threadCount g.graph.events thread) label) := by
  have hnext : g.graph.nextEventIndex thread = .ok (threadCount g.graph.events thread) := by
    rw [h.tables, nextEventIndex_tabulate _ _ _ _ (h.numbered.threadCount_le thread),
      if_neg (not_lt.mpr hthread), if_pos hcount]
    rfl
  rw [addEvent_eq, hnext]
  rfl

theorem bulkBuild_returns (events : List (Event V)) (g : ExplorationGraph V) (h : g.Tabulated)
    (hthreads : ∀ e ∈ events, e.thread ≤ kMaxThreadId)
    (hcounts : ∀ tid, threadCount (g.graph.events ++ events) tid ≤ maxEventIndex + 1) :
    ∃ built, bulkBuild events g = .ok built := by
  induction events generalizing g with
  | nil => exact ⟨g, rfl⟩
  | cons e rest ih =>
    have hcount : threadCount g.graph.events e.thread ≤ maxEventIndex := by
      have hall := hcounts e.thread
      have hself : inThread e.thread e = true := decide_eq_true rfl
      unfold threadCount at hall ⊢
      rw [countP_append, countP_cons_of_pos hself] at hall
      omega
    have hadd := h.addEvent_ok e.label (hthreads e mem_cons_self) hcount
    obtain ⟨built, hbuilt⟩ := ih _ (h.addEvent g _ e.thread _ e.label hadd)
      (fun e' he' => hthreads e' (mem_cons_of_mem _ he')) fun tid => by
        have hall := hcounts tid
        rw [appended_events]
        unfold threadCount inThread at hall ⊢
        rw [append_assoc, singleton_append, countP_append, countP_cons]
        rwa [countP_append, countP_cons] at hall
    refine ⟨built, ?_⟩
    rw [bulkBuild_cons, hadd]
    exact hbuilt

/-! ## The entries of a restriction -/

/-- A source under the new ids; nothing where the send is dropped. -/
def remapSource (keepMask : List Bool) : ReadsFromSource → Option ReadsFromSource
  | .bottom => some .bottom
  | .send id => (remapId keepMask id).map .send

variable {source : ReadsFromSource}

theorem assignReadsFrom_readsFrom {g g' : ExplorationGraph V} {recv : ℕ}
    (h : g.assignReadsFrom recv source = .ok g') :
    g'.graph.readsFrom = g.graph.readsFrom.set recv source := by
  obtain ⟨a, b, known, pending, -, -, rfl⟩ := assignReadsFrom_inv h
  rfl

theorem remapReadsFrom_cons {mask : List Bool} {recvId : ℕ}
    {rest : List (ℕ × ReadsFromSource)} {g g' : ExplorationGraph V}
    (h : remapReadsFrom mask ((recvId, source) :: rest) g = .ok g') :
    (∃ newId newSource a, remapId mask recvId = some newId ∧
      remapSource mask source = some newSource ∧ g.assignReadsFrom newId newSource = .ok a ∧
      remapReadsFrom mask rest a = .ok g') ∨
    ((remapId mask recvId = none ∨ remapSource mask source = none) ∧
      remapReadsFrom mask rest g = .ok g') := by
  unfold remapReadsFrom at h
  split at h
  · cases h
  · cases hrecv : remapId mask recvId with
    | none =>
      rw [hrecv] at h
      exact .inr ⟨.inl rfl, h⟩
    | some newId =>
      rw [hrecv] at h
      cases source with
      | bottom =>
        obtain ⟨a, ha, hrest⟩ := Except.bind_ok_iff.mp h
        exact .inl ⟨newId, .bottom, a, rfl, rfl, ha, hrest⟩
      | send sendId =>
        dsimp only at h
        split at h
        · cases h
        · cases hsend : remapId mask sendId with
          | none =>
            rw [hsend] at h
            exact .inr ⟨.inr (by rw [remapSource, hsend]; rfl), h⟩
          | some newSource =>
            rw [hsend] at h
            obtain ⟨a, ha, hrest⟩ := Except.bind_ok_iff.mp h
            exact .inl ⟨newId, .send newSource, a, rfl, by rw [remapSource, hsend]; rfl, ha, hrest⟩

theorem remapReadsFrom_find (mask : List Bool) (entries : List (ℕ × ReadsFromSource))
    (hascending : entries.Pairwise (fun a b => a.1 < b.1)) (g g' : ExplorationGraph V)
    (h : remapReadsFrom mask entries g = .ok g') (id newId : ℕ) (hid : remapId mask id = some newId) :
    g'.graph.readsFrom.find newId =
      ((AscendingMap.findEntry id entries).bind (remapSource mask)).or (g.graph.readsFrom.find newId) := by
  induction entries generalizing g with
  | nil =>
    cases h
    rfl
  | cons entry rest ih =>
    obtain ⟨recvId, source⟩ := entry
    obtain ⟨hhead, htail⟩ := pairwise_cons.mp hascending
    rw [AscendingMap.findEntry]
    rcases remapReadsFrom_cons h with
      ⟨m, newSource, a, hm, hsource, ha, hrest⟩ | ⟨hnone, hrest⟩
    · rw [ih htail a hrest, assignReadsFrom_readsFrom ha, AscendingMap.find_set]
      by_cases heq : recvId = id
      · subst heq
        obtain rfl : newId = m := Option.some.inj (hid.symm.trans hm)
        rw [if_pos rfl, if_pos rfl, AscendingMap.findEntry_none_of_lt recvId fun x hx => hhead x hx]
        show (none : Option ReadsFromSource).or _ = (remapSource mask source).or _
        rw [hsource]
        rfl
      · have hne : newId ≠ m := by
          rintro rfl
          exact heq (place_injective hm hid)
        rw [if_neg heq, if_neg hne]
    · rw [ih htail g hrest]
      by_cases heq : recvId = id
      · subst heq
        rw [if_pos rfl, AscendingMap.findEntry_none_of_lt recvId fun x hx => hhead x hx]
        show (none : Option ReadsFromSource).or _ = (remapSource mask source).or _
        rcases hnone with hnone | hnone
        · rw [hnone] at hid
          cases hid
        · rw [hnone]
      · rw [if_neg heq]

theorem remapReadsFrom_find_other (mask : List Bool) (entries : List (ℕ × ReadsFromSource))
    (g g' : ExplorationGraph V) (h : remapReadsFrom mask entries g = .ok g') (newId : ℕ)
    (hother : ∀ id, remapId mask id ≠ some newId) :
    g'.graph.readsFrom.find newId = g.graph.readsFrom.find newId := by
  induction entries generalizing g with
  | nil =>
    cases h
    rfl
  | cons entry rest ih =>
    obtain ⟨recvId, source⟩ := entry
    rcases remapReadsFrom_cons h with
      ⟨m, newSource, a, hm, -, ha, hrest⟩ | ⟨-, hrest⟩
    · rw [ih a hrest, assignReadsFrom_readsFrom ha, AscendingMap.find_set]
      rw [if_neg]
      rintro rfl
      exact hother recvId hm
    · exact ih g hrest

/-! ## The restriction -/

/-- Every entry lies between events of the graph, whatever their kind. -/
def ReadsExist (g : ExplorationGraph V) : Prop :=
  ∀ receiveId source, g.graph.readsFrom.find receiveId = some source →
    receiveId < g.eventCount ∧ ∀ id, source = .send id → id < g.eventCount

theorem readsExist_of_validEndpoints (g : ExplorationGraph V) (h : g.graph.ValidEndpoints) : g.ReadsExist := by
  intro recv source hfind
  obtain ⟨⟨e, -, he, -⟩, hsend⟩ := h recv source hfind
  refine ⟨lt_of_getElem? he, fun id hid => ?_⟩
  obtain ⟨es, -, hes, -⟩ := hsend id hid
  exact lt_of_getElem? hes

/-- `g'` is what a keep mask leaves of `g`. -/
structure Induces (g : ExplorationGraph V) (keepMask : List Bool) (g' : ExplorationGraph V) : Prop where
  size : keepMask.length = g.eventCount
  tabulated : g'.Tabulated
  counted : g'.Counted
  shapes : g'.graph.events.map shape = (select g.graph.events keepMask).map shape
  reads : ∀ id newId, remapId keepMask id = some newId →
    g'.graph.readsFrom.find newId = (g.graph.readsFrom.find id).bind (remapSource keepMask)
  no_reads : ∀ newId, (∀ id, remapId keepMask id ≠ some newId) → g'.graph.readsFrom.find newId = none
  flag : g'.knownAcyclic = g.knownAcyclic

theorem Tabulated.restrictMasked_induces (g : ExplorationGraph V) (h : g.Tabulated) (hreads : g.ReadsExist)
    (mask : List Bool) (hlen : mask.length = g.eventCount) :
    ∃ g', g.restrictMasked mask = .ok g' ∧ g.Induces mask g' := by
  obtain ⟨built, hbuilt⟩ := bulkBuild_returns (select g.graph.events mask) empty empty_tabulated
    (fun e he => by
      obtain ⟨id, hid⟩ := getElem?_of_mem ((select_sublist g.graph.events mask).subset he)
      exact (h.numbered id e hid).2.2)
    fun tid => (countP_keptEvents_le g.graph.events mask _).trans (h.numbered.threadCount_le tid)
  obtain ⟨hsound, hcounted, hempty⟩ := bulkBuild_counted hbuilt
  obtain ⟨remapped, hremapped⟩ := built.remapReadsFrom_ok mask
    (by rw [hlen]; exact h.numbered.length_lt) g.readsFrom.entries (fun entry hentry => by
      obtain ⟨hrecv, hsource⟩ := hreads entry.1 entry.2 (AscendingMap.mem_entries.mp hentry)
      rw [hlen]
      exact ⟨hrecv, fun _ => hsource⟩) hsound hcounted
  have hrestrict : g.restrictMasked mask = .ok (remapped.withMetadata g.knownAcyclic none) := by
    unfold restrictMasked
    rw [if_neg (not_not.mpr hlen)]
    show (bulkBuild (select g.graph.events mask) empty >>= _) = _
    rw [hbuilt]
    show (remapReadsFrom mask g.readsFrom.entries built >>= _) = _
    rw [hremapped]
    cases hknown : g.knownAcyclic <;> rfl
  have hnone (newId : ℕ) : built.graph.readsFrom.find newId = none := by
    rw [hempty]
    rfl
  exact ⟨_, hrestrict,
    { size := hlen
      tabulated := restrictMasked_tabulated hrestrict
      counted := restrictMasked_counted hrestrict
      shapes := restrictMasked_shape hrestrict
      reads := fun id newId hid => by
        show remapped.graph.readsFrom.find newId = _
        rw [remapReadsFrom_find mask _ g.graph.readsFrom.ascending built remapped hremapped id newId hid,
          hnone, Option.or_none]
        rfl
      no_reads := fun newId hother => by
        show remapped.graph.readsFrom.find newId = _
        rw [remapReadsFrom_find_other mask _ built remapped hremapped newId hother, hnone]
      flag := rfl }⟩

section Induced
variable {g g' : ExplorationGraph V} {mask : List Bool} (h : g.Induces mask g')
include h

variable {id newId : ℕ}

theorem Induces.shape_eq (hid : remapId mask id = some newId) :
    (g'.graph.events[newId]?).map shape = (g.graph.events[id]?).map shape := by
  rw [← getElem?_map, h.shapes, getElem?_map]
  exact congrArg _ (getElem?_select g.graph.events mask id newId hid)

theorem Induces.event {e : Event V} (hid : remapId mask id = some newId) (he : g.graph.events[id]? = some e) :
    ∃ e', g'.graph.events[newId]? = some e' ∧ e'.thread = e.thread ∧ e'.label = e.label := by
  have hshape := h.shape_eq hid
  rw [he] at hshape
  obtain ⟨e', he', hsame⟩ := Option.map_eq_some_iff.mp hshape
  exact ⟨e', he', congrArg Prod.fst hsame, congrArg Prod.snd hsame⟩

theorem Induces.old_event {e' : Event V} (hid : remapId mask id = some newId)
    (he' : g'.graph.events[newId]? = some e') :
    ∃ e, g.graph.events[id]? = some e ∧ e'.thread = e.thread ∧ e'.label = e.label := by
  have hshape := h.shape_eq hid
  rw [he'] at hshape
  obtain ⟨e, he, hsame⟩ := Option.map_eq_some_iff.mp hshape.symm
  exact ⟨e, he, congrArg Prod.fst hsame.symm, congrArg Prod.snd hsame.symm⟩

theorem Induces.eventCount_eq : g'.eventCount = (select g.graph.events mask).length := by
  have hlength := congrArg length h.shapes
  rwa [length_map, length_map] at hlength

theorem Induces.exists_old (newId : ℕ) (hnew : newId < g'.eventCount) :
    ∃ id, id < g.eventCount ∧ remapId mask id = some newId :=
  exists_of_lt_select g.graph.events mask newId (hnew.trans_eq h.eventCount_eq)

theorem Induces.programOrder_iff (hordered : g.graph.IndexOrdered) (a b newA newB : ℕ)
    (ha : remapId mask a = some newA) (hb : remapId mask b = some newB) :
    g'.graph.ProgramOrder newA newB ↔ g.graph.ProgramOrder a b := by
  rw [hordered.programOrder_iff g.graph, (h.tabulated.indexOrdered g').programOrder_iff g'.graph,
    place_lt_iff mask a b newA newB ha hb]
  refine and_congr_right fun _ => ?_
  constructor
  · rintro ⟨ea', eb', hea', heb', hthread⟩
    obtain ⟨ea, hea, hta, -⟩ := h.old_event ha hea'
    obtain ⟨eb, heb, htb, -⟩ := h.old_event hb heb'
    exact ⟨ea, eb, hea, heb, hta.symm.trans (hthread.trans htb)⟩
  · rintro ⟨ea, eb, hea, heb, hthread⟩
    obtain ⟨ea', hea', hta, -⟩ := h.event ha hea
    obtain ⟨eb', heb', htb, -⟩ := h.event hb heb
    exact ⟨ea', eb', hea', heb', hta.trans (hthread.trans htb.symm)⟩

variable {newR : ℕ}

theorem Induces.exists_entry (hfind : g'.graph.readsFrom.find newR = some source) :
    ∃ r old, remapId mask r = some newR ∧ g.graph.readsFrom.find r = some old ∧
      remapSource mask old = some source := by
  by_cases hr : ∃ r, remapId mask r = some newR
  · obtain ⟨r, hr⟩ := hr
    rw [h.reads r newR hr] at hfind
    obtain ⟨old, hold, hsource⟩ := Option.bind_eq_some_iff.mp hfind
    exact ⟨r, old, hr, hold, hsource⟩
  · rw [h.no_reads newR fun id hid => hr ⟨id, hid⟩] at hfind
    cases hfind

variable {newS : ℕ}

theorem Induces.exists_read (hreads : g'.graph.ReadsFrom newS newR) :
    ∃ s r, remapId mask s = some newS ∧ remapId mask r = some newR ∧ g.graph.ReadsFrom s r := by
  obtain ⟨r, old, hr, hold, hsource⟩ := h.exists_entry hreads
  cases old with
  | bottom => cases hsource
  | send s =>
    obtain ⟨m, hm, hmap⟩ := Option.map_eq_some_iff.mp hsource
    cases hmap
    exact ⟨s, r, hm, hr, hold⟩

theorem Induces.readsFrom_iff {s r : ℕ} (hs : remapId mask s = some newS)
    (hr : remapId mask r = some newR) : g'.graph.ReadsFrom newS newR ↔ g.graph.ReadsFrom s r := by
  constructor
  · intro hreads
    obtain ⟨s', r', hs', hr', hold⟩ := h.exists_read hreads
    rwa [place_injective hs hs', place_injective hr hr']
  · intro hreads
    unfold ExecutionGraph.ReadsFrom at hreads ⊢
    rw [h.reads r newR hr, hreads]
    show remapSource mask (.send s) = _
    rw [remapSource, hs]
    rfl

/-! ## Reachability -/

theorem Induces.porf_iff (hordered : g.graph.IndexOrdered) {a b newA newB : ℕ}
    (ha : remapId mask a = some newA) (hb : remapId mask b = some newB) :
    g'.graph.Porf newA newB ↔ g.graph.Porf a b :=
  or_congr (h.programOrder_iff hordered a b newA newB ha hb) (h.readsFrom_iff ha hb)

theorem Induces.porf_kept {newA newB : ℕ} (hporf : g'.graph.Porf newA newB) :
    ∃ a b, remapId mask a = some newA ∧ remapId mask b = some newB := by
  rcases hporf with hpo | hread
  · obtain ⟨halt, hblt⟩ := ExecutionGraph.ProgramOrder.lt_length g'.graph newA newB hpo
    obtain ⟨a, -, ha⟩ := h.exists_old newA halt
    obtain ⟨b, -, hb⟩ := h.exists_old newB hblt
    exact ⟨a, b, ha, hb⟩
  · obtain ⟨a, b, ha, hb, -⟩ := h.exists_read hread
    exact ⟨a, b, ha, hb⟩

theorem Induces.reaches_of (hordered : g.graph.IndexOrdered) (a b newA newB : ℕ)
    (ha : remapId mask a = some newA) (hb : remapId mask b = some newB)
    (hpath : TransGen g'.graph.Porf newA newB) : TransGen g.graph.Porf a b := by
  induction hpath generalizing b with
  | single hstep => exact .single ((h.porf_iff hordered ha hb).mp hstep)
  | tail _ hstep ih =>
    obtain ⟨c, _, hc, -⟩ := h.porf_kept hstep
    exact (ih c hc).tail ((h.porf_iff hordered hc hb).mp hstep)

theorem Induces.acyclic (hordered : g.graph.IndexOrdered) (hacyclic : g.graph.Acyclic) : g'.graph.Acyclic := by
  intro newId hcycle
  obtain ⟨next, hstep, -⟩ := TransGen.head'_iff.mp hcycle
  obtain ⟨id, _, hid, -⟩ := h.porf_kept hstep
  exact hacyclic id (h.reaches_of hordered id id newId newId hid hid hcycle)

theorem Induces.reaches_iff (hordered : g.graph.IndexOrdered)
    (hclosed : ∀ a b, g.graph.Porf a b → mask.getD b false = true → mask.getD a false = true)
    (a b newA newB : ℕ) (ha : remapId mask a = some newA) (hb : remapId mask b = some newB) :
    TransGen g'.graph.Porf newA newB ↔ TransGen g.graph.Porf a b := by
  refine ⟨h.reaches_of hordered a b newA newB ha hb, fun hpath => ?_⟩
  induction hpath generalizing newB with
  | single hstep => exact .single ((h.porf_iff hordered ha hb).mpr hstep)
  | tail _ hstep ih =>
    obtain ⟨newC, hc⟩ := exists_place mask _ (hclosed _ _ hstep (marked_of_place mask _ newB hb))
    exact (ih newC hc).tail ((h.porf_iff hordered hc hb).mpr hstep)

/-! ## Consistency -/

theorem Induces.validEndpoints (hends : g.graph.ValidEndpoints) : g'.graph.ValidEndpoints := by
  intro newR source hfind
  obtain ⟨r, old, hr, hold, hsource⟩ := h.exists_entry hfind
  obtain ⟨⟨e, receive, he, hlabel⟩, hsend⟩ := hends r old hold
  obtain ⟨e', he', -, hlabel'⟩ := h.event hr he
  refine ⟨⟨e', receive, he', hlabel'.trans hlabel⟩, ?_⟩
  rintro newS rfl
  cases old with
  | bottom => cases hsource
  | send s =>
    obtain ⟨m, hm, hmap⟩ := Option.map_eq_some_iff.mp hsource
    obtain rfl := ReadsFromSource.send.inj hmap
    obtain ⟨es, send, hes, hsend⟩ := hsend s rfl
    obtain ⟨es', hes', -, hsend'⟩ := h.event hm hes
    exact ⟨es', send, hes', hsend'.trans hsend⟩

/-- A subgraph of a consistent graph has no issue but missing reads, and those only where it is told to
overlook them. -/
theorem Induces.async (hordered : g.graph.IndexOrdered) (hc : g.graph.AsyncConsistent) {tolerance : ℕ → Bool}
    (hkept : ∀ r newR s, remapId mask r = some newR → g.graph.ReadsFrom s r →
      tolerance newR = false → ∃ newS, remapId mask s = some newS) :
    g'.graph.AsyncConsistentExcept tolerance where
  endpoints := h.validEndpoints hc.endpoints
  assigned := by
    intro newR e' receive he' hlabel'
    obtain ⟨r, -, hr⟩ := h.exists_old newR (lt_of_getElem? he')
    obtain ⟨e, he, -, hlabel⟩ := h.old_event hr he'
    obtain ⟨hassigned, hblocking⟩ := hc.assigned r e receive he (hlabel.symm.trans hlabel')
    rw [h.reads r newR hr]
    obtain ⟨source, hsource⟩ := Option.ne_none_iff_exists'.mp hassigned
    rw [hsource] at hblocking ⊢
    cases source with
    | bottom => exact ⟨fun _ => Option.some_ne_none _, hblocking⟩
    | send s =>
      refine ⟨fun hstrict => ?_, fun _ hbottom => ?_⟩
      · obtain ⟨newS, hs⟩ := hkept r newR s hr hsource hstrict
        show (remapId mask s).map ReadsFromSource.send ≠ none
        rw [hs]
        exact Option.some_ne_none _
      · obtain ⟨newS, -, hcontra⟩ := Option.map_eq_some_iff.mp
          (show (remapId mask s).map ReadsFromSource.send = some .bottom from hbottom)
        cases hcontra
  exclusive := by
    intro newS newR newR' hread hread'
    obtain ⟨s, r, hs, hr, hold⟩ := h.exists_read hread
    obtain ⟨s', r', hs', hr', hold'⟩ := h.exists_read hread'
    obtain rfl := place_injective hs hs'
    obtain rfl := hc.exclusive s r r' hold hold'
    exact Option.some.inj (hr.symm.trans hr')
  delivered := by
    intro newS newR hread es' er' send receive hes' hsend her' hreceive
    obtain ⟨s, r, hs, hr, hold⟩ := h.exists_read hread
    obtain ⟨es, hes, -, hsame⟩ := h.old_event hs hes'
    obtain ⟨er, her, hthread, hsame'⟩ := h.old_event hr her'
    rw [hthread]
    exact hc.delivered s r hold es er send receive hes (hsame.symm.trans hsend) her (hsame'.symm.trans hreceive)
  acyclic := h.acyclic hordered hc.acyclic

theorem Induces.channel?_eq (hid : remapId mask id = some newId) :
    g'.graph.channel? newId = g.graph.channel? id := by
  have hshape := h.shape_eq hid
  unfold ExecutionGraph.channel?
  cases he : g.graph.events[id]? with
  | none =>
    rw [he] at hshape
    rw [Option.map_eq_none_iff.mp hshape]
  | some e =>
    obtain ⟨e', he', hthread, hlabel⟩ := h.event hid he
    rw [he']
    dsimp only [Option.bind_some]
    rw [hthread, hlabel]

theorem Induces.consumerAccepts_eq {r s : ℕ} (hr : remapId mask r = some newR)
    (hs : remapId mask s = some newS) :
    consumerAccepts g'.graph newR newS = consumerAccepts g.graph r s := by
  rw [Bool.eq_iff_iff, consumerAccepts_iff, consumerAccepts_iff]
  constructor
  · rintro ⟨er', es', receive, send, her', hes', hreceive, hsend, haccepts⟩
    obtain ⟨er, her, -, hsame⟩ := h.old_event hr her'
    obtain ⟨es, hes, -, hsame'⟩ := h.old_event hs hes'
    exact ⟨er, es, receive, send, her, hes, hsame.symm.trans hreceive, hsame'.symm.trans hsend, haccepts⟩
  · rintro ⟨er, es, receive, send, her, hes, hreceive, hsend, haccepts⟩
    obtain ⟨er', her', -, hsame⟩ := h.event hr her
    obtain ⟨es', hes', -, hsame'⟩ := h.event hs hes
    exact ⟨er', es', receive, send, her', hes', hsame.trans hreceive, hsame'.trans hsend, haccepts⟩

theorem Induces.fifo (hordered : g.graph.IndexOrdered)
    (hkept : ∀ s r' r, g.graph.ReadsFrom s r' → g.graph.ProgramOrder r' r → mask.getD r false = true →
      mask.getD r' false = true) (hc : g.graph.FifoConsistent) : g'.graph.FifoConsistent := by
  intro newS newR hread newS' hchannel hlt haccepts
  obtain ⟨s, r, hs, hr, hold⟩ := h.exists_read hread
  obtain ⟨-, es', -, -, -, hes', -⟩ := (consumerAccepts_iff _ newR newS').mp haccepts
  obtain ⟨s', -, hs'⟩ := h.exists_old newS' (lt_of_getElem? hes')
  rw [h.channel?_eq hs', h.channel?_eq hs] at hchannel
  rw [h.consumerAccepts_eq hr hs'] at haccepts
  obtain ⟨r', hread', hpo⟩ := hc s r hold s' hchannel
    ((place_lt_iff mask s' s newS' newS hs' hs).mp hlt) haccepts
  -- the receive that took the earlier message is kept with its successor
  obtain ⟨newR', hr'⟩ := exists_place mask r' (hkept s' r' r hread' hpo (marked_of_place mask r newR hr))
  exact ⟨newR', (h.readsFrom_iff hs' hr').mpr hread',
    (h.programOrder_iff hordered r' r newR' newR hr' hr).mpr hpo⟩

end Induced

end ExplorationGraph
end MustDpor

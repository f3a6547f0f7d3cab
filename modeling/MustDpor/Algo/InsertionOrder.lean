import MustDpor.Algo.Approach
import MustDpor.Algo.Explored

/-! # The order of insertion

The positions of a graph in the order in which the search inserted them, Blocks apart, and what becomes of it when
the graph grows, a Block is taken out or a receive is revisited. A backward revisit of the search is one in the
sense of executions. -/

namespace MustDpor
set_option autoImplicit false
open List Function Relation ExecutionGraph

variable {V : Type}

/-! ## Positions in order -/

def orderOf (events : List (Event V)) : List Pos :=
  (events.filter fun e => !e.label.isBlock).map fun e => (e.thread, e.index)

theorem orderOf_append (events events' : List (Event V)) : orderOf
    (events ++ events') = orderOf events ++ orderOf events' := by
  unfold orderOf
  rw [filter_append, map_append]

theorem orderOf_cons_open (e : Event V) (events : List (Event V)) (he : e.label.isBlock = false) :
    orderOf (e :: events) = (e.thread, e.index) :: orderOf events := by
  unfold orderOf
  rw [filter_cons_of_pos (by rw [he]; rfl), map_cons]

theorem orderOf_cons_block (e : Event V) (events : List (Event V)) (he : e.label.isBlock = true) :
    orderOf (e :: events) = orderOf events := by
  unfold orderOf
  rw [filter_cons_of_neg (by rw [he]; exact Bool.false_ne_true)]

theorem mem_orderOf (events : List (Event V)) (p : Pos) :
    p ∈ orderOf events ↔ ∃ e ∈ events, e.label.isBlock = false ∧ (e.thread, e.index) = p := by
  unfold orderOf
  simp only [mem_map, mem_filter, Bool.not_eq_true', and_assoc]

/-- A position of the order is that of an event, with the positions before it those of the events before it. -/
theorem orderOf_split (events : List (Event V)) (before after : List Pos) (p : Pos)
    (h : orderOf events = before ++ p :: after) :
    ∃ front e rest, events = front ++ e :: rest ∧ orderOf front = before ∧ (e.thread, e.index) = p ∧
      e.label.isBlock = false := by
  induction events generalizing before with
  | nil => simp [orderOf] at h
  | cons e events ih =>
    cases hblock : e.label.isBlock with
    | true =>
      rw [orderOf_cons_block e events hblock] at h
      obtain ⟨front, e', rest, rfl, rfl, hp, hopen⟩ := ih before h
      exact ⟨e :: front, e', rest, rfl, orderOf_cons_block e front hblock, hp, hopen⟩
    | false =>
      rw [orderOf_cons_open e events hblock] at h
      cases before with
      | nil => exact ⟨[], e, events, rfl, rfl, (cons.inj h).1, hblock⟩
      | cons first before =>
        obtain ⟨rfl, htail⟩ := cons.inj h
        obtain ⟨front, e', rest, rfl, rfl, hp, hopen⟩ := ih before htail
        exact ⟨e :: front, e', rest, rfl, orderOf_cons_open e front hblock, hp, hopen⟩

variable {id : ℕ}

namespace ExecutionGraph

def order (g : ExecutionGraph V) : List Pos := orderOf g.events

section Order
variable (g : ExecutionGraph V) (hordered : g.IndexOrdered)
include hordered

theorem IndexOrdered.mem_order (p : Pos) : p ∈ g.order ↔ ∃ n, g.execution p = some n ∧ n.label.isBlock = false := by
  unfold order
  rw [mem_orderOf]
  constructor
  · rintro ⟨e, he, hopen, rfl⟩
    obtain ⟨id, hid⟩ := getElem?_of_mem he
    exact ⟨_, hordered.execution_event hid, hopen⟩
  · rintro ⟨n, hn, hopen⟩
    obtain ⟨id, hpos, hnode⟩ := (hordered.execution_eq_some p n).mp hn
    obtain ⟨e, he, rfl⟩ := (g.posAt_eq_some id p).mp hpos
    rw [nodeAt, he] at hnode
    cases hnode
    exact ⟨e, mem_of_getElem? he, hopen, rfl⟩

theorem IndexOrdered.order_nodup : g.order.Nodup := by
  refine List.Nodup.map_on ?_ (List.Nodup.filter _ ?_)
  · intro e he e' he' hsame
    obtain ⟨id, hid⟩ := getElem?_of_mem (mem_of_mem_filter he)
    obtain ⟨id', hid'⟩ := getElem?_of_mem (mem_of_mem_filter he')
    obtain rfl := hordered.posAt_injective ((g.posAt_eq_some id _).mpr ⟨e, hid, rfl⟩)
      ((g.posAt_eq_some id' _).mpr ⟨e', hid', hsame.symm⟩)
    exact Option.some.inj (hid.symm.trans hid')
  · rw [nodup_iff_getElem?_ne_getElem?]
    intro i j hlt hj hsame
    have he := getElem?_eq_getElem hj
    have hindex := hordered i j _ _ hlt (hsame.trans he) he rfl
    exact absurd hindex (lt_irrefl _)

theorem IndexOrdered.mem_front {front rest : List (Event V)} (hevents : g.events = front ++ rest) {e : Event V}
    (he : g.events[id]? = some e) (hopen : e.label.isBlock = false) :
    (e.thread, e.index) ∈ orderOf front ↔ id < front.length := by
  rw [mem_orderOf]
  constructor
  · rintro ⟨e', he', -, hsame⟩
    obtain ⟨id', hid'⟩ := getElem?_of_mem he'
    have hlt := lt_of_getElem? hid'
    have hid : g.events[id']? = some e' := by rw [hevents, getElem?_append_left hlt, hid']
    obtain rfl := hordered.posAt_injective ((g.posAt_eq_some id _).mpr ⟨e, he, rfl⟩)
      ((g.posAt_eq_some id' _).mpr ⟨e', hid, hsame⟩)
    exact hlt
  · intro hlt
    rw [hevents, getElem?_append_left hlt] at he
    exact ⟨e, mem_of_getElem? he, hopen, rfl⟩

end Order

section Whole
variable {g : ExecutionGraph V} {model : CommunicationModel} (hordered : g.IndexOrdered)
  (h : g.execution.Consistent model)
  (hlast : ∀ thread i n, g.execution (thread, i) = some n → n.label = .block → g.execution (thread, i + 1) = none)
include hordered

theorem on_order_ne_none (p : Pos) :
    g.execution.on g.order p ≠ none ↔ ∃ n, g.execution p = some n ∧ n.label.isBlock = false := by
  by_cases hp : p ∈ g.order
  · obtain ⟨n, hn, hopen⟩ := (hordered.mem_order g p).mp hp
    rw [Execution.on_mem hp, hn]
    exact iff_of_true (Option.some_ne_none n) ⟨n, rfl, hopen⟩
  · rw [Execution.on_not_mem hp]
    exact iff_of_false (fun hne => hne rfl) fun hn => hp ((hordered.mem_order g p).mpr hn)

include h

theorem on_order_sources (s r : Pos) (hread : (g.execution.on g.order).Reads s r) :
    g.execution.on g.order s ≠ none := by
  obtain ⟨n, hn, hsource⟩ := hread
  obtain ⟨m, send, -, -, hm, hsend, -⟩ := h.delivered s r ⟨n, (Execution.on_eq_some.mp hn).2, hsource⟩
  exact (on_order_ne_none hordered s).mpr ⟨m, hm, by rw [hsend]; rfl⟩

include hlast

theorem mem_order_of_past {p q : Pos} (hpast : g.execution.Past p q) : p ∈ g.order :=
  (hordered.mem_order g p).mpr (h.past_open hlast hpast)

theorem mem_front_of_lt {front rest : List (Event V)} (hevents : g.events = front ++ rest) {id : ℕ} {e : Event V}
    (he : g.events[id]? = some e) (hle : id ≤ front.length) {k : ℕ} (hk : k < e.index) :
    (e.thread, k) ∈ orderOf front := by
  have hnode := hordered.execution_event he
  have hpast := h.past_order (by rw [hnode]; exact Option.some_ne_none _) hk
  obtain ⟨n, hn, hopen⟩ := h.past_open hlast hpast
  obtain ⟨id', hpos, hnode'⟩ := (hordered.execution_eq_some _ n).mp hn
  obtain ⟨e', he', hsame⟩ := (g.posAt_eq_some id' _).mp hpos
  rw [nodeAt, he'] at hnode'
  cases hnode'
  obtain ⟨hthread, rfl⟩ := Prod.mk.inj hsame
  have hlt := ((hordered.programOrder_iff g id' id).mp ⟨e', e, he', he, hthread, hk⟩).1
  rw [← hsame]
  exact (hordered.mem_front g hevents he' hopen).mpr (lt_of_lt_of_le hlt hle)

theorem on_order_dense (thread i : ℕ) (hi : g.execution.on g.order (thread, i + 1) ≠ none) :
    g.execution.on g.order (thread, i) ≠ none := by
  obtain ⟨n, hn, -⟩ := (on_order_ne_none hordered _).mp hi
  have hne : g.execution (thread, i + 1) ≠ none := by
    rw [hn]
    exact Option.some_ne_none n
  exact (on_order_ne_none hordered _).mpr ((hordered.mem_order g _).mp
    (mem_order_of_past hordered h hlast (h.past_order hne (Nat.lt_succ_self i))))

end Whole
end ExecutionGraph

/-! ## The condition on an event -/

variable {receive : ReceiveLabel V}

section Condition
variable {g : ExplorationGraph V} {model : CommunicationModel} {s : ℕ}
  (h : FreshSend g model s) {es evt : Event V} (hes : g.graph.events[s]? = some es)
  {front rest : List (Event V)} (hevents : g.graph.events = front ++ evt :: rest)
include h hes

theorem FreshSend.past_iff (a : ℕ) (ea : Event V) (hea : g.graph.events[a]? = some ea) :
    g.graph.execution.Past (ea.thread, ea.index) (es.thread, es.index) ↔ TransGen g.graph.Porf a s := by
  have hpos := (g.graph.posAt_eq_some a _).mpr ⟨ea, hea, rfl⟩
  have hpos' := (g.graph.posAt_eq_some s _).mpr ⟨es, hes, rfl⟩
  rw [h.indexOrdered.past_iff g.graph h.consistent.async.endpoints]
  constructor
  · rintro ⟨a', s', ha', hs', hpath⟩
    obtain rfl := h.indexOrdered.posAt_injective ha' hpos
    obtain rfl := h.indexOrdered.posAt_injective hs' hpos'
    exact hpath
  · exact fun hpath => ⟨a, s, hpos, hpos', hpath⟩

include hevents

omit h hes in
theorem getElem?_front : g.graph.events[front.length]? = some evt := by
  rw [hevents, getElem?_append_right (le_refl _), Nat.sub_self]
  rfl

theorem FreshSend.seen_iff {a : ℕ} {ea : Event V} (hea : g.graph.events[a]? = some ea)
    (hopen : ea.label.isBlock = false) :
    ((ea.thread, ea.index) ∈ orderOf front ∨ g.graph.execution.Past (ea.thread, ea.index) (es.thread, es.index)) ↔
      a < front.length ∨ TransGen g.graph.Porf a s := by
  rw [h.indexOrdered.mem_front g.graph hevents hea hopen, h.past_iff hes a ea hea]

variable (hfree : ¬ Relation.TransGen g.graph.Porf front.length s)
include hfree

theorem FreshSend.receivable_iff (hreceive : evt.label = .receive receive) (m : Pos) :
    (g.graph.execution.overlay (g.graph.execution.on (orderOf front)) (es.thread, es.index)).Receivable
        evt.thread receive m ↔
      ∃ c, g.graph.posAt c = some m ∧ Previous g front.length s c ∧ PreviousSource g front.length s c := by
  have hevt := getElem?_front hevents
  constructor
  · rintro ⟨⟨n, send, hn, hsend, hdest, haccepts⟩, hunread⟩
    obtain ⟨hm, hseen⟩ := Execution.overlay_on_eq_some.mp hn
    obtain ⟨c, hpos, hnode⟩ := (h.indexOrdered.execution_eq_some m n).mp hm
    obtain ⟨ec, hec, rfl⟩ := (g.graph.posAt_eq_some c m).mp hpos
    rw [nodeAt, hec] at hnode
    cases hnode
    have hseen := (h.seen_iff hes hevents hec (by rw [show ec.label = _ from hsend]; rfl)).mp hseen
    refine ⟨c, hpos, hseen.imp_left le_of_lt, ⟨evt, receive, hevt, hreceive,
      (compatibleSend_iff g evt.thread receive c).mpr ⟨ec, send, hec, hsend, hdest, haccepts⟩⟩, ?_⟩
    by_cases hself : g.graph.ReadsFrom c front.length
    · exact .inl hself
    refine .inr ⟨hseen.imp_left le_of_lt, fun b hprevious hread => ?_⟩
    obtain ⟨⟨eb, receive', heb, hlabel⟩, -⟩ := h.consistent.async.endpoints b _ hread
    have hb : b < front.length ∨ TransGen g.graph.Porf b s := by
      refine hprevious.imp_left fun hle => lt_of_le_of_ne hle ?_
      rintro rfl
      exact hself hread
    have hseen' := (h.seen_iff hes hevents heb (by rw [hlabel]; rfl)).mpr hb
    obtain ⟨node, hnode, hsource⟩ := (h.indexOrdered.reads_iff g.graph h.consistent.async.endpoints _ _).mpr
      ⟨c, b, hpos, (g.graph.posAt_eq_some b _).mpr ⟨eb, heb, rfl⟩, hread⟩
    exact hunread _ node (Execution.overlay_on_eq_some.mpr ⟨hnode, hseen'⟩) hsource
  · rintro ⟨c, hpos, hprevious, ⟨evt', receive', hevt', hreceive', hcompat⟩, hsource⟩
    obtain rfl : evt = evt' := Option.some.inj (hevt.symm.trans hevt')
    obtain rfl := EventLabel.receive.inj (hreceive.symm.trans hreceive')
    obtain ⟨ec, send, hec, hsend, hdest, haccepts⟩ := (compatibleSend_iff g _ _ c).mp hcompat
    obtain ⟨ec', hec', rfl⟩ := (g.graph.posAt_eq_some c m).mp hpos
    obtain rfl : ec = ec' := Option.some.inj (hec.symm.trans hec')
    have hc : c < front.length ∨ TransGen g.graph.Porf c s := by
      refine hprevious.imp_left fun hle => lt_of_le_of_ne hle ?_
      rintro rfl
      rw [hevt] at hec
      cases hec
      rw [hreceive] at hsend
      cases hsend
    have hseen := (h.seen_iff hes hevents hec (by rw [hsend]; rfl)).mpr hc
    refine ⟨⟨_, send, Execution.overlay_on_eq_some.mpr ⟨h.indexOrdered.execution_event hec, hseen⟩, hsend,
      hdest, haccepts⟩, fun p n hn hread => ?_⟩
    obtain ⟨hp, hseen'⟩ := Execution.overlay_on_eq_some.mp hn
    obtain ⟨c', b, hpos', hb, hread'⟩ := (h.indexOrdered.reads_iff g.graph h.consistent.async.endpoints _ p).mp
      ⟨n, hp, hread⟩
    obtain rfl := h.indexOrdered.posAt_injective hpos' hpos
    obtain ⟨eb, heb, rfl⟩ := (g.graph.posAt_eq_some b p).mp hb
    obtain ⟨⟨eb', receive', heb', hlabel⟩, -⟩ := h.consistent.async.endpoints b _ hread'
    obtain rfl : eb = eb' := Option.some.inj (heb.symm.trans heb')
    have hb' := (h.seen_iff hes hevents heb (by rw [hlabel]; rfl)).mp hseen'
    rcases hsource with hself | ⟨-, hnone⟩
    · obtain rfl := h.consistent.async.exclusive c' b front.length hread' hself
      exact hb'.elim (lt_irrefl _) hfree
    · exact hnone b (hb'.imp_left le_of_lt) hread'

omit h hes hevents hfree in
theorem candidateLe_iff_posLe (hordered : g.graph.IndexOrdered) {a b : ℕ} {ea eb : Event V}
    (hea : g.graph.events[a]? = some ea) (heb : g.graph.events[b]? = some eb) :
    candidateLe g a b ↔ PosLe (ea.thread, ea.index) (eb.thread, eb.index) := by
  unfold candidateLe PosLe
  rw [threadOf_eq hea, threadOf_eq heb]
  refine or_congr_right (and_congr_right fun hthread => ?_)
  dsimp only
  constructor
  · intro hle
    rcases Nat.eq_or_lt_of_le hle with rfl | hlt
    · rw [hea] at heb
      cases heb
      exact le_refl _
    · exact le_of_lt (hordered a b ea eb hlt hea heb hthread)
  · intro hle
    by_contra hgt
    have := hordered b a eb ea (not_le.mp hgt) heb hea hthread.symm
    omega

theorem FreshSend.firstChoice_iff (hreceive : evt.label = .receive receive)
    {source : ReadsFromSource} (hsource : g.graph.readsFrom.find front.length = some source) {place : PosSource}
    (hplace : g.graph.posSource source = some place) :
    FirstChoice (g.graph.execution.overlay (g.graph.execution.on (orderOf front)) (es.thread, es.index)) evt.thread
        receive place ↔
      if receive.isNonblocking then g.graph.readsFrom.find front.length = some .bottom
      else ∃ src, g.graph.ReadsFrom src front.length ∧ Previous g front.length s src ∧
        ∀ other, PreviousSource g front.length s other → candidateLe g src other := by
  have hevt := getElem?_front hevents
  unfold FirstChoice
  by_cases hmode : receive.isNonblocking = true
  · rw [if_pos hmode, if_pos hmode, hsource, Option.some.injEq]
    cases source with
    | bottom =>
      cases hplace
      exact iff_of_true rfl rfl
    | send src =>
      obtain ⟨p, -, rfl⟩ := Option.map_eq_some_iff.mp hplace
      exact iff_of_false (fun hsame => (nomatch hsame)) fun hsame => (nomatch hsame)
  · rw [if_neg hmode, if_neg hmode]
    constructor
    · rintro ⟨m, rfl, hm, hleast⟩
      obtain ⟨src, hread⟩ : ∃ src, source = .send src := by
        cases source with
        | bottom => cases hplace
        | send src => exact ⟨src, rfl⟩
      subst hread
      obtain ⟨p, hp, hsame⟩ := Option.map_eq_some_iff.mp hplace
      cases hsame
      obtain ⟨c, hc, hprevious, hadmits⟩ := (h.receivable_iff hes hevents hfree hreceive _).mp hm
      obtain rfl := h.indexOrdered.posAt_injective hc hp
      refine ⟨c, hsource, hprevious, fun other hother => ?_⟩
      by_cases hin : Previous g front.length s other
      · obtain ⟨evt', receive', hevt', hreceive', hcompat⟩ := hother.1
        obtain ⟨eo, -, heo, -⟩ := (compatibleSend_iff g _ _ other).mp hcompat
        obtain ⟨ec, hec, rfl⟩ := (g.graph.posAt_eq_some c _).mp hc
        refine (candidateLe_iff_posLe h.indexOrdered hec heo).mpr (hleast _ ?_)
        exact (h.receivable_iff hes hevents hfree hreceive _).mpr
          ⟨other, (g.graph.posAt_eq_some other _).mpr ⟨eo, heo, rfl⟩, hin, hother⟩
      · rcases hother.2 with hread | ⟨hin', -⟩
        · obtain rfl : c = other := by
            have hsame := hsource.symm.trans hread
            cases hsame
            rfl
          exact candidateLe_refl g c
        · exact absurd hin' hin
    · rintro ⟨src, hread, hprevious, hleast⟩
      obtain rfl : source = .send src := Option.some.inj (hsource.symm.trans hread)
      obtain ⟨m, hm, rfl⟩ := Option.map_eq_some_iff.mp hplace
      obtain ⟨ec, hec, rfl⟩ := (g.graph.posAt_eq_some src m).mp hm
      obtain ⟨es', send, hes', hsend⟩ := (h.consistent.async.endpoints _ _ hread).2 src rfl
      obtain ⟨hdest, haccepts⟩ := h.consistent.async.delivered src _ hread es' evt send receive hes' hsend hevt
        hreceive
      have hadmits : PreviousSource g front.length s src :=
        ⟨⟨evt, receive, hevt, hreceive, (compatibleSend_iff g _ _ src).mpr
          ⟨es', send, hes', hsend, hdest, haccepts⟩⟩, .inl hread⟩
      refine ⟨_, rfl, (h.receivable_iff hes hevents hfree hreceive _).mpr
        ⟨src, hm, hprevious, hadmits⟩, fun m' hm' => ?_⟩
      obtain ⟨other, hpos, -, hother⟩ := (h.receivable_iff hes hevents hfree hreceive m').mp hm'
      obtain ⟨eo, heo, rfl⟩ := (g.graph.posAt_eq_some other m').mp hpos
      exact (candidateLe_iff_posLe h.indexOrdered hec heo).mp (hleast other hother)

omit hes in
theorem FreshSend.spare_iff :
    (∀ r, ¬ (g.graph.execution.on (orderOf front)).Reads (evt.thread, evt.index) r) ↔
      ∀ r, Previous g front.length s r → ¬ g.graph.ReadsFrom front.length r := by
  have hevt := getElem?_front hevents
  have hpos := (g.graph.posAt_eq_some front.length _).mpr ⟨evt, hevt, rfl⟩
  constructor
  · intro hnone r hprevious hread
    have hlt : r < front.length := by
      rcases hprevious with hle | hpath
      · refine lt_of_le_of_ne hle ?_
        rintro rfl
        exact h.consistent.async.acyclic _ (.single (.inr hread))
      · exact absurd (.head (.inr hread) hpath) hfree
    obtain ⟨⟨er, receive, her, hlabel⟩, -⟩ := h.consistent.async.endpoints r _ hread
    obtain ⟨n, hn, hsource⟩ := (h.indexOrdered.reads_iff g.graph h.consistent.async.endpoints _ _).mpr
      ⟨_, r, hpos, (g.graph.posAt_eq_some r _).mpr ⟨er, her, rfl⟩, hread⟩
    refine hnone _ ⟨n, Execution.on_eq_some.mpr ⟨?_, hn⟩, hsource⟩
    exact (h.indexOrdered.mem_front g.graph hevents her (by rw [hlabel]; rfl)).mpr hlt
  · rintro hnone p ⟨n, hn, hsource⟩
    obtain ⟨hp, hn⟩ := Execution.on_eq_some.mp hn
    obtain ⟨e, r, he, hr, hread⟩ := (h.indexOrdered.reads_iff g.graph h.consistent.async.endpoints _ p).mp
      ⟨n, hn, hsource⟩
    obtain rfl := h.indexOrdered.posAt_injective he hpos
    obtain ⟨er, her, rfl⟩ := (g.graph.posAt_eq_some r p).mp hr
    obtain ⟨⟨er', receive, her', hlabel⟩, -⟩ := h.consistent.async.endpoints r _ hread
    obtain rfl : er = er' := Option.some.inj (her.symm.trans her')
    have hlt := (h.indexOrdered.mem_front g.graph hevents her (by rw [hlabel]; rfl)).mp hp
    exact hnone r (.inl (le_of_lt hlt)) hread

theorem FreshSend.deletable_iff [LinearOrder V] {n : Node V}
    (hn : g.graph.execution (evt.thread, evt.index) = some n) :
    Deletable g.graph.execution (g.graph.execution.on (orderOf front)) (es.thread, es.index) (evt.thread, evt.index) n ↔
      MeetsRevisitCondition g front.length s evt.label := by
  have hevt := getElem?_front hevents
  have hnone := h.indexOrdered.source_eq_none g.graph h.consistent.async.endpoints _ n hn
  have hnode := h.indexOrdered.execution_event hevt
  rw [hn] at hnode
  cases hnode
  have hspare := h.spare_iff hevents hfree
  unfold Deletable MeetsRevisitCondition
  dsimp only
  cases hlabel : evt.label with
  | receive receive =>
    obtain ⟨hassigned, -⟩ := h.consistent.async.assigned _ evt receive hevt hlabel
    obtain ⟨source, hsource⟩ := Option.ne_none_iff_exists'.mp hassigned
    obtain ⟨place, hplace⟩ := g.graph.posSource_ne_none h.consistent.async.endpoints hsource
    have hchoice := h.firstChoice_iff hes hevents hfree hlabel hsource hplace
    dsimp only
    rw [← hchoice, hsource, Option.bind_some, hplace]
    simp only [Option.some.injEq, exists_eq_left']
  | nondeterministicChoice nd =>
    rw [hlabel] at hnone
    exact and_iff_right (hnone rfl)
  | send | block | error =>
    rw [hlabel] at hnone
    exact (and_iff_right (hnone rfl)).trans hspare

end Condition

/-! ## The child of a revisit -/

variable {er : Event V}

theorem FreshSend.split {g : ExplorationGraph V} {model : CommunicationModel} {s r : ℕ}
    (h : FreshSend g model s) {es : Event V} (hes : g.graph.events[s]? = some es)
    (her : g.graph.events[r]? = some er) (hlt : r < s) :
    ∃ front middle, g.graph.events = front ++ er :: (middle ++ [es]) ∧ front.length = r ∧ r + 1 + middle.length = s := by
  obtain ⟨init, tail, hall, hinit⟩ := exists_split_of_getElem? hes
  obtain rfl : tail = [] := by
    have hlength := congrArg length hall
    rw [show g.graph.events.length = s + 1 from h.last.symm, length_append, length_cons] at hlength
    exact length_eq_zero_iff.mp (by omega)
  rw [hall, getElem?_append_left (by omega)] at her
  obtain ⟨front, middle, rfl, hfront⟩ := exists_split_of_getElem? her
  rw [length_append, length_cons] at hinit
  exact ⟨front, middle, by rw [hall, append_assoc, cons_append], hfront, by omega⟩

theorem getElem?_back {g : ExplorationGraph V} {s r : ℕ} {es : Event V} {front middle : List (Event V)}
    (hevents : g.graph.events = front ++ er :: (middle ++ [es])) (hfront : front.length = r)
    (hmiddle : r + 1 + middle.length = s) : g.graph.events[s]? = some es := by
  rw [hevents, ← cons_append, ← append_assoc, getElem?_append_right (by simp; omega)]
  simp [show s - (front.length + (middle.length + 1)) = 0 by omega]

section Child
variable [LinearOrder V] {g child : ExplorationGraph V} {model : CommunicationModel} {s r : ℕ}
  {mask : List Bool} (hto : ReboundTo g s r mask child) (h : FreshSend g model s) (hrevisits : Revisits g model s r)
include hto h hrevisits

theorem ReboundTo.execution_same {newId : ℕ} (hid : ExplorationGraph.remapId mask id = some newId) (hne : id ≠ r)
    {p : Pos} (hp : g.graph.posAt id = some p) : child.graph.execution p = g.graph.execution p := by
  rw [h.indexOrdered.execution_of_posAt hp, nodeAt]
  refine hto.execution_kept hid hp ?_
  cases hfind : g.graph.readsFrom.find id with
  | none =>
    rw [hto.reads id newId hid, if_neg hne, hfind]
    rfl
  | some source =>
    obtain ⟨newSource, hremap, hnew⟩ := hto.reads_kept h hrevisits hid hne hfind
    rw [hnew, Option.bind_some, Option.bind_some]
    cases source with
    | bottom =>
      cases hremap
      rfl
    | send src =>
      obtain ⟨newSrc, hsrc, rfl⟩ := Option.map_eq_some_iff.mp hremap
      show (child.graph.posAt newSrc).map PosSource.send = (g.graph.posAt src).map PosSource.send
      rw [hto.posAt hsrc]

omit [LinearOrder V] hrevisits in
theorem ReboundTo.execution_receive {es : Event V} (her : g.graph.events[r]? = some er)
    (hes : g.graph.events[s]? = some es) :
    child.graph.execution (er.thread, er.index) = some ⟨er.label, some (.send (es.thread, es.index))⟩ := by
  obtain ⟨newR, hr⟩ := exists_place mask r ((hto.kept r).mpr
    ⟨lt_of_getElem? her, .inl (le_refl r)⟩)
  obtain ⟨newS, hs⟩ := exists_place mask s ((hto.kept s).mpr ⟨h.lt_eventCount, .inr (.inr rfl)⟩)
  have hpos : child.graph.posAt newS = some (es.thread, es.index) :=
    (hto.posAt hs).trans ((g.graph.posAt_eq_some s _).mpr ⟨es, hes, rfl⟩)
  rw [hto.execution_kept hr ((g.graph.posAt_eq_some r _).mpr ⟨er, her, rfl⟩), her]
  · rfl
  · rw [hto.reads r newR hr, if_pos rfl, show ExplorationGraph.remapId mask s = some newS from hs]
    show (child.graph.posAt newS).map PosSource.send = _
    rw [hpos]
    rfl

omit [LinearOrder V] hrevisits in
theorem ReboundTo.order_eq {es : Event V} (hreceive : er.label.isReceive = true) (hsend : es.label.isSend = true)
    {front middle : List (Event V)} (hevents : g.graph.events = front ++ er :: (middle ++ [es]))
    (hfront : front.length = r) (hmiddle : r + 1 + middle.length = s) :
    ∃ kept, child.graph.order =
        orderOf front ++ (er.thread, er.index) :: (kept ++ [(es.thread, es.index)]) ∧
      ∀ p, p ∈ kept ↔ p ∈ orderOf middle ∧ g.graph.execution.Past p (es.thread, es.index) := by
  have hes := getElem?_back hevents hfront hmiddle
  have hlength : mask.length = s + 1 := hto.size.trans h.last.symm
  have hkeeps (i : ℕ) : mask.getD i false = true ↔ i < g.eventCount ∧ KeptBy g s r i := hto.kept i
  obtain ⟨maskFront, maskRest, hmask, hlen, hlen'⟩ : ∃ l l', mask = l ++ l' ∧ l.length = r + 1 ∧
      l'.length = middle.length + 1 :=
    ⟨mask.take (r + 1), mask.drop (r + 1), (take_append_drop _ _).symm, by rw [length_take]; omega,
      by rw [length_drop]; omega⟩
  obtain ⟨maskMiddle, last, rfl⟩ : ∃ l b, maskRest = l ++ [b] :=
    (eq_nil_or_concat' maskRest).resolve_left fun hnil => by rw [hnil] at hlen'; cases hlen'
  rw [length_append, length_singleton, Nat.add_right_cancel_iff] at hlen'
  have hcount : g.eventCount = s + 1 := h.last.symm
  have hall (i : ℕ) (hi : i < (front ++ [er]).length) : maskFront.getD i false = true := by
    rw [length_append, length_singleton] at hi
    have hkept := (hkeeps i).mpr ⟨by omega, .inl (by omega)⟩
    rwa [hmask, getD_append _ _ _ _ (by omega)] at hkept
  have hlast : last = true := by
    have hkept := (hkeeps s).mpr ⟨h.lt_eventCount, .inr (.inr rfl)⟩
    rw [hmask, getD_append_right _ _ _ _ (by omega), getD_append_right _ _ _ _ (by omega),
      show s - maskFront.length - maskMiddle.length = 0 by omega] at hkept
    exact hkept
  have hmid (i : ℕ) (e : Event V) (hi : middle[i]? = some e) :
      maskMiddle.getD i false = true ↔ g.graph.execution.Past (e.thread, e.index) (es.thread, es.index) := by
    have hlt := lt_of_getElem? hi
    have hget : g.graph.events[r + 1 + i]? = some e := by
      rw [hevents, getElem?_append_right (by omega), show r + 1 + i - front.length = i + 1 by omega,
        getElem?_cons_succ, getElem?_append_left hlt, hi]
    have hkept := hkeeps (r + 1 + i)
    rw [hmask, getD_append_right _ _ _ _ (by omega), getD_append _ _ _ _ (by omega),
      show r + 1 + i - maskFront.length = i by omega] at hkept
    rw [hkept, h.past_iff hes _ e hget]
    constructor
    · rintro ⟨-, hle | hpath | hlast⟩
      · omega
      · exact hpath
      · omega
    · exact fun hpath => ⟨by omega, .inr (.inl hpath)⟩
  have hopenR : er.label.isBlock = false := by
    cases hlabel : er.label <;> simp_all [EventLabel.isBlock, EventLabel.isReceive]
  have hopenS : es.label.isBlock = false := by
    cases hlabel : es.label <;> simp_all [EventLabel.isBlock, EventLabel.isSend]
  refine ⟨orderOf (select middle maskMiddle), ?_, fun p => ?_⟩
  · unfold order
    rw [hto.events, hevents, hmask, hlast, append_cons, select_append _ _ _ _ (by simp; omega), select_all _ _ hall,
      select_append _ _ _ _ (by omega), orderOf_append, orderOf_append, orderOf_append, orderOf_cons_open er [] hopenR,
      append_assoc]
    show _ ++ ([(er.thread, er.index)] ++ (_ ++ orderOf [es])) = _
    rw [orderOf_cons_open es [] hopenS]
    rfl
  · rw [mem_orderOf, mem_orderOf]
    constructor
    · rintro ⟨e, he, hopen, rfl⟩
      obtain ⟨i, hi, hkept⟩ := (mem_select middle maskMiddle e).mp he
      exact ⟨⟨e, mem_of_getElem? hi, hopen, rfl⟩, (hmid i e hi).mp hkept⟩
    · rintro ⟨⟨e, he, hopen, rfl⟩, hpast⟩
      obtain ⟨i, hi⟩ := getElem?_of_mem he
      exact ⟨e, (mem_select middle maskMiddle e).mpr ⟨i, hi, (hmid i e hi).mpr hpast⟩, hopen, rfl⟩

theorem ReboundTo.execution_keptBy {e : Event V} (he : g.graph.events[id]? = some e) (hkept : KeptBy g s r id)
    (hne : id ≠ r) : child.graph.execution (e.thread, e.index) = g.graph.execution (e.thread, e.index) := by
  obtain ⟨newId, hid⟩ := exists_place mask id ((hto.kept id).mpr ⟨lt_of_getElem? he, hkept⟩)
  exact hto.execution_same h hrevisits hid hne ((g.graph.posAt_eq_some id _).mpr ⟨e, he, rfl⟩)

omit hto hrevisits in
theorem FreshSend.meets_of_passes {e : Event V} (he : g.graph.events[id]? = some e)
    (hfree : ¬ TransGen g.graph.Porf id s) (hpasses : revisitCondition g id s model = .ok true) :
    MeetsRevisitCondition g id s e.label := by
  obtain ⟨passes, hok, hiff⟩ := h.revisitCondition_ok e he hfree
  rw [hpasses] at hok
  cases hok
  exact hiff.mp rfl

section Split
variable {es : Event V} {front middle : List (Event V)} (hreceive : er.label = .receive receive)
  (hevents : g.graph.events = front ++ er :: (middle ++ [es])) (hfront : front.length = r)
  (hmiddle : r + 1 + middle.length = s)
include hreceive hevents hfront hmiddle

theorem ReboundTo.receive_deletable : ∃ receive source,
    g.graph.execution (er.thread, er.index) = some ⟨.receive receive, some source⟩ ∧
      child.graph.execution (er.thread, er.index) = some ⟨.receive receive, some (.send (es.thread, es.index))⟩ ∧
      FirstChoice (g.graph.execution.overlay (g.graph.execution.on (orderOf front)) (es.thread, es.index)) er.thread
        receive source := by
  have hes := getElem?_back hevents hfront hmiddle
  have her : g.graph.events[r]? = some er := hfront ▸ getElem?_front hevents
  have hcondition := h.meets_of_passes her hrevisits.independent hrevisits.receive
  have hnode := h.indexOrdered.execution_event her
  rw [← hfront] at hcondition hnode
  have hdeletable := (h.deletable_iff hes hevents (hfront ▸ hrevisits.independent) hnode).mpr hcondition
  unfold Deletable at hdeletable
  dsimp only at hdeletable
  rw [hreceive] at hdeletable
  obtain ⟨source, hsource, hchoice⟩ := hdeletable
  refine ⟨receive, source, ?_, ?_, hchoice⟩
  · rw [hnode, hsource, hreceive]
  · rw [hto.execution_receive h her hes, hreceive]

omit hreceive in
theorem ReboundTo.execution_unchanged (hy : g.graph.execution.Consistent model) {p : Pos}
    (hp : p ∈ orderOf front ∨ g.graph.execution.Past p (es.thread, es.index) ∨ p = (es.thread, es.index)) :
    child.graph.execution p = g.graph.execution p := by
  have hes := getElem?_back hevents hfront hmiddle
  rcases hp with hp | hp | rfl
  · obtain ⟨e, he, -, rfl⟩ := (mem_orderOf front p).mp hp
    obtain ⟨id, hid⟩ := getElem?_of_mem he
    have hlt := lt_of_getElem? hid
    have hget : g.graph.events[id]? = some e := by rw [hevents, getElem?_append_left hlt, hid]
    exact hto.execution_keptBy h hrevisits hget (.inl (by omega)) (by omega)
  · obtain ⟨n, hn⟩ := Option.ne_none_iff_exists'.mp (hy.past_ne_none hp)
    obtain ⟨id, hpos, -⟩ := (h.indexOrdered.execution_eq_some p n).mp hn
    obtain ⟨e, he, rfl⟩ := (g.graph.posAt_eq_some id p).mp hpos
    have hpath := (h.past_iff hes id e he).mp hp
    refine hto.execution_keptBy h hrevisits he (.inr (.inl hpath)) ?_
    rintro rfl
    exact hrevisits.independent hpath
  · exact hto.execution_keptBy h hrevisits hes (.inr (.inr rfl)) (by omega)

omit hto in
theorem Revisits.deletable {pre post : List Pos} {p : Pos} {n : Node V} (hsplit : orderOf middle = pre ++ p :: post)
    (hnot : ¬ g.graph.execution.Past p (es.thread, es.index)) (hn : g.graph.execution p = some n) :
    Deletable g.graph.execution (g.graph.execution.on (orderOf front ++ (er.thread, er.index) :: pre))
      (es.thread, es.index) p n := by
  have hes := getElem?_back hevents hfront hmiddle
  obtain ⟨front', e, rest', rfl, rfl, rfl, hopen⟩ := orderOf_split middle pre post p hsplit
  have hevents' : g.graph.events = (front ++ er :: front') ++ e :: (rest' ++ [es]) := by
    rw [hevents]
    simp
  have hget := getElem?_front hevents'
  have hfree : ¬ TransGen g.graph.Porf (front ++ er :: front').length s :=
    fun hpath => hnot ((h.past_iff hes _ e hget).mpr hpath)
  have hdeleted : ¬ KeptBy g s r (front ++ er :: front').length := by
    simp only [length_append, length_cons] at hmiddle hfree ⊢
    rintro (hle | hpath | hlast)
    · omega
    · exact hfree hpath
    · omega
  have hcondition := h.meets_of_passes hget hfree (hrevisits.deleted _ (lt_of_getElem? hget) hdeleted)
  have hdeletable := (h.deletable_iff hes hevents' hfree hn).mpr hcondition
  rwa [orderOf_append, orderOf_cons_open er _ (by rw [hreceive]; rfl)] at hdeletable

theorem ReboundTo.revisited (hy : g.graph.execution.Consistent model)
    (hlast : ∀ thread i n, g.graph.execution (thread, i) = some n → n.label = .block →
      g.graph.execution (thread, i + 1) = none) {send : SendLabel V} (hsend : es.label = .send send) :
    Revisited g.graph.execution (orderOf front) (orderOf middle) (es.thread, es.index) (er.thread, er.index)
      child.graph.execution := by
  have hes := getElem?_back hevents hfront hmiddle
  have her : g.graph.events[r]? = some er := hfront ▸ getElem?_front hevents
  have hback := (h.past_iff hes r er her).not.mpr hrevisits.independent
  have horder : g.graph.order =
      orderOf front ++ (er.thread, er.index) :: (orderOf middle ++ [(es.thread, es.index)]) := by
    unfold order
    rw [hevents, orderOf_append, orderOf_cons_open er _ (by rw [hreceive]; rfl), orderOf_append,
      orderOf_cons_open es [] (by rw [hsend]; rfl)]
    rfl
  exact
    { receive := hto.receive_deletable h hrevisits hreceive hevents hfront hmiddle
      send := ⟨_, send, h.indexOrdered.execution_event hes, hsend⟩
      independent := hback
      fresh := by
        have hnodup := h.indexOrdered.order_nodup g.graph
        rw [horder, nodup_append] at hnodup
        obtain ⟨-, hrest, hdisjoint⟩ := hnodup
        obtain ⟨hnot, hrest⟩ := nodup_cons.mp hrest
        rw [nodup_append] at hrest
        refine ⟨fun hmem => hdisjoint _ hmem _ (by simp) rfl, ?_, fun hmem => hrest.2.2 _ hmem _ (by simp) rfl⟩
        rintro hsame
        rw [hsame] at hnot
        exact hnot (by simp)
      covered := by
        intro p hp
        have hmem := mem_order_of_past h.indexOrdered hy hlast hp
        rw [horder] at hmem
        simp only [mem_append, mem_cons, not_mem_nil, or_false] at hmem
        rcases hmem with hmem | rfl | hmem | rfl
        · exact .inl hmem
        · exact absurd hp hback
        · exact .inr hmem
        · exact absurd hp (hy.acyclic _)
      filled := by
        intro p hp
        obtain ⟨n, hn, -⟩ := (h.indexOrdered.mem_order g.graph p).mp (by
          rw [horder]
          exact mem_append_right _ (mem_cons_of_mem _ (mem_append_left _ hp)))
        rw [hn]
        exact Option.some_ne_none n
      same := fun _ => hto.execution_unchanged h hrevisits hevents hfront hmiddle hy
      deleted := fun _ _ _ _ => hrevisits.deletable h hreceive hevents hfront hmiddle }

end Split

end Child

/-! ## Graphs that lead to an execution -/

/-- What is read off a graph in the order of insertion. -/
def Leads [LinearOrder V] (target : Execution V) (g : ExecutionGraph V) (waiting : WaitStack) : Prop :=
  Approach target g.execution [] [] g.order waiting

section Leads
variable [LinearOrder V] {config : DporConfig V} {g child : ExplorationGraph V} {depth : ℕ} {target : Execution V}
  {waiting : WaitStack} (h : Explored config g depth)
include h

theorem Explored.execution_consistent : g.graph.execution.Consistent config.communicationModel :=
  h.consistent.execution (h.tabulated.indexOrdered g) h.replays.dense

theorem Explored.leads_self : Leads g.graph.execution g.graph [] := by
  refine Approach.along [] g.graph.order (fun p n receive hn hreceive => ?_) fun p hp => ⟨trivial, rfl, ?_⟩
  · obtain ⟨source, hsource, -⟩ := h.execution_consistent.assigned p n receive hn hreceive
    exact ⟨source, hsource⟩
  · obtain ⟨n, hn, -⟩ := ((h.tabulated.indexOrdered g).mem_order g.graph p).mp hp
    rw [hn]
    exact Option.some_ne_none n

variable {tid : ℕ} {label : EventLabel V} {source : Option ReadsFromSource}

theorem Grows.execution
    (hgrows : Grows g tid label source child) (hsource : ∀ id, source = some (.send id) → id < g.eventCount) :
    child.graph.execution = update g.graph.execution (tid, threadCount g.graph.events tid)
      (some ⟨label, source.bind g.graph.posSource⟩) :=
  execution_concat hgrows.events hgrows.reads hsource
    (h.tabulated.indexOrdered g) (hgrows.tabulated.indexOrdered child) h.consistent.async.endpoints

theorem Explored.next_not_mem (tid : ℕ) : (tid, threadCount g.graph.events tid) ∉ g.graph.order := by
  intro hmem
  obtain ⟨n, hn, -⟩ := ((h.tabulated.indexOrdered g).mem_order g.graph _).mp hmem
  have hlt := (h.tabulated.execution_ne_none_iff tid _).mp (by rw [hn]; exact Option.some_ne_none n)
  exact lt_irrefl _ hlt

theorem Grows.execution_order
    (hgrows : Grows g tid label source child) (hsource : ∀ id, source = some (.send id) → id < g.eventCount)
    (p : Pos) (hp : p ∈ g.graph.order) : child.graph.execution p = g.graph.execution p := by
  rw [hgrows.execution h hsource, update_of_ne]
  rintro rfl
  exact h.next_not_mem tid hp

omit [LinearOrder V] h in
theorem Grows.order_open (hgrows : Grows g tid label source child) (hopen : label.isBlock = false) :
    child.graph.order = g.graph.order ++ [(tid, threadCount g.graph.events tid)] := by
  unfold order
  rw [hgrows.events, orderOf_append, orderOf_cons_open _ _ hopen]
  rfl

theorem Grows.leads_iff
    (hgrows : Grows g tid label source child) (hsource : ∀ id, source = some (.send id) → id < g.eventCount)
    (hopen : label.isBlock = false) :
    Leads target child.graph waiting ↔ ∃ before, Leads target g.graph before ∧
      ApproachStep target (g.graph.execution.on g.graph.order) (tid, threadCount g.graph.events tid)
        ⟨label, source.bind g.graph.posSource⟩ before waiting := by
  have hsame := hgrows.execution_order h hsource
  have hnext : child.graph.execution (tid, threadCount g.graph.events tid) =
      some ⟨label, source.bind g.graph.posSource⟩ := by
    rw [hgrows.execution h hsource, update_self]
  unfold Leads
  rw [hgrows.order_open hopen]
  constructor
  · intro happroach
    obtain ⟨before, hfront, hlast⟩ := happroach.split
    obtain ⟨n, hn, hstep⟩ := hlast.step
    obtain rfl := Option.some.inj (hn.symm.trans hnext)
    rw [nil_append, Execution.on_congr hsame] at hstep
    exact ⟨before, hfront.congr (fun p hp => absurd hp not_mem_nil) hsame, hstep⟩
  · rintro ⟨before, hfront, hstep⟩
    have hfront' : Approach target child.graph.execution [] [] g.graph.order before :=
      hfront.congr (fun p hp => absurd hp not_mem_nil) fun p hp => (hsame p hp).symm
    refine hfront'.append (Approach.single hnext ?_)
    rw [nil_append, Execution.on_congr hsame]
    exact hstep

theorem Grows.leads_block (hgrows : Grows g tid .block none child) :
    Leads target child.graph waiting ↔ Leads target g.graph waiting := by
  have hsame := hgrows.execution_order h nofun
  have horder : child.graph.order = g.graph.order := by
    unfold order
    rw [hgrows.events, orderOf_append, orderOf_cons_block _ _ rfl]
    exact append_nil _
  unfold Leads
  rw [horder]
  exact ⟨fun happroach => happroach.congr (fun p hp => absurd hp not_mem_nil) hsame,
    fun happroach => happroach.congr (fun p hp => absurd hp not_mem_nil) fun p hp => (hsame p hp).symm⟩

theorem Explored.leads_unblocked (hblock : g.isBlockId id = true)
    (hto : g.RestrictsTo (dropMask g.eventCount id) child) :
    Leads target child.graph waiting ↔ Leads target g.graph waiting := by
  obtain ⟨eb, heb, hlabel⟩ := (isBlockId_iff id).mp hblock
  have hkept (other : ℕ) (e : Event V) (he : g.graph.events[other]? = some e) (hopen : e.label.isBlock = false) :
      (dropMask g.eventCount id).getD other false = true := by
    refine dropMask_getD.mpr ⟨lt_of_getElem? he, ?_⟩
    rintro rfl
    obtain rfl : e = eb := Option.some.inj (he.symm.trans heb)
    rw [hlabel] at hopen
    cases hopen
  have horder : child.graph.order = g.graph.order := by
    unfold order orderOf
    rw [hto.events, filter_select _ _ _ fun i e hi hopen => hkept i e hi (by simpa using hopen)]
  have hsame (p : Pos) (hp : p ∈ g.graph.order) : child.graph.execution p = g.graph.execution p := by
    obtain ⟨e, he, hopen, rfl⟩ := (mem_orderOf _ p).mp hp
    obtain ⟨other, hother⟩ := getElem?_of_mem he
    obtain ⟨newId, hnew⟩ := exists_place _ other (hkept other e hother hopen)
    refine hto.execution_same (h.tabulated.indexOrdered g) h.consistent.async.endpoints hnew
      ((g.graph.posAt_eq_some other _).mpr ⟨e, hother, rfl⟩) fun src hread => ?_
    obtain ⟨es, send, hes, hsend⟩ := (h.consistent.async.endpoints other _ hread).2 src rfl
    exact exists_place _ src (hkept src es hes (by rw [hsend]; rfl))
  unfold Leads
  rw [horder]
  exact ⟨fun happroach => happroach.congr (fun p hp => absurd hp not_mem_nil) hsame,
    fun happroach => happroach.congr (fun p hp => absurd hp not_mem_nil) fun p hp => (hsame p hp).symm⟩

theorem ReboundTo.leads {grown : ExplorationGraph V} {r : ℕ} {send : SendLabel V} {mask : List Bool} {d : ℕ}
    (hgrows : Grows g tid (.send send) none grown) (hgrown : Explored config grown (depth + 1))
    (hrevisits : Revisits grown config.communicationModel g.eventCount r)
    (hto : ReboundTo grown g.eventCount r mask child) (hchild : Explored config child d)
    (htarget : target.Consistent config.communicationModel)
    (her : grown.graph.events[r]? = some er) (hleads : Leads target child.graph waiting) :
    Leads target g.graph (((er.thread, er.index), (tid, threadCount g.graph.events tid)) :: waiting) := by
  have hfresh := hgrows.freshSend h.legal
  obtain ⟨er', receive, es, send', her', hreceive, hes, hsend, -⟩ := hrevisits.accepts
  obtain rfl : er = er' := Option.some.inj (her.symm.trans her')
  obtain rfl := Option.some.inj (hes.symm.trans (hgrows.getElem?_last))
  have hlt : r < g.eventCount := by
    have hle := lt_of_getElem? her
    rw [hgrows.events, length_append, length_singleton] at hle
    refine lt_of_le_of_ne (Nat.le_of_lt_succ hle) ?_
    rintro rfl
    obtain rfl := Option.some.inj (her.symm.trans hes)
    cases hreceive
  obtain ⟨front, middle, hevents, hfront, hmiddle⟩ := hfresh.split hes her hlt
  obtain ⟨kept, horder, hkept⟩ := hto.order_eq hfresh (by rw [hreceive]; rfl) rfl hevents hfront hmiddle
  have hrevisited := hto.revisited hfresh hrevisits hreceive hevents hfront hmiddle hgrown.execution_consistent
    hgrown.replays.blockLast hsend
  have hordered := hchild.tabulated.indexOrdered child
  have happroach := hrevisited.approach htarget hgrown.execution_consistent.dense
    (fun p n receive hn hlabel => by
      obtain ⟨source, hsource, -⟩ := hgrown.execution_consistent.assigned p n receive hn hlabel
      exact ⟨source, hsource⟩) hkept horder
    (on_order_dense hordered hchild.execution_consistent hchild.replays.blockLast)
    (on_order_sources hordered hchild.execution_consistent) hleads
  have hbefore : g.graph.events = front ++ er :: middle := by
    have hsame := hgrows.events.symm.trans hevents
    rw [← cons_append, ← append_assoc] at hsame
    exact (append_inj' hsame rfl).1
  have hsame : g.graph.order = orderOf front ++ (er.thread, er.index) :: orderOf middle := by
    unfold order
    rw [hbefore, orderOf_append, orderOf_cons_open er _ (by rw [hreceive]; rfl)]
  unfold Leads
  rw [hsame]
  refine happroach.congr (fun p hp => absurd hp not_mem_nil) fun p hp => ?_
  exact hgrows.execution_order h nofun p (hsame ▸ hp)

end Leads
end MustDpor

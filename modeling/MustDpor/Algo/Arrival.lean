import MustDpor.Algo.Onward

/-! # The send that a receive waits for

When the thread of the send on top of the stack comes to it, the receive that waits for it meets the conditions of a
backward revisit: what the send needs is there as the execution has it, and what was inserted after the receive and
is not needed is what the search puts there first. The revisited graph is consistent and leads on. -/

namespace MustDpor
set_option autoImplicit false
open List Function ExecutionGraph

variable {V : Type}

section Graph
variable [LinearOrder V] {config : DporConfig V} {g : ExplorationGraph V} {depth : ℕ} (h : Explored config g depth)
  {target : Execution V} (hgoal : Goal config target) {r : Pos} {below : WaitStack} {tids : List ℕ} {tid : ℕ}
  (hleads : Leads target g.graph ((r, (tid, threadCount g.graph.events tid)) :: below))
include h hgoal hleads

theorem NextFound.top_send {returned : EventLabel V} (hfound : NextFound config tids g tid returned) :
    ∃ send, returned = .send send ∧ target (tid, threadCount g.graph.events tid) = some ⟨.send send, none⟩ := by
  obtain ⟨before, after, receive, d, source, rest, earlier, -, -, houtstanding⟩ := hleads.top
  obtain ⟨n, send, hn, hsend, -⟩ := houtstanding.compatible hgoal.consistent
  have hbecomes := hfound.target_becomes h hgoal hleads
    (fun j hj => hgoal.consistent.past_order (by rw [hn]; exact Option.some_ne_none n) hj) hn
  have hsource := hgoal.sourceless _ n hn (by rw [hsend]; rfl)
  obtain ⟨label, source'⟩ := n
  cases hsend
  cases hsource
  cases hbecomes
  exact ⟨send, rfl, hn⟩

end Graph

/-- The graph with the send on top inserted, around the receive that waits for it. -/
structure Arrival [LinearOrder V] (target : Execution V) (grown : ExplorationGraph V) (front middle : List (Event V))
    (er es : Event V) (receive : ReceiveLabel V) (send : SendLabel V) (d : Pos) (source : PosSource)
    (rest earlier : WaitStack) : Prop where
  events : grown.graph.events = front ++ er :: (middle ++ [es])
  receives : er.label = .receive receive
  sends : es.label = .send send
  node : target (es.thread, es.index) = some ⟨.send send, none⟩
  same : grown.graph.execution (es.thread, es.index) = some ⟨.send send, none⟩
  outstanding : Outstanding target grown.graph.execution (orderOf front) (orderOf middle) (er.thread, er.index)
    (es.thread, es.index) receive d source rest earlier
  past : ∀ a, grown.graph.execution.Past a (es.thread, es.index) ↔ target.Past a (es.thread, es.index)
  agree : ∀ a, grown.graph.execution.Past a (es.thread, es.index) → grown.graph.execution a = target a

section Arrives
variable [LinearOrder V] {config : DporConfig V} {g : ExplorationGraph V} {depth : ℕ} (h : Explored config g depth)
  {target : Execution V} (hgoal : Goal config target) {r : Pos} {below : WaitStack} {tid : ℕ}
  (hleads : Leads target g.graph ((r, (tid, threadCount g.graph.events tid)) :: below)) {send : SendLabel V}
  (hq : target (tid, threadCount g.graph.events tid) = some ⟨.send send, none⟩) {grown : ExplorationGraph V}
  (hgrows : Grows g tid (.send send) none grown) (hgrown : Explored config grown (depth + 1))
include h hgoal hleads hq hgrows hgrown

theorem Leads.arrival : ∃ front middle er receive d source rest earlier, below = rest ++ earlier ∧
    Arrival target grown front middle er ⟨tid, threadCount g.graph.events tid, .send send⟩ receive send d source rest
      earlier := by
  have hsame := hgrows.execution_order h nofun
  have hordered := hgrown.tabulated.indexOrdered grown
  have hnode : grown.graph.execution (tid, threadCount g.graph.events tid) = some ⟨.send send, none⟩ := by
    rw [hgrows.execution h nofun, update_self]
    rfl
  obtain ⟨hpast, hagree⟩ := (hleads.aligned hgoal).past_top hgoal.consistent hgrown.execution_consistent.dense
    (hnode.trans hq.symm) fun a ha => by
      have hmem := mem_order_of_past hordered hgrown.execution_consistent hgrown.replays.blockLast ha
      rw [hgrows.order_open rfl] at hmem
      rcases mem_append.mp hmem with hmem | hmem
      · rw [Execution.on_mem hmem, ← hsame a hmem]
        exact ⟨rfl, hgrown.execution_consistent.past_ne_none ha⟩
      · rw [mem_singleton.mp hmem] at ha
        exact absurd ha (hgrown.execution_consistent.acyclic _)
  have happroach : Approach target grown.graph.execution [] [] g.graph.order
      ((r, (tid, threadCount g.graph.events tid)) :: below) :=
    hleads.congr (fun p hp => absurd hp not_mem_nil) fun p hp => (hsame p hp).symm
  obtain ⟨before, after, receive, d, source, rest, earlier, horder, rfl, houtstanding⟩ := happroach.top
  obtain ⟨front, er, middle, hevents, rfl, rfl, hopen⟩ := orderOf_split g.graph.events before after r horder
  obtain rfl : after = orderOf middle := by
    unfold ExecutionGraph.order at horder
    rw [hevents, orderOf_append, orderOf_cons_open er middle hopen] at horder
    exact (cons.inj (append_cancel_left horder)).2.symm
  have hall : grown.graph.events =
      front ++ er :: (middle ++ [⟨tid, threadCount g.graph.events tid, .send send⟩]) := by
    rw [hgrows.events, hevents, append_assoc, cons_append]
  have hreceive : er.label = .receive receive := by
    have hread := hordered.execution_event (getElem?_front hall)
    rw [houtstanding.reads] at hread
    exact (Option.some.inj (congrArg (Option.map Node.label) hread)).symm
  exact ⟨front, middle, er, receive, d, source, rest, earlier, rfl, hall, hreceive, rfl, hq, hnode, houtstanding, hpast,
    hagree⟩

end Arrives

section Revisit
variable [LinearOrder V] {config : DporConfig V} {target : Execution V} {grown : ExplorationGraph V}
  {front middle : List (Event V)} {er es : Event V} {receive : ReceiveLabel V} {send : SendLabel V} {d : Pos}
  {source : PosSource} {rest earlier : WaitStack} {depth s : ℕ}
  (h : Arrival target grown front middle er es receive send d source rest earlier) (hgoal : Goal config target)
  (hfresh : FreshSend grown config.communicationModel s) (hes : grown.graph.events[s]? = some es)
include h

theorem Arrival.receive_event : grown.graph.events[front.length]? = some er := getElem?_front h.events

include hgoal

theorem Arrival.compatible : send.destination = er.thread ∧ receive.accepts send.value = true := by
  obtain ⟨n, send', hn, hsend, hdest, haccepts⟩ := h.outstanding.compatible hgoal.consistent
  rw [h.node] at hn
  cases hn
  cases hsend
  exact ⟨hdest, haccepts⟩

include hfresh hes

omit hgoal hes in
theorem Arrival.length_eq : front.length + 1 + middle.length = s := by
  have hlength := congrArg length h.events
  have hcount : s + 1 = grown.graph.events.length := hfresh.last
  simp only [length_append, length_cons, length_nil] at hlength
  omega

theorem Arrival.independent : ¬ Relation.TransGen grown.graph.Porf front.length s := fun hpath =>
  (h.outstanding.independent hgoal.consistent).2.1
    ((h.past _).mp ((hfresh.past_iff hes _ er h.receive_event).mpr hpath))

omit hgoal in
theorem Arrival.deleted {id : ℕ} (hid : id < grown.eventCount) (hdeleted : ¬ KeptBy grown s front.length id) :
    revisitCondition grown id s config.communicationModel = .ok true := by
  obtain ⟨hafter, hdeleted⟩ := not_or.mp hdeleted
  obtain ⟨hpath, hlast⟩ := not_or.mp hdeleted
  have hlength := h.length_eq hfresh
  have hcount : s + 1 = grown.eventCount := hfresh.last
  have he := getElem?_eq_getElem hid
  generalize grown.graph.events[id] = e at he
  have hmiddle : middle[id - front.length - 1]? = some e := by
    rw [h.events, getElem?_append_right (by omega), show id - front.length = id - front.length - 1 + 1 by omega,
      getElem?_cons_succ, getElem?_append_left (by omega)] at he
    exact he
  obtain ⟨passes, hok, hiff⟩ := hfresh.revisitCondition_ok e he hpath
  rw [hok, Except.ok.injEq, hiff]
  obtain ⟨pre, post, rfl, hpre⟩ := exists_split_of_getElem? hmiddle
  cases hblock : e.label.isBlock with
  | true =>
    -- a Block is read by nobody
    rw [(EventLabel.isBlock_iff _).mp hblock]
    intro reader _ hread
    obtain ⟨e', sent, he', hsent⟩ := (hfresh.consistent.async.endpoints reader _ hread).2 id rfl
    obtain rfl := Option.some.inj (he.symm.trans he')
    rw [hsent] at hblock
    cases hblock
  | false =>
    have hsplit : grown.graph.events = (front ++ er :: pre) ++ e :: (post ++ [es]) := by
      rw [h.events]
      simp
    have hplace : (front ++ er :: pre).length = id := by
      rw [length_append, length_cons]
      omega
    have hnode := hfresh.indexOrdered.execution_event he
    have hdeletable := hfresh.deletable_iff hes hsplit (by rw [hplace]; exact hpath) hnode
    rw [hplace, orderOf_append, orderOf_cons_open er pre (by rw [h.receives]; rfl)] at hdeletable
    refine hdeletable.mp (h.outstanding.deletable h.past h.agree (orderOf pre) (orderOf post) ?_ ?_ hnode)
    · rw [orderOf_append, orderOf_cons_open e post hblock]
    · exact fun hback => hpath ((hfresh.past_iff hes id e he).mp hback)

theorem Arrival.revisits : Revisits grown config.communicationModel s front.length := by
  have hfree := h.independent hgoal hfresh hes
  refine ⟨⟨er, receive, es, send, h.receive_event, h.receives, hes, h.sends, (h.compatible hgoal).2⟩, hfree, ?_,
    fun id hid hdeleted => h.deleted hfresh hes hid hdeleted⟩
  obtain ⟨passes, hok, hiff⟩ :=
    hfresh.revisitCondition_ok er h.receive_event hfree
  rw [hok, Except.ok.injEq, hiff]
  refine (hfresh.deletable_iff hes h.events hfree h.outstanding.reads).mp ⟨source, rfl, ?_⟩
  rw [overlay_congr h.past h.agree]
  exact (h.outstanding.independent hgoal.consistent).2.2.2

variable (hgrown : Explored config grown depth) {mask : List Bool} {child : ExplorationGraph V}
  (hto : ReboundTo grown s front.length mask child)
include hgrown hto

theorem Arrival.revisited : Revisited grown.graph.execution (orderOf front) (orderOf middle) (es.thread, es.index)
    (er.thread, er.index) child.graph.execution :=
  hto.revisited hfresh (h.revisits hgoal hfresh hes) h.receives h.events rfl (h.length_eq hfresh)
    hgrown.execution_consistent hgrown.replays.blockLast h.sends

omit hgoal hes hgrown in
theorem Arrival.order_eq : ∃ kept, child.graph.order =
      orderOf front ++ (er.thread, er.index) :: (kept ++ [(es.thread, es.index)]) ∧
    ∀ p, p ∈ kept ↔ p ∈ orderOf middle ∧ grown.graph.execution.Past p (es.thread, es.index) :=
  hto.order_eq hfresh (by rw [h.receives]; rfl) (by rw [h.sends]; rfl) h.events rfl
    (h.length_eq hfresh)

omit hes hto in
theorem Arrival.behind (hmodel : config.communicationModel = .fifoP2P) :
    Behind grown.graph.execution (grown.graph.execution.on (orderOf front)) er.thread er.index receive
      (es.thread, es.index) := by
  have hy := hgrown.execution_consistent
  have hfront (j : ℕ) (hlt : j < es.index) : grown.graph.execution (es.thread, j) = target (es.thread, j) :=
    h.agree _ (hy.past_order (by rw [h.same]; exact Option.some_ne_none _) hlt)
  have hbehind := h.outstanding.behind hgoal.consistent hmodel (fun k hk => ?_) (fun k hk => ?_) ?_
  · intro j n sent hlt hn
    exact hbehind j n sent hlt ((hfront j hlt).symm.trans hn)
  · rw [Execution.on_mem (ExecutionGraph.mem_front_of_lt hfresh.indexOrdered hy hgrown.replays.blockLast h.events h.receive_event (le_refl _) hk)]
    exact Execution.dense_le hy.dense
      (by rw [h.outstanding.reads]; exact Option.some_ne_none _) (le_of_lt hk)
  · obtain ⟨n, hn⟩ := Option.ne_none_iff_exists'.mp hk
    obtain ⟨e, he, -, hpos⟩ := (mem_orderOf front _).mp (Execution.on_eq_some.mp hn).1
    obtain ⟨hthread, rfl⟩ := Prod.mk.inj hpos
    obtain ⟨id, hid⟩ := getElem?_of_mem he
    have hlt := lt_of_getElem? hid
    exact hfresh.indexOrdered id _ e er hlt (by rw [h.events, getElem?_append_left hlt, hid]) h.receive_event hthread
  · rintro j b n sent hlt ⟨nb, hb, hsource⟩ hn hsent
    obtain ⟨n', sent', -, -, hn', hsent', -, -, hthread, -⟩ :=
      hy.delivered _ b ⟨nb, (Execution.on_eq_some.mp hb).2, hsource⟩
    rw [hfront j hlt, hn] at hn'
    cases hn'
    rw [hsent] at hsent'
    cases hsent'
    exact hthread

theorem Arrival.consistent : child.graph.ConsistentUnder config.communicationModel := by
  have hasync := hto.asyncConsistent hfresh (h.revisits hgoal hfresh hes) fun er' es' send' her' hes' hsend' => by
    obtain rfl := Option.some.inj (h.receive_event.symm.trans her')
    obtain rfl := Option.some.inj (hes.symm.trans hes')
    obtain rfl := EventLabel.send.inj (h.sends.symm.trans hsend')
    exact (h.compatible hgoal).1
  obtain ⟨kept, horder, hkept⟩ := h.order_eq hfresh hto
  refine ⟨hasync, fun hmodel => hasync.fifoConsistent (hto.tabulated.indexOrdered child) ?_⟩
  refine (h.revisited hgoal hfresh hes hgrown hto).fifo hgrown.execution_consistent hmodel (fun p n hp hopen => ?_)
    (fun thread i k hin hk => ?_) fun receive' source' hr => ?_
  · have hmem := ((hto.tabulated.indexOrdered child).mem_order child.graph p).mpr ⟨n, hp, hopen⟩
    rw [horder] at hmem
    simp only [mem_append, mem_cons, not_mem_nil, or_false] at hmem
    rcases hmem with hmem | hmem | hmem | hmem
    · exact .inl hmem
    · exact .inr (.inl hmem)
    · exact .inr (.inr (.inl ((hkept p).mp hmem).2))
    · exact .inr (.inr (.inr hmem))
  · obtain ⟨e, he, -, hpos⟩ := (mem_orderOf front _).mp hin
    obtain ⟨rfl, rfl⟩ := Prod.mk.inj hpos
    obtain ⟨id, hid⟩ := getElem?_of_mem he
    have hlt := lt_of_getElem? hid
    exact ExecutionGraph.mem_front_of_lt hfresh.indexOrdered hgrown.execution_consistent hgrown.replays.blockLast
      h.events (by rw [h.events, getElem?_append_left hlt, hid]) (le_of_lt hlt) hk
  · have hlabel := congrArg (Option.map Node.label) (h.outstanding.reads.symm.trans hr)
    obtain rfl := EventLabel.receive.inj (Option.some.inj hlabel)
    exact h.behind hgoal hfresh hgrown hmodel

theorem Arrival.leads : Leads target child.graph (rest ++ earlier) := by
  have hrevisited := h.revisited hgoal hfresh hes hgrown hto
  obtain ⟨kept, horder, hkept⟩ := h.order_eq hfresh hto
  unfold Leads
  rw [horder]
  refine h.outstanding.revisit hgoal.consistent (fun p hp => hrevisited.same p (.inl hp)) ?_
    ((hrevisited.same _ (.inr (.inr rfl))).trans (h.same.trans h.node.symm))
    (by rw [h.node]; exact Option.some_ne_none _) fun p hp => ?_
  · rw [hto.execution_receive hfresh h.receive_event hes, h.receives]
  · have hpast := ((hkept p).mp hp).2
    exact ⟨(h.past p).mp hpast, (hrevisited.same p (.inr (.inl hpast))).trans (h.agree p hpast)⟩

end Revisit
end MustDpor

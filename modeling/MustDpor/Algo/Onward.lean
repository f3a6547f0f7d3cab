import MustDpor.Algo.ApproachNext
import MustDpor.Algo.InsertionOrder
import MustDpor.Algo.NoDeadEnds
import MustDpor.Algo.Rescheduling

/-! # Going on towards an execution

A graph of the search that leads to a maximal execution of the program has a child that does, whatever the program
does next, and if the program does nothing any more and no thread can be woken up, the graph is the execution. -/

namespace MustDpor
set_option autoImplicit false
open ExecutionGraph

variable {V : Type}

/-! ## Maximal executions -/

/-- A thread that has come to its end: its function returns nothing any more, or it stands in front of a blocking
receive that can take no unread send. -/
inductive Ended (threadFn : ThreadFunction V) (x : Execution V) (tid : ℕ) : Prop where
  | done (count : ℕ) : (∀ j, x (tid, j) ≠ none ↔ j < count) →
      (∀ j n, x (tid, j) = some n → n.label ≠ .block) → threadFn (x.trace tid count) count = none →
      Ended threadFn x tid
  | blocked (last : ℕ) (n : Node V) (receive : ReceiveLabel V) : (∀ j, x (tid, j) ≠ none ↔ j ≤ last) →
      x (tid, last) = some n → n.label = .block → threadFn (x.trace tid last) last = some (.receive receive) →
      (∀ p, ¬ x.Receivable tid receive p) → Ended threadFn x tid

theorem Ended.answer {threadFn : ThreadFunction V} {x : Execution V} {tid : ℕ} (h : Ended threadFn x tid) {i : ℕ}
    (hthere : ∀ j, j < i → ∃ n, x (tid, j) = some n ∧ n.label.isBlock = false) (hnone : x (tid, i) = none) :
    threadFn (x.trace tid i) i = none := by
  cases h with
  | done count hcount _ hdone =>
    obtain rfl : count = i := by
      rcases lt_trichotomy count i with hlt | heq | hgt
      · obtain ⟨n, hn, -⟩ := hthere count hlt
        exact absurd ((hcount count).mp (by rw [hn]; exact Option.some_ne_none n)) (lt_irrefl _)
      · exact heq
      · exact absurd hnone ((hcount i).mpr hgt)
    exact hdone
  | blocked last n receive hlast hn hblock _ _ =>
    have hlt : last < i := by
      by_contra hge
      exact (hlast i).mpr (not_lt.mp hge) hnone
    obtain ⟨n', hn', hopen⟩ := hthere last hlt
    obtain rfl := Option.some.inj (hn.symm.trans hn')
    rw [hblock] at hopen
    cases hopen

/-- What the search is to find. -/
structure Goal [DecidableEq V] (config : DporConfig V) (target : Execution V) : Prop where
  consistent : target.Consistent config.communicationModel
  replays : Replays config.program target
  founded : WellFounded target.Past
  sourceless : ∀ p n, target p = some n → n.label.isReceive = false → n.source = none
  ended : ∀ tid threadFn, config.program.threads.atThread tid = .ok threadFn → Ended threadFn target tid

section Graph
variable [LinearOrder V] {config : DporConfig V} {g : ExplorationGraph V} {depth : ℕ} (h : Explored config g depth)
include h

theorem Explored.open_there {tid : ℕ} (hopen : g.threadIsTerminated tid = false) (k : ℕ) :
    g.graph.execution.on g.graph.order (tid, k) ≠ none ↔ k < threadCount g.graph.events tid := by
  rw [on_order_ne_none (h.tabulated.indexOrdered g), ← h.tabulated.execution_ne_none_iff]
  constructor
  · rintro ⟨n, hn, -⟩
    rw [hn]
    exact Option.some_ne_none n
  · intro hne
    obtain ⟨n, hn⟩ := Option.ne_none_iff_exists'.mp hne
    refine ⟨n, hn, ?_⟩
    rw [← Bool.not_eq_true, EventLabel.isBlock_iff]
    intro hblock
    have hnext := h.replays.blockLast tid k n hn hblock
    have hlt := (h.tabulated.execution_ne_none_iff tid k).mp hne
    refine h.open_of_not_terminated hopen ?_ hn hblock
    by_contra hlast
    exact (h.tabulated.execution_ne_none_iff tid (k + 1)).mpr (by omega) hnext

theorem Explored.order_sources (s r : Pos) (hread : (g.graph.execution.on g.graph.order).Reads s r) :
    g.graph.execution.on g.graph.order s ≠ none :=
  on_order_sources (h.tabulated.indexOrdered g) h.execution_consistent s r hread

theorem Explored.order_delivered (s r : Pos) (hread : (g.graph.execution.on g.graph.order).Reads s r) :
    ∃ n send, g.graph.execution.on g.graph.order s = some n ∧ n.label = .send send ∧ send.destination = r.1 := by
  obtain ⟨nr, hr, hsource⟩ := hread
  obtain ⟨n, send, -, -, hn, hsend, -, -, hdest, -⟩ :=
    h.execution_consistent.delivered s r ⟨nr, (Execution.on_eq_some.mp hr).2, hsource⟩
  refine ⟨n, send, Execution.on_eq_some.mpr ⟨?_, hn⟩, hsend, hdest⟩
  exact ((h.tabulated.indexOrdered g).mem_order g.graph s).mpr ⟨n, hn, by rw [hsend]; rfl⟩

theorem Explored.receivable_order (tid : ℕ) (receive : ReceiveLabel V) (p : Pos) :
    (g.graph.execution.on g.graph.order).Receivable tid receive p ↔ g.graph.execution.Receivable tid receive p := by
  have hmem := (h.tabulated.indexOrdered g).mem_order g.graph
  constructor
  · rintro ⟨⟨n, send, hn, hsend⟩, hunread⟩
    refine ⟨⟨n, send, (Execution.on_eq_some.mp hn).2, hsend⟩, fun q nq hq hsource => hunread q nq ?_ hsource⟩
    obtain ⟨-, -, receive', nq', -, -, hq', hreceive, -⟩ := h.execution_consistent.delivered p q ⟨nq, hq, hsource⟩
    exact Execution.on_eq_some.mpr ⟨(hmem q).mpr ⟨nq', hq', by rw [hreceive]; rfl⟩, hq⟩
  · rintro ⟨⟨n, send, hn, hsend, haddressed⟩, hunread⟩
    exact ⟨⟨n, send, Execution.on_eq_some.mpr ⟨(hmem p).mpr ⟨n, hn, by rw [hsend]; rfl⟩, hn⟩, hsend, haddressed⟩,
      fun q nq hq => hunread q nq (Execution.on_eq_some.mp hq).2⟩

omit [LinearOrder V] h in
theorem answers_iff (htabulated : g.Tabulated) (hends : g.graph.ValidEndpoints) (tid : ℕ)
    (answer : Option (EventLabel V)) :
    Answers config.program g tid answer ↔ ∃ threadFn, config.program.threads.atThread tid = .ok threadFn ∧
      threadFn (g.graph.execution.trace tid (threadCount g.graph.events tid)) (threadCount g.graph.events tid) =
        answer := by
  unfold Answers
  rw [htabulated.threadTrace_ok hends tid, threadEventCount_eq htabulated]
  simp only [Except.ok.injEq, exists_and_left, exists_eq_left']

variable {target : Execution V} (hgoal : Goal config target) {waiting : WaitStack}
  (hleads : Leads target g.graph waiting)
include hgoal hleads

omit h in
theorem Leads.aligned : Aligned target (g.graph.execution.on g.graph.order) waiting :=
  Approach.aligned_start hgoal.consistent hleads

theorem Leads.agrees_open {p : Pos} (hp : g.graph.execution.on g.graph.order p ≠ none)
    (hwanted : Wanted target waiting p) : ∃ n, target p = some n ∧ n.label.isBlock = false := by
  obtain ⟨n, hn⟩ := Option.ne_none_iff_exists'.mp hp
  obtain ⟨hmem, hn'⟩ := Execution.on_eq_some.mp hn
  obtain ⟨m, hm, hopen⟩ := ((h.tabulated.indexOrdered g).mem_order g.graph p).mp hmem
  obtain rfl := Option.some.inj (hn'.symm.trans hm)
  exact ⟨n, ((hleads.aligned hgoal).agrees p hp hwanted).symm.trans hn, hopen⟩

/-! ## What comes next -/

section Next
variable {tids : List ℕ} {tid : ℕ} {returned : EventLabel V} (hfound : NextFound config tids g tid returned)
include hfound

theorem NextFound.target_answer (hwanted : ∀ j, j < threadCount g.graph.events tid → Wanted target waiting (tid, j)) :
    ∃ threadFn, config.program.threads.atThread tid = .ok threadFn ∧
      threadFn (target.trace tid (threadCount g.graph.events tid)) (threadCount g.graph.events tid) = some returned := by
  obtain ⟨threadFn, hthread, hreturns⟩ :=
    (answers_iff h.tabulated h.consistent.async.endpoints tid _).mp hfound.answers
  have htrace := (hleads.aligned hgoal).trace_eq h.order_sources
    (fun j hj => (h.open_there hfound.isOpen j).mpr hj) hwanted
  exact ⟨threadFn, hthread, htrace ▸ hreturns⟩

theorem NextFound.target_ne_none (hwanted : Wanted target waiting (tid, threadCount g.graph.events tid)) :
    target (tid, threadCount g.graph.events tid) ≠ none := by
  cases waiting with
  | cons top below => exact hgoal.consistent.past_ne_none hwanted
  | nil =>
    intro hnone
    obtain ⟨threadFn, hthread, hreturns⟩ := hfound.target_answer h hgoal hleads fun _ _ => trivial
    refine nomatch hreturns.symm.trans ((hgoal.ended tid threadFn hthread).answer (fun j hj => ?_) hnone)
    exact hleads.agrees_open h hgoal ((h.open_there hfound.isOpen j).mpr hj) trivial

theorem NextFound.target_becomes
    (hwanted : ∀ j, j < threadCount g.graph.events tid → Wanted target waiting (tid, j)) {n : Node V}
    (hn : target (tid, threadCount g.graph.events tid) = some n) : Becomes returned n.label := by
  obtain ⟨threadFn, hthread, hreturns⟩ := hfound.target_answer h hgoal hleads hwanted
  obtain ⟨threadFn', returned', hthread', hreturns', hbecomes⟩ := hgoal.replays.event tid _ n hn
  obtain rfl : threadFn = threadFn' := Except.ok.inj (hthread.symm.trans hthread')
  obtain rfl : returned = returned' := Option.some.inj (hreturns.symm.trans hreturns')
  exact hbecomes

theorem NextFound.wanted_node (hwanted : Wanted target waiting (tid, threadCount g.graph.events tid)) :
    ∃ n, target (tid, threadCount g.graph.events tid) = some n ∧ Becomes returned n.label := by
  obtain ⟨n, hn⟩ := Option.ne_none_iff_exists'.mp (hfound.target_ne_none h hgoal hleads hwanted)
  exact ⟨n, hn, hfound.target_becomes h hgoal hleads (fun j hj => hwanted.below hgoal.consistent hj) hn⟩

theorem NextFound.not_blocked {receive : ReceiveLabel V} (hreceive : returned = .receive receive)
    (hready : ∃ m, (g.graph.execution.on g.graph.order).Receivable tid receive m)
    (hwanted : Wanted target waiting (tid, threadCount g.graph.events tid)) {n : Node V}
    (hn : target (tid, threadCount g.graph.events tid) = some n) : n.label ≠ .block := by
  intro hblock
  cases waiting with
  | cons top below =>
    obtain ⟨n', hn', hopen⟩ := hgoal.consistent.past_open hgoal.replays.blockLast hwanted
    obtain rfl := Option.some.inj (hn.symm.trans hn')
    rw [hblock] at hopen
    cases hopen
  | nil =>
    have haligned := hleads.aligned hgoal
    obtain ⟨threadFn, hthread, hreturns⟩ := hfound.target_answer h hgoal hleads fun _ _ => trivial
    cases hgoal.ended tid threadFn hthread with
    | done count _ hopen _ => exact hopen _ n hn hblock
    | blocked last n' receive' hlast hn' hblock' hanswer hstuck =>
      have hend := (hlast _).mp (by rw [hn]; exact Option.some_ne_none n)
      obtain rfl : last = threadCount g.graph.events tid := by
        by_contra hne
        have hnext := hgoal.replays.blockLast tid _ n hn hblock
        exact (hlast _).mpr (by omega) hnext
      rw [hreturns, hreceive] at hanswer
      cases hanswer
      obtain ⟨m, hm⟩ := hready
      have hthere := hm.ne_none
      obtain ⟨⟨nm, send, hnm, hsend, hdest, haccepts⟩, hunread⟩ := hm
      rw [haligned.agrees m hthere trivial] at hnm
      -- whoever reads the send in the target is an earlier receive of the thread
      refine hstuck m ⟨⟨nm, send, hnm, hsend, hdest, haccepts⟩, fun r nr hr hsource => ?_⟩
      obtain ⟨ns, send', receive', nr', hs, hsend', hr', hreceive', hdestination', -⟩ :=
        hgoal.consistent.delivered m r ⟨nr, hr, hsource⟩
      obtain rfl := Option.some.inj (hnm.symm.trans hs)
      rw [hsend] at hsend'
      cases hsend'
      obtain ⟨thread, k⟩ := r
      obtain rfl : tid = thread := hdest.symm.trans hdestination'
      have hle := (hlast k).mp (by rw [hr]; exact Option.some_ne_none nr)
      rcases Nat.eq_or_lt_of_le hle with rfl | hlt
      · obtain rfl := Option.some.inj (hn.symm.trans hr')
        rw [hblock] at hreceive'
        cases hreceive'
      · have hread := haligned.agrees (tid, k) ((h.open_there hfound.isOpen k).mpr hlt) trivial
        exact hunread (tid, k) nr (hread.trans hr) hsource

theorem NextFound.leads_open {label : EventLabel V} {child : ExplorationGraph V} (hgrows : Grows g tid label none child)
    (hreceive : label.isReceive = false) (hopen : label.isBlock = false)
    (hsame : Wanted target waiting (tid, threadCount g.graph.events tid) → ∀ n,
      target (tid, threadCount g.graph.events tid) = some n → Becomes returned n.label → n.label = label)
    (hne : ∀ r q below, waiting = (r, q) :: below → (tid, threadCount g.graph.events tid) ≠ q)
    (hspare : ∀ nd, label = .nondeterministicChoice nd → ¬ Wanted target waiting (tid, threadCount g.graph.events tid) →
      isMinimalChoice nd = true) : Leads target child.graph waiting := by
  refine (hgrows.leads_iff h nofun hopen).mpr ⟨waiting, hleads, ?_⟩
  refine ApproachStep.of_open hreceive rfl (fun hwanted => ?_) hne fun hwanted => ?_
  · obtain ⟨n, hn, hbecomes⟩ := hfound.wanted_node h hgoal hleads hwanted
    have hlabel := hsame hwanted n hn hbecomes
    have hsource := hgoal.sourceless _ n hn (by rw [hlabel]; exact hreceive)
    rw [hn]
    obtain ⟨label', source⟩ := n
    cases hlabel
    cases hsource
    rfl
  · have hunread (r : Pos) : ¬ (g.graph.execution.on g.graph.order).Reads (tid, threadCount g.graph.events tid) r := by
      intro hread
      exact h.order_sources _ r hread (Execution.on_not_mem (h.next_not_mem tid))
    cases label with
    | nondeterministicChoice nd => exact hspare nd rfl hwanted
    | send | error => exact hunread
    | receive receive => cases hreceive
    | block => cases hopen

theorem NextFound.exists_receive {receive : ReceiveLabel V} (hreceive : returned = .receive receive)
    (hready : receive.isBlocking = true → hasCompatibleUnreadSend g tid receive = true)
    (hne : ∀ r q below, waiting = (r, q) :: below → (tid, threadCount g.graph.events tid) ≠ q) :
    ∃ source ∈ receiveSources g tid receive, ∀ child, Grows g tid (.receive receive) (some source) child →
      child.graph.ConsistentUnder config.communicationModel ∧ ∃ waiting', Leads target child.graph waiting' := by
  have hordered := h.tabulated.indexOrdered g
  have hends := h.consistent.async.endpoints
  have hready' : receive.isNonblocking = true ∨
      ∃ m, (g.graph.execution.on g.graph.order).Receivable tid receive m := by
    cases hmode : receive.isBlocking with
    | false => exact .inl (by rw [ReceiveLabel.isNonblocking_eq, hmode]; rfl)
    | true =>
      obtain ⟨m, hm⟩ := (receivable_iff_execution hordered hends tid receive).mp
        ((hasCompatibleUnreadSend_iff g h.tabulated h.counted tid receive).mp (hready hmode))
      exact .inr ⟨m, (h.receivable_order tid receive m).mpr hm⟩
  have hreceives (hwanted : Wanted target waiting (tid, threadCount g.graph.events tid)) :
      ∃ source, target (tid, threadCount g.graph.events tid) = some ⟨.receive receive, some source⟩ := by
    obtain ⟨n, hn, hbecomes⟩ := hfound.wanted_node h hgoal hleads hwanted
    obtain ⟨label, source⟩ := n
    rw [hreceive] at hbecomes
    cases hbecomes with
    | receive =>
      obtain ⟨source, hsource, -⟩ := hgoal.consistent.assigned _ _ receive hn rfl
      cases hsource
      exact ⟨source, hn⟩
    | blocked _ hblocking =>
      refine absurd rfl (hfound.not_blocked h hgoal hleads hreceive (hready'.resolve_left fun hmode => ?_) hwanted hn)
      rw [ReceiveLabel.isNonblocking_eq, hblocking] at hmode
      cases hmode
  obtain ⟨place, waiting', hstep, hattainable⟩ := (hleads.aligned hgoal).exists_receive hgoal.consistent
    (fun k hk => (h.open_there hfound.isOpen k).mpr hk) (fun k hk => (h.open_there hfound.isOpen k).mp hk)
    h.order_delivered hgoal.founded hready' hreceives hne
  cases hattainable with
  | bottom hmode =>
    have hblocking : receive.isBlocking = false := by
      rw [ReceiveLabel.isNonblocking_eq] at hmode
      simpa using hmode
    refine ⟨.bottom, (mem_receiveSources g tid receive _).mpr (.inr ⟨rfl, hblocking⟩), fun child hgrows => ⟨?_, waiting', ?_⟩⟩
    · exact ExecutionGraph.ConsistentUnder.read hgrows.events rfl hgrows.reads
        (hgrows.tabulated.indexOrdered child) h.consistent
        ⟨fun _ => hblocking, nofun, nofun⟩
    · exact (hgrows.leads_iff h (fun id hid => by cases hid) rfl).mpr ⟨waiting, hleads, hstep⟩
  | send m hm hbehind =>
    have hm' := (h.receivable_order tid receive m).mp hm
    obtain ⟨⟨n, send, hn, hsend, hdest, haccepts⟩, -⟩ := id hm'
    obtain ⟨s, hpos, -⟩ := (hordered.execution_eq_some m n).mp hn
    have hs := (receivable_at hordered hends tid receive hpos).mpr hm'
    obtain ⟨es, hes, rfl⟩ := (g.graph.posAt_eq_some s m).mp hpos
    refine ⟨.send s, (h.legal.mem_receiveSources tid receive _).mpr (.inl ⟨s, rfl, hs⟩), fun child hgrows => ⟨?_, waiting', ?_⟩⟩
    · refine ExecutionGraph.ConsistentUnder.read hgrows.events rfl hgrows.reads
        (hgrows.tabulated.indexOrdered child) h.consistent ⟨nofun, fun s' hs' => ?_, ?_⟩
      · cases hs'
        exact ⟨(compatibleSend_iff g tid receive s).mp hs.1, hs.2⟩
      · intro hmodel s₀ hs₀ s' es' send' hchannel hlt hes' hsend' haccepts'
        cases hs₀
        obtain ⟨es₀, send₀, hes₀, hsend₀, hdestination₀, -⟩ := (compatibleSend_iff g tid receive s).mp hs.1
        obtain rfl : es = es₀ := Option.some.inj (hes.symm.trans hes₀)
        rw [(g.graph.channel?_eq_some s' _).mpr ⟨es', send', hes', hsend', rfl⟩,
          (g.graph.channel?_eq_some s _).mpr ⟨es, send₀, hes, hsend₀, rfl⟩] at hchannel
        obtain ⟨hthread, hsame⟩ := Prod.mk.inj (Option.some.inj hchannel)
        obtain ⟨k, -, hread⟩ := hbehind hmodel es'.index _ send' (hordered s' s es' es hlt hes' hes hthread)
          (by
            rw [← hthread]
            exact Execution.on_eq_some.mpr ⟨(hordered.mem_order g.graph _).mpr
              ⟨_, hordered.execution_event hes', by rw [hsend']; rfl⟩,
              hordered.execution_event hes'⟩)
          hsend' (hsame.trans hdestination₀) haccepts'
        obtain ⟨nr, hnr, hsource⟩ := hread
        obtain ⟨a, b, ha, -, hread⟩ := (hordered.reads_iff g.graph hends _ _).mp
          ⟨nr, (Execution.on_eq_some.mp hnr).2, hsource⟩
        obtain rfl := hordered.posAt_injective ha
          ((g.graph.posAt_eq_some s' _).mpr ⟨es', hes', by rw [hthread]⟩)
        exact ⟨b, hread⟩
    · refine (hgrows.leads_iff h (fun id hid => ?_) rfl).mpr ⟨waiting, hleads, ?_⟩
      · cases hid
        exact lt_of_getElem? hes
      · rw [Option.bind_some, ExecutionGraph.posSource, hpos]
        exact hstep

end Next
end Graph
end MustDpor

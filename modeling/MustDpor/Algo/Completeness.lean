import MustDpor.Algo.Arrival
import MustDpor.Algo.Optimality

/-! # Every maximal execution is published

A call of VISIT whose graph leads to a maximal execution of the program publishes it, unless something is thrown, the
depth limit is reached or an Error ends a branch: the next event has a child that leads on, a thread that is woken up
changes nothing, and where nothing goes on the graph is the execution. -/

namespace MustDpor
set_option autoImplicit false
open List ExecutionGraph

variable {V : Type}

/-! ## Where nothing goes on -/

variable {tid : ℕ}

section Still
variable [LinearOrder V] {config : DporConfig V} {g : ExplorationGraph V} {depth : ℕ} (h : Explored config g depth)
include h

omit h in
theorem stuck_answer (htabulated : g.Tabulated) (hends : g.graph.ValidEndpoints)
    (hreplays : Replays config.program g.graph.execution) {i : ℕ} {m : Node V} (hm : g.graph.execution (tid, i) = some m)
    (hblock : m.label = .block) (hstuck : Stuck config.program g tid) :
    ∃ threadFn receive, config.program.threads.atThread tid = .ok threadFn ∧
      threadFn (g.graph.execution.trace tid i) i = some (.receive receive) ∧ receive.isBlocking = true ∧
      ∀ p, ¬ g.graph.execution.Receivable tid receive p := by
  have hcount : threadCount g.graph.events tid = i + 1 := by
    have hlt := (htabulated.execution_ne_none_iff tid i).mp (by rw [hm]; exact Option.some_ne_none m)
    have hnext := hreplays.blockLast tid i m hm hblock
    by_contra hne
    exact (htabulated.execution_ne_none_iff tid (i + 1)).mpr (by omega) hnext
  obtain ⟨threadFn, trace, receive, hthread, htrace, hanswer, hblocking, hnone⟩ := hstuck
  rw [htabulated.threadTrace_ok hends tid, hcount, Execution.trace_succ, hm] at htrace
  cases htrace
  rw [threadEventCount_eq htabulated, hcount, Nat.add_sub_cancel, Option.bind_some, Execution.observation, hblock,
    Option.toList_none, append_nil] at hanswer
  refine ⟨threadFn, receive, hthread, hanswer, hblocking, fun p hp => ?_⟩
  obtain ⟨id, hid⟩ := (receivable_iff_execution (htabulated.indexOrdered g) hends tid
    receive).mpr ⟨p, hp⟩
  exact hnone id hid

variable {target : Execution V} (hgoal : Goal config target) {waiting : WaitStack}
  (hleads : Leads target g.graph waiting) {tids : List ℕ} (hthreads : ThreadsOf config.program tids)
  (hall : ∀ tid ∈ tids, EndsInBlock g tid ∨ Answers config.program g tid none)
  (hstuck : ∀ tid, EndsInBlock g tid → Stuck config.program g tid)
include hgoal hleads hthreads hall hstuck

omit hgoal hleads hstuck in
theorem Explored.done_answer {i : ℕ} {threadFn : ThreadFunction V}
    (hthread : config.program.threads.atThread tid = .ok threadFn)
    (hbefore : ∀ j, j < i → ∃ m, g.graph.execution (tid, j) = some m ∧ m.label.isBlock = false)
    (hnone : g.graph.execution (tid, i) = none) : threadFn (g.graph.execution.trace tid i) i = none := by
  have hcount : threadCount g.graph.events tid = i := by
    have hge : ¬ i < threadCount g.graph.events tid := fun hi =>
      (h.tabulated.execution_ne_none_iff tid i).mpr hi hnone
    by_contra hne
    obtain ⟨m, hm, -⟩ := hbefore _ (show threadCount g.graph.events tid < i by omega)
    exact lt_irrefl _ ((h.tabulated.execution_ne_none_iff tid _).mp (by rw [hm]; exact Option.some_ne_none m))
  have hnot : ¬ EndsInBlock g tid := by
    rw [endsInBlock_iff h.tabulated h.replays]
    rintro ⟨k, m, hm, hblock⟩
    have hk := (h.tabulated.execution_ne_none_iff tid k).mp (by rw [hm]; exact Option.some_ne_none m)
    obtain ⟨m', hm', hopen⟩ := hbefore k (by omega)
    obtain rfl := Option.some.inj (hm.symm.trans hm')
    rw [hblock] at hopen
    cases hopen
  obtain ⟨threadFn', hthread', hanswer⟩ :=
    (answers_iff h.tabulated h.consistent.async.endpoints tid _).mp ((hall tid ((hthreads tid).mpr ⟨threadFn, hthread⟩)).resolve_left hnot)
  obtain rfl : threadFn = threadFn' := Except.ok.inj (hthread.symm.trans hthread')
  rw [hcount] at hanswer
  exact hanswer

theorem Leads.there_of_past {p : Pos} {n : Node V} (hn : target p = some n) (hopen : n.label.isBlock = false)
    (hpast : ∀ a, target.Past a p → g.graph.execution.on g.graph.order a ≠ none ∧ Wanted target waiting a)
    (hreads : n.label.isReceive = true → Wanted target waiting p) :
    g.graph.execution.on g.graph.order p ≠ none := by
  intro hnone
  obtain ⟨tid, i⟩ := p
  have haligned := hleads.aligned hgoal
  have hbefore (j : ℕ) (hj : j < i) : target.Past (tid, j) (tid, i) :=
    hgoal.consistent.past_order (by rw [hn]; exact Option.some_ne_none n) hj
  have htrace := haligned.trace_eq h.order_sources (fun j hj => (hpast _ (hbefore j hj)).1)
    fun j hj => (hpast _ (hbefore j hj)).2
  obtain ⟨threadFn, returned, hthread, hreturns, hbecomes⟩ := hgoal.replays.event tid i n hn
  have hlt (j : ℕ) (hj : j < i) : ∃ m, g.graph.execution (tid, j) = some m ∧ m.label.isBlock = false :=
    (on_order_ne_none (h.tabulated.indexOrdered g) _).mp (hpast _ (hbefore j hj)).1
  cases hm : g.graph.execution (tid, i) with
  | none =>
    have hdone := h.done_answer hthreads hall hthread hlt hm
    rw [htrace, hreturns] at hdone
    cases hdone
  | some m =>
    have hblock : m.label = .block := by
      rw [← EventLabel.isBlock_iff, ← Bool.not_eq_false]
      exact fun hopen' => (on_order_ne_none (h.tabulated.indexOrdered g) _).mpr ⟨m, hm, hopen'⟩ hnone
    obtain ⟨threadFn', receive, hthread', hanswer, hblocking, hunread⟩ := stuck_answer h.tabulated h.consistent.async.endpoints
      h.replays hm hblock
      (hstuck tid ((endsInBlock_iff h.tabulated h.replays tid).mpr ⟨i, m, hm, hblock⟩))
    obtain rfl : threadFn = threadFn' := Except.ok.inj (hthread.symm.trans hthread')
    rw [htrace, hreturns] at hanswer
    cases hanswer
    obtain ⟨label, source⟩ := n
    cases hbecomes with
    | blocked => cases hopen
    | receive =>
      obtain ⟨source, hsource, hbottom⟩ := hgoal.consistent.assigned _ _ receive hn rfl
      cases hsource
      cases source with
      | bottom => exact hbottom hblocking rfl
      | send d =>
        -- the send is there, and nobody else reads it
        have hread : target.Reads d (tid, i) := ⟨_, hn, rfl⟩
        obtain ⟨hd, hwanted⟩ := hpast d (.read hread)
        obtain ⟨nd, send, receive', nr, hnd, hsend, hnr, hreceive, hdest, haccepts⟩ :=
          hgoal.consistent.delivered d _ hread
        obtain rfl := Option.some.inj (hn.symm.trans hnr)
        cases hreceive
        refine hunread d ((h.receivable_order tid receive d).mp ⟨⟨nd, send, (haligned.agrees d hd hwanted).trans hnd, hsend,
          hdest, haccepts⟩, fun r nr hr hsource => ?_⟩)
        have hsame := haligned.exclusive d r (tid, i) ⟨nr, hr, hsource⟩ (hreads rfl) hread
        rw [← hsame, hnone] at hr
        cases hr

theorem Leads.there_of_wanted (p : Pos) (n : Node V) (hn : target p = some n) (hopen : n.label.isBlock = false)
    (hpast : ∀ a, target.Past a p → Wanted target waiting a)
    (hreads : n.label.isReceive = true → Wanted target waiting p) :
    g.graph.execution.on g.graph.order p ≠ none := by
  induction p using hgoal.founded.induction generalizing n with
  | _ p ih =>
    refine hleads.there_of_past h hgoal hthreads hall hstuck hn hopen (fun a ha => ⟨?_, hpast a ha⟩) hreads
    obtain ⟨m, hm, hopen'⟩ := hgoal.consistent.past_open hgoal.replays.blockLast ha
    exact ih a ha m hm hopen' (fun b hb => hpast b (hb.trans ha)) fun _ => hpast a ha

theorem Leads.stack_empty : waiting = [] := by
  cases waiting with
  | nil => rfl
  | cons top below =>
    obtain ⟨r, q⟩ := top
    obtain ⟨before, after, receive, d, source, rest, earlier, -, -, houtstanding⟩ := hleads.top
    obtain ⟨n, send, hn, hsend, -⟩ := houtstanding.compatible hgoal.consistent
    refine absurd ((hleads.aligned hgoal).absent r q below rfl) ?_
    refine hleads.there_of_wanted h hgoal hthreads hall hstuck q n hn (by rw [hsend]; rfl) (fun _ ha => ha) fun hreceive => ?_
    rw [hsend] at hreceive
    cases hreceive

theorem Leads.execution_eq : g.graph.execution = target := by
  obtain rfl := hleads.stack_empty h hgoal hthreads hall hstuck
  have hordered := h.tabulated.indexOrdered g
  have haligned := hleads.aligned hgoal
  have hthere (p : Pos) (n : Node V) (hn : target p = some n) (hopen : n.label.isBlock = false) :
      ∃ m, g.graph.execution p = some m ∧ m.label.isBlock = false :=
    (on_order_ne_none hordered p).mp (hleads.there_of_wanted h hgoal hthreads hall hstuck p n hn hopen
      (fun _ _ => trivial) fun _ => trivial)
  have hagree (p : Pos) (m : Node V) (hm : g.graph.execution p = some m) (hopen : m.label.isBlock = false) :
      target p = some m := by
    have hmem := (hordered.mem_order g.graph p).mpr ⟨m, hm, hopen⟩
    have hon : g.graph.execution.on g.graph.order p = some m := Execution.on_eq_some.mpr ⟨hmem, hm⟩
    rw [← hon]
    exact (haligned.agrees p (by rw [hon]; exact Option.some_ne_none m) trivial).symm
  have htrace (tid i : ℕ) (hi : ∀ j, j < i → ∃ m, g.graph.execution (tid, j) = some m ∧ m.label.isBlock = false) :
      g.graph.execution.trace tid i = target.trace tid i :=
    haligned.trace_eq h.order_sources (fun j hj => (on_order_ne_none hordered _).mpr (hi j hj))
      fun _ _ => trivial
  funext p
  obtain ⟨tid, i⟩ := p
  cases hm : g.graph.execution (tid, i) with
  | some m =>
    cases hblock : m.label.isBlock with
    | false => exact (hagree _ m hm hblock).symm
    | true =>
      -- the thread stands in front of the same receive in the target
      have hblock := (EventLabel.isBlock_iff _).mp hblock
      have hlt (j : ℕ) (hj : j < i) : ∃ m, g.graph.execution (tid, j) = some m ∧ m.label.isBlock = false :=
        h.execution_consistent.past_open h.replays.blockLast
          (h.execution_consistent.past_order (by rw [hm]; exact Option.some_ne_none m) hj)
      obtain ⟨threadFn, receive, hthread, hanswer, -, -⟩ := stuck_answer h.tabulated h.consistent.async.endpoints
        h.replays hm hblock
        (hstuck tid ((endsInBlock_iff h.tabulated h.replays tid).mpr ⟨i, m, hm, hblock⟩))
      cases hn : target (tid, i) with
      | none =>
        have hdone := (hgoal.ended tid threadFn hthread).answer (fun j hj => by
          obtain ⟨m, hm, hopen⟩ := hlt j hj
          exact ⟨m, hagree _ m hm hopen, hopen⟩) hn
        rw [← htrace tid i hlt, hanswer] at hdone
        cases hdone
      | some n =>
        have hblock' : n.label = .block := by
          rw [← EventLabel.isBlock_iff, ← Bool.not_eq_false]
          intro hopen
          obtain ⟨m', hm', hopen'⟩ := hthere _ n hn hopen
          obtain rfl := Option.some.inj (hm.symm.trans hm')
          rw [hblock] at hopen'
          cases hopen'
        have hsource := hordered.source_eq_none g.graph h.consistent.async.endpoints _ m hm (by rw [hblock]; rfl)
        have hsource' := hgoal.sourceless _ n hn (by rw [hblock']; rfl)
        obtain ⟨label, source⟩ := m
        obtain ⟨label', source'⟩ := n
        cases hblock
        cases hblock'
        cases hsource
        cases hsource'
        rfl
  | none =>
    cases hn : target (tid, i) with
    | none => rfl
    | some n =>
      obtain ⟨threadFn, returned, hthread, hreturns, -⟩ := hgoal.replays.event tid i n hn
      have hlt (j : ℕ) (hj : j < i) : ∃ m, g.graph.execution (tid, j) = some m ∧ m.label.isBlock = false := by
        obtain ⟨n', hn', hopen⟩ := hgoal.consistent.past_open hgoal.replays.blockLast
          (hgoal.consistent.past_order (by rw [hn]; exact Option.some_ne_none n) hj)
        exact hthere _ n' hn' hopen
      have hdone := h.done_answer hthreads hall hthread hlt hm
      rw [htrace tid i hlt, hreturns] at hdone
      cases hdone

end Still

/-! ## Forests in which an execution is found -/

/-- The forest publishes the execution, if nothing in it is thrown and no branch of it is cut. -/
def Finds (target : Execution V) (f : Search V) : Prop :=
  f.fails = [] → (∀ t ∈ f.leaves, t.kind ≠ .depthLimit ∧ t.kind ≠ .error) →
    ∃ t ∈ f.leaves, t.Complete ∧ t.graph.graph.execution = target

section Finds
variable {target : Execution V} {f : Search V}

theorem finds_fail (raised : Raised) (rest : Search V) : Finds target (.fail raised rest) := fun hnone =>
    (nomatch hnone)

theorem finds_cut {t : Terminal V} (h : t.kind = .depthLimit ∨ t.kind = .error) :
    Finds target (.leaf t .nil : Search V) := by
  intro _ hkinds
  obtain ⟨hdepth, herror⟩ := hkinds t mem_cons_self
  exact absurd h (not_or.mpr ⟨hdepth, herror⟩)

theorem Finds.node (call : Call V) (h : Finds target f) : Finds target (.node call f .nil) := by
  have hleaves : (Forest.node call f .nil : Search V).leaves = f.leaves := append_nil _
  have hfails : (Forest.node call f .nil : Search V).fails = f.fails := append_nil _
  unfold Finds
  rw [hleaves, hfails]
  exact h

theorem Finds.append_left (h : Finds target f) (f' : Search V) : Finds target (f ++ f') := by
  intro hfails hkinds
  rw [Forest.fails_append] at hfails
  obtain ⟨t, ht, hfound⟩ := h (append_eq_nil_iff.mp hfails).1 fun t ht =>
    hkinds t (by rw [Forest.leaves_append]; exact mem_append_left _ ht)
  exact ⟨t, by rw [Forest.leaves_append]; exact mem_append_left _ ht, hfound⟩

theorem Finds.append_right (h : Finds target f) (f' : Search V) : Finds target (f' ++ f) := by
  intro hfails hkinds
  rw [Forest.fails_append] at hfails
  obtain ⟨t, ht, hfound⟩ := h (append_eq_nil_iff.mp hfails).2 fun t ht =>
    hkinds t (by rw [Forest.leaves_append]; exact mem_append_right _ ht)
  exact ⟨t, by rw [Forest.leaves_append]; exact mem_append_right _ ht, hfound⟩

end Finds

/-! ## The children of a call -/

section Children
variable [LinearOrder V] {config : DporConfig V} {tids : List ℕ} {g : ExplorationGraph V} {depth : ℕ}
  {target : Execution V} {recur : ExplorationGraph V → ℕ → Search V}
  (hbelow : ∀ child waiting, Explored config child (depth + 1) → Leads target child.graph waiting →
    child.blockCount ≤ g.blockCount + 1 → Finds target (recur child (depth + 1)))
include hbelow

theorem guarded_finds {child : ExplorationGraph V} (h : Prepared config child (depth + 1))
    (hconsistent : child.graph.ConsistentUnder config.communicationModel) {waiting : WaitStack}
    (hleads : Leads target child.graph waiting) (hblocks : child.blockCount ≤ g.blockCount + 1) :
    Finds target (guarded (Queries.ofConfig config tids) recur child (depth + 1)) := by
  rcases guarded_cases h.truthful h.tabulated tids recur (depth + 1) with ⟨-, marks, heq⟩ | ⟨hnot, -⟩
  · rw [heq]
    have hexplored := h.marked marks hconsistent
    refine Finds.node _ ?_
    cases marks with
    | false => exact hbelow child waiting hexplored hleads hblocks
    | true => exact hbelow child.markKnownAcyclic waiting hexplored hleads hblocks
  · exact absurd hconsistent hnot

variable (h : Explored config g depth)
include h

theorem extended_finds (returned label : EventLabel V) (hfound : NextFound config tids g tid returned)
    (hbecomes : Becomes returned label) (hreceive : label.isReceive = false) (herror : label.isError = false)
    (waiting : WaitStack) (hleads : ∀ child, Grows g tid label none child → Leads target child.graph waiting) :
    Finds target (extended recur g depth tid label) := by
  unfold extended
  rcases h.legal.addEvent_cases tid label with ⟨e, hadd, -⟩ | ⟨child, hadd, hgrows⟩
  · rw [hadd]
    exact finds_fail _ _
  · rw [hadd]
    exact hbelow child waiting (hfound.grown h hgrows hbecomes hreceive herror) (hleads child hgrows)
      (addEvent_blockCount_le hadd)

omit [LinearOrder V] h hbelow in
theorem choiceChildren_finds (tid : ℕ) (nd : NondeterministicChoiceLabel V) {choices : List V} {value : V}
    (hvalue : value ∈ choices) (hchild : Finds target (extended recur g depth tid (nd.choose value))) :
    Finds target (choiceChildren recur g depth tid nd choices) := by
  induction choices with
  | nil => cases hvalue
  | cons choice rest ih =>
    unfold choiceChildren
    rcases mem_cons.mp hvalue with rfl | hvalue
    · exact hchild.append_left _
    · exact (ih hvalue).append_right _

variable {receive : ReceiveLabel V}

omit [LinearOrder V] h hbelow in
theorem candidateChildren_finds {queries : Queries V} {candidates : List ℕ} {id : ℕ}
    (hid : id ∈ candidates) (hchild : Finds target (receiveChild queries recur g depth tid receive (.send id))) :
    Finds target (candidateChildren queries recur g depth tid receive candidates) := by
  induction candidates with
  | nil => cases hid
  | cons sendId rest ih =>
    unfold candidateChildren
    rcases mem_cons.mp hid with rfl | hid
    · exact hchild.append_left _
    · exact (ih hid).append_right _

omit [LinearOrder V] h hbelow in
theorem revisitChildren_finds {queries : Queries V} {grown child : ExplorationGraph V} {s : ℕ} {receives : List ℕ}
    {id : ℕ} (hid : id ∈ receives) (hrevisit : queries.revisitReceive grown s id = .ok (some child))
    (hchild : Finds target (guarded queries recur child (depth + 1))) :
    Finds target (revisitChildren queries recur grown depth s receives) := by
  induction receives with
  | nil => cases hid
  | cons other rest ih =>
    unfold revisitChildren
    rcases mem_cons.mp hid with rfl | hid
    · rw [hrevisit]
      exact hchild.append_left _
    · split
      · exact finds_fail _ _
      · exact ih hid
      · exact (ih hid).append_right _

variable (hgoal : Goal config target) {waiting : WaitStack} (hleads : Leads target g.graph waiting)
include hgoal hleads

omit hbelow in
theorem NextFound.not_top {returned : EventLabel V} (hfound : NextFound config tids g tid returned)
    (hother : ∀ send, returned ≠ .send send) (r q : Pos) (below : WaitStack) (hwaiting : waiting = (r, q) :: below) :
    (tid, threadCount g.graph.events tid) ≠ q := by
  rintro rfl
  subst hwaiting
  obtain ⟨send, hsend, -⟩ := hfound.top_send h hgoal hleads
  exact hother send hsend

omit hgoal in
theorem block_finds (hblocking : receive.isBlocking = true)
    (hfound : NextFound config tids g tid (.receive receive)) : Finds target (extended recur g depth tid .block) :=
  extended_finds hbelow h _ _ hfound (.blocked receive hblocking) rfl rfl waiting fun _ hgrows =>
    (hgrows.leads_block h).mpr hleads

theorem receive_finds (hfound : NextFound config tids g tid (.receive receive))
    (hready : receive.isBlocking = true → hasCompatibleUnreadSend g tid receive = true) :
    Finds target (eventChildren (Queries.ofConfig config tids) recur g depth tid (.receive receive)) := by
  show Finds target (candidateChildren _ recur g depth tid receive (compatibleUnreadSendIds g tid receive) ++
    bottomChild _ recur g depth tid receive)
  obtain ⟨source, hsource, hchild⟩ := hfound.exists_receive h hgoal hleads rfl hready
    (hfound.not_top h hgoal hleads fun send hsame => by cases hsame)
  have hsources := (h.legal.mem_receiveSources tid receive source).mp hsource
  have hfinds : Finds target (receiveChild (Queries.ofConfig config tids) recur g depth tid receive source) := by
    unfold receiveChild
    rcases h.legal.withReceive_cases tid receive source with ⟨e, hadd, -⟩ | ⟨child, hadd, hgrows⟩
    · rw [hadd]
      exact finds_fail _ _
    · rw [hadd]
      obtain ⟨hconsistent, waiting', hwaiting⟩ := hchild child hgrows
      refine guarded_finds hbelow (h.prepared_grown hgrows (fun id hid => ?_)
        hfound.isOpen hfound.limit hfound.answers (.receive receive) rfl) hconsistent hwaiting
        (withReceive_blockCount_le hadd)
      rcases hsources with ⟨s, rfl, hs⟩ | ⟨rfl, -⟩
      · cases hid
        exact (hs.place h).1
      · cases hid
  rcases hsources with ⟨s, rfl, hs⟩ | ⟨rfl, hblocking⟩
  · exact (candidateChildren_finds
      ((mem_compatibleUnreadSendIds g h.tabulated h.counted tid receive s).mpr hs) hfinds).append_left _
  · refine Finds.append_right ?_ _
    unfold bottomChild
    rw [if_pos (by rw [ReceiveLabel.isNonblocking_eq, hblocking]; rfl)]
    exact hfinds

theorem send_finds {send : SendLabel V} (hfound : NextFound config tids g tid (.send send)) :
    Finds target (sendChildren (Queries.ofConfig config tids) recur g depth tid send) := by
  unfold sendChildren
  rcases h.legal.addEvent_cases tid (.send send) with ⟨e, hadd, -⟩ | ⟨grown, hadd, hgrows⟩
  · rw [hadd]
    exact finds_fail _ _
  rw [hadd]
  have hblocks := addEvent_blockCount_le hadd
  have hgrown := hfound.grown h hgrows (.send send) rfl rfl
  by_cases htop : ∃ r below, waiting = (r, (tid, threadCount g.graph.events tid)) :: below
  · -- the send on top: the receive that waits for it is revisited
    obtain ⟨r, below, rfl⟩ := htop
    obtain ⟨send', hsame, hq⟩ := hfound.top_send h hgoal hleads
    cases hsame
    obtain ⟨front, middle, er, receive, d, source, rest, earlier, rfl, harrival⟩ :=
      hleads.arrival h hgoal hq hgrows hgrown
    have hfresh := hgrows.freshSend h.legal
    have hes := hgrows.getElem?_last
    rcases hfresh.revisitReceive_ok
      harrival.receive_event harrival.receives hes rfl with ⟨child, mask, hrevisit, hrevisits, hto⟩ | ⟨-, hnot⟩
    · refine (revisitChildren_finds ?_
        hrevisit ?_).append_left _
      · rw [hgrows.tabulated.receives_eq grown send.destination, mem_positions]
        refine ⟨er, harrival.receive_event, (Bool.and_eq_true _ _).mpr ⟨decide_eq_true ?_, by rw [harrival.receives]; rfl⟩⟩
        exact (harrival.compatible hgoal).1.symm
      · have hprepared := hgrown.revisited hfresh hrevisits hto
          fun er' es' send' her' hes' hsend' => by
            obtain rfl := Option.some.inj (harrival.receive_event.symm.trans her')
            obtain rfl := Option.some.inj (hes.symm.trans hes')
            cases hsend'
            exact (harrival.compatible hgoal).1
        exact guarded_finds hbelow hprepared (harrival.consistent hgoal hfresh hes hgrown hto)
          (harrival.leads hgoal hfresh hes hgrown hto)
          (le_trans ((Queries.ofConfig config tids).revisit_rebuilt grown _ _ child hrevisit).2 hblocks)
    · exact absurd (harrival.revisits hgoal hfresh hes) hnot
  · refine Finds.append_right (hbelow grown waiting hgrown ?_ hblocks) _
    refine hfound.leads_open h hgoal hleads hgrows rfl rfl (fun _ n _ hbecomes => ?_) (fun r q below hwaiting hsame => ?_)
      fun nd hnd => by cases hnd
    · generalize n.label = label at hbecomes
      cases hbecomes
      rfl
    · rw [← hsame] at hwaiting
      exact htop ⟨r, below, hwaiting⟩

theorem choice_finds {nd : NondeterministicChoiceLabel V}
    (hfound : NextFound config tids g tid (.nondeterministicChoice nd)) :
    Finds target (eventChildren (Queries.ofConfig config tids) recur g depth tid (.nondeterministicChoice nd)) := by
  show Finds target (if nd.choices.isEmpty then _ else _)
  have hne := hfound.not_top h hgoal hleads fun send hsame => by cases hsame
  by_cases hempty : nd.choices.isEmpty = true
  · rw [if_pos hempty]
    have hnil := isEmpty_iff.mp hempty
    refine extended_finds hbelow h _ _ hfound (.free nd hnil) rfl rfl waiting fun child hgrows => ?_
    refine hfound.leads_open h hgoal hleads hgrows rfl rfl (fun _ n _ hbecomes => ?_) hne fun nd' hnd _ => ?_
    · generalize n.label = label at hbecomes
      cases hbecomes with
      | free => rfl
      | choice _ value hvalue =>
        rw [hnil] at hvalue
        cases hvalue
    · cases hnd
      unfold isMinimalChoice
      rw [hnil]
      rfl
  · rw [if_neg hempty]
    have hchoices : nd.choices ≠ [] := fun hnil => hempty (isEmpty_iff.mpr hnil)
    obtain ⟨value, hvalue, hsame, hleast⟩ : ∃ value ∈ eraseDuplicateNdChoices nd.choices,
        (Wanted target waiting (tid, threadCount g.graph.events tid) → ∀ n,
          target (tid, threadCount g.graph.events tid) = some n → Becomes (.nondeterministicChoice nd) n.label →
          n.label = .nondeterministicChoice ⟨value, eraseDuplicateNdChoices nd.choices⟩) ∧
        (¬ Wanted target waiting (tid, threadCount g.graph.events tid) →
          isMinimalChoice ⟨value, eraseDuplicateNdChoices nd.choices⟩ = true) := by
      by_cases hwanted : Wanted target waiting (tid, threadCount g.graph.events tid)
      · obtain ⟨n, hn, hbecomes⟩ := hfound.wanted_node h hgoal hleads hwanted
        obtain ⟨label, source⟩ := n
        cases hbecomes with
        | free _ hnil => exact absurd hnil hchoices
        | choice _ value hvalue =>
          refine ⟨value, (mem_eraseDuplicateNdChoices nd.choices value).mpr hvalue, fun _ n' hn' _ => ?_,
            fun hnot => absurd hwanted hnot⟩
          rw [← Option.some.inj (hn.symm.trans hn')]
      · cases hleast : (eraseDuplicateNdChoices nd.choices).min? with
        | none => exact absurd (min?_eq_none_iff.mp hleast) (eraseDuplicateNdChoices_ne_nil nd.choices hchoices)
        | some least =>
          refine ⟨least, min?_mem hleast, fun hw => absurd hw hwanted, fun _ => ?_⟩
          unfold isMinimalChoice
          dsimp only
          rw [hleast]
          exact decide_eq_true rfl
    refine choiceChildren_finds tid _ hvalue ?_
    refine extended_finds hbelow h _ _ hfound
      (.choice nd value ((mem_eraseDuplicateNdChoices nd.choices value).mp hvalue)) rfl rfl waiting fun child hgrows => ?_
    refine hfound.leads_open h hgoal hleads hgrows rfl rfl hsame hne fun nd' hnd hwanted => ?_
    cases hnd
    exact hleast hwanted

theorem eventChildren_finds {tid : ℕ} {returned : EventLabel V} (hfound : NextFound config tids g tid returned)
    (hlabel : returned ≠ .block) :
    Finds target (eventChildren (Queries.ofConfig config tids) recur g depth tid (eventFor g tid returned)) := by
  cases returned with
  | block => exact absurd rfl hlabel
  | send send => exact send_finds hbelow h hgoal hleads hfound
  | nondeterministicChoice nd => exact choice_finds hbelow h hgoal hleads hfound
  | error error =>
    unfold eventFor eventChildren
    dsimp only
    cases g.addEvent tid (.error error) with
    | error e => exact finds_fail _ _
    | ok added => exact finds_cut (.inr rfl)
  | receive receive =>
    unfold eventFor
    dsimp only
    split
    · rename_i hblocks
      exact block_finds hbelow h hleads ((Bool.and_eq_true _ _).mp hblocks).1 hfound
    · rename_i hnot
      refine receive_finds hbelow h hgoal hleads hfound fun hblocking => ?_
      rw [hblocking, Bool.true_and, Bool.not_eq_true', Bool.not_eq_false] at hnot
      exact hnot

end Children

theorem visit_finds [LinearOrder V] (config : DporConfig V) (hlimit : config.maxThreadEvents = 0) (tids : List ℕ)
    (hthreads : ThreadsOf config.program tids) (target : Execution V) (hgoal : Goal config target)
    (g : ExplorationGraph V) (depth : ℕ) (h : Explored config g depth) (waiting : WaitStack)
    (hleads : Leads target g.graph waiting) :
    Finds target (visit (Queries.ofConfig config tids) tids config.maxDepth g depth) := by
  induction hcalls : visitCalls config.maxDepth g depth using Nat.strong_induction_on generalizing g depth waiting with
  | _ calls ih =>
    subst hcalls
    rw [visit_eq]
    refine Finds.node _ ?_
    unfold visitBody
    split
    · exact finds_cut (.inl rfl)
    rename_i hdepth
    have hscanned := h.computeNextEvent_scanned hthreads
    rw [show (Queries.ofConfig config tids).computeNextEvent g =
      computeNextEvent config.program g tids config.maxThreadEvents from rfl]
    generalize computeNextEvent config.program g tids config.maxThreadEvents = next at hscanned ⊢
    cases hscanned with
    | refused tid _ _ _ _ => exact finds_fail _ _
    | found tid label flag hmem hopen hatLimit hanswers hlabel =>
      refine eventChildren_finds (fun child waiting' hchild hleads' hblocks => ?_) h hgoal hleads
        ⟨hmem, hopen, hatLimit, hanswers⟩ hlabel
      exact ih _ (visitCalls_deeper _ (Nat.lt_of_not_le hdepth) hblocks) child _ hchild waiting' hleads' rfl
    | exhausted flag hflag hall =>
      have hnolimit (tid : ℕ) : ¬ AtLimit config.maxThreadEvents g tid := fun hatLimit => hatLimit.1 hlimit
      dsimp only
      rcases (@Explored.rescheduleChild_ok V _ config tids g depth h tids) with
        ⟨hnone, hstuck⟩ | ⟨child, hsome, -⟩
      · rw [hnone]
        refine fun _ _ => ⟨_, mem_cons_self, ?_, ?_⟩
        · have hfalse : flag = false := by
            rw [← Bool.not_eq_true, hflag]
            rintro (hfalse | ⟨tid, -, -, hatLimit⟩)
            · cases hfalse
            · exact hnolimit tid hatLimit
          unfold Terminal.Complete maximalKind
          dsimp only
          rw [hfalse]
          cases g.hasBlockedThread with
          | true => exact .inr rfl
          | false => exact .inl rfl
        · refine hleads.execution_eq h hgoal hthreads (fun tid htid => ?_) fun tid hends =>
            hstuck tid (h.endsInBlock_mem hthreads hends) hends
          rcases hall tid htid with hterminated | hatLimit | hdone
          · exact .inl ((h.terminated_iff tid).mp hterminated)
          · exact absurd hatLimit (hnolimit tid)
          · exact .inr hdone
      · rw [hsome]
        obtain ⟨hchild, hsame⟩ := h.rescheduleChild_leads hsome
        refine ih _ ?_ child depth hchild waiting ((hsame target waiting).mpr hleads) rfl
        have hless := rescheduleChild_blockCount_lt _ hsome
        unfold visitCalls
        omega

end MustDpor

import MustDpor.Algo.Explored
import MustDpor.Algo.Sequential

/-! # Soundness of the exploration

Everything in VISIT's forest is accounted for: the graphs it is called with, the terminals it publishes
with what their kinds say, and the exceptions, which are all answers to a program that breaks the rules or
runs out of event indices. Runs of `verify` inherit it round by round. -/

namespace MustDpor
set_option autoImplicit false
open List

variable {V : Type}

/-! ## What a terminal promises -/

/-- What the kind of a terminal says about its graph. -/
def KindHolds (config : DporConfig V) (threadIds : List ℕ) (g : ExplorationGraph V) :
    TerminalExecutionKind → Prop
  | .full =>
    (∀ e ∈ g.graph.events, e.label.isBlock = false ∧ e.label.isError = false) ∧
      ∀ tid ∈ threadIds, Answers config.program g tid none
  | .blocked =>
    (∃ tid, EndsInBlock g tid) ∧ (∀ id, g.isBlockId id = true → ∃ tid, g.lastEventId tid = some id) ∧
      (∀ tid, EndsInBlock g tid → Stuck config.program g tid) ∧
      ∀ tid ∈ threadIds, ¬ EndsInBlock g tid → Answers config.program g tid none
  | .threadEventLimit =>
    (∃ tid ∈ threadIds, ¬ EndsInBlock g tid ∧ g.threadEventCount tid = config.maxThreadEvents) ∧
      ∀ tid ∈ threadIds, g.threadEventCount tid ≠ config.maxThreadEvents → ¬ EndsInBlock g tid →
        Answers config.program g tid none
  | .error =>
    ∃ before e, g.graph.events = before ++ [e] ∧ e.label.isError = true ∧
      ∀ other ∈ before, other.label.isError = false
  | .depthLimit => True

structure Published [LinearOrder V] (config : DporConfig V) (threadIds : List ℕ) (terminal : Terminal V) :
    Prop where
  tabulated : terminal.graph.Tabulated
  consistent : terminal.graph.graph.ConsistentUnder config.communicationModel
  replays : Replays config.program terminal.graph.graph.execution
  bounded : config.maxThreadEvents ≠ 0 →
    ∀ tid, threadCount terminal.graph.graph.events tid ≤ config.maxThreadEvents
  kind : KindHolds config threadIds terminal.graph terminal.kind

/-- A call of VISIT is made with an explored graph. -/
def Visited [LinearOrder V] (config : DporConfig V) (call : Call V) : Prop :=
  call.mode = .visit → Explored config call.graph call.dporTreeDepth

/-- The exceptions that the program is to blame for. -/
inductive Permitted (config : DporConfig V) (threadIds : List ℕ) : Raised → Prop where
  | blockLabel (tid : ℕ) (threadFn : ThreadFunction V) (trace : ThreadTrace V) (step : ℕ) :
      config.program.threads.atThread tid = .ok threadFn → threadFn trace step = some .block →
      Permitted config threadIds (.query (blockLabelError tid))
  | noIndex (tid : ℕ) (e : DporError) : tid ∈ threadIds →
      kMaxThreadId < tid ∨ maxEventIndex + 1 < config.maxDepth → Permitted config threadIds (.engine e)

abbrev Accounted [LinearOrder V] (config : DporConfig V) (threadIds : List ℕ) (f : Search V) : Prop :=
  f.All (Visited config) (Published config threadIds) (Permitted config threadIds)

/-- Every call is made with a prepared graph, a call of VISIT with an explored one. -/
structure Entered [LinearOrder V] (config : DporConfig V) (call : Call V) : Prop where
  prepared : Prepared config call.graph call.dporTreeDepth
  visited : Visited config call

abbrev Charted [LinearOrder V] (config : DporConfig V) (threadIds : List ℕ) (f : Search V) : Prop :=
  f.All (Entered config) (Published config threadIds) (Permitted config threadIds)

/-- The threads a run was started with are those of its program. -/
def ThreadsOf (program : Program V) (threadIds : List ℕ) : Prop :=
  ∀ tid, tid ∈ threadIds ↔ ∃ threadFn, program.threads.atThread tid = .ok threadFn

theorem threadsOf_sorted (program : Program V) (tids : List ℕ)
    (h : sortedThreadIds program = .ok tids) : ThreadsOf program tids := by
  rw [sortedThreadIds_eq h]
  exact program.threads.mem_assigned

variable {tid : ℕ}

section Maximal
variable [LinearOrder V] {config : DporConfig V} {tids : List ℕ} {g : ExplorationGraph V} {depth : ℕ}
  (h : Explored config g depth)
include h

theorem Explored.threadTrace_ok (tid : ℕ) : ∃ trace, g.threadTrace tid = .ok trace :=
  ⟨_, h.tabulated.threadTrace_ok h.consistent.async.endpoints tid⟩

theorem Explored.computeNextEvent_scanned (hthreads : ThreadsOf config.program tids) :
    Scanned config.program g config.maxThreadEvents tids false
      (computeNextEvent config.program g tids config.maxThreadEvents) :=
  computeNextEventFrom_scanned false (fun tid htid => (hthreads tid).mp htid) h.threadTrace_ok

theorem Explored.terminated_iff (tid : ℕ) : g.threadIsTerminated tid = true ↔ EndsInBlock g tid := by
  unfold ExplorationGraph.threadIsTerminated EndsInBlock
  cases hlast : g.lastEventId tid with
  | none => simp
  | some id =>
    obtain ⟨e, he, -⟩ := lastEventId_some h.tabulated hlast
    have herror : g.isErrorId id = false := by
      unfold ExplorationGraph.isErrorId ExplorationGraph.label?
      rw [he]
      exact h.errorless e (mem_of_getElem? he)
    simp [herror]

omit h in
theorem block_last (htabulated : g.Tabulated) (hreplays : Replays config.program g.graph.execution) (id : ℕ)
    (hblock : g.isBlockId id = true) : ∃ tid, g.lastEventId tid = some id := by
  obtain ⟨e, he, hlabel⟩ := (isBlockId_iff id).mp hblock
  refine ⟨e.thread, lastEventId_of_index htabulated he ?_⟩
  have hlt := htabulated.numbered.index_lt he
  have hnode : g.graph.execution (e.thread, e.index) = g.graph.nodeAt id :=
    (htabulated.indexOrdered g).execution_of_posAt ((g.graph.posAt_eq_some id _).mpr ⟨e, he, rfl⟩)
  rw [ExecutionGraph.nodeAt, he] at hnode
  have hnone := hreplays.blockLast e.thread e.index _ hnode hlabel
  have hle : ¬ e.index + 1 < threadCount g.graph.events e.thread := fun hlt =>
    (htabulated.execution_ne_none_iff e.thread (e.index + 1)).mpr hlt hnone
  omega

theorem Explored.hasBlockedThread_iff : g.hasBlockedThread = true ↔ ∃ tid, EndsInBlock g tid := by
  rw [h.tabulated.hasBlockedThread_iff g]
  refine exists_congr fun tid => ?_
  unfold EndsInBlock
  rw [h.tabulated.lastEventId_eq g tid]
  exact Option.any_eq_true _ _

omit [LinearOrder V] h in
theorem not_endsInBlock_iff [LinearOrder V] (h : Explored config g depth) (tid : ℕ) :
    g.threadIsTerminated tid = false ↔ ¬ EndsInBlock g tid := by
  rw [← h.terminated_iff tid, Bool.not_eq_true]

theorem Explored.maximal_kindHolds {suppressed : Bool}
    (hsuppressed : suppressed = true ↔ ∃ tid ∈ tids, g.threadIsTerminated tid = false ∧
      AtLimit config.maxThreadEvents g tid)
    (hall : ∀ tid ∈ tids, g.threadIsTerminated tid = true ∨ AtLimit config.maxThreadEvents g tid ∨
      Answers config.program g tid none) (hstuck : ∀ tid, EndsInBlock g tid → Stuck config.program g tid) :
    KindHolds config tids g (maximalKind g suppressed) := by
  unfold maximalKind
  cases suppressed with
  | true =>
    rw [if_pos rfl]
    obtain ⟨tid, htid, hopen, hlimit⟩ := hsuppressed.mp rfl
    refine ⟨⟨tid, htid, (not_endsInBlock_iff h tid).mp hopen, ?_⟩, fun other hother hcount hnot => ?_⟩
    · have hle := h.bounded hlimit.1 tid
      rw [← threadEventCount_eq h.tabulated] at hle
      exact le_antisymm hle hlimit.2
    · rcases hall other hother with hterminated | hlimit' | hdone
      · exact absurd ((h.terminated_iff other).mp hterminated) hnot
      · have hle := h.bounded hlimit'.1 other
        rw [← threadEventCount_eq h.tabulated] at hle
        exact absurd (le_antisymm hle hlimit'.2) hcount
      · exact hdone
  | false =>
    rw [if_neg Bool.false_ne_true]
    have hdone (tid : ℕ) (htid : tid ∈ tids) (hnot : ¬ EndsInBlock g tid) :
        Answers config.program g tid none := by
      rcases hall tid htid with hterminated | hlimit | hdone
      · exact absurd ((h.terminated_iff tid).mp hterminated) hnot
      · exact absurd (hsuppressed.mpr ⟨tid, htid, (not_endsInBlock_iff h tid).mpr hnot, hlimit⟩) Bool.false_ne_true
      · exact hdone
    by_cases hblocked : g.hasBlockedThread = true
    · rw [if_pos hblocked]
      exact ⟨h.hasBlockedThread_iff.mp hblocked, block_last h.tabulated h.replays, hstuck, hdone⟩
    · rw [if_neg hblocked]
      have hnone (tid : ℕ) : ¬ EndsInBlock g tid := fun hends => hblocked (h.hasBlockedThread_iff.mpr ⟨tid, hends⟩)
      refine ⟨fun e he => ⟨?_, h.errorless e he⟩, fun tid htid => hdone tid htid (hnone tid)⟩
      rw [← Bool.not_eq_true, EventLabel.isBlock_iff]
      intro hlabel
      obtain ⟨id, hid⟩ := getElem?_of_mem he
      have hblock : g.isBlockId id = true := (isBlockId_iff id).mpr ⟨e, hid, hlabel⟩
      obtain ⟨tid, hlast⟩ := block_last h.tabulated h.replays id hblock
      exact hnone tid ⟨id, hlast, hblock⟩

theorem Explored.rescheduleChild_ok (ids : List ℕ) :
    (rescheduleChild (Queries.ofConfig config tids) g ids = .ok none ∧
      ∀ tid ∈ ids, EndsInBlock g tid → Stuck config.program g tid) ∨
    ∃ child, rescheduleChild (Queries.ofConfig config tids) g ids = .ok (some child) ∧
      Explored config child depth := by
  induction ids with
  | nil => exact .inl ⟨rfl, nofun⟩
  | cons tid rest ih =>
    unfold rescheduleChild
    show _ ∨ ∃ child, (MustDpor.rescheduleThread config.program g tid >>= _) = _ ∧ _
    rw [show (Queries.ofConfig config tids).rescheduleThread g tid =
      MustDpor.rescheduleThread config.program g tid from rfl]
    rcases rescheduleThread_ok h.tabulated h.counted h.consistent.async.endpoints h.replays tid with
      ⟨hnone, hstuck⟩ | ⟨id, child, hlast, hblock, hsome, hrestrict, hto⟩
    · rw [hnone]
      rcases ih with ⟨hrest, hall⟩ | ⟨child, hrest, hchild⟩
      · refine .inl ⟨hrest, fun other hother => ?_⟩
        rcases mem_cons.mp hother with rfl | hother
        · exact hstuck
        · exact hall other hother
      · exact .inr ⟨child, hrest, hchild⟩
    · rw [hsome]
      exact .inr ⟨child, rfl, h.rescheduled hlast hblock hrestrict hto⟩

theorem Explored.endsInBlock_mem (hthreads : ThreadsOf config.program tids)
    (hends : EndsInBlock g tid) : tid ∈ tids := by
  obtain ⟨id, hlast, hblock⟩ := hends
  obtain ⟨threadFn, -, -, hthread, -⟩ := h.replays.block_answers h.tabulated h.consistent.async.endpoints
    hlast hblock
  exact (hthreads tid).mpr ⟨threadFn, hthread⟩

theorem Explored.published {kind : TerminalExecutionKind} (hkind : KindHolds config tids g kind) :
    Published config tids ⟨g, kind⟩ :=
  ⟨h.tabulated, h.consistent, h.replays, h.bounded, hkind⟩

end Maximal

/-! ## The children of a call -/

theorem guarded_cases [LinearOrder V] {config : DporConfig V} {child : ExplorationGraph V} (htruthful : child.Truthful)
    (htabulated : child.Tabulated) (tids : List ℕ) (recur : ExplorationGraph V → ℕ → Search V) (d : ℕ) :
    (child.graph.ConsistentUnder config.communicationModel ∧
      ∃ marks : Bool, guarded (Queries.ofConfig config tids) recur child d = .node ⟨child, d, .visitIfConsistent⟩
        (recur (if marks then child.markKnownAcyclic else child) d) .nil) ∨
    ¬ child.graph.ConsistentUnder config.communicationModel ∧
      guarded (Queries.ofConfig config tids) recur child d = .node ⟨child, d, .visitIfConsistent⟩ .nil .nil := by
  unfold guarded
  obtain ⟨result, marks, hcheck, hiff, -⟩ := htruthful.checkConsistency_ok htabulated config.communicationModel
  rw [show (Queries.ofConfig config tids).checkConsistency child =
    checkConsistency child config.communicationModel from rfl, hcheck]
  dsimp only
  by_cases hconsistent : result.isConsistent = true
  · rw [if_pos hconsistent]
    exact .inl ⟨hiff.mp hconsistent, marks, rfl⟩
  · rw [if_neg hconsistent]
    exact .inr ⟨hiff.not.mp hconsistent, rfl⟩

section Children
variable [LinearOrder V] {config : DporConfig V} {tids : List ℕ} {g : ExplorationGraph V} {depth : ℕ}
  {recur : ExplorationGraph V → ℕ → Search V}
  (hrecur : ∀ child d, Explored config child d → Charted config tids (recur child d))
include hrecur

theorem guarded_charted {child : ExplorationGraph V} {d : ℕ} (h : Prepared config child d) :
    Charted config tids (guarded (Queries.ofConfig config tids) recur child d) := by
  rcases guarded_cases h.truthful h.tabulated tids recur d with ⟨hconsistent, marks, heq⟩ | ⟨-, heq⟩
  · rw [heq]
    exact Forest.all_node _ ⟨h, nofun⟩ (hrecur _ d (h.marked marks hconsistent))
  · rw [heq]
    exact Forest.all_node _ ⟨h, nofun⟩ Forest.all_nil

/-- The answer of a thread function that the scan stopped at. -/
structure NextFound (config : DporConfig V) (threadIds : List ℕ) (g : ExplorationGraph V) (tid : ℕ)
    (returned : EventLabel V) : Prop where
  thread : tid ∈ threadIds
  isOpen : g.threadIsTerminated tid = false
  limit : ¬ AtLimit config.maxThreadEvents g tid
  answers : Answers config.program g tid (some returned)

omit [LinearOrder V] hrecur in
theorem nextFound_of_next (htrace : ∀ tid, ∃ trace, g.threadTrace tid = .ok trace)
    (hthreads : ThreadsOf config.program tids) {label : EventLabel V} {flag : Bool}
    (hnext : computeNextEvent config.program g tids config.maxThreadEvents = .ok ⟨some (tid, label), flag⟩) :
    ∃ returned, NextFound config tids g tid returned ∧ label = eventFor g tid returned := by
  have hscanned : Scanned config.program g config.maxThreadEvents tids false (.ok ⟨some (tid, label), flag⟩) :=
    hnext ▸ computeNextEventFrom_scanned false (fun tid htid => (hthreads tid).mp htid) htrace
  cases hscanned with
  | found _ returned _ hmem hopen hlimit hanswers => exact ⟨returned, ⟨hmem, hopen, hlimit, hanswers⟩, rfl⟩

omit hrecur in
theorem NextFound.grown {returned label : EventLabel V} (hfound : NextFound config tids g tid returned)
    (h : Explored config g depth) {child : ExplorationGraph V} (hgrows : Grows g tid label none child)
    (hbecomes : Becomes returned label) (hreceive : label.isReceive = false) (herror : label.isError = false) :
    Explored config child (depth + 1) :=
  ⟨h.prepared_grown hgrows nofun hfound.isOpen hfound.limit hfound.answers hbecomes herror,
    h.legal.consistent_grown hgrows hreceive⟩

omit hrecur in
theorem Explored.noIndex_permitted (h : Explored config g depth) (hdepth : depth < config.maxDepth)
    (htid : tid ∈ tids) (e : DporError) (hexhausted : IndexExhausted g tid) :
    Permitted config tids (.engine e) := by
  refine .noIndex tid e htid ?_
  rcases hexhausted with hthread | hindex
  · exact .inl hthread
  · have hcount : threadCount g.graph.events tid ≤ g.eventCount := countP_le_length
    have hsize := h.size
    right
    omega

theorem extended_charted (h : Explored config g depth) (hdepth : depth < config.maxDepth)
    {returned label : EventLabel V} (hfound : NextFound config tids g tid returned)
    (hbecomes : Becomes returned label) (hreceive : label.isReceive = false) (herror : label.isError = false) :
    Charted config tids (extended recur g depth tid label) := by
  unfold extended
  rcases h.legal.addEvent_cases tid label with ⟨e, hadd, hexhausted⟩ | ⟨child, hadd, hgrows⟩
  · rw [hadd]
    exact Forest.all_fail _ (h.noIndex_permitted hdepth hfound.thread e hexhausted)
  · rw [hadd]
    exact hrecur child _ (hfound.grown h hgrows hbecomes hreceive herror)

theorem choiceChildren_charted (h : Explored config g depth) (hdepth : depth < config.maxDepth)
    {nd : NondeterministicChoiceLabel V}
    (hfound : NextFound config tids g tid (.nondeterministicChoice nd)) {choices : List V}
    (hchoices : ∀ v ∈ choices, v ∈ nd.choices) :
    Charted config tids (choiceChildren recur g depth tid
      { nd with choices := eraseDuplicateNdChoices nd.choices } choices) := by
  induction choices with
  | nil => exact Forest.all_nil
  | cons choice rest ih =>
    unfold choiceChildren
    refine Forest.All.append ?_ (ih fun v hv => hchoices v (mem_cons_of_mem _ hv))
    exact extended_charted hrecur h hdepth hfound
      (.choice nd choice (hchoices choice mem_cons_self)) rfl rfl

variable {receive : ReceiveLabel V}

theorem receiveChild_charted (h : Explored config g depth) (hdepth : depth < config.maxDepth)
    (hfound : NextFound config tids g tid (.receive receive))
    {source : ReadsFromSource} (hsource : ∀ id, source = .send id → id < g.eventCount) :
    Charted config tids
      (receiveChild (Queries.ofConfig config tids) recur g depth tid receive source) := by
  unfold receiveChild
  rcases h.legal.withReceive_cases tid receive source with ⟨e, hadd, hexhausted⟩ | ⟨child, hadd, hgrows⟩
  · rw [hadd]
    exact Forest.all_fail _ (h.noIndex_permitted hdepth hfound.thread e hexhausted)
  · rw [hadd]
    exact guarded_charted hrecur (h.prepared_grown hgrows
      (fun id hid => hsource id (Option.some.inj hid)) hfound.isOpen hfound.limit hfound.answers
      (.receive receive) rfl)

theorem candidateChildren_charted (h : Explored config g depth) (hdepth : depth < config.maxDepth)
    (hfound : NextFound config tids g tid (.receive receive))
    {candidates : List ℕ} (hcandidates : ∀ id ∈ candidates, id < g.eventCount) :
    Charted config tids
      (candidateChildren (Queries.ofConfig config tids) recur g depth tid receive candidates) := by
  induction candidates with
  | nil => exact Forest.all_nil
  | cons sendId rest ih =>
    unfold candidateChildren
    refine Forest.All.append ?_ (ih fun id hid => hcandidates id (mem_cons_of_mem _ hid))
    refine receiveChild_charted hrecur h hdepth hfound fun id hid => ?_
    cases hid
    exact hcandidates sendId mem_cons_self

theorem receive_charted (h : Explored config g depth) (hdepth : depth < config.maxDepth)
    (hfound : NextFound config tids g tid (.receive receive)) :
    Charted config tids
      (eventChildren (Queries.ofConfig config tids) recur g depth tid (.receive receive)) := by
  show Charted config tids (candidateChildren _ recur g depth tid receive _ ++ bottomChild _ recur g depth
    tid receive)
  refine Forest.All.append ?_ ?_
  · refine candidateChildren_charted hrecur h hdepth hfound fun id hid => ?_
    obtain ⟨hcompat, -⟩ := (mem_compatibleUnreadSendIds g h.tabulated h.counted tid receive id).mp hid
    obtain ⟨es, -, hes, -⟩ := (compatibleSend_iff g tid receive id).mp hcompat
    exact lt_of_getElem? hes
  · unfold bottomChild
    split
    · exact receiveChild_charted hrecur h hdepth hfound nofun
    · exact Forest.all_nil

theorem revisitChildren_charted {child : ExplorationGraph V} {d s : ℕ} (h : Explored config child (d + 1))
    (hfresh : FreshSend child config.communicationModel s) {es : Event V} {send : SendLabel V}
    (hes : child.graph.events[s]? = some es) (hsend : es.label = .send send) {receives : List ℕ}
    (hreceives : ∀ r ∈ receives, r ∈ positions child.graph.events (receiveIn send.destination)) :
    Charted config tids
      (revisitChildren (Queries.ofConfig config tids) recur child d s receives) := by
  induction receives with
  | nil => exact Forest.all_nil
  | cons r rest ih =>
    have ih := ih fun r' hr' => hreceives r' (mem_cons_of_mem _ hr')
    obtain ⟨er, her, hin⟩ := (mem_positions _ _ _).mp (hreceives r mem_cons_self)
    obtain ⟨hthread, hreceive⟩ := (Bool.and_eq_true _ _).mp hin
    obtain ⟨receive, hreceive⟩ := (EventLabel.isReceive_iff _).mp hreceive
    unfold revisitChildren
    rw [show (Queries.ofConfig config tids).revisitReceive child s r =
      revisitReceive child config.communicationModel s r from rfl]
    rcases hfresh.revisitReceive_ok her hreceive hes hsend
      with ⟨revisited, mask, hrevisited, hrevisits, hto⟩ | ⟨hnone, -⟩
    · rw [hrevisited]
      refine Forest.All.append (guarded_charted hrecur ?_) ih
      refine h.revisited hfresh hrevisits hto fun er' es' send' her' hes' hsend' => ?_
      rw [her] at her'
      cases her'
      rw [hes] at hes'
      cases hes'
      rw [hsend] at hsend'
      cases hsend'
      exact (of_decide_eq_true hthread).symm
    · rw [hnone]
      exact ih

theorem send_charted (h : Explored config g depth) (hdepth : depth < config.maxDepth)
    {send : SendLabel V} (hfound : NextFound config tids g tid (.send send)) :
    Charted config tids (sendChildren (Queries.ofConfig config tids) recur g depth tid send) := by
  unfold sendChildren
  rcases h.legal.addEvent_cases tid (.send send) with ⟨e, hadd, hexhausted⟩ | ⟨child, hadd, hgrows⟩
  · rw [hadd]
    exact Forest.all_fail _ (h.noIndex_permitted hdepth hfound.thread e hexhausted)
  · rw [hadd]
    have hchild := hfound.grown h hgrows (.send send) rfl rfl
    have hevent := hgrows.getElem?_last
    have hfresh := hgrows.freshSend h.legal
    refine Forest.All.append ?_ (hrecur child _ hchild)
    refine revisitChildren_charted hrecur hchild hfresh hevent rfl fun r hr => ?_
    rw [hgrows.tabulated.receives_eq child] at hr
    exact hr

omit hrecur in
theorem error_charted (h : Explored config g depth) (hdepth : depth < config.maxDepth)
    {error : ErrorLabel} (hfound : NextFound config tids g tid (.error error)) :
    Charted config tids
      (eventChildren (Queries.ofConfig config tids) recur g depth tid (.error error)) := by
  unfold eventChildren
  dsimp only
  rcases h.legal.addEvent_cases tid (.error error) with ⟨e, hadd, hexhausted⟩ | ⟨child, hadd, hgrows⟩
  · rw [hadd]
    exact Forest.all_fail _ (h.noIndex_permitted hdepth hfound.thread e hexhausted)
  · rw [hadd]
    refine Forest.all_leaf
      { tabulated := hgrows.tabulated
        consistent := h.legal.consistent_grown hgrows rfl
        replays := h.replays_grown hgrows nofun hfound.isOpen
          hfound.answers (.error error)
        bounded := fun hne other => ?_
        kind := ⟨g.graph.events, _, hgrows.events, rfl, h.errorless⟩ }
    have hle := h.bounded hne other
    show threadCount child.graph.events other ≤ _
    rw [hgrows.events, threadCount_concat]
    split
    · rename_i hsame
      subst hsame
      have hlimit := hfound.limit
      unfold AtLimit at hlimit
      rw [threadEventCount_eq h.tabulated] at hlimit
      dsimp only at hle ⊢
      omega
    · exact hle

theorem eventChildren_charted (h : Explored config g depth) (hdepth : depth < config.maxDepth) {tid : ℕ}
    {returned : EventLabel V} (hfound : NextFound config tids g tid returned) (hlabel : returned ≠ .block) :
    Charted config tids
      (eventChildren (Queries.ofConfig config tids) recur g depth tid (eventFor g tid returned)) := by
  cases returned with
  | block => exact absurd rfl hlabel
  | error error => exact error_charted h hdepth hfound
  | send send => exact send_charted hrecur h hdepth hfound
  | nondeterministicChoice nd =>
    show Charted config tids (if nd.choices.isEmpty then _ else _)
    split
    · rename_i hempty
      exact extended_charted hrecur h hdepth hfound (.free nd (isEmpty_iff.mp hempty)) rfl rfl
    · exact choiceChildren_charted hrecur h hdepth hfound fun v hv =>
        (mem_eraseDuplicateNdChoices nd.choices v).mp hv
  | receive receive =>
    unfold eventFor
    dsimp only
    split
    · rename_i hblocks
      have hblocking : receive.isBlocking = true := ((Bool.and_eq_true _ _).mp hblocks).1
      exact extended_charted hrecur h hdepth hfound (.blocked receive hblocking) rfl rfl
    · exact receive_charted hrecur h hdepth hfound

theorem visitBody_charted (hthreads : ThreadsOf config.program tids) (h : Explored config g depth) :
    Charted config tids
      (visitBody (Queries.ofConfig config tids) tids config.maxDepth recur g depth) := by
  unfold visitBody
  split
  · exact Forest.all_leaf (h.published trivial)
  · rename_i hdepth
    have hdepth := Nat.lt_of_not_le hdepth
    have hscanned := h.computeNextEvent_scanned hthreads
    rw [show (Queries.ofConfig config tids).computeNextEvent g =
      computeNextEvent config.program g tids config.maxThreadEvents from rfl]
    generalize computeNextEvent config.program g tids config.maxThreadEvents = next at hscanned ⊢
    cases hscanned with
    | refused tid _ _ _ hanswers =>
      obtain ⟨threadFn, trace, hthread, -, hblock⟩ := hanswers
      exact Forest.all_fail _ (.blockLabel tid threadFn trace _ hthread hblock)
    | found tid label flag hmem hopen hlimit hanswers hlabel =>
      exact eventChildren_charted hrecur h hdepth ⟨hmem, hopen, hlimit, hanswers⟩ hlabel
    | exhausted flag hflag hall =>
      dsimp only
      rcases (@Explored.rescheduleChild_ok V _ config tids g depth h tids) with ⟨hnone, hstuck⟩ | ⟨child, hsome, hchild⟩
      · rw [hnone]
        refine Forest.all_leaf (h.published (h.maximal_kindHolds ?_ hall fun tid hends =>
          hstuck tid (h.endsInBlock_mem hthreads hends) hends))
        simpa using hflag
      · rw [hsome]
        exact hrecur child depth hchild

end Children

theorem visit_charted [LinearOrder V] (config : DporConfig V) (tids : List ℕ)
    (hthreads : ThreadsOf config.program tids) (g : ExplorationGraph V) (depth : ℕ) (h : Explored config g depth) :
    Charted config tids (visit (Queries.ofConfig config tids) tids config.maxDepth g depth) := by
  unfold visit
  generalize visitCalls config.maxDepth g depth = calls
  induction calls generalizing g depth with
  | zero => exact Forest.all_nil
  | succ calls ih =>
    unfold visitWithin
    exact Forest.all_node _ ⟨h.toPrepared, fun _ => h⟩ (visitBody_charted ih hthreads h)

theorem visit_accounted [LinearOrder V] {config : DporConfig V} {tids : List ℕ}
    (hthreads : ThreadsOf config.program tids) {g : ExplorationGraph V} {depth : ℕ} (h : Explored config g depth) :
    Accounted config tids (visit (Queries.ofConfig config tids) tids config.maxDepth g depth) := by
  have hcharted := visit_charted config tids hthreads g depth h
  exact ⟨fun call hcall => (hcharted.nodes call hcall).visited, hcharted.leaves, hcharted.fails⟩

end MustDpor

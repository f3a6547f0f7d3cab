import MustDpor.Algo.ErrorTerminals

/-! # Errors that hide nothing

Where the program's next event is an Error, the search of the program without errors goes on behind it. As long as it
only adds events there, the failing thread stays where it stopped, and the Error stays the program's next event: the
threads scanned before it have nothing to do. So all that the Error cuts off has a thread stopped at an error. What
could set the failing thread free again is a backward revisit, or a thread scanned before it that is woken. -/

namespace MustDpor
set_option autoImplicit false
open List

variable {V : Type}

/-- Where the next event of the program is an Error: the next send of the program without errors finds no receive to
revisit, as those outside its causal past do not accept its value; and waking a blocked receive leaves the Error
next. -/
structure ErrorsSettle [LinearOrder V] (config : DporConfig V) (threadIds : List ℕ) : Prop where
  sends : ∀ g depth, Explored config.withoutErrors g depth → NextIsError config threadIds g →
    ∀ tid send flag sendId extended, computeNextEvent config.withoutErrors.program g threadIds config.maxThreadEvents =
        .ok ⟨some (tid, .send send), flag⟩ → g.addEvent tid (.send send) = .ok (sendId, extended) →
      ∀ recvId ∈ extended.receiveEventIdsByThread send.destination, ∀ receive,
        extended.label? recvId = some (.receive receive) → receive.accepts send.value = true →
        extended.porfContains recvId sendId = .ok true
  wakes : ∀ g depth, Explored config.withoutErrors g depth → NextIsError config threadIds g →
    ∀ child, rescheduleChild (Queries.ofConfig config.withoutErrors threadIds) g threadIds = .ok (some child) →
      NextIsError config threadIds child

/-! ## The scan that stops at an Error -/

/-- What the scan sees of a thread. -/
structure SameThread (g child : ExplorationGraph V) (tid : ℕ) : Prop where
  terminated : child.threadIsTerminated tid = g.threadIsTerminated tid
  count : child.threadEventCount tid = g.threadEventCount tid
  trace : child.threadTrace tid = g.threadTrace tid

/-- The scan stops at the thread, and not for an Error. -/
def GoesOn (program : Program V) (maxThreadEvents : ℕ) (g : ExplorationGraph V) (tid : ℕ) : Prop :=
  g.threadIsTerminated tid = false ∧ ¬ AtLimit maxThreadEvents g tid ∧
    ∃ label, Answers program g tid (some label) ∧ label.isError = false

section Scan
variable {program : Program V} {g : ExplorationGraph V} {tid : ℕ}

theorem eventFor_eq_error {label : EventLabel V} {error : ErrorLabel} (h : .error error = eventFor g tid label) :
    label = .error error := by
  cases label with
  | receive receive =>
    unfold eventFor at h
    dsimp only at h
    split at h <;> cases h
  | _ => exact h.symm

theorem found_ne_error {label : EventLabel V} (hlabel : label.isError = false) {other : ℕ} {error : ErrorLabel}
    {suppressed flag : Bool} : (.ok ⟨some (tid, eventFor g tid label), suppressed⟩ : Except DporError (NextEventResult V)) ≠
      .ok ⟨some (other, .error error), flag⟩ := by
  intro h
  obtain ⟨-, hevent⟩ := Prod.mk.inj (Option.some.inj (NextEventResult.mk.inj (Except.ok.inj h)).1)
  rw [eventFor_eq_error hevent.symm] at hlabel
  cases hlabel

theorem Answers.of_withoutErrors {label : EventLabel V} (h : Answers program.withoutErrors g tid (some label)) :
    Answers program g tid (some label) ∧ label.isError = false := by
  obtain ⟨threadFn, trace, hthread, htrace, hanswer⟩ := h
  rw [Program.withoutErrors, program.atThread_map errorlessFunction tid] at hthread
  obtain ⟨original, horiginal, rfl⟩ := (Except.map_ok_iff _ _ _).mp hthread
  unfold errorlessFunction at hanswer
  split at hanswer
  · cases hanswer
  · rename_i hother
    refine ⟨⟨original, trace, horiginal, htrace, hanswer⟩, ?_⟩
    cases label with
    | error error => exact absurd hanswer (hother error)
    | _ => rfl

/-- The scan stops at the Error again if it sees the same of every thread that had nothing else to do. -/
theorem computeNextEventFrom_stays {child : ExplorationGraph V} {maxThreadEvents : ℕ}
    (hsame : ∀ tid, SameThread g child tid ∨ GoesOn program maxThreadEvents g tid) (ids : List ℕ) (suppressed : Bool)
    (h : ∃ tid error flag, computeNextEventFrom program g maxThreadEvents ids suppressed =
      .ok ⟨some (tid, .error error), flag⟩) :
    ∃ tid error flag, computeNextEventFrom program child maxThreadEvents ids suppressed =
      .ok ⟨some (tid, .error error), flag⟩ := by
  induction ids generalizing suppressed with
  | nil =>
    obtain ⟨_, _, _, h⟩ := h
    cases h
  | cons tid rest ih =>
    unfold computeNextEventFrom at h ⊢
    rcases hsame tid with hsame | ⟨hopen, hlimit, label, ⟨threadFn, trace, hthread, htrace, hanswer⟩, hlabel⟩
    · rw [hsame.terminated, hsame.count, hsame.trace]
      split
      · rw [if_pos ‹_›] at h
        exact ih suppressed h
      rw [if_neg ‹_›] at h
      split
      · rw [if_pos ‹_›] at h
        exact ih true h
      rw [if_neg ‹_›] at h
      obtain ⟨other, error, flag, h⟩ := h
      obtain ⟨threadFn, hthread, h⟩ := Except.bind_ok_iff.mp h
      obtain ⟨trace, htrace, h⟩ := Except.bind_ok_iff.mp h
      simp only [hthread, htrace, bind, Except.bind]
      cases hanswer : threadFn trace (g.threadEventCount tid) with
      | none =>
        rw [hanswer] at h
        exact ih suppressed ⟨other, error, flag, h⟩
      | some label =>
        rw [hanswer] at h
        cases label with
        | error error => exact ⟨tid, error, suppressed, rfl⟩
        | block => cases h
        | _ => exact absurd h (found_ne_error rfl)
    · -- the scan stopped at this thread before it came to the Error
      rw [hopen, if_neg Bool.false_ne_true, if_neg (show ¬ (maxThreadEvents ≠ 0 ∧ _) from hlimit), hthread, htrace] at h
      simp only [bind, Except.bind, hanswer] at h
      obtain ⟨_, _, _, h⟩ := h
      cases label with
      | error _ => cases hlabel
      | block => cases h
      | _ => exact absurd h (found_ne_error rfl)

end Scan

/-! ## Behind the Error -/

section Behind
variable [LinearOrder V] {config : DporConfig V} {tids : List ℕ} {g child : ExplorationGraph V} {depth : ℕ}

/-- A new event of one thread is not seen by another one. -/
theorem Grows.sameThread (h : Explored config g depth) {tid : ℕ} {label : EventLabel V}
    {source : Option ReadsFromSource} (hgrows : Grows g tid label source child)
    (hends : child.graph.ValidEndpoints) {other : ℕ} (hne : other ≠ tid) : SameThread g child other := by
  have hcount : threadCount child.graph.events other = threadCount g.graph.events other := by
    rw [hgrows.events, threadCount_concat, if_neg hne.symm, Nat.add_zero]
  have hlast : child.lastEventId other = g.lastEventId other := by
    rw [hgrows.tabulated.lastEventId_eq, h.tabulated.lastEventId_eq]
    unfold ExplorationGraph.scanThread
    rw [show child.events = _ from hgrows.events, positions_concat,
      if_neg (by unfold inThread; simpa using hne.symm), append_nil]
    rfl
  refine ⟨?_, ?_, ?_⟩
  · unfold ExplorationGraph.threadIsTerminated
    rw [hlast]
    cases hid : g.lastEventId other with
    | none => rfl
    | some id =>
      obtain ⟨e, he, -⟩ := lastEventId_some h.tabulated hid
      unfold ExplorationGraph.isBlockId ExplorationGraph.isErrorId ExplorationGraph.label?
      dsimp only
      rw [hgrows.events, getElem?_append_left (lt_of_getElem? he)]
  · rw [threadEventCount_eq hgrows.tabulated, threadEventCount_eq h.tabulated, hcount]
  · have hsource (id : ℕ) (hid : source = some (.send id)) : id < g.eventCount := by
      have hfind : child.graph.readsFrom.find g.eventCount = some (.send id) := by
        rw [hgrows.reads, if_pos rfl, hid]
      obtain ⟨⟨er, receive, her, hreceive⟩, hsend⟩ := hends _ _ hfind
      obtain ⟨es, send, hes, hlabel⟩ := hsend id rfl
      have hlt := lt_of_getElem? hes
      rw [hgrows.events, length_append, length_singleton] at hlt
      refine lt_of_le_of_ne (Nat.le_of_lt_succ hlt) ?_
      rintro rfl
      rw [her] at hes
      cases hes
      cases hreceive.symm.trans hlabel
    rw [hgrows.tabulated.threadTrace_ok hends, h.tabulated.threadTrace_ok h.consistent.async.endpoints, hcount,
      hgrows.execution h hsource]
    have hnew : g.graph.execution (tid, threadCount g.graph.events tid) = none := not_not.mp fun hfilled =>
      lt_irrefl _ ((h.tabulated.execution_ne_none_iff tid _).mp hfilled)
    rw [Execution.trace_update hnew h.source_ne_none _ _ fun hsame => absurd hsame hne]

variable (h : Explored config.withoutErrors g depth)
include h

theorem NextIsError.not_errorFree (hthreads : ThreadsOf config.program tids) (herror : NextIsError config tids g) :
    errorFree config.program tids g = false := by
  obtain ⟨tid, error, flag, hnext⟩ := herror
  obtain ⟨returned, hfound, hevent⟩ := nextFound_of_next h.threadTrace_ok hthreads hnext
  obtain ⟨threadFn, trace, hthread, htrace, hanswer⟩ := hfound.answers
  have hstopped : stoppedAtError config.program g tid = true := by
    unfold stoppedAtError
    rw [hfound.isOpen, hthread, htrace]
    simp only [hanswer, eventFor_eq_error hevent]
    rfl
  exact all_eq_false.mpr ⟨tid, hfound.thread, by simp [hstopped]⟩

/-- Without errors the thread that goes on is not the failing one, nor one that has nothing to do. -/
theorem NextIsError.grown {tid : ℕ} {returned label : EventLabel V} {source : Option ReadsFromSource}
    (hfound : NextFound config.withoutErrors tids g tid returned) (hgrows : Grows g tid label source child)
    (hends : child.graph.ValidEndpoints) (herror : NextIsError config tids g) : NextIsError config tids child := by
  refine computeNextEventFrom_stays (fun other => ?_) tids false herror
  by_cases hsame : other = tid
  · subst hsame
    exact .inr ⟨hfound.isOpen, hfound.limit, returned, hfound.answers.of_withoutErrors⟩
  · exact .inl (hgrows.sameThread h hends hsame)

omit [LinearOrder V] h in
theorem ExplorationGraph.traceOf_marked (g : ExplorationGraph V) (ids : List ℕ) :
    g.markKnownAcyclic.traceOf ids = g.traceOf ids := by
  induction ids with
  | nil => rfl
  | cons id rest ih =>
    unfold ExplorationGraph.traceOf
    rw [ih]
    rfl

/-- Without a revisit, the children of a call find the Error next as well. -/
theorem NextIsError.of_child {tid : ℕ} {returned label : EventLabel V}
    (hfound : NextFound config.withoutErrors tids g tid returned)
    (hrevisits : ∀ send sendId recvId extended, label = .send send → g.addEvent tid (.send send) = .ok (sendId, extended) →
      recvId ∈ extended.receiveEventIdsByThread send.destination →
      ∀ revisited, revisitReceive extended config.communicationModel sendId recvId ≠ .ok (some revisited))
    (herror : NextIsError config tids g)
    (hchild : Child (Queries.ofConfig config.withoutErrors tids) g tid label child) (hends : child.graph.ValidEndpoints) :
    NextIsError config tids child := by
  induction hchild with
  | added added id child hadd =>
    rcases h.legal.addEvent_cases tid added with ⟨e, hrefused, -⟩ | ⟨_, hok, hgrows⟩
    · cases hadd.symm.trans hrefused
    · cases hadd.symm.trans hok
      exact herror.grown h hfound hgrows hends
  | received receive source child hadd =>
    rcases h.legal.withReceive_cases tid receive source with ⟨e, hrefused, -⟩ | ⟨_, hok, hgrows⟩
    · cases hadd.symm.trans hrefused
    · cases hadd.symm.trans hok
      exact herror.grown h hfound hgrows hends
  | revisited send sendId recvId extended child hlabel hadd hrecv hrevisit =>
    exact absurd hrevisit (hrevisits send sendId recvId extended hlabel hadd hrecv child)
  | marked child _ ih =>
    refine computeNextEventFrom_stays (fun other => ?_) tids false (ih hends)
    exact .inl ⟨rfl, rfl, child.traceOf_marked _⟩

omit h in
/-- A receive that does not accept the send, or is in its causal past, is not revisited. -/
theorem not_revisited {extended revisited : ExplorationGraph V} {model : CommunicationModel} {sendId recvId : ℕ}
    {send : SendLabel V} (hsend : extended.label? sendId = some (.send send))
    (hpast : ∀ receive, extended.label? recvId = some (.receive receive) → receive.accepts send.value = true →
      extended.porfContains recvId sendId = .ok true) :
    revisitReceive extended model sendId recvId ≠ .ok (some revisited) := by
  have hlabel {id : ℕ} {e : Event V} (h : extended.event id = .ok e) : extended.label? id = some e.label := by
    unfold ExplorationGraph.event ExecutionGraph.event at h
    unfold ExplorationGraph.label?
    split at h
    · rename_i he
      cases h
      rw [he]
      rfl
    · cases h
  intro h
  unfold revisitReceive at h
  obtain ⟨sendEvt, hsendEvt, h⟩ := Except.bind_ok_iff.mp h
  split at h
  case h_2 => cases h
  rename_i sent hsent
  obtain ⟨recvEvt, hrecvEvt, h⟩ := Except.bind_ok_iff.mp h
  split at h
  case h_2 => cases h
  rename_i receive hreceive
  split at h
  · cases h
  rename_i haccepts
  obtain ⟨reaches, hreaches, h⟩ := Except.bind_ok_iff.mp h
  split at h
  · cases h
  rename_i hnot
  have hsame := Option.some.inj ((hlabel hsendEvt).symm.trans hsend)
  rw [hsent] at hsame
  cases hsame
  rw [hpast receive ((hlabel hrecvEvt).trans (by rw [hreceive])) (by simpa using haccepts)] at hreaches
  cases hreaches
  exact hnot rfl

omit h in
/-- Where errors settle, the whole search of the program without errors finds the Error next behind it. -/
theorem ErrorsSettle.stays (hsettle : ErrorsSettle config tids) (hthreads : ThreadsOf config.withoutErrors.program tids)
    (h : Explored config.withoutErrors g depth) (herror : NextIsError config tids g) {tid : ℕ} {label : EventLabel V}
    {flag : Bool} (hnext : computeNextEvent config.withoutErrors.program g tids config.maxThreadEvents =
      .ok ⟨some (tid, label), flag⟩)
    (hchild : Child (Queries.ofConfig config.withoutErrors tids) g tid label child) (hends : child.graph.ValidEndpoints) :
    NextIsError config tids child := by
  obtain ⟨returned, hfound, -⟩ := nextFound_of_next h.threadTrace_ok hthreads hnext
  refine herror.of_child h hfound ?_ hchild hends
  intro send sendId recvId extended hlabel hadd hrecv revisited
  subst hlabel
  refine not_revisited ?_ fun receive =>
    hsettle.sends g depth h herror tid send flag sendId extended hnext hadd recvId hrecv receive
  rcases h.legal.addEvent_cases tid (.send send) with ⟨e, hrefused, -⟩ | ⟨_, hok, hgrows⟩
  · cases hadd.symm.trans hrefused
  · cases hadd.symm.trans hok
    unfold ExplorationGraph.label?
    rw [hgrows.getElem?_last]
    rfl

end Behind

/-! ## The search behind the Error -/

/-- Some thread stopped at an error in every terminal of the forest, or of what the Errors cut off from it. -/
def Sunk (config : DporConfig V) (threadIds : List ℕ) (whole : Bool) (f : Search V) : Prop :=
  ∀ t ∈ if whole then f.leaves else f.lost (publishesError config threadIds),
    errorFree config.program threadIds t.graph = false

section Search
variable [LinearOrder V] {config : DporConfig V} {tids : List ℕ}

theorem sunk_pairs (whole : Bool) :
    Pairs (Charted config.withoutErrors tids) fun _ f => Sunk config tids whole f where
  nil := by cases whole <;> nofun
  fail := fun _ => by cases whole <;> nofun
  append := by
    intro _ _ f g hf hg t ht
    unfold Sunk at hf hg
    cases whole with
    | false =>
      rw [if_neg Bool.false_ne_true, Forest.lost_append] at ht
      exact (mem_append.mp ht).elim (hf t) (hg t)
    | true =>
      rw [if_pos rfl, Forest.leaves_append] at ht
      exact (mem_append.mp ht).elim (hf t) (hg t)
  guarded := by
    intro g d _ f hf t ht
    refine hf t ?_
    cases whole <;> simpa [Forest.lost, Forest.leaves, publishesError] using ht
  of_append := fun _ _ h => h.of_append
  of_node := fun _ _ h => h.of_node.2.1

theorem visitWithin_sunk (hsettle : ErrorsSettle config tids) (hthreads : ThreadsOf config.program tids)
    (hthreads₀ : ThreadsOf config.withoutErrors.program tids) (calls : ℕ) (whole : Bool) (g : ExplorationGraph V)
    (depth : ℕ) (hcharted : Charted config.withoutErrors tids
      (visitWithin (Queries.ofConfig config.withoutErrors tids) tids config.maxDepth calls g depth))
    (herror : Explored config.withoutErrors g depth → whole = true → NextIsError config tids g) : Sunk config tids whole
      (visitWithin (Queries.ofConfig config.withoutErrors tids) tids config.maxDepth calls g depth) := by
  induction calls generalizing whole g depth with
  | zero => cases whole <;> nofun
  | succ calls ih =>
    unfold visitWithin at hcharted ⊢
    obtain ⟨hcall, hbody, -⟩ := hcharted.of_node
    have h : Explored config.withoutErrors g depth := hcall.visited rfl
    -- below a call that publishes an Error everything is cut off
    have hnext (hbelow : (whole || publishesError config tids ⟨g, depth, .visit⟩) = true) : NextIsError config tids g :=
      ((Bool.or_eq_true _ _).mp hbelow).elim (herror h) fun hcall => (publishesError_iff.mp hcall).2
    have hleaf (kind : TerminalExecutionKind) :
        Sunk config tids (whole || publishesError config tids ⟨g, depth, .visit⟩) (.leaf ⟨g, kind⟩ .nil) := by
      intro t ht
      split at ht
      · rw [mem_singleton.mp ht]
        exact (hnext ‹_›).not_errorFree h hthreads
      · cases ht
    have hsunk := visitBody_pairs config.maxDepth (sameChecks_self _) (sunk_pairs _) id (fun _ => sameNext_self _ g) rfl
      (hleaf .depthLimit) (fun _ => hleaf _) (fun child hwoken hcharted => ih _ child depth hcharted fun _ hbelow =>
        hsettle.wakes g depth h (hnext hbelow) child hwoken)
      (fun _ tid label flag hnextEvent => ⟨fun child hchild hcharted => ih _ child _ hcharted fun hgrown hbelow =>
        hsettle.stays hthreads₀ h (hnext hbelow) hnextEvent hchild hgrown.consistent.async.endpoints, ?_⟩) hbody
    · intro t ht
      refine hsunk t ?_
      cases whole <;> simpa [Forest.lost, Forest.leaves] using ht
    · rintro error rfl
      obtain ⟨returned, hfound, hevent⟩ := nextFound_of_next h.threadTrace_ok hthreads₀ hnextEvent
      have hquiet := hfound.answers.of_withoutErrors.2
      rw [eventFor_eq_error hevent] at hquiet
      cases hquiet

end Search

/-- Where errors settle, continuing after Error terminals covers the error-free executions. -/
theorem error_free_terminals_covered [LinearOrder V] (config : DporConfig V) (threadIds : List ℕ)
    (hthreads : sortedThreadIds config.program = .ok threadIds) (hids : ∀ tid ∈ threadIds, tid ≤ kMaxThreadId)
    (hdepth : config.maxDepth < 2 ^ 32) (hsettle : ErrorsSettle config threadIds) :
    ∃ exit exit₀, Verifies config (fun _ => .continue) exit ∧
      (∀ other, Verifies config (fun _ => .continue) other → other = exit) ∧
      Verifies config.withoutErrors (fun _ => .continue) exit₀ ∧
      (∀ other, Verifies config.withoutErrors (fun _ => .continue) other → other = exit₀) ∧
      ∀ t ∈ exit₀.terminals, t.Complete → errorFree config.program threadIds t.graph = true →
        ∃ t' ∈ exit.terminals, t'.kind = t.kind ∧ t'.graph.graph.execution = t.graph.graph.execution := by
  obtain ⟨exit, exit₀, hexit, hunique, hexit₀, hunique₀, hcovered⟩ := covered_iff_none_lost config threadIds hthreads
  refine ⟨exit, exit₀, hexit, hunique, hexit₀, hunique₀, (hcovered fun e he => ?_).mpr fun t ht _ _ => ?_⟩
  · -- an engine exception needs a thread id or an event index that does not fit
    cases (Verifies.accounted _ hthreads exit hexit).2 _ he with
    | noIndex tid _ htid hindex =>
      have hle := hids tid htid
      unfold maxEventIndex at hindex
      omega
  · have hthreads₀ : ThreadsOf config.withoutErrors.program threadIds := threadsOf_sorted _ _
      ((sortedThreadIds_map config.program errorlessFunction).trans hthreads)
    exact visitWithin_sunk hsettle (threadsOf_sorted _ _ hthreads) hthreads₀ _ false ExplorationGraph.empty 0
      (visit_charted config.withoutErrors threadIds hthreads₀ _ 0 (explored_empty _)) nofun t ht

/-- Errors settle where the threads do not communicate. -/
theorem errorsSettle_of_silent [LinearOrder V] {config : DporConfig V} {tids : List ℕ}
    (hthreads : ThreadsOf config.withoutErrors.program tids)
    (hsilent : ∀ tid threadFn trace step label, config.program.threads.atThread tid = .ok threadFn →
      threadFn trace step = some label → label.isSend = false ∧ label.isReceive = false) : ErrorsSettle config tids where
  sends g depth h _ tid send flag sendId extended hnext := by
    obtain ⟨returned, hfound, hlabel⟩ := nextFound_of_next h.threadTrace_ok hthreads hnext
    obtain ⟨⟨threadFn, trace, hthread, -, hanswer⟩, -⟩ := hfound.answers.of_withoutErrors
    obtain ⟨hsend, hreceive⟩ := hsilent tid threadFn trace _ returned hthread hanswer
    cases returned with
    | send _ => cases hsend
    | receive _ => cases hreceive
    | _ => cases hlabel
  wakes g depth h _ child hwoken := by
    obtain ⟨tid, -, hready⟩ := rescheduleChild_inv _ hwoken
    obtain ⟨lastId, hlast, hblock, -⟩ := rescheduleThread_inv hready
    obtain ⟨threadFn, trace, receive, hthread, -, hanswer, -⟩ :=
      h.replays.block_answers h.tabulated h.consistent.async.endpoints hlast hblock
    change config.program.withoutErrors.threads.atThread tid = .ok threadFn at hthread
    rw [Program.withoutErrors, config.program.atThread_map errorlessFunction tid] at hthread
    obtain ⟨original, horiginal, rfl⟩ := (Except.map_ok_iff _ _ _).mp hthread
    unfold errorlessFunction at hanswer
    split at hanswer
    · cases hanswer
    · cases (hsilent tid original trace _ _ horiginal hanswer).2

/-- Two threads choose a value each, and the first one reports an error if it chose 1. -/
def failingChoiceConfig : DporConfig ℕ :=
  ⟨⟨⟨[some fun values step =>
      if step = 0 then some (.nondeterministicChoice ⟨0, [0, 1]⟩)
      else if step = 1 ∧ values = [.value 1] then some (.error ⟨"one"⟩) else none,
    some fun _ step => if step = 0 then some (.nondeterministicChoice ⟨0, [0, 1]⟩) else none]⟩⟩, 10, 0, .async⟩

/-- The Error cuts off the choices of the second thread. -/
theorem failing_choice_covered :
    ∃ exit exit₀, Verifies failingChoiceConfig (fun _ => .continue) exit ∧
      Verifies failingChoiceConfig.withoutErrors (fun _ => .continue) exit₀ ∧
      exit.terminals.map Terminal.kind = [.full, .full, .error] ∧
      exit₀.terminals.map Terminal.kind = [.full, .full, .full, .full] ∧
      ∀ t ∈ exit₀.terminals, t.Complete → errorFree failingChoiceConfig.program [0, 1] t.graph = true →
        ∃ t' ∈ exit.terminals, t'.kind = t.kind ∧ t'.graph.graph.execution = t.graph.graph.execution := by
  have hsettle : ErrorsSettle failingChoiceConfig [0, 1] := by
    refine errorsSettle_of_silent (threadsOf_sorted _ _ rfl) fun tid threadFn trace step label hthread hanswer => ?_
    obtain rfl | rfl : tid = 0 ∨ tid = 1 := by
      have hmem := (threadsOf_sorted failingChoiceConfig.program [0, 1] rfl tid).mpr ⟨threadFn, hthread⟩
      simpa using hmem
    all_goals
      cases hthread
      dsimp only at hanswer
      repeat' split at hanswer
      all_goals
        cases hanswer
        try exact ⟨rfl, rfl⟩
  obtain ⟨exit, exit₀, hexit, -, hexit₀, -, hcovered⟩ :=
    error_free_terminals_covered failingChoiceConfig [0, 1] rfl (by decide) (by decide) hsettle
  refine ⟨exit, exit₀, hexit, hexit₀, ?_, ?_, hcovered⟩
  · rw [(Verifies.publishes_all (fun _ => .continue) (fun _ => rfl)
      (show sortedThreadIds failingChoiceConfig.program = .ok [0, 1] from rfl) exit hexit).1]
    decide +kernel
  · rw [(Verifies.publishes_all (fun _ => .continue) (fun _ => rfl)
      (show sortedThreadIds failingChoiceConfig.withoutErrors.program = .ok [0, 1] from rfl) exit₀ hexit₀).1]
    decide +kernel

end MustDpor

import MustDpor.Algo.Tiebreaker
import MustDpor.Model.CacheCoherence
import MustDpor.Model.KnownAcyclic

/-! # The tiebreaker by checking

`get_cons_tiebreaker` and its helpers in `include/dpor/algo/dpor.hpp`. The candidates are tried in order;
under the asynchronous model a reachability query replaces the check, otherwise one rewritten graph is made
for the first candidate and rebound in place for the others. -/

namespace MustDpor
set_option autoImplicit false
open List Relation ExplorationGraph ExecutionGraph WorkerGraph

variable {V : Type}

/-! ## The code -/

/-- `AllowMissingReadsForNonTargetT`. -/
def allowMissingReadsForNonTarget (targetReceive : ℕ) : ℕ → Bool :=
  fun receiveId => decide (receiveId ≠ targetReceive)

/-- What `check_consistency_allowing_missing_reads_except` and `check_consistency` tolerate. -/
def rewriteTolerance (recv : ℕ) (allowNonTargetMissingReads : Bool) : ℕ → Bool :=
  if allowNonTargetMissingReads then allowMissingReadsForNonTarget recv else noMissingReadsTolerance

def rewiringRecvCreatesCycle (graph : ExplorationGraph V) (recv send : ℕ) : Except DporError Bool :=
  graph.porfContains recv send

/-- `graph.is_known_acyclic() && !rewiring_recv_creates_cycle(graph, recv, send)`. -/
def preservesAcyclicity (graph : ExplorationGraph V) (recv send : ℕ) : Except DporError Bool :=
  if graph.knownAcyclic then (rewiringRecvCreatesCycle graph recv send).map (fun cycle => !cycle)
  else .ok false

def rewrittenGraph (graph : ExplorationGraph V) (recv send : ℕ) (preserves : Bool) :
    Except DporError (ExplorationGraph V) :=
  if preserves then graph.withRfPreservingKnownAcyclicity recv send else graph.withRf recv send

def needsRewrittenGraph (communicationModel : CommunicationModel) (allowNonTargetMissingReads : Bool) : Bool :=
  decide (communicationModel ≠ .async) || allowNonTargetMissingReads

def rfRewriteIsConsistent (graph : ExplorationGraph V) (recv send : ℕ)
    (communicationModel : CommunicationModel) (allowNonTargetMissingReads : Bool) : Except DporError Bool :=
  if !needsRewrittenGraph communicationModel allowNonTargetMissingReads then
    (rewiringRecvCreatesCycle graph recv send).map (fun cycle => !cycle)
  else do
    let preserves ← preservesAcyclicity graph recv send
    let rewritten ← rewrittenGraph graph recv send preserves
    let (consistency, _) ← checkExplorationGraph rewritten communicationModel
      (rewriteTolerance recv allowNonTargetMissingReads)
    return consistency.isConsistent

/-- `rewritten`, made for the first candidate and rebound for the others. -/
def bindCandidate (graph : ExplorationGraph V) (recv send : ℕ) (preserves : Bool) :
    Option (WorkerGraph V) → Except DporError (WorkerGraph V)
  | none => (rewrittenGraph graph recv send preserves).map .ofGraph
  | some rewritten => rewritten.rebindRf recv send preserves

/-- The loop over the candidates. A check that passes without the FIFO clauses marks the rewritten graph. -/
def scanCandidates (graph : ExplorationGraph V) (recv : ℕ) (communicationModel : CommunicationModel)
    (allowNonTargetMissingReads : Bool) : Option (WorkerGraph V) → List ℕ → Except DporError ℕ
  | _, [] => .error (tiebreakerError "no consistent source found")
  | rewritten, candidate :: rest =>
    if !needsRewrittenGraph communicationModel allowNonTargetMissingReads then do
      if !(← rewiringRecvCreatesCycle graph recv candidate) then return candidate
      else scanCandidates graph recv communicationModel allowNonTargetMissingReads rewritten rest
    else do
      let preserves ← preservesAcyclicity graph recv candidate
      let bound ← bindCandidate graph recv candidate preserves rewritten
      let (consistency, marks) ← checkExplorationGraph bound.graph communicationModel
        (rewriteTolerance recv allowNonTargetMissingReads)
      if consistency.isConsistent then return candidate
      else
        scanCandidates graph recv communicationModel allowNonTargetMissingReads
          (some (if marks then bound.markKnownAcyclic else bound)) rest

/-- The unread sends that fit and the current source, by sender thread and event id. -/
def consTiebreakerCandidates (graph : ExplorationGraph V) (tid : ℕ) (receive : ReceiveLabel V)
    (currentRfSource : ℕ) : List ℕ :=
  let unread := graph.unreadSendEventIds.filter (compatibleSend graph tid receive)
  let current := if compatibleSend graph tid receive currentRfSource then [currentRfSource] else []
  List.insertionSort (candidateLe graph) (unread ++ current)

def getConsTiebreaker (graph : ExplorationGraph V) (recv : ℕ) (communicationModel : CommunicationModel)
    (allowNonTargetMissingReads : Bool) : Except DporError ℕ := do
  let recvEvt ← graph.event recv
  match recvEvt.label with
  | .receive receive =>
    if receive.isNonblocking then throw (tiebreakerError "event is not a blocking receive")
    match graph.readsFrom.find recv with
    | none => throw (tiebreakerError "receive missing reads-from source")
    | some .bottom => throw (tiebreakerError "blocking receive reads from bottom")
    | some (.send currentRfSource) =>
      let _ ← graph.event currentRfSource
      scanCandidates graph recv communicationModel allowNonTargetMissingReads none
        (consTiebreakerCandidates graph recvEvt.thread receive currentRfSource)
  | _ => throw (tiebreakerError "event is not a receive")

/-! ## The plain definition -/

/-- Checking a fresh copy in which `recv` reads `c` reports no issue. -/
def FreshlyConsistent (g : ExplorationGraph V) (communicationModel : CommunicationModel)
    (missingReadsTolerance : ℕ → Bool) (recv c : ℕ) : Prop :=
  ∃ result, checkExecutionGraph (g.graph.rewire recv c) communicationModel missingReadsTolerance = .ok result ∧
    result.isConsistent = true

/-- A send that `recv` may read: its current source, or one that nobody reads. -/
def CandidateSource (g : ExplorationGraph V) (recv c : ℕ) : Prop :=
  Deliverable g c recv ∧ (g.graph.ReadsFrom c recv ∨ ∀ r, ¬ g.graph.ReadsFrom c r)

/-- The least candidate for which a fresh check passes. -/
structure LeastConsistentSource (g : ExplorationGraph V) (communicationModel : CommunicationModel)
    (missingReadsTolerance : ℕ → Bool) (recv c : ℕ) : Prop where
  candidate : CandidateSource g recv c
  consistent : FreshlyConsistent g communicationModel missingReadsTolerance recv c
  least : ∀ other, CandidateSource g recv other →
    FreshlyConsistent g communicationModel missingReadsTolerance recv other → candidateLe g c other

/-! ## Rewritten graphs -/

/-- An owned graph in which `recv` reads `c`, ready for the next rebind. -/
structure Rewrites (g : ExplorationGraph V) (recv c : ℕ) (w : WorkerGraph V) : Prop where
  graph : w.graph.graph = g.graph.rewire recv c
  eventLog : w.eventUndoLog = []
  rfLog : w.rfUndoLog = []
  tabulated : w.graph.Tabulated
  counted : w.graph.readers c ≠ 0
  flag : w.graph.knownAcyclic = true → w.graph.Sane

variable {c : ℕ}

theorem readers_of_exchange {g a b : ExplorationGraph V} (hs : g.Sound) {previous : Option ReadsFromSource}
    (hc : g.isSendId c = true) (ha : g.adjustSendReaderCount previous false = .ok a)
    (hb : a.adjustSendReaderCount (some (.send c)) true = .ok b) : b.graph = g.graph ∧ b.readers c ≠ 0 := by
  have hag := (adjust_same ha).1
  have hbg := (adjust_same hb).1
  have hsend : a.isSendId c = true := by
    rw [isSendId_of_events g a (by rw [hag])]
    exact hc
  have hmore := adjust_readers (hs.adjustSendReaderCount ha) hb hsend
  have hpoint : points (some (.send c)) c = 1 := if_pos rfl
  simp only [if_true, hpoint] at hmore
  exact ⟨hbg.trans hag, by omega⟩

variable {preserves : Bool}

section Rewriting
variable {g : ExplorationGraph V} (ht : g.Tabulated) {recv : ℕ} (hrecv : g.isReceiveId recv = true)
include ht hrecv

theorem recv_lt : recv < ReadsFromRelation.maxEntries := by
  rw [isReceiveId_eq] at hrecv
  obtain ⟨e, -, he, -⟩ := (isReceiveAt_iff g.graph recv).mp hrecv
  exact (lt_of_getElem? he).trans ht.numbered.length_lt

theorem Rewrites.first (hrelease : g.Releasable recv) (hc : g.isSendId c = true)
    (hsane : preserves = true → g.knownAcyclic = true ∧ g.SafeRewrite recv c ∧ g.Sane) :
    ∃ w, bindCandidate g recv c preserves none = .ok w ∧ Rewrites g recv c w := by
  obtain ⟨copy, hcopy⟩ := hrelease.assignReadsFrom_ok g (.send c) (recv_lt ht hrecv)
  obtain ⟨a, b, known, pending, ha, hb, hassigned⟩ := assignReadsFrom_inv hcopy
  obtain ⟨hgraph, hreaders⟩ := readers_of_exchange (ht.sound) hc ha hb
  have hrewired : copy.graph = g.graph.rewire recv c := by
    rw [hassigned]
    show ({ b.graph with readsFrom := g.readsFrom.set recv (.send c) } : ExecutionGraph V) = _
    rw [hgraph]
    rfl
  have hmade : rewrittenGraph g recv c preserves = .ok (copy.withMetadata preserves none) := by
    unfold rewrittenGraph withRfPreservingKnownAcyclicity withRf
      copyWithRfSource
    rw [hcopy]
    cases preserves with
    | false => rfl
    | true =>
      rw [if_pos rfl, (hsane rfl).1, hrecv, hc]
      rfl
  refine ⟨.ofGraph (copy.withMetadata preserves none), ?_, hrewired, rfl, rfl, ?_, ?_, fun hknown => ?_⟩
  · unfold bindCandidate
    rw [hmade]
    rfl
  · exact (ht.assignReadsFrom g copy recv _ hcopy).withMetadata preserves none
  · show copy.readers c ≠ 0
    rw [hassigned]
    exact hreaders
  · obtain ⟨-, hsafe, hg⟩ := hsane hknown
    exact hg.rewritten g _ hsafe (by show copy.graph.events = _; rw [hrewired]; rfl)
      (by show copy.graph.readsFrom = _; rw [hrewired]; rfl)

theorem Rewrites.rebind {c₀ : ℕ} {w : WorkerGraph V} (h : Rewrites g recv c₀ w) (hc : g.isSendId c = true)
    (hsane : preserves = true → g.knownAcyclic = true ∧ g.SafeRewrite recv c ∧ g.Sane) :
    ∃ w', bindCandidate g recv c preserves (some w) = .ok w' ∧ Rewrites g recv c w' := by
  have hfind : w.graph.readsFrom.find recv = some (.send c₀) := by
    show w.graph.graph.readsFrom.find recv = _
    rw [h.graph]
    show (g.graph.readsFrom.set recv _).find recv = _
    rw [AscendingMap.find_set, if_pos rfl]
  have hrelease : w.graph.Releasable recv := by
    intro id hsource _
    rw [hfind] at hsource
    cases hsource
    exact h.counted
  have hsend : w.graph.isSendId c = true := by
    rw [isSendId_of_events g w.graph (by rw [h.graph]; rfl)]
    exact hc
  obtain ⟨a, b, ha, hb⟩ := hrelease.exchange_ok w.graph (.send c)
  obtain ⟨hgraph, hreaders⟩ := readers_of_exchange (h.tabulated.sound) hsend ha hb
  have hbound : w.rebindRf recv c preserves = .ok
      ⟨(b.withReadsFrom (w.graph.readsFrom.set recv (.send c))).withMetadata preserves none, [], []⟩ := by
    rw [WorkerGraph.rebindRf_eq, h.eventLog, h.rfLog, if_neg (by simp),
      ReadsFromRelation.assign_ok _ (recv_lt ht hrecv)]
    show ((w.graph.withReadsFrom _).updateSendReaderState _ _ >>= _) = _
    rw [w.graph.updateSendReaderState_eq _ ha hb]
    cases preserves <;> rfl
  have hset : w.graph.readsFrom.set recv (.send c) = g.graph.readsFrom.set recv (.send c) := by
    apply AscendingMap.ext_find
    intro id
    show (w.graph.graph.readsFrom.set recv _).find id = _
    rw [h.graph]
    show ((g.graph.readsFrom.set recv _).set recv _).find id = _
    simp only [AscendingMap.find_set]
    split <;> rfl
  have hrewired : ({ b.graph with readsFrom := w.graph.readsFrom.set recv (.send c) } : ExecutionGraph V) =
      g.graph.rewire recv c := by
    rw [hgraph, h.graph, hset]
    rfl
  have htabulated := (WorkerGraph.Tabulated.ofGraph h.tabulated).rebindRf (.ofGraph w.graph) _ recv c preserves
    (by rw [← hbound, show WorkerGraph.ofGraph w.graph = w by
      obtain ⟨graph, events, reads⟩ := w
      cases h.eventLog
      cases h.rfLog
      rfl])
  refine ⟨_, hbound, hrewired, rfl, rfl, htabulated.graph, hreaders, fun hknown => ?_⟩
  obtain ⟨-, hsafe, hg⟩ := hsane hknown
  have hevents := congrArg (fun graph : ExecutionGraph V => graph.events) hrewired
  have hreads := congrArg (fun graph : ExecutionGraph V => graph.readsFrom) hrewired
  exact hg.rewritten g _ hsafe hevents hreads

end Rewriting

/-! ## Verdicts -/

theorem freshlyConsistent_iff {g : ExplorationGraph V} (ht : g.Tabulated) (model : CommunicationModel)
    (tolerance : ℕ → Bool) (recv c : ℕ) :
    FreshlyConsistent g model tolerance recv c ↔
      (g.graph.rewire recv c).ConsistentExcept model tolerance := by
  have hordered : (g.graph.rewire recv c).IndexOrdered := ht.indexOrdered g
  obtain ⟨result, hcheck, hiff⟩ := checkExecutionGraph_ok (g.graph.rewire recv c) hordered
    model tolerance
  unfold FreshlyConsistent
  rw [hcheck, ← hiff]
  constructor
  · rintro ⟨other, hother, hconsistent⟩
    cases hother
    exact hconsistent
  · exact fun hconsistent => ⟨result, rfl, hconsistent⟩

section Verdicts
variable {g : ExplorationGraph V} {tolerance : ℕ → Bool} (hc : g.graph.AsyncConsistentExcept tolerance) {recv : ℕ}
include hc

theorem unreached_of_source {src : ℕ} (hread : g.graph.ReadsFrom src recv) :
    ¬ TransGen g.graph.Porf recv src :=
  fun hpath => hc.acyclic recv (hpath.tail (.inr hread))

theorem candidateSource_iff (c : ℕ) :
    CandidateSource g recv c ↔ Deliverable g c recv ∧ ∀ r, g.graph.ReadsFrom c r → r = recv := by
  unfold CandidateSource
  refine and_congr_right fun _ => ⟨?_, fun h => ?_⟩
  · rintro (hcurrent | hunread) r hr
    · exact hc.exclusive c r recv hr hcurrent
    · exact absurd hr (hunread r)
  · by_cases hcurrent : g.graph.ReadsFrom c recv
    · exact .inl hcurrent
    · exact .inr fun r hr => hcurrent (h r hr ▸ hr)

end Verdicts

/-! ## The loop -/

/-- What makes the loop return a candidate. -/
def Passes (g : ExplorationGraph V) (recv : ℕ) (communicationModel : CommunicationModel)
    (lenient : Bool) (c : ℕ) : Prop :=
  if needsRewrittenGraph communicationModel lenient = true then
    FreshlyConsistent g communicationModel (rewriteTolerance recv lenient) recv c
  else ¬ Relation.TransGen g.graph.Porf recv c

/-- A state of the loop from which the next candidate can be bound. -/
def Bindable (g : ExplorationGraph V) (recv : ℕ) : Option (WorkerGraph V) → Prop
  | none => g.Releasable recv
  | some w => ∃ c, Rewrites g recv c w

section Loop
variable {g : ExplorationGraph V} (ht : g.Tabulated) {recv : ℕ} (hrecv : g.isReceiveId recv = true)
  {model : CommunicationModel} {lenient : Bool}
  (hc : g.graph.AsyncConsistentExcept (rewriteTolerance recv lenient))
include ht hrecv hc

theorem rewiring_ok (hsend : g.isSendId c = true) : ∃ cycle, rewiringRecvCreatesCycle g recv c = .ok cycle ∧
      (cycle = true ↔ TransGen g.graph.Porf recv c) := by
  rw [isReceiveId_eq] at hrecv
  rw [isSendId_eq] at hsend
  obtain ⟨er, -, her, -⟩ := (isReceiveAt_iff g.graph recv).mp hrecv
  obtain ⟨es, -, hes, -⟩ := (isSendAt_iff g.graph c).mp hsend
  exact ht.porfContains_ok g hc.endpoints hc.acyclic recv c (lt_of_getElem? her)
    (lt_of_getElem? hes)

theorem preservesAcyclicity_ok (hsend : g.isSendId c = true) :
    ∃ preserves, preservesAcyclicity g recv c = .ok preserves ∧
      (preserves = true → g.knownAcyclic = true ∧ g.SafeRewrite recv c ∧ g.Sane) := by
  unfold preservesAcyclicity
  by_cases hknown : g.knownAcyclic = true
  · obtain ⟨cycle, hcycle, hiff⟩ := rewiring_ok ht hrecv hc hsend
    rw [if_pos hknown, hcycle]
    refine ⟨!cycle, rfl, fun hpreserves => ⟨hknown, ⟨hrecv, hsend, ?_, ?_⟩, hc.endpoints, hc.acyclic⟩⟩
    · rw [g.graph.eventPorf_eq hc.endpoints]
      exact hc.acyclic
    · rw [g.graph.eventPorf_eq hc.endpoints, ← hiff]
      simpa using hpreserves
  · rw [if_neg hknown]
    exact ⟨false, rfl, (nomatch ·)⟩

omit hc in
theorem bindCandidate_ok {rewritten : Option (WorkerGraph V)} (hstate : Bindable g recv rewritten)
    (hsend : g.isSendId c = true) (hsane : preserves = true → g.knownAcyclic = true ∧ g.SafeRewrite recv c ∧ g.Sane) :
    ∃ w, bindCandidate g recv c preserves rewritten = .ok w ∧ Rewrites g recv c w := by
  cases rewritten with
  | none => exact Rewrites.first ht hrecv hstate hsend hsane
  | some w =>
    obtain ⟨c₀, hw⟩ := hstate
    exact hw.rebind ht hrecv hsend hsane

omit ht hrecv hc in
theorem Rewrites.marked {w : WorkerGraph V} (h : Rewrites g recv c w) {marks : Bool}
    (hmarks : marks = true → w.graph.Sane) : Rewrites g recv c (if marks then w.markKnownAcyclic else w) := by
  cases marks with
  | false => exact h
  | true =>
    exact ⟨h.graph, h.eventLog, h.rfLog, h.tabulated.withMetadata true none, h.counted,
      fun _ => (hmarks rfl).congr rfl rfl⟩

theorem scan_step {rewritten : Option (WorkerGraph V)}
    (hstate : needsRewrittenGraph model lenient = true → Bindable g recv rewritten) (hsend : g.isSendId c = true) (rest : List ℕ) :
    (Passes g recv model lenient c →
      scanCandidates g recv model lenient rewritten (c :: rest) = .ok c) ∧
    (¬ Passes g recv model lenient c →
      ∃ next, (needsRewrittenGraph model lenient = true → Bindable g recv next) ∧
        scanCandidates g recv model lenient rewritten (c :: rest) =
          scanCandidates g recv model lenient next rest) := by
  unfold Passes
  rw [scanCandidates]
  cases hneeds : needsRewrittenGraph model lenient with
  | false =>
    obtain ⟨cycle, hcycle, hiff⟩ := rewiring_ok ht hrecv hc hsend
    rw [hcycle, ← hiff]
    simp only [Bool.not_false, if_true, Bool.false_eq_true, if_false, bind, Except.bind]
    refine ⟨fun hfree => ?_, fun hback => ⟨rewritten, (nomatch ·), ?_⟩⟩
    · rw [Bool.not_eq_true] at hfree
      rw [hfree]
      rfl
    · rw [not_not] at hback
      rw [hback, Bool.not_true, if_neg Bool.false_ne_true]
  | true =>
    obtain ⟨preserves, hpreserves, hsane⟩ := preservesAcyclicity_ok ht hrecv hc hsend
    obtain ⟨w, hbound, hw⟩ := bindCandidate_ok ht hrecv (hstate hneeds) hsend hsane
    obtain ⟨result, marks, hcheck, hiff, hmarks⟩ := hw.tabulated.checkExplorationGraph_ok hw.flag
      model (rewriteTolerance recv lenient)
    rw [hw.graph, ← freshlyConsistent_iff ht] at hiff
    rw [hpreserves]
    simp only [Bool.not_true, Bool.false_eq_true, if_false, if_true, bind, Except.bind, hbound, hcheck]
    rw [← hiff]
    refine ⟨fun hconsistent => ?_, fun hissue => ?_⟩
    · rw [hconsistent]
      rfl
    · refine ⟨some (if marks then w.markKnownAcyclic else w), fun _ => ⟨c, hw.marked hmarks⟩, ?_⟩
      rw [if_neg hissue]

theorem scan_finds (before after : List ℕ) (c : ℕ) (rewritten : Option (WorkerGraph V))
    (hstate : needsRewrittenGraph model lenient = true → Bindable g recv rewritten)
    (hsends : ∀ x ∈ before, g.isSendId x = true)
    (hbefore : ∀ x ∈ before, ¬ Passes g recv model lenient x)
    (hsend : g.isSendId c = true) (hpasses : Passes g recv model lenient c) :
    scanCandidates g recv model lenient rewritten (before ++ c :: after) = .ok c := by
  induction before generalizing rewritten with
  | nil => exact (scan_step ht hrecv hc hstate hsend after).1 hpasses
  | cons x before ih =>
    obtain ⟨next, hnext, hscan⟩ := (scan_step ht hrecv hc hstate (hsends x mem_cons_self)
      (before ++ c :: after)).2 (hbefore x mem_cons_self)
    rw [cons_append, hscan]
    exact ih next hnext (fun y hy => hsends y (mem_cons_of_mem _ hy))
      fun y hy => hbefore y (mem_cons_of_mem _ hy)

theorem scan_exhausts (candidates : List ℕ) (rewritten : Option (WorkerGraph V))
    (hstate : needsRewrittenGraph model lenient = true → Bindable g recv rewritten)
    (hsends : ∀ x ∈ candidates, g.isSendId x = true)
    (hnone : ∀ x ∈ candidates, ¬ Passes g recv model lenient x) :
    scanCandidates g recv model lenient rewritten candidates =
      .error (tiebreakerError "no consistent source found") := by
  induction candidates generalizing rewritten with
  | nil => rfl
  | cons x candidates ih =>
    obtain ⟨next, hnext, hscan⟩ := (scan_step ht hrecv hc hstate (hsends x mem_cons_self)
      candidates).2 (hnone x mem_cons_self)
    rw [hscan]
    exact ih next hnext (fun y hy => hsends y (mem_cons_of_mem _ hy))
      fun y hy => hnone y (mem_cons_of_mem _ hy)

end Loop

/-! ## The candidates -/

theorem mem_unreadSendEventIds {g : ExplorationGraph V} (ht : g.Tabulated) (id : ℕ) :
    id ∈ g.unreadSendEventIds ↔ g.isSendId id = true ∧ g.readers id = 0 := by
  have hsend : id ∈ g.sendEventIds ↔ g.isSendId id = true := by
    rw [ht.sendEventIds_eq g, mem_positions, isSendId_iff, Option.any_eq_true]
    exact Iff.rfl
  unfold unreadSendEventIds
  rw [mem_filter, hsend, ht.unreadMask g id, Bool.and_eq_true, decide_eq_true_eq]
  exact ⟨And.right, fun h => ⟨h.1, h⟩⟩

theorem mem_consTiebreakerCandidates {g : ExplorationGraph V} (ht : g.Tabulated) (recv src : ℕ) {evt : Event V}
    {receive : ReceiveLabel V} (hevt : g.graph.events[recv]? = some evt) (hlabel : evt.label = .receive receive)
    (c : ℕ) :
    c ∈ consTiebreakerCandidates g evt.thread receive src ↔ Deliverable g c recv ∧ (c = src ∨ g.readers c = 0) := by
  unfold consTiebreakerCandidates
  rw [mem_insertionSort, mem_append, mem_filter, mem_unreadSendEventIds ht,
    deliverable_iff hevt hlabel]
  have hcurrent : c ∈ (if compatibleSend g evt.thread receive src then [src] else []) ↔
      compatibleSend g evt.thread receive c = true ∧ c = src := by
    split
    · rename_i hsrc
      rw [mem_singleton]
      exact ⟨fun heq => ⟨heq ▸ hsrc, heq⟩, And.right⟩
    · rename_i hsrc
      refine iff_of_false (nomatch ·) ?_
      rintro ⟨hcompat, rfl⟩
      exact hsrc hcompat
  rw [hcurrent]
  constructor
  · rintro (⟨⟨-, hzero⟩, hcompat⟩ | ⟨hcompat, heq⟩)
    · exact ⟨hcompat, .inr hzero⟩
    · exact ⟨hcompat, .inl heq⟩
  · rintro ⟨hcompat, heq | hzero⟩
    · exact .inr ⟨hcompat, heq⟩
    · have hsend := Deliverable.isSendId ⟨evt, receive, hevt, hlabel, hcompat⟩
      exact .inl ⟨⟨hsend, hzero⟩, hcompat⟩

/-- A blocking receive that reads a send, in a graph without issues of the asynchronous kind. -/
structure RebindableReceive (g : ExplorationGraph V) (recv src : ℕ) (lenient : Bool) : Prop where
  receive : ∃ evt receive, g.graph.events[recv]? = some evt ∧ evt.label = .receive receive ∧
    receive.isBlocking = true
  reads : g.graph.ReadsFrom src recv
  async : g.graph.AsyncConsistentExcept (rewriteTolerance recv lenient)

section Receive
variable {g : ExplorationGraph V} {recv src : ℕ} {lenient : Bool}
  (h : RebindableReceive g recv src lenient)
include h

theorem RebindableReceive.isReceiveId : g.isReceiveId recv = true := by
  obtain ⟨evt, receive, hevt, hlabel, -⟩ := h.receive
  rw [isReceiveId_eq]
  exact (isReceiveAt_iff g.graph recv).mpr ⟨evt, receive, hevt, hlabel⟩

theorem RebindableReceive.deliverable_source : Deliverable g src recv := by
  obtain ⟨er, receive, her, hreceive, -⟩ := h.receive
  obtain ⟨es, send, hes, hsend⟩ := (h.async.endpoints recv _ h.reads).2 src rfl
  obtain ⟨hdest, haccepts⟩ := h.async.delivered src recv h.reads es er send receive hes hsend her hreceive
  exact ⟨er, receive, her, hreceive,
    (compatibleSend_iff g er.thread receive src).mpr ⟨es, send, hes, hsend, hdest, haccepts⟩⟩

theorem RebindableReceive.source_unique (c : ℕ) (hread : g.graph.ReadsFrom c recv) : c = src := by
  have := hread.symm.trans h.reads
  cases this
  rfl

theorem RebindableReceive.eq_scan (ht : g.Tabulated) (model : CommunicationModel) :
    ∃ candidates, getConsTiebreaker g recv model lenient =
        scanCandidates g recv model lenient none candidates ∧
      candidates.Pairwise (candidateLe g) ∧
      ∀ c, c ∈ candidates ↔ Deliverable g c recv ∧ (c = src ∨ g.readers c = 0) := by
  obtain ⟨evt, receive, hevt, hlabel, hblocking⟩ := h.receive
  obtain ⟨es, -, hes, -⟩ := (h.async.endpoints recv _ h.reads).2 src rfl
  have hevent : g.event recv = .ok evt := by
    unfold ExplorationGraph.event ExecutionGraph.event
    rw [hevt]
  have hsourceEvent : g.event src = .ok es := by
    unfold ExplorationGraph.event ExecutionGraph.event
    rw [hes]
  have hfind : g.readsFrom.find recv = some (.send src) := h.reads
  refine ⟨consTiebreakerCandidates g evt.thread receive src, ?_, pairwise_insertionSort (candidateLe g) _,
    mem_consTiebreakerCandidates ht recv src hevt hlabel⟩
  unfold getConsTiebreaker
  simp only [hevent, hsourceEvent, hlabel, hfind, ReceiveLabel.isNonblocking_eq, hblocking, bind, Except.bind,
    Bool.not_true, Bool.false_eq_true, if_false]

theorem RebindableReceive.tiebreaker_cases (ht : g.Tabulated) (model : CommunicationModel)
    (hrelease : needsRewrittenGraph model lenient = true → g.Releasable recv) :
    (∃ c, getConsTiebreaker g recv model lenient = .ok c ∧
      (Deliverable g c recv ∧ (c = src ∨ g.readers c = 0)) ∧
      Passes g recv model lenient c ∧
      ∀ other, Deliverable g other recv → other = src ∨ g.readers other = 0 →
        Passes g recv model lenient other → candidateLe g c other) ∨
    ((∀ c, Deliverable g c recv → c = src ∨ g.readers c = 0 →
        ¬ Passes g recv model lenient c) ∧
      getConsTiebreaker g recv model lenient =
        .error (tiebreakerError "no consistent source found")) := by
  obtain ⟨candidates, hscan, hsorted, hmem⟩ := h.eq_scan ht model
  have hsend (x : ℕ) (hx : x ∈ candidates) : g.isSendId x = true := ((hmem x).mp hx).1.isSendId
  rw [hscan]
  by_cases hsome : ∃ c ∈ candidates, Passes g recv model lenient c
  · obtain ⟨before, c, after, rfl, hbefore, hpasses, hleast⟩ := exists_first g hsorted hsome
    have hfound := (hmem c).mp (mem_append_right _ mem_cons_self)
    refine .inl ⟨c, ?_, hfound, hpasses, fun other hdeliver hunread =>
      hleast other ((hmem other).mpr ⟨hdeliver, hunread⟩)⟩
    exact scan_finds ht h.isReceiveId h.async before after c none hrelease
      (fun x hx => hsend x (mem_append_left _ hx)) hbefore (hfound.1.isSendId) hpasses
  · refine .inr ⟨fun c hdeliver hunread hpasses =>
      hsome ⟨c, (hmem c).mpr ⟨hdeliver, hunread⟩, hpasses⟩, ?_⟩
    exact scan_exhausts ht h.isReceiveId h.async candidates none hrelease hsend fun x hx hpasses =>
      hsome ⟨x, hx, hpasses⟩

end Receive

/-- The calls that the tiebreaker is for: a blocking receive that reads a send, in a graph that the check
accepts. -/
structure TiebreakerCall (g : ExplorationGraph V) (recv src : ℕ) (communicationModel : CommunicationModel)
    (allowNonTargetMissingReads : Bool) : Prop where
  receive : ∃ evt receive, g.graph.events[recv]? = some evt ∧ evt.label = .receive receive ∧
    receive.isBlocking = true
  reads : g.graph.ReadsFrom src recv
  consistent : ∃ result, checkExecutionGraph g.graph communicationModel
    (rewriteTolerance recv allowNonTargetMissingReads) = .ok result ∧ result.isConsistent = true

section Call
variable {g : ExplorationGraph V} (ht : g.Tabulated) {recv src : ℕ} {model : CommunicationModel}
  {lenient : Bool} (h : TiebreakerCall g recv src model lenient)
include ht h

theorem TiebreakerCall.consistentExcept :
    g.graph.ConsistentExcept model (rewriteTolerance recv lenient) := by
  obtain ⟨result, hcheck, hiff⟩ := checkExecutionGraph_ok g.graph (ht.indexOrdered g)
    model (rewriteTolerance recv lenient)
  obtain ⟨other, hother, hconsistent⟩ := h.consistent
  rw [hcheck] at hother
  cases hother
  exact hiff.mp hconsistent

theorem TiebreakerCall.rebindable : RebindableReceive g recv src lenient :=
  ⟨h.receive, h.reads, (h.consistentExcept ht).async⟩

theorem TiebreakerCall.source_passes : Passes g recv model lenient src := by
  have hc := h.consistentExcept ht
  have hsame : g.graph.rewire recv src = g.graph := by
    have hreads : g.graph.readsFrom.set recv (.send src) = g.graph.readsFrom := by
      apply AscendingMap.ext_find
      intro id
      rw [AscendingMap.find_set]
      split
      · rename_i heq
        rw [heq]
        exact h.reads.symm
      · rfl
    unfold rewire
    rw [hreads]
  unfold Passes
  split
  · rw [freshlyConsistent_iff ht, hsame]
    exact hc
  · exact unreached_of_source hc.async h.reads

theorem TiebreakerCall.passes_iff (hcandidate : CandidateSource g recv c) :
    Passes g recv model lenient c ↔
      FreshlyConsistent g model (rewriteTolerance recv lenient) recv c := by
  have hc := (h.consistentExcept ht).async
  obtain ⟨hdeliver, hfree⟩ := (candidateSource_iff hc c).mp hcandidate
  unfold Passes
  split
  · exact Iff.rfl
  · rename_i hneeds
    have hmodel : model = .async := by
      unfold needsRewrittenGraph at hneeds
      by_contra hne
      rw [decide_eq_true hne] at hneeds
      exact hneeds rfl
    rw [freshlyConsistent_iff ht]
    constructor
    · exact fun hunreached => ⟨(rewire_async_iff hc hdeliver).mpr ⟨hfree, hunreached⟩, fun hfifo =>
        nomatch hmodel.symm.trans hfifo⟩
    · exact fun hconsistent => ((rewire_async_iff hc hdeliver).mp hconsistent.async).2

theorem TiebreakerCall.returns
    (hrelease : needsRewrittenGraph model lenient = true → g.Releasable recv) :
    ∃ c, getConsTiebreaker g recv model lenient = .ok c ∧
      (Deliverable g c recv ∧ (c = src ∨ g.readers c = 0)) ∧
      Passes g recv model lenient c ∧
      ∀ other, Deliverable g other recv → other = src ∨ g.readers other = 0 →
        Passes g recv model lenient other → candidateLe g c other := by
  rcases (h.rebindable ht).tiebreaker_cases ht model hrelease with hfound | ⟨hnone, -⟩
  · exact hfound
  · exact absurd (h.source_passes ht) (hnone src (h.rebindable ht).deliverable_source (.inl rfl))

theorem TiebreakerCall.unreleasable
    (hneeds : needsRewrittenGraph model lenient = true) (hzero : g.readers src = 0)
    (c : ℕ) : getConsTiebreaker g recv model lenient ≠ .ok c := by
  have hc := (h.consistentExcept ht).async
  have hreceive := (h.rebindable ht).isReceiveId
  have hsource := (h.rebindable ht).deliverable_source
  obtain ⟨candidates, hscan, -, hmem⟩ := (h.rebindable ht).eq_scan ht model
  rw [hscan]
  have hunbound (x : ℕ) (preserves : Bool) (w : WorkerGraph V) : bindCandidate g recv x preserves none ≠ .ok w := by
    intro hbound
    obtain ⟨made, hmade, -⟩ := (Except.map_ok_iff _ _ _).mp hbound
    have hcopy : ∃ copy, g.assignReadsFrom recv (.send x) = .ok copy := by
      unfold rewrittenGraph at hmade
      split at hmade
      · obtain ⟨copy, hcopy, -⟩ := copyWithRfSource_inv hmade
        exact ⟨copy, hcopy⟩
      · obtain ⟨copy, hcopy, -⟩ := copyWithRfSource_inv hmade
        exact ⟨copy, hcopy⟩
    obtain ⟨copy, hcopy⟩ := hcopy
    obtain ⟨a, -, -, -, ha, -⟩ := assignReadsFrom_inv hcopy
    have hless := adjust_readers (ht.sound) ha (hsource.isSendId)
    have hpoint : points (g.readsFrom.find recv) src = 1 := if_pos h.reads
    simp only [Bool.false_eq_true, if_false, hpoint, hzero] at hless
    omega
  cases candidates with
  | nil => exact absurd ((hmem src).mpr ⟨hsource, .inl rfl⟩) not_mem_nil
  | cons first rest =>
    have hsend := ((hmem first).mp mem_cons_self).1.isSendId
    obtain ⟨preserves, hpreserves, -⟩ := preservesAcyclicity_ok ht hreceive hc hsend
    rw [scanCandidates, hneeds, hpreserves]
    simp only [Bool.not_true, Bool.false_eq_true, if_false, bind, Except.bind]
    cases hbound : bindCandidate g recv first preserves none with
    | error e => exact (nomatch ·)
    | ok w => exact absurd hbound (hunbound first preserves w)

end Call

/-! ## The least consistent source -/

/-- Every shortcut gives the verdict of a fresh check, for the candidates in any order. -/
structure VerdictsAgree (g : ExplorationGraph V) (recv : ℕ) (communicationModel : CommunicationModel)
    (allowNonTargetMissingReads : Bool) : Prop where
  single : ∀ c, CandidateSource g recv c → ∃ verdict,
    rfRewriteIsConsistent g recv c communicationModel allowNonTargetMissingReads = .ok verdict ∧
      (verdict = true ↔
        FreshlyConsistent g communicationModel (rewriteTolerance recv allowNonTargetMissingReads) recv c)
  loop : ∀ before c after,
    (∀ x ∈ before, CandidateSource g recv x ∧
      ¬ FreshlyConsistent g communicationModel (rewriteTolerance recv allowNonTargetMissingReads) recv x) →
    CandidateSource g recv c →
    FreshlyConsistent g communicationModel (rewriteTolerance recv allowNonTargetMissingReads) recv c →
    scanCandidates g recv communicationModel allowNonTargetMissingReads none (before ++ c :: after) = .ok c

/-- Where the reader counts that the tiebreaker uses are right: the count of the current source for the
rewritten graph, and for the query alone every send that it would take for unread before the least
candidate. -/
def CountsSuffice (g : ExplorationGraph V) (recv src : ℕ) (communicationModel : CommunicationModel)
    (allowNonTargetMissingReads : Bool) : Prop :=
  if needsRewrittenGraph communicationModel allowNonTargetMissingReads = true then g.readers src ≠ 0
  else ∀ c r, g.readers c = 0 → g.graph.ReadsFrom c r → r ≠ recv → Deliverable g c recv →
    ¬ Relation.TransGen g.graph.Porf recv c →
      ∃ other, CandidateSource g recv other ∧ ¬ Relation.TransGen g.graph.Porf recv other ∧ candidateLe g other c

section Least
variable {g : ExplorationGraph V} (ht : g.Tabulated) {recv src : ℕ} {model : CommunicationModel}
  {lenient : Bool} (h : TiebreakerCall g recv src model lenient)
  (hrelease : needsRewrittenGraph model lenient = true → g.Releasable recv)
include ht h hrelease

theorem TiebreakerCall.verdictsAgree : VerdictsAgree g recv model lenient := by
  have hc := (h.consistentExcept ht).async
  have hreceive := (h.rebindable ht).isReceiveId
  refine ⟨fun c hcandidate => ?_, fun before c after hbefore hcandidate hconsistent => ?_⟩
  · have hsend := hcandidate.1.isSendId
    rw [← h.passes_iff ht hcandidate]
    unfold rfRewriteIsConsistent Passes
    cases hneeds : needsRewrittenGraph model lenient with
    | false =>
      obtain ⟨cycle, hcycle, hiff⟩ := rewiring_ok ht hreceive hc hsend
      rw [hcycle, ← hiff]
      refine ⟨!cycle, rfl, ?_⟩
      simp
    | true =>
      obtain ⟨preserves, hpreserves, hsane⟩ := preservesAcyclicity_ok ht hreceive hc hsend
      obtain ⟨w, hbound, hw⟩ := Rewrites.first ht hreceive (hrelease hneeds) hsend hsane
      obtain ⟨made, hmade, rfl⟩ := (Except.map_ok_iff _ _ _).mp hbound
      obtain ⟨result, marks, hcheck, hiff, -⟩ := hw.tabulated.checkExplorationGraph_ok hw.flag
        model (rewriteTolerance recv lenient)
      rw [hw.graph, ← freshlyConsistent_iff ht] at hiff
      refine ⟨result.isConsistent, ?_, hiff⟩
      change checkExplorationGraph made _ _ = _ at hcheck
      simp only [hpreserves, hmade, hcheck, Bool.not_true, Bool.false_eq_true, if_false, bind, Except.bind, pure,
        Except.pure]
  · refine scan_finds ht hreceive hc before after c none hrelease (fun x hx => ?_) (fun x hx => ?_)
      (hcandidate.1.isSendId) ((h.passes_iff ht hcandidate).mpr hconsistent)
    · exact (hbefore x hx).1.1.isSendId
    · rw [h.passes_iff ht (hbefore x hx).1]
      exact (hbefore x hx).2

end Least

section Undercounted
variable {g : ExplorationGraph V} (ht : g.Tabulated) (hu : g.CountedBy (· ≤ ·)) {recv src : ℕ}
  {model : CommunicationModel} {lenient : Bool}
  (h : TiebreakerCall g recv src model lenient)
include ht hu h

theorem TiebreakerCall.listed (hcandidate : CandidateSource g recv c) : c = src ∨ g.readers c = 0 := by
  obtain ⟨hdeliver, hread | hunread⟩ := hcandidate
  · exact .inl ((h.rebindable ht).source_unique c hread)
  · have hle := hu c (hdeliver.isSendId)
    rw [(readerCount_eq_zero _ c).mpr hunread] at hle
    exact .inr (Nat.le_zero.mp hle)

theorem TiebreakerCall.least_of_listed (hcandidate : CandidateSource g recv c)
    (hpasses : Passes g recv model lenient c)
    (hleast : ∀ other, Deliverable g other recv → other = src ∨ g.readers other = 0 →
      Passes g recv model lenient other → candidateLe g c other) :
    LeastConsistentSource g model (rewriteTolerance recv lenient) recv c :=
  ⟨hcandidate, (h.passes_iff ht hcandidate).mp hpasses, fun other hother hconsistent =>
    hleast other hother.1 (h.listed ht hu hother) ((h.passes_iff ht hother).mpr hconsistent)⟩

theorem TiebreakerCall.least_iff :
    (∃ c, getConsTiebreaker g recv model lenient = .ok c ∧
      LeastConsistentSource g model (rewriteTolerance recv lenient) recv c) ↔
      CountsSuffice g recv src model lenient := by
  have hc := (h.consistentExcept ht).async
  unfold CountsSuffice
  cases hneeds : needsRewrittenGraph model lenient with
  | true =>
    rw [if_pos rfl]
    constructor
    · rintro ⟨c, hok, -⟩ hzero
      exact h.unreleasable ht hneeds hzero c hok
    · intro hcount
      have hrelease : g.Releasable recv := by
        intro id hsource _
        rw [(h.rebindable ht).source_unique id hsource]
        exact hcount
      obtain ⟨c, hok, ⟨hdeliver, -⟩, hpasses, hleast⟩ := h.returns ht fun _ => hrelease
      -- the check itself turns away a send that somebody else reads
      have hfresh := hpasses
      unfold Passes at hfresh
      rw [if_pos hneeds, freshlyConsistent_iff ht] at hfresh
      have hfree := ((rewire_async_iff hc hdeliver).mp hfresh.async).1
      exact ⟨c, hok, h.least_of_listed ht hu ((candidateSource_iff hc c).mpr ⟨hdeliver, hfree⟩) hpasses hleast⟩
  | false =>
    have hpass (x : ℕ) : Passes g recv model lenient x ↔
        ¬ TransGen g.graph.Porf recv x := by
      unfold Passes
      rw [hneeds, if_neg Bool.false_ne_true]
    obtain ⟨c, hok, ⟨hdeliver, hlisted⟩, hpasses, hleast⟩ := h.returns ht fun hyes => by
      rw [hneeds] at hyes
      cases hyes
    rw [if_neg Bool.false_ne_true]
    constructor
    · rintro ⟨c', hok', hleast'⟩ x r hzero hread hne hx hunreached
      rw [hok] at hok'
      cases hok'
      exact ⟨c, hleast'.candidate, (hpass c).mp hpasses, hleast x hx (.inr hzero) ((hpass x).mpr hunreached)⟩
    · intro hcounts
      refine ⟨c, hok, h.least_of_listed ht hu ?_ hpasses hleast⟩
      refine (candidateSource_iff hc c).mpr ⟨hdeliver, fun r hread => ?_⟩
      by_contra hne
      have hzero : g.readers c = 0 := by
        refine hlisted.resolve_left fun heq => hne ?_
        exact hc.exclusive c r recv hread (heq ▸ h.reads)
      obtain ⟨other, hother, hunreached, hle⟩ := hcounts c r hzero hread hne hdeliver ((hpass c).mp hpasses)
      have hle' := hleast other hother.1 (h.listed ht hu hother) ((hpass other).mpr hunreached)
      have heq := candidateLe_antisymm g hle' hle
      exact hne (((candidateSource_iff hc other).mp hother).2 r (heq ▸ hread))

end Undercounted

/-- On any object that calls lead to: the tiebreaker returns the least consistent source, by verdicts that
are those of fresh checks, exactly where the reader counts suffice. -/
theorem tiebreaker_least_iff (m : CachedGraph V) (hm : m.Interleaved) (recv src : ℕ)
    (communicationModel : CommunicationModel) (allowNonTargetMissingReads : Bool)
    (h : TiebreakerCall m.graph recv src communicationModel allowNonTargetMissingReads) :
    ((∃ c, getConsTiebreaker m.graph recv communicationModel allowNonTargetMissingReads = .ok c ∧
        LeastConsistentSource m.graph communicationModel (rewriteTolerance recv allowNonTargetMissingReads) recv c) ∧
      VerdictsAgree m.graph recv communicationModel allowNonTargetMissingReads) ↔
      CountsSuffice m.graph recv src communicationModel allowNonTargetMissingReads := by
  have ht := (hm.keeps m).1.graph
  have hleast := h.least_iff ht (hm.undercounted m)
  refine ⟨fun hboth => hleast.mp hboth.1, fun hcounts => ⟨hleast.mpr hcounts, h.verdictsAgree ht fun hneeds => ?_⟩⟩
  intro id hsource _
  unfold CountsSuffice at hcounts
  rw [if_pos hneeds] at hcounts
  rw [(h.rebindable ht).source_unique id hsource]
  exact hcounts

/-- A receive of thread 0 assigned to event 1 before that event exists, a send of thread 1 that then takes
this id, one of thread 2, and a second receive of thread 0 that reads the latter. -/
theorem exists_undercounted :
    ∃ m : CachedGraph ℕ, m.Interleaved ∧ TiebreakerCall m.graph 3 2 .async false ∧
      getConsTiebreaker m.graph 3 .async false = .ok 1 ∧ m.executionGraph.ReadsFrom 1 0 := by
  have hfirst : CachedGraph.Interleaved _ := .run .empty
    [.op (.addEvent 0 (.receive ⟨.blocking, fun _ => true⟩)), .op (.setReadsFromSource 0 (.send 1)),
      .op (.addEvent 1 (.send ⟨0, 7⟩))] rfl
  have hread : CachedGraph.Interleaved _ := .run hfirst [.op (.addEvent 2 (.send ⟨0, 8⟩)),
    .op (.addEvent 0 (.receive ⟨.blocking, fun _ => true⟩)), .op (.setReadsFromSource 3 (.send 2))] rfl
  exact ⟨_, hread, ⟨⟨_, _, rfl, rfl, rfl⟩, rfl, ⟨_, rfl, rfl⟩⟩, by decide +kernel, rfl⟩

theorem tiebreaker_takes_read_source :
    ¬ ∀ (m : CachedGraph ℕ) (recv src : ℕ) (communicationModel : CommunicationModel)
      (allowNonTargetMissingReads : Bool), m.Interleaved →
      TiebreakerCall m.graph recv src communicationModel allowNonTargetMissingReads →
      ∃ c, getConsTiebreaker m.graph recv communicationModel allowNonTargetMissingReads = .ok c ∧
        LeastConsistentSource m.graph communicationModel (rewriteTolerance recv allowNonTargetMissingReads)
          recv c := by
  intro hreturns
  obtain ⟨m, hm, hcall, htaken, hread⟩ := exists_undercounted
  obtain ⟨c, hc, hleast⟩ := hreturns m 3 2 .async false hm hcall
  rw [htaken] at hc
  cases hc
  have hconsistent := hcall.consistentExcept (hm.keeps m).1.graph
  have hfree := ((candidateSource_iff hconsistent.async 1).mp hleast.candidate).2
  exact absurd (hfree 0 hread) (by decide)

/-- Thread 0 reads the send of thread 2 and could have read that of thread 1. -/
theorem tiebreaker_least_iff_two_senders :
    ∃ m : CachedGraph ℕ, m.Interleaved ∧ TiebreakerCall m.graph 2 1 .fifoP2P false ∧
      m.graph.readers 1 = 1 ∧
      ((∃ c, getConsTiebreaker m.graph 2 .fifoP2P false = .ok c ∧
          LeastConsistentSource m.graph .fifoP2P (rewriteTolerance 2 false) 2 c) ∧
        VerdictsAgree m.graph 2 .fifoP2P false) := by
  obtain ⟨m, hm, hcall, hcount⟩ : ∃ m : CachedGraph ℕ, m.Interleaved ∧
      TiebreakerCall m.graph 2 1 .fifoP2P false ∧ m.graph.readers 1 = 1 :=
    ⟨_, .run .empty [.op (.addEvent 1 (.send ⟨0, 7⟩)), .op (.addEvent 2 (.send ⟨0, 8⟩)),
        .op (.addEvent 0 (.receive ⟨.blocking, fun _ => true⟩)), .op (.setReadsFromSource 2 (.send 1))] rfl,
      ⟨⟨_, _, rfl, rfl, rfl⟩, rfl, ⟨_, rfl, rfl⟩⟩, rfl⟩
  refine ⟨m, hm, hcall, hcount, (tiebreaker_least_iff m hm 2 1 .fifoP2P false hcall).mpr ?_⟩
  show m.graph.readers 1 ≠ 0
  rw [hcount]
  exact Nat.one_ne_zero

end MustDpor

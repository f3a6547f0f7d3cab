import MustDpor.Algo.ConsTiebreaker
import MustDpor.Algo.Guarantees

/-! # No dead ends

A receive that a thread asks for can be made: with bottom when it does not block, and otherwise with the
earliest send that it can take, which overtakes nothing. So every call of VISIT on a consistent graph whose
reader counts are exact publishes a terminal, unless it throws, and with a well-behaved program it does not
throw. Where the kept counts miss a reader, the
receive frame offers a send that is read already, and there the child is no good. -/

namespace MustDpor
set_option autoImplicit false
open List

variable {V : Type}

/-! ## The children of a receive -/

/-- The sources of the children that the receive frame builds. -/
def receiveSources (g : ExplorationGraph V) (tid : ℕ) (receive : ReceiveLabel V) : List ReadsFromSource :=
  (compatibleUnreadSendIds g tid receive).map .send ++ if receive.isNonblocking then [.bottom] else []

theorem mem_receiveSources (g : ExplorationGraph V) (tid : ℕ) (receive : ReceiveLabel V) (source : ReadsFromSource) :
    source ∈ receiveSources g tid receive ↔
      (∃ s, source = .send s ∧ s ∈ compatibleUnreadSendIds g tid receive) ∨
        (source = .bottom ∧ receive.isBlocking = false) := by
  unfold receiveSources
  rw [mem_append, mem_map]
  refine or_congr ⟨?_, ?_⟩ ?_
  · rintro ⟨s, hs, rfl⟩
    exact ⟨s, rfl, hs⟩
  · rintro ⟨s, rfl, hs⟩
    exact ⟨s, hs, rfl⟩
  · rw [ReceiveLabel.isNonblocking_eq]
    cases receive.isBlocking <;> simp

/-- The child with this source is built and accepted. -/
def ChildAccepted (communicationModel : CommunicationModel) (g : ExplorationGraph V) (tid : ℕ)
    (receive : ReceiveLabel V) (source : ReadsFromSource) : Prop :=
  ∃ child, g.withReceive tid (.receive receive) source = .ok child ∧ child.graph.Accepted communicationModel

variable {tid : ℕ} {receive : ReceiveLabel V} {source : ReadsFromSource} {child : ExplorationGraph V}

theorem receive_consistent {model : CommunicationModel} {g : ExplorationGraph V}
    (hc : g.graph.ConsistentUnder model) {index : ℕ}
    (hevents : child.graph.events = g.graph.events ++ [⟨tid, index, .receive receive⟩])
    (hreads : ∀ id, child.graph.readsFrom.find id =
      if id = g.eventCount then some source else g.graph.readsFrom.find id)
    (hordered : child.graph.IndexOrdered) (hbottom : source = .bottom → receive.isBlocking = false)
    (hsend : ∀ s, source = .send s → Receivable g tid receive s)
    (hfirst : model = .fifoP2P → ∀ s, source = .send s → ∀ s', Receivable g tid receive s' → s ≤ s') :
    child.graph.ConsistentUnder model := by
  refine ExecutionGraph.ConsistentUnder.read hevents rfl
    hreads hordered hc ⟨hbottom, fun s hs => ?_, ?_⟩
  · obtain ⟨hcompat, hunread⟩ := hsend s hs
    exact ⟨(compatibleSend_iff g tid receive s).mp hcompat, hunread⟩
  · intro hmodel s hs s' es' send' hchannel hbefore hes' hsend' haccepts
    -- an unread message in front would itself be a candidate
    by_contra hunread
    obtain ⟨es, send, hes, hlabel, hdest, -⟩ := (compatibleSend_iff g tid receive s).mp (hsend s hs).1
    rw [(g.graph.channel?_eq_some s' _).mpr ⟨es', send', hes', hsend', rfl⟩,
      (g.graph.channel?_eq_some s _).mpr ⟨es, send, hes, hlabel, rfl⟩] at hchannel
    have hkey := (Prod.mk.inj (Option.some.inj hchannel)).2
    have hcandidate : Receivable g tid receive s' :=
      ⟨(compatibleSend_iff g tid receive s').mpr ⟨es', send', hes', hsend', hkey.trans hdest, haccepts⟩,
        fun r hread => hunread ⟨r, hread⟩⟩
    exact absurd (hfirst hmodel s hs s' hcandidate) (not_le.mpr hbefore)

section Receive
variable {model : CommunicationModel} {g : ExplorationGraph V} (h : Legal model g)
include h

theorem Legal.read (hgrows : Grows g tid (.receive receive) (some source) child)
    (hbottom : source = .bottom → receive.isBlocking = false)
    (hsend : ∀ s, source = .send s → Receivable g tid receive s)
    (hfirst : model = .fifoP2P → ∀ s, source = .send s → ∀ s', Receivable g tid receive s' → s ≤ s') :
    Legal model child :=
  ⟨hgrows.tabulated, hgrows.counted, hgrows.truthful, receive_consistent h.consistent
    hgrows.events hgrows.reads (hgrows.tabulated.indexOrdered child) hbottom hsend hfirst⟩

theorem Legal.mem_receiveSources (tid : ℕ) (receive : ReceiveLabel V) (source : ReadsFromSource) :
    source ∈ receiveSources g tid receive ↔
      (∃ s, source = .send s ∧ Receivable g tid receive s) ∨ (source = .bottom ∧ receive.isBlocking = false) := by
  rw [MustDpor.mem_receiveSources]
  simp only [mem_compatibleUnreadSendIds g h.tabulated h.counted]

theorem Legal.exists_source (tid : ℕ) (receive : ReceiveLabel V)
    (hready : receive.isBlocking = true → hasCompatibleUnreadSend g tid receive = true) :
    ∃ source ∈ receiveSources g tid receive, ∀ child, Grows g tid (.receive receive) (some source) child →
      Legal model child := by
  classical
  cases hblocking : receive.isBlocking with
  | false =>
    refine ⟨.bottom, (h.mem_receiveSources tid receive _).mpr (.inr ⟨rfl, hblocking⟩), fun child hgrows => ?_⟩
    exact h.read hgrows (fun _ => hblocking) nofun
      nofun
  | true =>
    have hexists := (hasCompatibleUnreadSend_iff g h.tabulated h.counted tid receive).mp (hready hblocking)
    refine ⟨.send (Nat.find hexists),
      (h.mem_receiveSources tid receive _).mpr (.inl ⟨_, rfl, Nat.find_spec hexists⟩), fun child hgrows => ?_⟩
    refine h.read hgrows nofun (fun s hs => ?_) fun _ s hs s' hs' => ?_
    · cases hs
      exact Nat.find_spec hexists
    · cases hs
      exact Nat.find_min' hexists hs'

end Receive

theorem computeNextEventFrom_ready (program : Program V) (g : ExplorationGraph V) (maxThreadEvents : ℕ)
    (ids : List ℕ) (suppressed flag : Bool) (tid : ℕ) (receive : ReceiveLabel V)
    (h : computeNextEventFrom program g maxThreadEvents ids suppressed = .ok ⟨some (tid, .receive receive), flag⟩)
    (hblocking : receive.isBlocking = true) : hasCompatibleUnreadSend g tid receive = true := by
  induction ids generalizing suppressed with
  | nil => cases h
  | cons other rest ih =>
    unfold computeNextEventFrom at h
    split at h
    · exact ih suppressed h
    · split at h
      · exact ih true h
      · obtain ⟨threadFn, -, h⟩ := Except.bind_ok_iff.mp h
        obtain ⟨trace, -, h⟩ := Except.bind_ok_iff.mp h
        cases hanswer : threadFn trace (g.threadEventCount other) with
        | none =>
          rw [hanswer] at h
          exact ih suppressed h
        | some label =>
          rw [hanswer] at h
          cases label with
          | receive asked =>
            dsimp only [eventFor] at h
            split at h
            · cases h
            · rename_i hnot
              cases h
              rw [hblocking, Bool.true_and, Bool.not_eq_true', Bool.not_eq_false] at hnot
              exact hnot
          | _ => cases h

/-! ## Every call answers -/

section Fruitful
variable [LinearOrder V] {config : DporConfig V} {tids : List ℕ} {g : ExplorationGraph V} {depth : ℕ}
  {recur : ExplorationGraph V → ℕ → Search V} (h : Legal config.communicationModel g)
  (hrecur : ∀ child d, Legal config.communicationModel child →
    visitCalls config.maxDepth child d < visitCalls config.maxDepth g depth → (recur child d).Fruitful)

theorem guarded_fruitful {d : ℕ} (hchild : Legal config.communicationModel child)
    (hrecur : ∀ marked, Legal config.communicationModel marked → marked.blockCount = child.blockCount →
      (recur marked d).Fruitful) :
    (guarded (Queries.ofConfig config tids) recur child d).Fruitful := by
  rcases guarded_cases hchild.truthful hchild.tabulated tids recur d with ⟨-, marks, heq⟩ | ⟨hnot, -⟩
  · rw [heq]
    refine Forest.Fruitful.node _ _ _ (hrecur _ (hchild.marked marks) ?_)
    cases marks <;> rfl
  · exact absurd hchild.consistent hnot

include h hrecur

omit [LinearOrder V] in
theorem extended_fruitful (hdepth : depth < config.maxDepth) (tid : ℕ) {label : EventLabel V}
    (hreceive : label.isReceive = false) : (extended recur g depth tid label).Fruitful := by
  unfold extended
  rcases h.addEvent_cases tid label with ⟨e, hadd, -⟩ | ⟨child, hadd, hgrows⟩
  · rw [hadd]
    exact Forest.fruitful_fail _ _
  · rw [hadd]
    exact hrecur child _ ⟨hgrows.tabulated, hgrows.counted, hgrows.truthful, h.consistent_grown hgrows
      hreceive⟩ (visitCalls_deeper _ hdepth (addEvent_blockCount_le hadd))

theorem receiveChild_fruitful (hdepth : depth < config.maxDepth)
    (hchild : ∀ child, Grows g tid (.receive receive) (some source) child →
      Legal config.communicationModel child) :
    (receiveChild (Queries.ofConfig config tids) recur g depth tid receive source).Fruitful := by
  unfold receiveChild
  rcases h.withReceive_cases tid receive source with ⟨e, hadd, -⟩ | ⟨child, hadd, hgrows⟩
  · rw [hadd]
    exact Forest.fruitful_fail _ _
  · rw [hadd]
    refine guarded_fruitful (hchild child hgrows) fun marked hmarked hblocks => ?_
    refine hrecur marked _ hmarked (visitCalls_deeper _ hdepth ?_)
    rw [hblocks]
    exact withReceive_blockCount_le hadd

omit [LinearOrder V] h hrecur in
theorem candidateChildren_fruitful {queries : Queries V} {candidates : List ℕ}
    {s : ℕ} (hs : s ∈ candidates) (hchild : (receiveChild queries recur g depth tid receive (.send s)).Fruitful) :
    (candidateChildren queries recur g depth tid receive candidates).Fruitful := by
  induction candidates with
  | nil => cases hs
  | cons sendId rest ih =>
    unfold candidateChildren
    rcases mem_cons.mp hs with rfl | hs
    · exact Forest.Fruitful.append_left _ _ hchild
    · exact Forest.Fruitful.append_right _ _ (ih hs)

theorem receive_fruitful (hdepth : depth < config.maxDepth)
    (hready : receive.isBlocking = true → hasCompatibleUnreadSend g tid receive = true) :
    (eventChildren (Queries.ofConfig config tids) recur g depth tid (.receive receive)).Fruitful := by
  show (candidateChildren _ recur g depth tid receive (compatibleUnreadSendIds g tid receive) ++
    bottomChild _ recur g depth tid receive).Fruitful
  obtain ⟨source, hsource, hchild⟩ := h.exists_source tid receive hready
  have hfruitful : (receiveChild (Queries.ofConfig config tids) recur g depth tid receive source).Fruitful :=
    receiveChild_fruitful h hrecur hdepth hchild
  rcases (h.mem_receiveSources tid receive source).mp hsource with ⟨s, rfl, hs⟩ | ⟨rfl, hblocking⟩
  · exact Forest.Fruitful.append_left _ _ (candidateChildren_fruitful
      ((mem_compatibleUnreadSendIds g h.tabulated h.counted tid receive s).mpr hs) hfruitful)
  · refine Forest.Fruitful.append_right _ _ ?_
    unfold bottomChild
    rw [if_pos (by rw [ReceiveLabel.isNonblocking_eq, hblocking]; rfl)]
    exact hfruitful

theorem eventChildren_fruitful (hdepth : depth < config.maxDepth) {tid : ℕ} {label : EventLabel V}
    (hready : ∀ receive, label = .receive receive → receive.isBlocking = true →
      hasCompatibleUnreadSend g tid receive = true) :
    (eventChildren (Queries.ofConfig config tids) recur g depth tid label).Fruitful := by
  cases label with
  | block => exact extended_fruitful h hrecur hdepth tid rfl
  | receive receive => exact receive_fruitful h hrecur hdepth (hready receive rfl)
  | error error =>
    unfold eventChildren
    dsimp only
    cases g.addEvent tid (.error error) with
    | error e => exact Forest.fruitful_fail _ _
    | ok added => exact Forest.fruitful_leaf _ _
  | send send =>
    show (sendChildren _ recur g depth tid send).Fruitful
    unfold sendChildren
    rcases h.addEvent_cases tid (.send send) with ⟨e, hadd, -⟩ | ⟨child, hadd, hgrows⟩
    · rw [hadd]
      exact Forest.fruitful_fail _ _
    · rw [hadd]
      refine Forest.Fruitful.append_right _ _ ?_
      exact hrecur child _ ⟨hgrows.tabulated, hgrows.counted, hgrows.truthful, h.consistent_grown hgrows
        rfl⟩ (visitCalls_deeper _ hdepth (addEvent_blockCount_le hadd))
  | nondeterministicChoice nd =>
    show (if nd.choices.isEmpty then _ else _ : Search V).Fruitful
    split
    · exact extended_fruitful h hrecur hdepth tid rfl
    · rename_i hchoices
      rw [List.isEmpty_iff] at hchoices
      obtain ⟨choice, rest, hcons⟩ := List.exists_cons_of_ne_nil (eraseDuplicateNdChoices_ne_nil nd.choices hchoices)
      rw [hcons]
      exact Forest.Fruitful.append_left _ _ (extended_fruitful h hrecur hdepth tid rfl)

omit hrecur in
theorem Legal.rescheduleChild_legal {ids : List ℕ}
    (hchild : rescheduleChild (Queries.ofConfig config tids) g ids = .ok (some child)) :
    Legal config.communicationModel child := by
  obtain ⟨tid, -, hready⟩ := rescheduleChild_inv _ hchild
  obtain ⟨id, hlast, hblock, hrestrict⟩ := rescheduleThread_inv hready
  change g.restrictMasked (dropMask g.eventCount id) = .ok child at hrestrict
  obtain ⟨other, hother, hto⟩ := h.tabulated.restrictMasked_ok h.consistent.async.endpoints
    (by rw [dropMask, length_set, length_replicate]) (threadClosed_dropMask h.tabulated hlast)
  rw [hrestrict] at hother
  cases hother
  exact h.unblocked hblock hrestrict hto

theorem visitBody_fruitful :
    (visitBody (Queries.ofConfig config tids) tids config.maxDepth recur g depth).Fruitful := by
  unfold visitBody
  split
  · exact Forest.fruitful_leaf _ _
  · rename_i hdepth
    have hdepth := Nat.lt_of_not_le hdepth
    cases hnext : (Queries.ofConfig config tids).computeNextEvent g with
    | error e => exact Forest.fruitful_fail _ _
    | ok result =>
      obtain ⟨next, suppressed⟩ := result
      cases next with
      | some event =>
        obtain ⟨tid, label⟩ := event
        refine eventChildren_fruitful h hrecur hdepth fun receive hlabel hblocking => ?_
        subst hlabel
        exact computeNextEventFrom_ready config.program g config.maxThreadEvents tids false suppressed tid receive
          hnext hblocking
      | none =>
        dsimp only
        cases hchild : rescheduleChild (Queries.ofConfig config tids) g tids with
        | error e => exact Forest.fruitful_fail _ _
        | ok found =>
          cases found with
          | none => exact Forest.fruitful_leaf _ _
          | some child =>
            refine hrecur child depth (h.rescheduleChild_legal hchild) ?_
            have hless := rescheduleChild_blockCount_lt _ hchild
            unfold visitCalls
            omega

end Fruitful

theorem visit_fruitful [LinearOrder V] (config : DporConfig V) (tids : List ℕ) (g : ExplorationGraph V)
    (depth : ℕ) (h : Legal config.communicationModel g) :
    (visit (Queries.ofConfig config tids) tids config.maxDepth g depth).Fruitful := by
  induction hcalls : visitCalls config.maxDepth g depth using Nat.strong_induction_on generalizing g depth with
  | _ calls ih =>
    subst hcalls
    rw [visit_eq]
    exact Forest.Fruitful.node _ _ _
      (visitBody_fruitful h fun child d hchild hless => ih _ hless child d hchild rfl)

/-- The run of the explorer from a frame in Visit mode, which nobody stops, does what the call of VISIT does. -/
theorem exits_visit [LinearOrder V] (config : DporConfig V) (tids : List ℕ) (entry : WorkerGraph V)
    (htabulated : entry.graph.Tabulated) (depth : ℕ) (result : VerifyResult) (hresult : result.kind = .allExplored) :
    ∃ exit, SequentialRun.Exits (UserCode.ofConfig config tids fun _ => .continue) tids config.maxDepth
        (SequentialRun.start entry depth .visit result) exit ∧
      exit.raised = (visit (Queries.ofConfig config tids) tids config.maxDepth entry.graph depth).run.raised ∧
      exit.terminals = (visit (Queries.ofConfig config tids) tids config.maxDepth entry.graph depth).run.answers := by
  obtain ⟨exit, hexits, hfollows⟩ := exits_follows config tids (fun _ => .continue)
    (SequentialRun.start entry depth .visit result) _ hresult
    (runPending_start config tids entry htabulated.sound depth .visit result)
  have hobserved := observed_of_continues (fun _ => .continue) []
    (visit (Queries.ofConfig config tids) tids config.maxDepth entry.graph depth).run.answers fun _ _ _ => rfl
  have hterminals := hfollows.terminals
  have hquiet := hfollows.raised
  change exit.terminals = [] ++ (observed _ [] (visit _ _ _ _ _).run.answers).1 at hterminals
  change exit.raised = if (observed _ [] (visit _ _ _ _ _).run.answers).2 then none else (visit _ _ _ _ _).run.raised
    at hquiet
  rw [hobserved] at hterminals hquiet
  exact ⟨exit, hexits, hquiet, hterminals⟩

/-! ## Graphs whose counts miss a reader -/

/-- Some child of the receive is accepted; all of them are, when messages may overtake each other. -/
def NoDeadEnd (communicationModel : CommunicationModel) (g : ExplorationGraph V) (tid : ℕ)
    (receive : ReceiveLabel V) : Prop :=
  (∃ source ∈ receiveSources g tid receive, ChildAccepted communicationModel g tid receive source) ∧
    (communicationModel = .async → ∀ source ∈ receiveSources g tid receive,
      ChildAccepted communicationModel g tid receive source)

/-- What the receive frame offers can be read: a send that counts as unread has no reader, when messages may
overtake each other, and a blocking receive has some send that nobody reads. -/
structure OffersUnread (communicationModel : CommunicationModel) (g : ExplorationGraph V) (tid : ℕ)
    (receive : ReceiveLabel V) : Prop where
  unread : communicationModel = .async → ∀ s, compatibleSend g tid receive s = true → g.readers s = 0 →
    ∀ r, ¬ g.graph.ReadsFrom s r
  some : receive.isBlocking = true → ∃ s, Receivable g tid receive s

section Miscounted
variable {model : CommunicationModel} {g : ExplorationGraph V} (ht : g.Tabulated)
  (hcounts : g.CountedBy (· ≤ ·)) (hc : g.graph.ConsistentUnder model)
include ht

theorem mem_offered (tid : ℕ) (receive : ReceiveLabel V) (s : ℕ) :
    s ∈ compatibleUnreadSendIds g tid receive ↔ compatibleSend g tid receive s = true ∧ g.readers s = 0 := by
  unfold compatibleUnreadSendIds
  rw [mem_filter, mem_unreadSendEventIds ht]
  constructor
  · rintro ⟨⟨-, hzero⟩, hcompat⟩
    exact ⟨hcompat, hzero⟩
  · rintro ⟨hcompat, hzero⟩
    obtain ⟨es, send, hes, hsend, -⟩ := (compatibleSend_iff g tid receive s).mp hcompat
    refine ⟨⟨?_, hzero⟩, hcompat⟩
    rw [g.isSendId_eq]
    exact (g.graph.isSendAt_iff s).mpr ⟨es, send, hes, hsend⟩

include hcounts in
theorem offered_of_receivable {tid : ℕ} {receive : ReceiveLabel V} {s : ℕ} (hs : Receivable g tid receive s) :
    s ∈ compatibleUnreadSendIds g tid receive := by
  obtain ⟨es, send, hes, hsend, -⟩ := (compatibleSend_iff g tid receive s).mp hs.1
  have hsendId : g.isSendId s = true := by
    rw [g.isSendId_eq]
    exact (g.graph.isSendAt_iff s).mpr ⟨es, send, hes, hsend⟩
  refine (mem_offered ht tid receive s).mpr ⟨hs.1, Nat.le_zero.mp ?_⟩
  rw [← (readerCount_eq_zero g.graph.readsFrom s).mpr hs.2]
  exact hcounts s hsendId

include hc

theorem not_indexExhausted_of_childAccepted (haccepted : ChildAccepted model g tid receive source) :
    ¬ IndexExhausted g tid := by
  obtain ⟨child, hok, -⟩ := haccepted
  rcases withReceive_cases ht hc.async.endpoints tid receive source with ⟨e, herror, -⟩ | ⟨-, hindex, -⟩
  · rw [hok] at herror
    cases herror
  · exact hindex

theorem childAccepted_of_receivable {tid : ℕ} {receive : ReceiveLabel V} {source : ReadsFromSource}
    (hindex : ¬ IndexExhausted g tid) (hbottom : source = .bottom → receive.isBlocking = false)
    (hsend : ∀ s, source = .send s → Receivable g tid receive s)
    (hfirst : model = .fifoP2P → ∀ s, source = .send s → ∀ s', Receivable g tid receive s' → s ≤ s') :
    ChildAccepted model g tid receive source := by
  rcases withReceive_cases ht hc.async.endpoints tid receive source with
    ⟨-, -, hexhausted⟩ | ⟨child, -, hok, -, htabulated, hevents, hreads⟩
  · exact absurd hexhausted hindex
  · have hordered := htabulated.indexOrdered child
    exact ⟨child, hok, (child.graph.accepted_iff hordered model).mpr
      (receive_consistent hc hevents hreads hordered hbottom hsend hfirst)⟩

theorem unread_of_childAccepted {s : ℕ} (haccepted : ChildAccepted model g tid receive (.send s)) (r : ℕ) :
    ¬ g.graph.ReadsFrom s r := by
  intro hread
  obtain ⟨child, hok, haccepted⟩ := haccepted
  rcases withReceive_cases ht hc.async.endpoints tid receive (.send s) with
    ⟨e, herror, -⟩ | ⟨child', -, hok', -, htabulated, -, hreads⟩
  · rw [hok] at herror
    cases herror
  · obtain rfl : child = child' := Except.ok.inj (hok.symm.trans hok')
    have hconsistent := (child.graph.accepted_iff (htabulated.indexOrdered child) model).mp haccepted
    have hlt := (hc.async.endpoints.porf_lt s r (.inr hread)).2
    have hnew : child.graph.ReadsFrom s g.eventCount := by
      unfold ExecutionGraph.ReadsFrom
      rw [hreads, if_pos rfl]
    have hold : child.graph.ReadsFrom s r := by
      unfold ExecutionGraph.ReadsFrom
      rw [hreads]
      exact (if_neg (ne_of_lt hlt)).trans hread
    exact absurd (hconsistent.async.exclusive s r g.eventCount hold hnew) (ne_of_lt hlt)

include hcounts

theorem noDeadEnd_iff (tid : ℕ) (receive : ReceiveLabel V) :
    NoDeadEnd model g tid receive ↔
      ¬ IndexExhausted g tid ∧ OffersUnread model g tid receive := by
  classical
  constructor
  · rintro ⟨⟨source, hsource, haccepted⟩, hall⟩
    refine ⟨not_indexExhausted_of_childAccepted ht hc haccepted, fun hmodel s hcompat hzero => ?_, fun hblocking => ?_⟩
    · refine unread_of_childAccepted ht hc (hall hmodel _ ?_)
      exact (mem_receiveSources g tid receive _).mpr
        (.inl ⟨s, rfl, (mem_offered ht tid receive s).mpr ⟨hcompat, hzero⟩⟩)
    · rcases (mem_receiveSources g tid receive source).mp hsource with ⟨s, rfl, hs⟩ | ⟨-, hnonblocking⟩
      · exact ⟨s, ((mem_offered ht tid receive s).mp hs).1, unread_of_childAccepted ht hc haccepted⟩
      · rw [hblocking] at hnonblocking
        cases hnonblocking
  · rintro ⟨hindex, hoffers⟩
    have hbottom (hblocking : receive.isBlocking = false) : ChildAccepted model g tid receive .bottom :=
      childAccepted_of_receivable ht hc hindex (fun _ => hblocking) nofun nofun
    refine ⟨?_, fun hmodel source hsource => ?_⟩
    · cases hblocking : receive.isBlocking with
      | false => exact ⟨.bottom, (mem_receiveSources g tid receive _).mpr (.inr ⟨rfl, hblocking⟩), hbottom hblocking⟩
      | true =>
        -- the earliest send that nobody reads overtakes nothing
        have hexists := hoffers.some hblocking
        refine ⟨.send (Nat.find hexists), (mem_receiveSources g tid receive _).mpr
          (.inl ⟨_, rfl, offered_of_receivable ht hcounts (Nat.find_spec hexists)⟩), ?_⟩
        refine childAccepted_of_receivable ht hc hindex nofun (fun s hs => ?_) fun _ s hs s' hs' => ?_
        · cases hs
          exact Nat.find_spec hexists
        · cases hs
          exact Nat.find_min' hexists hs'
    · rcases (mem_receiveSources g tid receive source).mp hsource with ⟨s, rfl, hs⟩ | ⟨rfl, hblocking⟩
      · obtain ⟨hcompat, hzero⟩ := (mem_offered ht tid receive s).mp hs
        refine childAccepted_of_receivable ht hc hindex nofun (fun s' hs' => ?_) fun hfifo => ?_
        · cases hs'
          exact ⟨hcompat, hoffers.unread hmodel s hcompat hzero⟩
        · rw [hmodel] at hfifo
          cases hfifo
      · exact hbottom hblocking

end Miscounted

/-- Exact counts offer what nobody reads. -/
theorem Legal.offersUnread {model : CommunicationModel} {g : ExplorationGraph V} (h : Legal model g)
    (hready : receive.isBlocking = true → hasCompatibleUnreadSend g tid receive = true) :
    OffersUnread model g tid receive where
  unread _ s hcompat hzero :=
    ((mem_compatibleUnreadSendIds g h.tabulated h.counted tid receive s).mp
      ((mem_offered h.tabulated tid receive s).mpr ⟨hcompat, hzero⟩)).2
  some hblocking := (hasCompatibleUnreadSend_iff g h.tabulated h.counted tid receive).mp (hready hblocking)

section Runs
variable [LinearOrder V] {config : DporConfig V} {threadIds : List ℕ} (hbehaved : WellBehaved config threadIds)
  {g : ExplorationGraph V} {depth : ℕ} (h : Explored config g depth)
include hbehaved h

theorem WellBehaved.noDeadEnd (hdepth : depth < config.maxDepth) {flag : Bool}
    (hnext : computeNextEvent config.program g threadIds config.maxThreadEvents =
      .ok ⟨some (tid, .receive receive), flag⟩) : NoDeadEnd config.communicationModel g tid receive := by
  have hready := computeNextEventFrom_ready config.program g config.maxThreadEvents threadIds false flag tid receive hnext
  refine (noDeadEnd_iff h.tabulated (fun s hs => (h.counted s hs).le) h.consistent tid receive).mpr
    ⟨fun hexhausted => ?_, h.legal.offersUnread hready⟩
  obtain ⟨returned, hfound, -⟩ := nextFound_of_next h.threadTrace_ok
    (threadsOf_sorted config.program threadIds hbehaved.threads) hnext
  exact hbehaved.not_permitted _ (h.noIndex_permitted hdepth hfound.thread (.outOfRange "") hexhausted)

theorem WellBehaved.visit_answers :
    (visit (Queries.ofConfig config threadIds) threadIds config.maxDepth g depth).run.answers ≠ [] :=
  (visit_fruitful config threadIds g depth h.legal).answers _ (hbehaved.visit_raised_none h)

end Runs

/-- On every consistent graph: the receive that comes next has its children where an index is left for it and the
frame offers what nobody reads. And in every search for a well-behaved program, each frame entered in Visit mode
is entered on such a graph, throws nothing and publishes a terminal. -/
theorem dead_end_free_iff [LinearOrder V] (config : DporConfig V) (threadIds : List ℕ) :
    (∀ m : CachedGraph V, m.Interleaved → m.executionGraph.Accepted config.communicationModel →
      ∀ tid receive flag, computeNextEvent config.program m.graph threadIds config.maxThreadEvents =
          .ok ⟨some (tid, .receive receive), flag⟩ →
        (NoDeadEnd config.communicationModel m.graph tid receive ↔
          ¬ IndexExhausted m.graph tid ∧ OffersUnread config.communicationModel m.graph tid receive)) ∧
    (WellBehaved config threadIds →
      (∀ call ∈ (visit (Queries.ofConfig config threadIds) threadIds config.maxDepth ExplorationGraph.empty 0).nodes,
        call.mode = .visit → Explored config call.graph call.dporTreeDepth) ∧
      ∀ g depth, Explored config g depth →
        (∀ tid receive flag, depth < config.maxDepth →
          computeNextEvent config.program g threadIds config.maxThreadEvents =
            .ok ⟨some (tid, .receive receive), flag⟩ → NoDeadEnd config.communicationModel g tid receive) ∧
        (visit (Queries.ofConfig config threadIds) threadIds config.maxDepth g depth).run.raised = none ∧
        (visit (Queries.ofConfig config threadIds) threadIds config.maxDepth g depth).run.answers ≠ [] ∧
        ∀ (entry : WorkerGraph V) (result : VerifyResult), entry.graph = g → result.kind = .allExplored →
          ∃ exit, SequentialRun.Exits (UserCode.ofConfig config threadIds fun _ => .continue) threadIds
              config.maxDepth (SequentialRun.start entry depth .visit result) exit ∧
            exit.raised = none ∧ exit.terminals ≠ []) := by
  refine ⟨fun m hm haccepted tid receive _ _ => ?_, fun hbehaved => ⟨fun call hcall hmode => ?_,
    fun g depth h => ⟨fun tid receive flag hdepth hnext => hbehaved.noDeadEnd h hdepth hnext,
      hbehaved.visit_raised_none h, hbehaved.visit_answers h, fun entry result hentry hresult => ?_⟩⟩⟩
  · have ht := (hm.keeps m).1.graph
    have hc := (m.executionGraph.accepted_iff (ht.indexOrdered m.graph) config.communicationModel).mp haccepted
    exact noDeadEnd_iff ht (hm.undercounted m) hc tid receive
  · have hthreads := threadsOf_sorted config.program threadIds hbehaved.threads
    exact (visit_accounted hthreads (explored_empty config)).nodes call hcall hmode
  · subst hentry
    obtain ⟨exit, hexits, hraised, hterminals⟩ := exits_visit config threadIds entry h.tabulated depth result hresult
    refine ⟨exit, hexits, hraised.trans (hbehaved.visit_raised_none h), ?_⟩
    rw [hterminals]
    exact hbehaved.visit_answers h

/-- One thread sends to another, which receives twice. -/
def twiceProgram : Program ℕ :=
  ⟨⟨[some fun _ step => if step < 2 then some (.receive ⟨.blocking, fun _ => true⟩) else none,
    some fun _ step => if step = 0 then some (.send ⟨0, 7⟩) else none]⟩⟩

def twiceConfig : DporConfig ℕ := ⟨twiceProgram, 10, 0, .async⟩

/-- The first receive was bound to the send before the send existed, so the send counts as unread and is
offered to the second receive. -/
theorem exists_dead_end : ∃ m : CachedGraph ℕ, m.Interleaved ∧ m.executionGraph.Accepted .async ∧
    computeNextEvent twiceProgram m.graph [0, 1] 0 = .ok ⟨some (0, .receive ⟨.blocking, fun _ => true⟩), false⟩ ∧
    compatibleSend m.graph 0 ⟨.blocking, fun _ => true⟩ 1 = true ∧ m.graph.readers 1 = 0 ∧
    m.graph.graph.ReadsFrom 1 0 ∧
    (visit (Queries.ofConfig twiceConfig [0, 1]) [0, 1] 10 m.graph 2).run.raised = none ∧
    (visit (Queries.ofConfig twiceConfig [0, 1]) [0, 1] 10 m.graph 2).run.answers.length = 0 := by
  have hsend : CachedGraph.Interleaved _ := .run .empty [.op (.addEvent 0 (.receive ⟨.blocking, fun _ => true⟩)),
    .op (.setReadsFromSource 0 (.send 1)), .op (.addEvent 1 (.send ⟨0, 7⟩))] rfl
  exact ⟨_, hsend, ⟨_, rfl, rfl⟩, rfl, rfl, rfl, rfl, by decide +kernel, by decide +kernel⟩

theorem read_send_is_offered :
    (¬ ∀ (config : DporConfig ℕ) (threadIds : List ℕ) (m : CachedGraph ℕ), m.Interleaved →
      m.executionGraph.Accepted config.communicationModel →
      ∀ tid receive flag, computeNextEvent config.program m.graph threadIds config.maxThreadEvents =
        .ok ⟨some (tid, .receive receive), flag⟩ → NoDeadEnd config.communicationModel m.graph tid receive) ∧
    ¬ ∀ (config : DporConfig ℕ) (threadIds : List ℕ) (m : CachedGraph ℕ), m.Interleaved →
      m.executionGraph.Accepted config.communicationModel →
      ∀ depth, (visit (Queries.ofConfig config threadIds) threadIds config.maxDepth m.graph depth).run.raised = none →
        (visit (Queries.ofConfig config threadIds) threadIds config.maxDepth m.graph depth).run.answers ≠ [] := by
  obtain ⟨m, hm, haccepted, hnext, hcompatible, hzero, hread, hraised, hanswers⟩ := exists_dead_end
  refine ⟨fun hnoDeadEnd => ?_, fun hpublishes => ?_⟩
  · have ht := (hm.keeps m).1.graph
    have hc := (m.executionGraph.accepted_iff (ht.indexOrdered m.graph) .async).mp haccepted
    obtain ⟨-, hoffers⟩ := (noDeadEnd_iff ht (hm.undercounted m) hc 0 _).mp
      (hnoDeadEnd twiceConfig [0, 1] m hm haccepted 0 _ false hnext)
    exact hoffers.unread rfl 1 hcompatible hzero 0 hread
  · exact hpublishes twiceConfig [0, 1] m hm haccepted 2 hraised (List.eq_nil_of_length_eq_zero hanswers)

/-- With the send of thread 1 unread, the first receive of thread 0 has its child; and each of the three VISIT
calls of the ping program publishes. -/
theorem dead_end_free_twice :
    (∃ m : CachedGraph ℕ, m.Interleaved ∧ m.executionGraph.Accepted .async ∧
      NoDeadEnd .async m.graph 0 ⟨.blocking, fun _ => true⟩) ∧
    ((visit (Queries.ofConfig pingConfig [0, 1]) [0, 1] 10 ExplorationGraph.empty 0).nodes.filter
      fun call => call.mode = .visit).length = 3 ∧
    ∀ call ∈ (visit (Queries.ofConfig pingConfig [0, 1]) [0, 1] 10 ExplorationGraph.empty 0).nodes,
      call.mode = .visit →
      (visit (Queries.ofConfig pingConfig [0, 1]) [0, 1] 10 call.graph call.dporTreeDepth).run.answers ≠ [] := by
  obtain ⟨hexplored, hframes⟩ := (dead_end_free_iff pingConfig [0, 1]).2 ping_wellBehaved
  refine ⟨?_, by decide +kernel, fun call hcall hmode => (hframes _ _ (hexplored call hcall hmode)).2.2.1⟩
  obtain ⟨m, hm, haccepted, hnext, hcompatible, hreads, hcount⟩ : ∃ m : CachedGraph ℕ, m.Interleaved ∧
      m.executionGraph.Accepted .async ∧ computeNextEvent twiceProgram m.graph [0, 1] 0 =
        .ok ⟨some (0, .receive ⟨.blocking, fun _ => true⟩), false⟩ ∧
      compatibleSend m.graph 0 ⟨.blocking, fun _ => true⟩ 0 = true ∧ (∀ s r, ¬ m.graph.graph.ReadsFrom s r) ∧
      threadCount m.graph.graph.events 0 = 0 :=
    ⟨_, .call _ _ (.op (.addEvent 1 (.send ⟨0, 7⟩))) _ (CachedGraph.Interleaved.empty (V := ℕ)) rfl, ⟨_, rfl, rfl⟩,
      rfl, rfl, fun _ _ hread => (nomatch hread), rfl⟩
  refine ⟨m, hm, haccepted, ((dead_end_free_iff twiceConfig [0, 1]).1 m hm haccepted 0 _ false hnext).mpr
    ⟨?_, fun _ s _ _ r => hreads s r, fun _ => ⟨0, hcompatible, fun r => hreads 0 r⟩⟩⟩
  rintro (hthread | hindex)
  · exact absurd hthread (Nat.not_lt_zero _)
  · rw [hcount] at hindex
    exact absurd hindex (Nat.not_lt_zero _)

end MustDpor

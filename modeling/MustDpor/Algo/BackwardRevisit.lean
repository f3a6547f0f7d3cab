import MustDpor.Model.ClosedRestriction
import MustDpor.Algo.RevisitCondition
import MustDpor.Algo.Explorer

/-! # Backward-revisit children

What `next_backward_revisit_child` emits on a consistent graph whose last event is an unread send: for
which receives, and what the child looks like. The kept events are not closed under reads-from; that no
kept receive loses its source follows from the conditions of the deleted sends. -/

namespace MustDpor
set_option autoImplicit false
open List Relation ExecutionGraph WorkerGraph

variable {V : Type}

open MaskedPorfContext

/-- The complement of Deleted: inserted up to the receive, before the send, or the send. -/
def KeptBy (g : ExplorationGraph V) (s r ep : ℕ) : Prop :=
  ep ≤ r ∨ Relation.TransGen g.graph.Porf ep s ∨ ep = s

/-- The receive and every deleted event meet their revisit conditions. -/
structure Revisits [LinearOrder V] (g : ExplorationGraph V) (communicationModel : CommunicationModel) (s r : ℕ) :
    Prop where
  accepts : ∃ er receive es send, g.graph.events[r]? = some er ∧ er.label = .receive receive ∧
    g.graph.events[s]? = some es ∧ es.label = .send send ∧ receive.accepts send.value = true
  independent : ¬ Relation.TransGen g.graph.Porf r s
  receive : revisitCondition g r s communicationModel = .ok true
  deleted : ∀ ep, ep < g.eventCount → ¬ KeptBy g s r ep → revisitCondition g ep s communicationModel = .ok true

section Fresh
variable {g : ExplorationGraph V} {model : CommunicationModel} {s : ℕ} (h : FreshSend g model s)
include h

/-! ## The keep mask -/

variable [LinearOrder V]

theorem FreshSend.keepMaskFrom_cons {r ep : ℕ} (hr : r < g.eventCount) (hep : ep < g.eventCount) (rest : List ℕ) :
    ∃ kept, (kept = true ↔ KeptBy g s r ep) ∧ keepMaskFrom g r s model (ep :: rest) =
      if kept then (keepMaskFrom g r s model rest).map (Option.map (true :: ·))
      else (revisitCondition g ep s model).bind fun passes =>
        if passes then (keepMaskFrom g r s model rest).map (Option.map (false :: ·))
        else .ok none := by
  obtain ⟨found, hfound, hiff⟩ := h.reaches_ok hep
  have hkeep : (keepMaskFrom g r s model rest >>= fun tail => pure (Option.map (true :: ·) tail)) =
      (keepMaskFrom g r s model rest).map (Option.map (true :: ·)) := by
    cases keepMaskFrom g r s model rest <;> rfl
  rw [keepMaskFrom, insertedBeforeOrEqual_ok hep hr]
  by_cases heq : ep = r ∨ ep = s
  · refine ⟨true, iff_of_true rfl ?_, ?_⟩
    · rcases heq with rfl | rfl
      · exact .inl (le_refl _)
      · exact .inr (.inr rfl)
    · rw [← hkeep]
      simp only [bind, Except.bind, heq, if_true, pure, Except.pure]
  · by_cases hle : ep ≤ r
    · refine ⟨true, iff_of_true rfl (.inl hle), ?_⟩
      rw [← hkeep]
      simp only [bind, Except.bind, heq, hle, decide_true, if_true, if_false, pure, Except.pure]
    · refine ⟨found, ?_, ?_⟩
      · unfold KeptBy
        rw [hiff, or_iff_right hle, or_iff_left (fun hs : ep = s => heq (.inr hs))]
      · simp only [bind, Except.bind, heq, hle, decide_false, Bool.false_eq_true, if_false, hfound]
        cases found with
        | true =>
          rw [if_pos rfl, if_pos rfl, ← hkeep]
          rfl
        | false =>
          rw [if_neg Bool.false_ne_true, if_neg Bool.false_ne_true]
          cases revisitCondition g ep s model with
          | error e => rfl
          | ok passes =>
            cases passes with
            | false => rfl
            | true =>
              show (keepMaskFrom g r s model rest >>= _) = _
              cases keepMaskFrom g r s model rest <;> rfl

theorem FreshSend.keepMaskFrom_ok {r : ℕ} (hr : r < g.eventCount) {ids : List ℕ}
    (hids : ∀ ep ∈ ids, ep < g.eventCount) :
    (∃ mask, keepMaskFrom g r s model ids = .ok (some mask) ∧
      List.Forall₂ (fun ep b => b = true ↔ KeptBy g s r ep) ids mask ∧
      ∀ ep ∈ ids, ¬ KeptBy g s r ep → revisitCondition g ep s model = .ok true) ∨
    (keepMaskFrom g r s model ids = .ok none ∧
      ∃ ep ∈ ids, ¬ KeptBy g s r ep ∧ revisitCondition g ep s model = .ok false) := by
  induction ids with
  | nil => exact .inl ⟨[], rfl, .nil, nofun⟩
  | cons ep rest ih =>
    have hep := hids ep mem_cons_self
    have ih := ih fun ep hep => hids ep (mem_cons_of_mem _ hep)
    obtain ⟨kept, hiff, hunfold⟩ := h.keepMaskFrom_cons hr hep rest
    rw [hunfold]
    by_cases htrue : kept = true
    · rw [if_pos htrue]
      have hkeep := hiff.mp htrue
      rcases ih with ⟨mask, hmask, hall, hdeleted⟩ | ⟨hnone, ep', hep', hdeleted⟩
      · refine .inl ⟨true :: mask, by rw [hmask]; rfl, .cons (iff_of_true rfl hkeep) hall, ?_⟩
        intro ep' hep' hnot
        rcases mem_cons.mp hep' with rfl | hep'
        · exact absurd hkeep hnot
        · exact hdeleted ep' hep' hnot
      · exact .inr ⟨by rw [hnone]; rfl, ep', mem_cons_of_mem _ hep', hdeleted⟩
    · rw [if_neg htrue]
      have hdrop : ¬ KeptBy g s r ep := fun hkeep => htrue (hiff.mpr hkeep)
      have hfree : ¬ TransGen g.graph.Porf ep s := fun hpath => hdrop (.inr (.inl hpath))
      obtain ⟨passes, hpasses, -⟩ := h.revisitCondition_ok _
        (getElem?_eq_getElem hep) hfree
      rw [hpasses]
      cases passes with
      | false => exact .inr ⟨rfl, ep, mem_cons_self, hdrop, hpasses⟩
      | true =>
        rcases ih with ⟨mask, hmask, hall, hdeleted⟩ | ⟨hnone, ep', hep', hdeleted⟩
        · refine .inl ⟨false :: mask, ?_, .cons (iff_of_false Bool.false_ne_true hdrop) hall, ?_⟩
          · show (keepMaskFrom g r s model rest).map _ = _
            rw [hmask]
            rfl
          · intro ep' hep' hnot
            rcases mem_cons.mp hep' with rfl | hep'
            · exact hpasses
            · exact hdeleted ep' hep' hnot
        · refine .inr ⟨?_, ep', mem_cons_of_mem _ hep', hdeleted⟩
          show (keepMaskFrom g r s model rest).map _ = _
          rw [hnone]
          rfl

omit [LinearOrder V] in
theorem FreshSend.threadClosed {r : ℕ} {mask : List Bool}
    (hmask : ∀ ep, keeps mask ep = true ↔ ep < g.eventCount ∧ KeptBy g s r ep) :
    ThreadClosed g.graph.events mask := by
  intro a b ea eb hlt ha hb hthread hkept
  have hpo := (h.indexOrdered.programOrder_iff g.graph a b).mpr ⟨hlt, ea, eb, ha, hb, hthread⟩
  obtain ⟨-, hkeep⟩ := (hmask b).mp hkept
  refine (hmask a).mpr ⟨lt_of_getElem? ha, ?_⟩
  rcases hkeep with hle | hpath | rfl
  · exact .inl (le_of_lt (lt_of_lt_of_le hlt hle))
  · exact .inr (.inl (.head (.inl hpo) hpath))
  · exact .inr (.inl (.single (.inl hpo)))

end Fresh

/-! ## The child -/

/-- The restriction of `g` by a keep mask, with the receive `r` reading `s`. -/
structure ReboundTo (g : ExplorationGraph V) (s r : ℕ) (mask : List Bool) (child : ExplorationGraph V) : Prop
    extends g.Selects mask child where
  kept : ∀ ep, keeps mask ep = true ↔ ep < g.eventCount ∧ KeptBy g s r ep
  rewired : ∃ base newR newS, g.RestrictsTo mask base ∧ ExplorationGraph.remapId mask r = some newR ∧
    ExplorationGraph.remapId mask s = some newS ∧ child.graph = base.graph.rewire newR newS
  pending : child.pendingFreshReceiveId = none

theorem rebindRf_ok {g : ExplorationGraph V} (hc : g.Counted) (recv send : ℕ) (preserve : Bool)
    (hmax : recv < ReadsFromRelation.maxEntries) : ∃ w, (WorkerGraph.ofGraph g).rebindRf recv send preserve = .ok w := by
  obtain ⟨assigned, hassigned⟩ := g.assignReadsFrom_ok hc recv (.send send) hmax
  obtain ⟨rf, hrf, hassigned⟩ := Except.bind_ok_iff.mp hassigned
  obtain ⟨updated, hupdated, -⟩ := Except.bind_ok_iff.mp hassigned
  change (g.withReadsFrom rf).updateSendReaderState _ _ = _ at hupdated
  rw [WorkerGraph.rebindRf_eq]
  show ∃ w, (g.readsFrom.assign recv (.send send) >>= _) = Except.ok w
  rw [hrf]
  show ∃ w, ((g.withReadsFrom rf).updateSendReaderState (g.readsFrom.find recv) _ >>= _) = Except.ok w
  rw [hupdated]
  exact ⟨_, rfl⟩

theorem FreshSend.reboundTo {g : ExplorationGraph V} {model : CommunicationModel} {s : ℕ}
    (h : FreshSend g model s) {r : ℕ} (hr : r < g.eventCount) {mask : List Bool} (hsize : mask.length = g.eventCount)
    (hmask : ∀ ep, keeps mask ep = true ↔ ep < g.eventCount ∧ KeptBy g s r ep) :
    ∃ restricted newR newS rebound, g.restrictMasked mask = .ok restricted ∧
      ExplorationGraph.remapId mask r = some newR ∧ ExplorationGraph.remapId mask s = some newS ∧
      (WorkerGraph.ofGraph restricted).rebindRfPreservingKnownAcyclicity newR newS = .ok rebound ∧
      ReboundTo g s r mask rebound.graph := by
  obtain ⟨restricted, hrestricted, hto⟩ := h.tabulated.restrictMasked_ok h.consistent.async.endpoints hsize
    (h.threadClosed hmask)
  obtain ⟨newR, hnewR⟩ : ∃ newR, ExplorationGraph.remapId mask r = some newR :=
    exists_place mask r ((hmask r).mpr ⟨hr, .inl (le_refl r)⟩)
  have hs : s < g.eventCount := by rw [← h.last]; exact Nat.lt_succ_self s
  obtain ⟨newS, hnewS⟩ : ∃ newS, ExplorationGraph.remapId mask s = some newS :=
    exists_place mask s ((hmask s).mpr ⟨hs, .inr (.inr rfl)⟩)
  have hbound := (hto.lt_eventCount hnewR).trans hto.tabulated.numbered.length_lt
  obtain ⟨rebound, hrebound⟩ := rebindRf_ok hto.counted newR newS
    (restricted.knownAcyclic && restricted.isReceiveId newR && restricted.isSendId newS) hbound
  refine ⟨restricted, newR, newS, rebound, hrestricted, hnewR, hnewS, hrebound, ?_⟩
  have htabulated := (WorkerGraph.Tabulated.ofGraph hto.tabulated).rebindRf _ rebound newR newS _ hrebound
  have hcounted := counted_rebindRf hto.counted
    (hto.tabulated.sound) hrebound
  have hevents := rebindRf_events hrebound
  obtain ⟨-, -, a, b, ha, hb, rfl⟩ := rebindRf_inv hrebound
  have hgraph : b.graph = restricted.graph := (adjust_same hb).1.trans (adjust_same ha).1
  exact
    { size := hsize
      kept := hmask
      tabulated := htabulated.graph
      counted := hcounted
      events := hevents.trans hto.events
      rewired := ⟨restricted, newR, newS, hto, hnewR, hnewS, by
        show ({ b.graph with readsFrom := restricted.graph.readsFrom.set newR (.send newS) } : ExecutionGraph V) = _
        rw [hgraph]
        rfl⟩
      pending := rfl }

theorem ReboundTo.reads {g child : ExplorationGraph V} {s r : ℕ} {mask : List Bool} (hto : ReboundTo g s r mask child)
    (id newId : ℕ) (hid : ExplorationGraph.remapId mask id = some newId) :
    child.graph.readsFrom.find newId =
      if id = r then (ExplorationGraph.remapId mask s).map .send
      else (g.graph.readsFrom.find id).bind (ExplorationGraph.remapSource mask) := by
  obtain ⟨base, newR, newS, hbase, hnewR, hnewS, hgraph⟩ := hto.rewired
  rw [hgraph]
  show (base.graph.readsFrom.set newR (.send newS)).find newId = _
  rw [AscendingMap.find_set]
  by_cases heq : id = r
  · subst heq
    rw [if_pos rfl, if_pos (Option.some.inj (hid.symm.trans hnewR)), hnewS]
    rfl
  · rw [if_neg heq, if_neg, hbase.reads id newId hid]
    rintro rfl
    exact heq (place_injective hid hnewR)

section Child
variable [LinearOrder V] {g child : ExplorationGraph V} {model : CommunicationModel} {s r : ℕ}
  {mask : List Bool} (hto : ReboundTo g s r mask child) (h : FreshSend g model s) (hrevisits : Revisits g model s r)
include hto h hrevisits

/-- A kept receive keeps its source: a deleted send with a reader inserted up to `r` would fail its own
condition. -/
theorem ReboundTo.source_kept {id src : ℕ} (hid : keeps mask id = true)
    (hread : g.graph.ReadsFrom src id) : keeps mask src = true := by
  obtain ⟨hlt, hlt'⟩ := h.consistent.async.endpoints.porf_lt src id (.inr hread)
  refine (hto.kept src).mpr ⟨hlt, ?_⟩
  rcases ((hto.kept id).mp hid).2 with hle | hpath | rfl
  · by_contra hdeleted
    have hafter : r < src := not_le.mp fun hle => hdeleted (.inl hle)
    obtain ⟨es, send, hes, hsend⟩ := (h.consistent.async.endpoints id _ hread).2 src rfl
    obtain ⟨passes, hpasses, hiff⟩ := h.revisitCondition_ok es hes
      fun hpath => hdeleted (.inr (.inl hpath))
    rw [hrevisits.deleted src hlt hdeleted, Except.ok.injEq] at hpasses
    have hmeets := hiff.mp hpasses.symm
    rw [hsend] at hmeets
    exact hmeets id (.inl (le_trans hle (le_of_lt hafter))) hread
  · exact .inr (.inl (.head (.inr hread) hpath))
  · -- the send itself reads nothing
    obtain ⟨er, receive, her, hreceive⟩ := (h.consistent.async.endpoints id _ hread).1
    obtain ⟨es, send, hes, hsend⟩ := h.send
    rw [her] at hes
    cases hes
    rw [hreceive] at hsend
    cases hsend

theorem ReboundTo.reads_kept {id newId : ℕ} (hid : ExplorationGraph.remapId mask id = some newId) (hne : id ≠ r)
    {source : ReadsFromSource} (hsource : g.graph.readsFrom.find id = some source) :
    ∃ newSource, ExplorationGraph.remapSource mask source = some newSource ∧
      child.graph.readsFrom.find newId = some newSource := by
  have hfind := hto.reads id newId hid
  rw [if_neg hne, hsource] at hfind
  cases source with
  | bottom => exact ⟨.bottom, rfl, hfind⟩
  | send src =>
    obtain ⟨newSrc, hnewSrc⟩ := exists_place mask src
      (hto.source_kept h hrevisits (marked_of_place mask id newId hid) hsource)
    have hsend : ExplorationGraph.remapSource mask (.send src) = some (.send newSrc) := by
      rw [ExplorationGraph.remapSource]
      exact congrArg (Option.map ReadsFromSource.send) hnewSrc
    exact ⟨.send newSrc, hsend, hfind.trans hsend⟩

theorem ReboundTo.receive_last (newR : ℕ) (hr : ExplorationGraph.remapId mask r = some newR) (b : ℕ) :
    ¬ child.graph.ProgramOrder newR b := by
  intro hpo
  obtain ⟨id, -, hid⟩ := hto.exists_old (hpo.lt_length child.graph).2
  have hpo' := (hto.programOrder_iff hr hid).mp hpo
  have hlt := ((h.indexOrdered.programOrder_iff g.graph r id).mp hpo').1
  rcases ((hto.kept id).mp (marked_of_place mask id b hid)).2 with hle | hpath | rfl
  · exact absurd hlt (not_lt.mpr hle)
  · exact hrevisits.independent (.head (.inl hpo') hpath)
  · exact hrevisits.independent (.single (.inl hpo'))

theorem ReboundTo.asyncConsistent
    (hdest : ∀ er es send, g.graph.events[r]? = some er → g.graph.events[s]? = some es →
      es.label = .send send → send.destination = er.thread) : child.graph.AsyncConsistent := by
  obtain ⟨base, newR, newS, hbase, hnewR, hnewS, hgraph⟩ := hto.rewired
  obtain ⟨er, receive, es, send, her, hreceive, hes, hsend, haccepts⟩ := hrevisits.accepts
  have hinduces := hbase.induces
  have hasync : base.graph.AsyncConsistentExcept noMissingReadsTolerance :=
    hinduces.async h.indexOrdered h.consistent.async fun id newId src hid hread _ =>
      exists_place mask src (hto.source_kept h hrevisits (marked_of_place mask id newId hid) hread)
  have hdeliver : Deliverable base newS newR :=
    ⟨er, receive, (hbase.event r newR hnewR).trans her, hreceive, (compatibleSend_iff base _ receive newS).mpr
      ⟨es, send, (hbase.event s newS hnewS).trans hes, hsend, hdest er es send her hes hsend, haccepts⟩⟩
  rw [hgraph]
  refine (asyncConsistent_iff _).mpr ((rewire_async_iff hasync hdeliver).mpr ⟨fun newId hread => ?_, fun hpath => ?_⟩)
  · obtain ⟨src, id, hsrc, -, hold⟩ := hinduces.exists_read hread
    obtain rfl := place_injective hsrc hnewS
    exact absurd hold (h.unread id)
  · exact hrevisits.independent (hinduces.reaches_of h.indexOrdered r s newR newS hnewR hnewS hpath)

end Child

/-! ## The iteration -/

/-- A child that a backward revisit of `r` by `s` may emit, in terms of the ids of `g`: `renamed` gives the
new id of each kept event. -/
structure RevisitChild (g : ExplorationGraph V) (s r : ℕ) (child : ExplorationGraph V) (renamed : ℕ → Option ℕ) :
    Prop where
  kept : ∀ id, (∃ newId, renamed id = some newId) ↔ id < g.eventCount ∧ KeptBy g s r id
  onto : ∀ newId, newId < child.eventCount ↔ ∃ id, renamed id = some newId
  order : ∀ a b newA newB, renamed a = some newA → renamed b = some newB → (newA < newB ↔ a < b)
  closed : ∀ a b, g.graph.ProgramOrder a b → (renamed b).isSome → (renamed a).isSome
  events : ∀ id newId, renamed id = some newId → child.graph.events[newId]? = g.graph.events[id]?
  revisited : ∃ newR newS, renamed r = some newR ∧ renamed s = some newS ∧ child.graph.ReadsFrom newS newR
  bottoms : ∀ id newId, renamed id = some newId → id ≠ r → g.graph.readsFrom.find id = some .bottom →
    child.graph.readsFrom.find newId = some .bottom
  sources : ∀ id newId src, renamed id = some newId → id ≠ r → g.graph.ReadsFrom src id →
    ∃ newSrc, renamed src = some newSrc ∧ child.graph.ReadsFrom newSrc newId
  last : ∀ newR, renamed r = some newR → ∀ b, ¬ child.graph.ProgramOrder newR b
  acyclic : child.graph.Acyclic
  passes : ∃ result marks, checkConsistency child .async = .ok (result, marks) ∧ result.issues = []

theorem ReboundTo.revisitChild [LinearOrder V] (g child : ExplorationGraph V) (model : CommunicationModel)
    (s r : ℕ) (mask : List Bool) (hto : ReboundTo g s r mask child) (h : FreshSend g model s)
    (hr : r < g.eventCount) (hrevisits : Revisits g model s r)
    (hdest : ∀ er es send, g.graph.events[r]? = some er → g.graph.events[s]? = some es →
      es.label = .send send → send.destination = er.thread) :
    RevisitChild g s r child (ExplorationGraph.remapId mask) := by
  have hrenamed (id : ℕ) : (∃ newId, ExplorationGraph.remapId mask id = some newId) ↔ keeps mask id = true := by
    constructor
    · rintro ⟨newId, hid⟩
      exact marked_of_place mask id newId hid
    · exact exists_place mask id
  have hs : s < g.eventCount := by rw [← h.last]; exact Nat.lt_succ_self s
  have hconsistent := hto.asyncConsistent h hrevisits hdest
  exact
    { kept := fun id => (hrenamed id).trans (hto.kept id)
      onto := by
        intro newId
        constructor
        · exact fun hlt => (hto.exists_old hlt).imp fun _ hid => hid.2
        · rintro ⟨id, hid⟩
          exact hto.lt_eventCount hid
      order := fun a b newA newB ha hb => place_lt_iff mask a b newA newB ha hb
      closed := by
        intro a b hpo hb
        rw [Option.isSome_iff_exists, hrenamed] at hb ⊢
        obtain ⟨hlt, ea, eb, ha, hb', hthread⟩ := (h.indexOrdered.programOrder_iff g.graph a b).mp hpo
        exact h.threadClosed hto.kept a b ea eb hlt ha hb' hthread hb
      events := hto.event
      revisited := by
        obtain ⟨newR, hnewR⟩ := (hrenamed r).mpr ((hto.kept r).mpr ⟨hr, .inl (le_refl r)⟩)
        obtain ⟨newS, hnewS⟩ := (hrenamed s).mpr ((hto.kept s).mpr ⟨hs, .inr (.inr rfl)⟩)
        refine ⟨newR, newS, hnewR, hnewS, ?_⟩
        rw [ExecutionGraph.ReadsFrom, hto.reads r newR hnewR, if_pos rfl, hnewS]
        rfl
      bottoms := by
        intro id newId hid hne hbottom
        rw [hto.reads id newId hid, if_neg hne, hbottom]
        rfl
      sources := by
        intro id newId src hid hne hread
        obtain ⟨newSource, hnewSource, hfind⟩ := hto.reads_kept h hrevisits hid hne hread
        obtain ⟨newSrc, hnewSrc, rfl⟩ := Option.map_eq_some_iff.mp hnewSource
        exact ⟨newSrc, hnewSrc, hfind⟩
      last := hto.receive_last h hrevisits
      acyclic := hconsistent.acyclic
      passes := by
        have htruthful : child.Truthful :=
          ⟨fun _ => ⟨hconsistent.endpoints, hconsistent.acyclic⟩, fun id hid => by
            rw [hto.pending] at hid
            cases hid⟩
        obtain ⟨result, marks, hcheck, hiff, -⟩ := htruthful.checkConsistency_ok hto.tabulated .async
        exact ⟨result, marks, hcheck, (isConsistent_iff result).mp
          (hiff.mpr ⟨hconsistent, fun hmodel => by cases hmodel⟩)⟩ }

theorem FreshSend.revisitReceive_ok [LinearOrder V] {g : ExplorationGraph V} {model : CommunicationModel}
    {s : ℕ} (h : FreshSend g model s) {r : ℕ} {er es : Event V} {receive : ReceiveLabel V}
    {send : SendLabel V} (her : g.graph.events[r]? = some er) (hreceive : er.label = .receive receive)
    (hes : g.graph.events[s]? = some es) (hsend : es.label = .send send) :
    (∃ child mask, revisitReceive g model s r = .ok (some child) ∧
      Revisits g model s r ∧ ReboundTo g s r mask child) ∨
    (revisitReceive g model s r = .ok none ∧ ¬ Revisits g model s r) := by
  have hr : r < g.eventCount := lt_of_getElem? her
  have hevent : g.event r = .ok er := by
    unfold ExplorationGraph.event ExecutionGraph.event
    rw [her]
  have hsent : g.event s = .ok es := by
    unfold ExplorationGraph.event ExecutionGraph.event
    rw [hes]
  unfold revisitReceive
  simp only [hsent, hevent, hsend, hreceive, bind, Except.bind, pure, Except.pure]
  by_cases haccepts : receive.accepts send.value = true
  · simp only [haccepts, Bool.not_true, Bool.false_eq_true, if_false]
    obtain ⟨reaches, hreaches, hpath⟩ := h.reaches_ok hr
    simp only [hreaches]
    by_cases hfound : reaches = true
    · exact .inr ⟨if_pos hfound, fun hrevisits => hrevisits.independent (hpath.mp hfound)⟩
    · have hfree : ¬ TransGen g.graph.Porf r s := fun hp => hfound (hpath.mpr hp)
      simp only [hfound]
      obtain ⟨passes, hpasses, -⟩ := h.revisitCondition_ok er her hfree
      simp only [hpasses]
      cases passes with
      | false =>
        refine .inr ⟨rfl, fun hrevisits => ?_⟩
        have := hpasses.symm.trans hrevisits.receive
        cases this
      | true =>
        have hrevisits (hdeleted : ∀ ep ∈ range g.eventCount, ¬ KeptBy g s r ep →
            revisitCondition g ep s model = .ok true) : Revisits g model s r :=
          ⟨⟨er, receive, es, send, her, hreceive, hes, hsend, haccepts⟩, hfree, hpasses,
            fun ep hep => hdeleted ep (mem_range.mpr hep)⟩
        simp only [Bool.not_true, Bool.false_eq_true, if_false]
        rcases h.keepMaskFrom_ok hr fun ep hep => mem_range.mp hep with
          ⟨mask, hmask, hall, hdeleted⟩ | ⟨hnone, ep, hep, hdrop, hfails⟩
        · obtain ⟨hsize, hkept⟩ := keeps_of_forall₂ hall
          obtain ⟨restricted, newR, newS, rebound, hrestricted, hnewR, hnewS, hrebound, hto⟩ :=
            h.reboundTo hr hsize hkept
          refine .inl ⟨rebound.graph, mask, ?_, hrevisits hdeleted, hto⟩
          simp only [hmask, hrestricted, hnewR, hnewS, hrebound]
        · refine .inr ⟨by simp only [hnone], fun hrevisits => ?_⟩
          have := hfails.symm.trans (hrevisits.deleted ep (mem_range.mp hep) hdrop)
          cases this
  · refine .inr ⟨by simp only [haccepts, Bool.not_false, if_true], fun hrevisits => ?_⟩
    obtain ⟨er', receive', es', send', her', hreceive', hes', hsend', haccepts'⟩ := hrevisits.accepts
    rw [her] at her'
    cases her'
    rw [hes] at hes'
    cases hes'
    rw [hreceive] at hreceive'
    cases hreceive'
    rw [hsend] at hsend'
    cases hsend'
    exact haccepts haccepts'

/-- `for_each_backward_revisit_child` without a stop: each child with the index at which the scan of the
receives goes on. -/
def forEachBackwardRevisitChild (queries : Queries V) (graph : ExplorationGraph V) (sendId : ℕ)
    (receives : List ℕ) : ℕ → ℕ → Except DporError (List (ℕ × ExplorationGraph V))
  | 0, _ => .ok []
  | fuel + 1, receiveIndex => do
    match ← nextBackwardRevisitChild queries graph sendId (receives.drop receiveIndex) receiveIndex with
    | (_, none) => return []
    | (next, some child) =>
      let emitted ← forEachBackwardRevisitChild queries graph sendId receives fuel next
      return (next, child) :: emitted

section Iteration
variable (queries : Queries V) (g : ExplorationGraph V) (s : ℕ) (outcome : ℕ → Option (ExplorationGraph V))

theorem nextBackwardRevisitChild_ok {rest : List ℕ} (index : ℕ)
    (houtcome : ∀ r ∈ rest, queries.revisitReceive g s r = .ok (outcome r)) :
    (nextBackwardRevisitChild queries g s rest index = .ok (index + rest.length, none) ∧
      ∀ r ∈ rest, outcome r = none) ∨
    ∃ before r after child, rest = before ++ r :: after ∧ (∀ r' ∈ before, outcome r' = none) ∧
      outcome r = some child ∧
      nextBackwardRevisitChild queries g s rest index = .ok (index + before.length + 1, some child) := by
  induction rest generalizing index with
  | nil => exact .inl ⟨rfl, nofun⟩
  | cons r rest ih =>
    have hr := houtcome r mem_cons_self
    unfold nextBackwardRevisitChild
    rw [hr]
    cases hchild : outcome r with
    | some child => exact .inr ⟨[], r, rest, child, rfl, nofun, hchild, rfl⟩
    | none =>
      rcases ih (index + 1) fun r' hr' => houtcome r' (mem_cons_of_mem _ hr') with
        ⟨hnext, hnone⟩ | ⟨before, r', after, child, rfl, hbefore, hr', hnext⟩
      · refine .inl ⟨?_, fun r' hr' => ?_⟩
        · show nextBackwardRevisitChild queries g s rest (index + 1) = _
          rw [hnext, length_cons]
          congr 2
          omega
        · rcases mem_cons.mp hr' with rfl | hr'
          · exact hchild
          · exact hnone r' hr'
      · refine .inr ⟨r :: before, r', after, child, rfl, fun r'' hr'' => ?_, hr', ?_⟩
        · rcases mem_cons.mp hr'' with rfl | hr''
          · exact hchild
          · exact hbefore r'' hr''
        · show nextBackwardRevisitChild queries g s _ (index + 1) = _
          rw [hnext, length_cons]
          congr 2
          omega

theorem forEachBackwardRevisitChild_ok (receives : List ℕ) (fuel index : ℕ) (hfuel : receives.length < fuel + index)
    (houtcome : ∀ r ∈ receives, queries.revisitReceive g s r = .ok (outcome r)) :
    ∃ emitted, forEachBackwardRevisitChild queries g s receives fuel index = .ok emitted ∧
      List.Forall₂ (fun r step => receives[step.1 - 1]? = some r ∧ outcome r = some step.2)
        ((receives.drop index).filter fun r => (outcome r).isSome) emitted := by
  induction fuel generalizing index with
  | zero =>
    refine ⟨[], rfl, ?_⟩
    rw [drop_eq_nil_of_le (by omega)]
    exact .nil
  | succ fuel ih =>
    unfold forEachBackwardRevisitChild
    rcases nextBackwardRevisitChild_ok queries g s outcome index
        (fun r hr => houtcome r (mem_of_mem_drop hr)) with
      ⟨hnext, hnone⟩ | ⟨before, r, after, child, hsplit, hbefore, hchild, hnext⟩
    · refine ⟨[], by rw [hnext]; rfl, ?_⟩
      rw [filter_eq_nil_iff.mpr fun r hr => by rw [hnone r hr]; exact Bool.false_ne_true]
      exact .nil
    · obtain ⟨emitted, hemitted, hall⟩ := ih (index + before.length + 1) (by omega)
      have hdrop : receives.drop (index + before.length + 1) = after := by
        rw [Nat.add_assoc, ← drop_drop, hsplit, ← drop_drop, drop_left, drop_succ_cons,
          drop_zero]
      have hplace : receives[index + before.length]? = some r := by
        rw [← getElem?_drop, hsplit, getElem?_append_right (le_refl _), Nat.sub_self]
        rfl
      refine ⟨(index + before.length + 1, child) :: emitted, ?_, ?_⟩
      · rw [hnext]
        show (forEachBackwardRevisitChild queries g s receives fuel (index + before.length + 1) >>= _) = _
        rw [hemitted]
        rfl
      · rw [hsplit, filter_append,
          filter_eq_nil_iff.mpr fun r' hr' => by rw [hbefore r' hr']; exact Bool.false_ne_true,
          nil_append, filter_cons_of_pos (by rw [hchild]; rfl)]
        rw [hdrop] at hall
        exact .cons ⟨hplace, hchild⟩ hall

end Iteration

theorem FreshSend.destination_ok [LinearOrder V] (g : ExplorationGraph V) (model : CommunicationModel)
    (s : ℕ) (h : FreshSend g model s) (es : Event V) (send : SendLabel V)
    (hes : g.graph.events[s]? = some es) (hsend : es.label = .send send) (r : ℕ)
    (hr : r ∈ positions g.graph.events (receiveIn send.destination)) :
    (∃ child renamed, revisitReceive g model s r = .ok (some child) ∧
      Revisits g model s r ∧ RevisitChild g s r child renamed) ∨
    (revisitReceive g model s r = .ok none ∧ ¬ Revisits g model s r) := by
  obtain ⟨er, her, hin⟩ := (mem_positions _ _ _).mp hr
  obtain ⟨hthread, hreceive⟩ := (Bool.and_eq_true _ _).mp hin
  obtain ⟨receive, hreceive⟩ := (EventLabel.isReceive_iff _).mp hreceive
  rcases h.revisitReceive_ok her hreceive hes hsend with
    ⟨child, mask, hchild, hrevisits, hto⟩ | hnone
  · refine .inl ⟨child, _, hchild, hrevisits, hto.revisitChild g child model s r mask h
      (lt_of_getElem? her) hrevisits fun er' es' send' her' hes' hsend' => ?_⟩
    rw [her] at her'
    cases her'
    rw [hes] at hes'
    cases hes'
    rw [hsend] at hsend'
    cases hsend'
    exact (of_decide_eq_true hthread).symm
  · exact .inr hnone

/-- On a graph that the checker of the model accepts, with an unread send last, the iteration over the
receives of the destination emits one child for each receive that meets the conditions, and each child is
the graph of the kept events in which that receive reads the send. -/
theorem backward_revisits_well_formed [LinearOrder V] (config : DporConfig V) (threadIds : List ℕ)
    (g : ExplorationGraph V) (hg : g.Tabulated) (haccepted : g.graph.Accepted config.communicationModel) (s : ℕ)
    (hlast : s + 1 = g.eventCount) (hsend : g.isSendId s = true) (hunread : ∀ r, ¬ g.graph.ReadsFrom s r) :
    ∃ receives emitted revisited, g.receivesInDestination s = .ok receives ∧
      forEachBackwardRevisitChild (Queries.ofConfig config threadIds) g s receives (receives.length + 1) 0 =
        .ok emitted ∧
      List.Forall₂ (fun r step => receives[step.1 - 1]? = some r ∧ ∃ renamed, RevisitChild g s r step.2 renamed)
        revisited emitted ∧
      revisited.Nodup ∧ ∀ r, r ∈ revisited ↔ r ∈ receives ∧ Revisits g config.communicationModel s r := by
  obtain ⟨es, send, hes, hlabel⟩ := (g.graph.isSendAt_iff s).mp (by rw [← g.isSendId_eq]; exact hsend)
  have h : FreshSend g config.communicationModel s :=
    ⟨hg, (g.graph.accepted_iff (hg.indexOrdered g) config.communicationModel).mp haccepted, hlast,
      ⟨es, send, hes, hlabel⟩, hunread⟩
  have hreceives : g.receivesInDestination s = .ok (positions g.graph.events (receiveIn send.destination)) := by
    have hevent : g.event s = .ok es := by
      unfold ExplorationGraph.event ExecutionGraph.event
      rw [hes]
    simp only [ExplorationGraph.receivesInDestination, hevent, hlabel, bind, Except.bind, pure, Except.pure,
      hg.receives_eq g send.destination]
    rfl
  have hcases := h.destination_ok g config.communicationModel s es send hes hlabel
  have houtcome : ∀ r ∈ positions g.graph.events (receiveIn send.destination),
      (Queries.ofConfig config threadIds).revisitReceive g s r =
        .ok ((revisitReceive g config.communicationModel s r).toOption.bind id) := by
    intro r hr
    show revisitReceive g config.communicationModel s r = _
    rcases hcases r hr with ⟨child, renamed, hchild, -⟩ | ⟨hnone, -⟩
    · rw [hchild]
      rfl
    · rw [hnone]
      rfl
  obtain ⟨emitted, hemitted, hall⟩ := forEachBackwardRevisitChild_ok (Queries.ofConfig config threadIds) g s
    (fun r => (revisitReceive g config.communicationModel s r).toOption.bind id) _
    ((positions g.graph.events (receiveIn send.destination)).length + 1) 0 (Nat.lt_succ_self _) houtcome
  rw [List.drop_zero] at hall
  refine ⟨_, emitted, _, hreceives, hemitted, hall.imp ?_, (positions_nodup _ _).filter _, fun r => ?_⟩
  · rintro r ⟨next, child⟩ ⟨hplace, hchild⟩
    refine ⟨hplace, ?_⟩
    rcases hcases r (List.mem_of_getElem? hplace) with ⟨child', renamed, hchild', -, hto⟩ | ⟨hnone, -⟩
    · rw [hchild'] at hchild
      cases hchild
      exact ⟨renamed, hto⟩
    · rw [hnone] at hchild
      cases hchild
  · rw [List.mem_filter]
    refine and_congr_right fun hr => ?_
    rcases hcases r hr with ⟨child, renamed, hchild, hrevisits, -⟩ | ⟨hnone, hnot⟩
    · rw [hchild]
      exact iff_of_true rfl hrevisits
    · rw [hnone]
      exact iff_of_false Bool.false_ne_true hnot

/-- A receive that took the first of two messages, revisited by the second. -/
theorem second_send_revisits_well_formed :
    ∃ (config : DporConfig ℕ) (g : ExplorationGraph ℕ), g.Tabulated ∧
      g.graph.Accepted config.communicationModel ∧ g.graph.ReadsFrom 0 1 ∧
      (forEachBackwardRevisitChild (Queries.ofConfig config []) g 2 [1] 2 0).toOption.map List.length = some 1 ∧
      ∃ receives emitted revisited, g.receivesInDestination 2 = .ok receives ∧
        forEachBackwardRevisitChild (Queries.ofConfig config []) g 2 receives (receives.length + 1) 0 =
          .ok emitted ∧
        List.Forall₂ (fun r step => receives[step.1 - 1]? = some r ∧ ∃ renamed, RevisitChild g 2 r step.2 renamed)
          revisited emitted ∧
        revisited.Nodup ∧ ∀ r, r ∈ revisited ↔ r ∈ receives ∧ Revisits g config.communicationModel 2 r := by
  have hfirst := ExplorationGraph.empty_tabulated.addEvent ExplorationGraph.empty _ 0 0 (.send ⟨1, 7⟩) rfl
  have hreceive := hfirst.addEvent _ _ 1 1 (.receive ⟨.blocking, fun _ => true⟩) rfl
  have hread := hreceive.assignReadsFrom _ _ 1 (.send 0) rfl
  have hsecond := hread.addEvent _ _ 2 2 (.send ⟨1, 8⟩) rfl
  refine ⟨⟨⟨⟨[]⟩⟩, 10, 0, .fifoP2P⟩, _, hsecond, ⟨_, rfl, rfl⟩, rfl, by decide +kernel, ?_⟩
  refine backward_revisits_well_formed _ [] _ hsecond ⟨_, rfl, rfl⟩ 2 rfl rfl fun r hr => ?_
  change (if 1 = r then some (ReadsFromSource.send 0) else none) = some (.send 2) at hr
  split at hr <;> cases hr

end MustDpor

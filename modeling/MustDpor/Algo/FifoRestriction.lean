import MustDpor.Algo.RevisitCondition
import MustDpor.Algo.TiebreakerAgreement

/-! # Restriction under FIFO delivery

Whether a receive may take a message depends on the receives before it in its thread. A keep mask that is
closed under program order keeps all of these, so the restricted graph is FIFO consistent again; what it
lacks are the sources of receives that were kept without them. -/

namespace MustDpor
set_option autoImplicit false

open MaskedPorfContext (keeps)
open ExplorationGraph (remapId)

variable {V : Type}

/-- A mask over the events of the graph that is closed under program-order predecessors. -/
structure ProgramOrderClosed (g : ExplorationGraph V) (keepMask : List Bool) : Prop where
  size : keepMask.length = g.eventCount
  closed : ∀ a b, g.graph.ProgramOrder a b → keeps keepMask b = true → keeps keepMask a = true

/-- The new id of a kept receive whose source is dropped. -/
def LostSource (g : ExplorationGraph V) (keepMask : List Bool) (newR : ℕ) : Prop :=
  ∃ r s, remapId keepMask r = some newR ∧ g.graph.ReadsFrom s r ∧ keeps keepMask s = false

section Induced
variable {g g' : ExplorationGraph V} {mask : List Bool} (h : g.Induces mask g')
  (hordered : g.graph.IndexOrdered)
include h hordered

theorem ExplorationGraph.Induces.consistentExcept (hclosed : ProgramOrderClosed g mask)
    (hc : g.graph.ConsistentUnder .fifoP2P) (tolerance : ℕ → Bool)
    (htolerance : ∀ newR, LostSource g mask newR → tolerance newR = true) :
    g'.graph.ConsistentExcept .fifoP2P tolerance where
  async := by
    refine h.async hordered hc.async fun r newR s hr hread hstrict => ?_
    cases hkept : keeps mask s with
    | true => exact exists_place mask s hkept
    | false => exact absurd (htolerance newR ⟨r, s, hr, hread, hkept⟩) (hstrict ▸ Bool.false_ne_true)
  fifo := fun hmodel => h.fifo hordered (fun _ r' r _ => hclosed.closed r' r) (hc.fifo hmodel)

omit hordered in
theorem ExplorationGraph.Induces.lostSource (hc : g.graph.AsyncConsistent) {newR : ℕ}
    (hreceive : g'.graph.isReceiveAt newR = true) (hfind : g'.graph.readsFrom.find newR = none) :
    LostSource g mask newR := by
  obtain ⟨er', receive, her', hlabel'⟩ := (g'.graph.isReceiveAt_iff newR).mp hreceive
  obtain ⟨r, -, hr⟩ := h.exists_old newR (lt_of_getElem? her')
  obtain ⟨er, her, -, hlabel⟩ := h.old_event hr her'
  obtain ⟨source, hsource⟩ :=
    Option.ne_none_iff_exists'.mp (hc.assigned r er receive her (hlabel.symm.trans hlabel')).1
  rw [h.reads r newR hr, hsource] at hfind
  cases source with
  | bottom => cases hfind
  | send s =>
    refine ⟨r, s, hr, hsource, ?_⟩
    by_contra hkept
    obtain ⟨newS, hs⟩ := exists_place mask s (Bool.eq_true_of_not_eq_false hkept)
    have hmapped : (remapId mask s).map ReadsFromSource.send = none := hfind
    rw [show remapId mask s = some newS from hs] at hmapped
    cases hmapped

theorem ExplorationGraph.Induces.tiebreakerCall (hclosed : ProgramOrderClosed g mask)
    (hc : g.graph.ConsistentUnder .fifoP2P) {recv src newRecv newSrc : ℕ} (hkept : KeptReceive g mask recv src)
    (hrecv : remapId mask recv = some newRecv) (hsrc : remapId mask src = some newSrc) :
    TiebreakerCall g' newRecv newSrc .fifoP2P true := by
  have hrebindable := induced_rebindable h hordered hc.async hkept hrecv hsrc
  refine ⟨hrebindable.receive, hrebindable.reads, ?_⟩
  obtain ⟨result, hcheck, hiff⟩ := g'.graph.checkExecutionGraph_ok (h.tabulated.indexOrdered g') .fifoP2P
    (rewriteTolerance newRecv true)
  exact ⟨result, hcheck, hiff.mpr ⟨hrebindable.async, fun hmodel =>
    h.fifo hordered (fun _ r' r _ => hclosed.closed r' r) (hc.fifo hmodel)⟩⟩

end Induced

/-! ## What survives -/

/-- The restriction is FIFO consistent but for lost sources, and a receive that keeps its source may keep
reading it. -/
structure SurvivesRestriction (g : ExplorationGraph V) (keepMask : List Bool) (g' : ExplorationGraph V) :
    Prop where
  issues : ∃ result marks, checkConsistency g' .fifoP2P = .ok (result, marks) ∧
    ∀ i ∈ result.issues, ∃ newR, LostSource g keepMask newR ∧ i = ValidationPass.missingIssue newR
  tolerated : ∀ missingReadsTolerance : ℕ → Bool,
    (∀ newR, LostSource g keepMask newR → missingReadsTolerance newR = true) →
      ∃ result marks, checkExplorationGraph g' .fifoP2P missingReadsTolerance = .ok (result, marks) ∧
        result.isConsistent = true
  candidate : ∀ recv src, KeptReceive g keepMask recv src → ∃ newRecv newSrc,
    remapId keepMask recv = some newRecv ∧ remapId keepMask src = some newSrc ∧
      CandidateSource g' newRecv newSrc ∧
      FreshlyConsistent g' .fifoP2P (rewriteTolerance newRecv true) newRecv newSrc
  tiebreaker : ∀ recv src, KeptReceive g keepMask recv src → ∀ context : MaskedPorfBuffers,
    ∃ c, (context.getConsTiebreakerMasked g keepMask recv .fifoP2P).1 = .ok c ∧ candidateLe g c src

theorem ExplorationGraph.Induces.survives {g g' : ExplorationGraph V} {mask : List Bool}
    (h : g.Induces mask g') (hordered : g.graph.IndexOrdered) (hclosed : ProgramOrderClosed g mask)
    (hc : g.graph.ConsistentUnder .fifoP2P) : SurvivesRestriction g mask g' := by
  have hexcept := h.consistentExcept hordered hclosed hc
  have hsane : g'.Sane :=
    ⟨(hexcept (fun _ => true) fun _ _ => rfl).async.endpoints, h.acyclic hordered hc.async.acyclic⟩
  have hordered' := h.tabulated.indexOrdered g'
  refine ⟨?_, ?_, ?_, ?_⟩
  · obtain ⟨result, marks, hfast, hslow, -⟩ := h.tabulated.checkExplorationGraph_agrees (fun _ => hsane)
      .fifoP2P noMissingReadsTolerance
    refine ⟨result, marks, hfast, fun i hi => ?_⟩
    obtain ⟨newR, hreceive, hfind, heq⟩ :=
      (hexcept (fun _ => true) fun _ _ => rfl).missing hordered' hslow i hi
    exact ⟨newR, h.lostSource hc.async hreceive hfind, heq⟩
  · intro tolerance htolerance
    obtain ⟨result, marks, hcheck, hiff, -⟩ := h.tabulated.checkExplorationGraph_ok (fun _ => hsane)
      .fifoP2P tolerance
    exact ⟨result, marks, hcheck, hiff.mpr (hexcept tolerance htolerance)⟩
  · intro recv src hkept
    obtain ⟨newRecv, hrecv⟩ := exists_place mask recv hkept.receive
    obtain ⟨newSrc, hsrc⟩ := exists_place mask src hkept.source
    have hcall := h.tiebreakerCall hordered hclosed hc hkept hrecv hsrc
    exact ⟨newRecv, newSrc, hrecv, hsrc,
      ⟨(hcall.rebindable h.tabulated).deliverable_source, .inl hcall.reads⟩, hcall.source_passes h.tabulated⟩
  · intro recv src hkept context
    obtain ⟨newRecv, hrecv⟩ := exists_place mask recv hkept.receive
    obtain ⟨newSrc, hsrc⟩ := exists_place mask src hkept.source
    have hcall := h.tiebreakerCall hordered hclosed hc hkept hrecv hsrc
    have hadmits := (admissible_iff h hkept hrecv hsrc src newSrc hsrc).mpr
      ⟨(hcall.rebindable h.tabulated).deliverable_source, .inl rfl⟩
    obtain ⟨ctx, hd, hcases⟩ := hkept.tiebreaker_cases g mask recv src hordered .fifoP2P
    have hpasses := (passes_agree h hordered hc.async hkept hrecv hsrc hd src newSrc hadmits
      hsrc).mpr (hcall.source_passes h.tabulated)
    rw [context.getConsTiebreakerMasked_eq]
    rcases hcases with ⟨c, hok, -, -, hleast⟩ | ⟨hnone, -⟩
    · exact ⟨c, hok, hleast src hadmits hpasses⟩
    · exact absurd hpasses (hnone src hadmits)

/-- FIFO consistency survives restriction to a set that is closed under program order, among these
Previous(e, s). -/
theorem fifo_survives_restriction (m : CachedGraph V) (hm : m.Interleaved)
    (hc : m.executionGraph.Accepted .fifoP2P) :
    (∀ keepMask, ProgramOrderClosed m.graph keepMask →
      ∃ g', m.graph.restrictMasked keepMask = .ok g' ∧ SurvivesRestriction m.graph keepMask g') ∧
    ∀ e s, e < m.graph.eventCount → m.graph.isSendId s = true →
      ∃ keepMask g', computePreviousSet m.graph e s = .ok keepMask ∧
        (∀ id, keeps keepMask id = true ↔ id < m.graph.eventCount ∧
          (id ≤ e ∨ Relation.TransGen m.graph.graph.Porf id s)) ∧
        m.graph.restrictMasked keepMask = .ok g' ∧ SurvivesRestriction m.graph keepMask g' := by
  have ht := (hm.keeps m).1.graph
  have hordered := ht.indexOrdered m.graph
  have hconsistent := (m.executionGraph.accepted_iff hordered .fifoP2P).mp hc
  have hany (keepMask : List Bool) (hclosed : ProgramOrderClosed m.graph keepMask) :
      ∃ g', m.graph.restrictMasked keepMask = .ok g' ∧ SurvivesRestriction m.graph keepMask g' := by
    obtain ⟨g', hrestrict, hinduces⟩ := ht.restrictMasked_induces m.graph
      (m.graph.readsExist_of_validEndpoints hconsistent.async.endpoints) keepMask hclosed.size
    exact ⟨g', hrestrict, hinduces.survives hordered hclosed hconsistent⟩
  refine ⟨hany, fun e s he hs => ?_⟩
  rw [ExplorationGraph.isSendId_iff] at hs
  obtain ⟨es, -, hes, -⟩ := (m.graph.graph.isSendAt_iff s).mp hs
  obtain ⟨keepMask, hmask, hlength, hkeeps⟩ := computePreviousSet_ok ht
    ⟨hconsistent.async.endpoints, hconsistent.async.acyclic⟩ he (List.getElem?_eq_some_iff.mp hes).1
  obtain ⟨g', hrestrict, hsurvives⟩ := hany keepMask ⟨hlength, fun a b hpo hb =>
    (hkeeps a).mpr ⟨(hpo.lt_length m.graph.graph).1, Previous.closed ht e s a b hpo ((hkeeps b).mp hb).2⟩⟩
  exact ⟨keepMask, g', hmask, hkeeps, hrestrict, hsurvives⟩

/-- Thread 0 reads two messages of thread 1; the mask drops the second one and keeps its reader. -/
theorem fifo_survives_dropped_source :
    ∃ m : CachedGraph ℕ, m.Interleaved ∧ m.executionGraph.Accepted .fifoP2P ∧
      ProgramOrderClosed m.graph [true, false, true, true] ∧ LostSource m.graph [true, false, true, true] 2 ∧
      KeptReceive m.graph [true, false, true, true] 2 0 ∧
      ∃ g', m.graph.restrictMasked [true, false, true, true] = .ok g' ∧
        SurvivesRestriction m.graph [true, false, true, true] g' := by
  obtain ⟨m, hm, hc, hthreads, hlost, hkept⟩ : ∃ m : CachedGraph ℕ, m.Interleaved ∧
      m.executionGraph.Accepted .fifoP2P ∧ m.graph.graph.events.map (·.thread) = [1, 1, 0, 0] ∧
      LostSource m.graph [true, false, true, true] 2 ∧ KeptReceive m.graph [true, false, true, true] 2 0 :=
    ⟨_, .run .empty [.op (.addEvent 1 (.send ⟨0, 7⟩)), .op (.addEvent 1 (.send ⟨0, 8⟩)),
        .op (.addEvent 0 (.receive ⟨.blocking, fun _ => true⟩)), .op (.addEvent 0 (.receive ⟨.blocking, fun _ => true⟩)),
        .op (.setReadsFromSource 2 (.send 0)), .op (.setReadsFromSource 3 (.send 1))] rfl, ⟨_, rfl, rfl⟩, rfl,
      ⟨3, 1, rfl, rfl, rfl⟩, ⟨rfl, rfl, rfl, rfl, _, _, rfl, rfl, rfl⟩⟩
  have hordered := (hm.keeps m).1.graph.indexOrdered m.graph
  have hclosed : ProgramOrderClosed m.graph [true, false, true, true] := by
    refine ⟨hkept.size, fun a b hpo hb => ?_⟩
    obtain ⟨hlt, ea, eb, hea, heb, hthread⟩ := (hordered.programOrder_iff m.graph.graph a b).mp hpo
    have hsame : ([1, 1, 0, 0] : List ℕ)[a]? = ([1, 1, 0, 0] : List ℕ)[b]? := by
      rw [← hthreads, List.getElem?_map, List.getElem?_map, hea, heb, Option.map_some, Option.map_some, hthread]
    have hbound : b < 4 := by
      have := (List.getElem?_eq_some_iff.mp heb).1
      rwa [← List.length_map (·.thread), hthreads] at this
    have hall : ∀ b < 4, ∀ a < b, ([1, 1, 0, 0] : List ℕ)[a]? = ([1, 1, 0, 0] : List ℕ)[b]? →
        keeps [true, false, true, true] b = true → keeps [true, false, true, true] a = true := by decide
    exact hall b hbound a hlt hsame hb
  exact ⟨m, hm, hc, hclosed, hlost, hkept, (fifo_survives_restriction m hm hc).1 _ hclosed⟩

end MustDpor

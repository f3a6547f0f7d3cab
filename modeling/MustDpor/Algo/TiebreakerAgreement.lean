import MustDpor.Algo.ConsTiebreaker
import MustDpor.Algo.ReusedContext
import MustDpor.Model.InducedSubgraph

/-! # Two tiebreakers

`get_cons_tiebreaker_masked` works on the graph in place and looks at kept events only;
`get_cons_tiebreaker_masked_via_restriction` builds the restriction and checks it. The events that a mask
keeps are the events of the restriction under other ids, so both look at the same candidates, reach the same
events, find the same messages left behind, and return the same send. -/

namespace MustDpor
set_option autoImplicit false
open List
open MaskedPorfContext

variable {V : Type}

def getConsTiebreakerMaskedViaRestriction (graph : ExplorationGraph V) (keepMask : List Bool) (recv : ℕ)
    (communicationModel : CommunicationModel) : Except DporError ℕ := do
  let restricted ← graph.restrictMasked keepMask
  let newToOld := keptIds graph keepMask
  if recv ∉ newToOld then throw (tiebreakerError "event missing from keep mask")
  let remappedSend ← getConsTiebreaker restricted (newToOld.idxOf recv) communicationModel true
  match newToOld[remappedSend]? with
  | some oldId => return oldId
  | none => throw (tiebreakerError "remapped send missing from restricted graph")

/-! ## Old and new ids -/

theorem filter_range_eq_select (mask : List Bool) :
    (range mask.length).filter (keeps mask) = select (range mask.length) mask := by
  induction mask using reverseRecOn with
  | nil => rfl
  | append_singleton mask b ih =>
    have hsame : (range mask.length).filter (keeps (mask ++ [b])) =
        (range mask.length).filter (keeps mask) := by
      refine filter_congr fun id hid => ?_
      unfold keeps
      rw [getD_append _ _ _ _ (mem_range.mp hid)]
    have hlast : keeps (mask ++ [b]) mask.length = b := by
      unfold keeps
      rw [getD_append_right _ _ _ _ (le_refl _), Nat.sub_self]
      rfl
    rw [length_append, length_singleton, range_succ, filter_append,
      select_concat _ _ length_range, hsame, ih, filter_singleton, hlast]
    cases b <;> rfl

variable {id newId : ℕ}

theorem newToOld_eq {g : ExplorationGraph V} {mask : List Bool} (hlen : mask.length = g.eventCount)
    (hid : ExplorationGraph.remapId mask id = some newId) :
    (keptIds g mask)[newId]? = some id := by
  have hlt : id < g.eventCount := hlen ▸ keeps_lt (marked_of_place mask id newId hid)
  unfold keptIds
  rw [← hlen, filter_range_eq_select, getElem?_select _ mask id newId hid, getElem?_range (hlen ▸ hlt)]

theorem idxOf_keptIds {g : ExplorationGraph V} {mask : List Bool} (hlen : mask.length = g.eventCount)
    (hid : ExplorationGraph.remapId mask id = some newId) :
    id ∈ keptIds g mask ∧ (keptIds g mask).idxOf id = newId := by
  have hget := newToOld_eq hlen hid
  obtain ⟨hlt, hat⟩ := List.getElem?_eq_some_iff.mp hget
  have hnodup : (keptIds g mask).Nodup := List.Pairwise.imp ne_of_lt (keptIds_ascending g mask)
  refine ⟨List.mem_of_getElem? hget, ?_⟩
  conv_lhs => rw [← hat]
  exact List.Nodup.idxOf_getElem hnodup newId hlt

/-! ## The restriction shows what the mask shows -/

variable {c newC : ℕ}

section Correspondence
open ExplorationGraph (remapId)
variable {g g' : ExplorationGraph V} {mask : List Bool} (h : g.Induces mask g')
include h

theorem ExplorationGraph.Induces.threadOf_eq (hid : remapId mask id = some newId) :
    g'.threadOf newId = g.threadOf id := by
  have hshape := h.shape_eq hid
  unfold ExplorationGraph.threadOf
  have hthread := congrArg (fun o : Option (ℕ × EventLabel V) => o.map Prod.fst) hshape
  simp only [Option.map_map] at hthread
  exact congrArg (fun o : Option ℕ => o.getD 0) hthread

theorem ExplorationGraph.Induces.candidateLe_iff {d newD : ℕ} (hc : remapId mask c = some newC)
    (hd : remapId mask d = some newD) : candidateLe g' newC newD ↔ candidateLe g c d := by
  unfold candidateLe
  rw [h.threadOf_eq hc, h.threadOf_eq hd, ← not_lt, ← not_lt,
    place_lt_iff mask d c newD newC hd hc]

variable {newS : ℕ}

theorem ExplorationGraph.Induces.deliverable_iff {s r newR : ℕ} (hs : remapId mask s = some newS)
    (hr : remapId mask r = some newR) : Deliverable g' newS newR ↔ Deliverable g s r := by
  constructor
  · rintro ⟨er', receive, her', hreceive, hcompat⟩
    obtain ⟨es', send, hes', hsend, hdest, haccepts⟩ := (compatibleSend_iff g' er'.thread receive newS).mp hcompat
    obtain ⟨er, her, hthread, hsame⟩ := h.old_event hr her'
    obtain ⟨es, hes, -, hsame'⟩ := h.old_event hs hes'
    exact ⟨er, receive, her, hsame.symm.trans hreceive, (compatibleSend_iff g er.thread receive s).mpr
      ⟨es, send, hes, hsame'.symm.trans hsend, hdest.trans hthread, haccepts⟩⟩
  · rintro ⟨er, receive, her, hreceive, hcompat⟩
    obtain ⟨es, send, hes, hsend, hdest, haccepts⟩ := (compatibleSend_iff g er.thread receive s).mp hcompat
    obtain ⟨er', her', hthread, hsame⟩ := h.event hr her
    obtain ⟨es', hes', -, hsame'⟩ := h.event hs hes
    exact ⟨er', receive, her', hsame.trans hreceive, (compatibleSend_iff g' er'.thread receive newS).mpr
      ⟨es', send, hes', hsame'.trans hsend, hdest.trans hthread.symm, haccepts⟩⟩

theorem ExplorationGraph.Induces.deliverable_kept {newR : ℕ} (hdeliver : Deliverable g' newS newR) :
    ∃ s, remapId mask s = some newS := by
  obtain ⟨er', receive, -, -, hcompat⟩ := hdeliver
  obtain ⟨es', -, hes', -⟩ := (compatibleSend_iff g' er'.thread receive newS).mp hcompat
  obtain ⟨s, -, hs⟩ := h.exists_old newS (lt_of_getElem? hes')
  exact ⟨s, hs⟩

theorem ExplorationGraph.Induces.readers_eq_zero_iff {s : ℕ} (hs : remapId mask s = some newS)
    (hsend : g'.isSendId newS = true) :
    g'.readers newS = 0 ↔ ∀ r, keeps mask r = true → ¬ g.graph.ReadsFrom s r := by
  rw [h.counted newS hsend, readerCount_eq_zero]
  constructor
  · intro hnone r hr hread
    obtain ⟨newR, hr⟩ := exists_place mask r hr
    exact hnone newR ((h.readsFrom_iff hs hr).mpr hread)
  · intro hnone newR hread
    obtain ⟨s', r, hs', hr, hold⟩ := h.exists_read hread
    obtain rfl := place_injective hs hs'
    exact hnone r (marked_of_place mask r newR hr) hold

theorem ExplorationGraph.Induces.reaches_masked_iff (hordered : g.graph.IndexOrdered) (a b newA newB : ℕ)
    (ha : remapId mask a = some newA) (hb : remapId mask b = some newB) :
    Relation.TransGen g'.graph.Porf newA newB ↔ Relation.TransGen (MaskedPorf g mask) a b := by
  constructor
  · intro hpath
    induction hpath generalizing b with
    | single hstep =>
      exact .single ⟨marked_of_place mask a newA ha, marked_of_place mask b _ hb,
        (h.porf_iff hordered ha hb).mp hstep⟩
    | tail _ hstep ih =>
      obtain ⟨c, _, hc, -⟩ := h.porf_kept hstep
      exact (ih c hc).tail ⟨marked_of_place mask c _ hc, marked_of_place mask b _ hb,
        (h.porf_iff hordered hc hb).mp hstep⟩
  · intro hpath
    induction hpath generalizing newB with
    | single hstep => exact .single ((h.porf_iff hordered ha hb).mpr hstep.2.2)
    | tail _ hstep ih =>
      obtain ⟨newC, hc⟩ := exists_place mask _ hstep.1
      exact (ih newC hc).tail ((h.porf_iff hordered hc hb).mpr hstep.2.2)

end Correspondence

/-! ## One verdict -/

section Verdict
open ExplorationGraph (remapId)
variable {g g' : ExplorationGraph V} {mask : List Bool} (h : g.Induces mask g')
  (hordered : g.graph.IndexOrdered) (hc : g.graph.AsyncConsistent) {recv src newRecv newSrc : ℕ}
  (hkept : KeptReceive g mask recv src) (hrecv : remapId mask recv = some newRecv)
  (hsrc : remapId mask src = some newSrc)
include h hordered hc hkept hrecv hsrc

theorem induced_rebindable : RebindableReceive g' newRecv newSrc true where
  receive := by
    obtain ⟨evt, receive, hevt, hlabel, hblocking⟩ := hkept.blocking
    obtain ⟨evt', hevt', -, hlabel'⟩ := h.event hrecv hevt
    exact ⟨evt', receive, hevt', hlabel'.trans hlabel, hblocking⟩
  reads := (h.readsFrom_iff hsrc hrecv).mpr hkept.reads
  async := by
    refine h.async hordered hc fun r newR s hr hread hstrict => ?_
    have htarget : newR = newRecv := by
      by_contra hne
      rw [show rewriteTolerance newRecv true newR = true from decide_eq_true hne] at hstrict
      cases hstrict
    subst htarget
    obtain rfl := place_injective hr hrecv
    obtain rfl : s = src := by
      have := hread.symm.trans hkept.reads
      cases this
      rfl
    exact ⟨newSrc, hsrc⟩

omit hordered hc in
theorem admissible_iff (c newC : ℕ) (hplace : remapId mask c = some newC) :
    AdmissibleSource g mask recv c ↔ Deliverable g' newC newRecv ∧ (newC = newSrc ∨ g'.readers newC = 0) := by
  unfold AdmissibleSource
  rw [← h.deliverable_iff hplace hrecv]
  refine and_congr_right fun hdeliver => or_congr ?_ ?_
  · constructor
    · intro hread
      have := hread.symm.trans hkept.reads
      cases this
      exact Option.some.inj (hplace.symm.trans hsrc)
    · rintro rfl
      obtain rfl := place_injective hplace hsrc
      exact hkept.reads
  · rw [h.readers_eq_zero_iff hplace (hdeliver.isSendId)]
    exact ⟨And.right, fun hunread => ⟨marked_of_place mask c newC hplace, hunread⟩⟩

variable {ctx : MaskedPorfContext}

omit hordered in
theorem rewritten_iff (hd : ctx.Describes g mask true)
    (hadmits : AdmissibleSource g mask recv c) (hplace : remapId mask c = some newC) (x newX : ℕ)
    (hx : remapId mask x = some newX) (r newR : ℕ) (hr : remapId mask r = some newR) :
    ctx.rewrittenConsumers recv c src x = some r ↔ (g'.graph.rewire newRecv newC).ReadsFrom newX newR := by
  have hsame (a b newA newB : ℕ) (ha : remapId mask a = some newA) (hb : remapId mask b = some newB) :
      newA = newB ↔ a = b :=
    ⟨fun heq => place_injective (heq ▸ ha) hb, fun heq =>
      Option.some.inj (ha.symm.trans (heq ▸ hb))⟩
  simp only [g'.graph.rewire_readsFrom, hsame r recv newR newRecv hr hrecv, hsame x c newX newC hx hplace,
    h.readsFrom_iff hx hr, rewrittenConsumers_eq]
  have hkeptX := marked_of_place mask x newX hx
  have hkeptR := marked_of_place mask r newR hr
  by_cases hxc : x = c
  · subst hxc
    rw [if_pos rfl]
    by_cases hrr : r = recv
    · exact iff_of_true (congrArg some hrr.symm) (by rw [if_pos hrr])
    · rw [if_neg hrr]
      refine iff_of_false (fun heq => hrr (Option.some.inj heq).symm) fun hread => ?_
      rcases hadmits.2 with hcurrent | ⟨-, hunread⟩
      · exact hrr (hc.exclusive x r recv hread hcurrent)
      · exact hunread r hkeptR hread
  · rw [if_neg hxc]
    by_cases hxs : x = src
    · subst hxs
      rw [if_pos rfl]
      refine iff_of_false (nomatch ·) fun hread => ?_
      split at hread
      · exact hxc hread
      · rename_i hrr
        exact hrr (hc.exclusive x r recv hread hkept.reads)
    · rw [if_neg hxs, hd.fifoConsumer_iff hc]
      by_cases hrr : r = recv
      · rw [if_pos hrr]
        refine iff_of_false (fun hread => hxs ?_) hxc
        have := (hrr ▸ hread.1).symm.trans hkept.reads
        cases this
        rfl
      · rw [if_neg hrr]
        exact ⟨And.left, fun hread => ⟨hread, hkeptR, hkeptX⟩⟩

theorem fifo_iff (hd : ctx.Describes g mask true)
    (hadmits : AdmissibleSource g mask recv c) (hplace : remapId mask c = some newC)
    (hasync : (g'.graph.rewire newRecv newC).AsyncConsistentExcept (rewriteTolerance newRecv true)) :
    ctx.fifoRewriteViolates g recv c src = false ↔ (g'.graph.rewire newRecv newC).FifoConsistent := by
  have hrewritten := rewritten_iff h hc hkept hrecv hsrc hd hadmits hplace
  have hordered' : (g'.graph.rewire newRecv newC).IndexOrdered := h.tabulated.indexOrdered g'
  have hconsumer (x r : ℕ) (hx : ctx.rewrittenConsumers recv c src x = some r) : keeps mask r = true := by
    rcases rewritten_taken hc hd hx with ⟨-, rfl⟩ | ⟨-, -, -, hr⟩
    · exact hkept.receive
    · exact hr
  rw [fifoRewriteViolates_iff hkept.size hd, hasync.fifoConsistent_iff _ hordered']
  have hold (newId : ℕ) (e' : Event V) (he' : g'.graph.events[newId]? = some e') :
      ∃ id, remapId mask id = some newId := by
    obtain ⟨id, -, hid⟩ := h.exists_old newId (lt_of_getElem? he')
    exact ⟨id, hid⟩
  constructor
  · intro hmasked newY newR hread newX hchannel hlt haccepts
    obtain ⟨er, ex, -, -, her, hex, -⟩ := (consumerAccepts_iff _ newR newX).mp haccepts
    obtain ⟨ey, -, hey, -⟩ := (hasync.endpoints newR _ hread).2 newY rfl
    obtain ⟨x, hx⟩ := hold newX ex hex
    obtain ⟨y, hy⟩ := hold newY ey hey
    obtain ⟨r, hr⟩ := hold newR er her
    change g'.graph.channel? newX = g'.graph.channel? newY at hchannel
    change consumerAccepts g'.graph newR newX = true at haccepts
    rw [h.channel?_eq hx, h.channel?_eq hy] at hchannel
    rw [h.consumerAccepts_eq hr hx] at haccepts
    obtain ⟨r', hr', hnot⟩ := hmasked x y r (marked_of_place mask x newX hx) (marked_of_place mask y newY hy)
      hchannel ((place_lt_iff mask x y newX newY hx hy).mp hlt) ((hrewritten y newY hy r newR hr).mpr hread)
      haccepts
    obtain ⟨newR', hplace'⟩ := exists_place mask r' (hconsumer x r' hr')
    refine ⟨newR', (hrewritten x newX hx r' newR' hplace').mp hr', fun hpo => hnot ?_⟩
    exact (h.programOrder_iff hordered r r' newR newR' hr hplace').mp hpo
  · intro hfifo x y r hxkept hykept hchannel hlt hy haccepts
    obtain ⟨newX, hx⟩ := exists_place mask x hxkept
    obtain ⟨newY, hyplace⟩ := exists_place mask y hykept
    obtain ⟨newR, hr⟩ := exists_place mask r (hconsumer y r hy)
    obtain ⟨newR', hread', hnot⟩ := hfifo newY newR ((hrewritten y newY hyplace r newR hr).mp hy) newX
      (by
        show g'.graph.channel? newX = g'.graph.channel? newY
        rw [h.channel?_eq hx, h.channel?_eq hyplace, hchannel])
      ((place_lt_iff mask x y newX newY hx hyplace).mpr hlt)
      (by
        show consumerAccepts g'.graph newR newX = true
        rw [h.consumerAccepts_eq hr hx, haccepts])
    obtain ⟨er', -, her', -⟩ := (hasync.endpoints newR' _ hread').1
    obtain ⟨r', hr'⟩ := hold newR' er' her'
    refine ⟨r', (hrewritten x newX hx r' newR' hr').mpr hread', fun hpo => hnot ?_⟩
    exact (h.programOrder_iff hordered r r' newR newR' hr hr').mpr hpo

theorem passes_agree {model : CommunicationModel}
    (hd : ctx.Describes g mask (decide (model = .fifoP2P))) (c newC : ℕ)
    (hadmits : AdmissibleSource g mask recv c) (hplace : remapId mask c = some newC) :
    PassesInView g mask model ctx recv src c ↔ Passes g' newRecv model true newC := by
  have hrebindable := induced_rebindable h hordered hc hkept hrecv hsrc
  obtain ⟨hdeliver, hlisted⟩ := (admissible_iff h hkept hrecv hsrc c newC hplace).mp hadmits
  have hcandidate : CandidateSource g' newRecv newC := by
    refine ⟨hdeliver, hlisted.imp (fun heq => ?_) fun hzero => ?_⟩
    · rw [heq]
      exact hrebindable.reads
    rw [h.counted newC (hdeliver.isSendId)] at hzero
    exact (readerCount_eq_zero _ newC).mp hzero
  have hfree := ((candidateSource_iff hrebindable.async newC).mp hcandidate).2
  have hasync := rewire_async_iff hrebindable.async hdeliver
  have hneeds : needsRewrittenGraph model true = true := Bool.or_true _
  unfold PassesInView Passes
  rw [if_pos hneeds, freshlyConsistent_iff h.tabulated, ← h.reaches_masked_iff hordered recv c newRecv newC hrecv
    hplace]
  constructor
  · rintro ⟨hunreached, hfifo⟩
    have hconsistent := hasync.mpr ⟨hfree, hunreached⟩
    refine ⟨hconsistent, fun hmodel => ?_⟩
    rw [decide_eq_true hmodel] at hd
    exact (fifo_iff h hordered hc hkept hrecv hsrc hd hadmits hplace hconsistent).mp (hfifo hmodel)
  · intro hconsistent
    refine ⟨(hasync.mp hconsistent.async).2, fun hmodel => ?_⟩
    rw [decide_eq_true hmodel] at hd
    exact (fifo_iff h hordered hc hkept hrecv hsrc hd hadmits hplace hconsistent.async).mpr
      (hconsistent.fifo hmodel)

end Verdict

theorem KeptReceive.tiebreakers_agree (g : ExplorationGraph V) (ht : g.Tabulated) (mask : List Bool)
    (recv src : ℕ) (h : KeptReceive g mask recv src) (model : CommunicationModel) (hc : g.graph.AsyncConsistent) :
    getConsTiebreakerMasked g mask recv model =
      getConsTiebreakerMaskedViaRestriction g mask recv model := by
  have hordered := ht.indexOrdered g
  obtain ⟨g', hrestrict, hinduces⟩ := ht.restrictMasked_induces g
    (g.readsExist_of_validEndpoints hc.endpoints) mask h.size
  obtain ⟨newRecv, hrecv⟩ := exists_place mask recv h.receive
  obtain ⟨newSrc, hsrc⟩ := exists_place mask src h.source
  obtain ⟨hmem, hindex⟩ := idxOf_keptIds h.size hrecv
  obtain ⟨ctx, hd, hmasked⟩ := h.tiebreaker_cases g mask recv src hordered model
  have hadmits := admissible_iff hinduces h hrecv hsrc
  have hagree := passes_agree hinduces hordered hc h hrecv hsrc hd
  have hplaced (c : ℕ) (hadmits : AdmissibleSource g mask recv c) :
      ∃ newC, ExplorationGraph.remapId mask c = some newC := by
    rcases hadmits.2 with hread | ⟨hkept, -⟩
    · have := hread.symm.trans h.reads
      cases this
      exact ⟨newSrc, hsrc⟩
    · exact exists_place mask c hkept
  have hrestricted := (induced_rebindable hinduces hordered hc h hrecv hsrc).tiebreaker_cases hinduces.tabulated
    model fun _ => hinduces.counted.releasable g' newRecv
  unfold getConsTiebreakerMaskedViaRestriction
  simp only [hrestrict, bind, Except.bind, hmem, not_true, if_false, hindex, pure, Except.pure]
  rcases hmasked with ⟨c, hok, hc', hpass, hleast⟩ | ⟨hnone, herror⟩
  · obtain ⟨newC, hplace⟩ := hplaced c hc'
    rcases hrestricted with ⟨newD, hok', ⟨hdeliver, hlisted⟩, hpass', hleast'⟩ | ⟨hnone, -⟩
    · obtain ⟨d, hplaceD⟩ := hinduces.deliverable_kept hdeliver
      have hd' := (hadmits d newD hplaceD).mpr ⟨hdeliver, hlisted⟩
      have hle := hleast d hd' ((hagree d newD hd' hplaceD).mpr hpass')
      obtain ⟨hdeliverableC, hlistedC⟩ := (hadmits c newC hplace).mp hc'
      have hle' := hleast' newC hdeliverableC hlistedC ((hagree c newC hc' hplace).mp hpass)
      rw [hinduces.candidateLe_iff hplaceD hplace] at hle'
      obtain rfl := candidateLe_antisymm g hle hle'
      rw [hok, hok']
      dsimp only
      rw [newToOld_eq h.size hplaceD]
    · obtain ⟨hdeliver, hlisted⟩ := (hadmits c newC hplace).mp hc'
      exact absurd ((hagree c newC hc' hplace).mp hpass) (hnone newC hdeliver hlisted)
  · rcases hrestricted with ⟨newD, -, ⟨hdeliver, hlisted⟩, hpass', -⟩ | ⟨-, herror'⟩
    · obtain ⟨d, hplaceD⟩ := hinduces.deliverable_kept hdeliver
      have hd' := (hadmits d newD hplaceD).mpr ⟨hdeliver, hlisted⟩
      exact absurd ((hagree d newD hd' hplaceD).mpr hpass') (hnone d hd')
    · rw [herror, herror']

/-- For every consistent graph, every mask and whatever the worker's context held: the masked tiebreaker and
the one by restriction return the same send, or both throw `internal_error`. -/
theorem masked_tiebreaker_agrees (m : CachedGraph V) (hm : m.Interleaved) (communicationModel : CommunicationModel)
    (hc : m.executionGraph.Accepted communicationModel) (keepMask : List Bool) (recv src : ℕ)
    (h : KeptReceive m.graph keepMask recv src) (context : MaskedPorfBuffers) :
    (∃ c, (context.getConsTiebreakerMasked m.graph keepMask recv communicationModel).1 = .ok c ∧
      getConsTiebreakerMaskedViaRestriction m.graph keepMask recv communicationModel = .ok c) ∨
    ∃ message message',
      (context.getConsTiebreakerMasked m.graph keepMask recv communicationModel).1 = .error (.internalError message) ∧
      getConsTiebreakerMaskedViaRestriction m.graph keepMask recv communicationModel =
        .error (.internalError message') := by
  have ht := (hm.keeps m).1.graph
  have hconsistent := (m.executionGraph.accepted_iff (ht.indexOrdered m.graph) communicationModel).mp hc
  rw [context.getConsTiebreakerMasked_eq,
    ← h.tiebreakers_agree m.graph ht keepMask recv src communicationModel hconsistent.async]
  obtain ⟨-, -, ⟨c, hok, -⟩ | ⟨-, herror⟩⟩ := h.tiebreaker_cases m.graph keepMask recv src (ht.indexOrdered m.graph)
    communicationModel
  · exact Or.inl ⟨c, hok, hok⟩
  · exact Or.inr ⟨_, _, herror, herror⟩

/-- Two sends of thread 1, of which thread 0 reads both; the mask drops the reader of the first, and the
context has answered for the whole graph before. -/
theorem masked_tiebreaker_agrees_after_query :
    ∃ (m : CachedGraph ℕ) (context : MaskedPorfBuffers), m.Interleaved ∧ m.executionGraph.Accepted .fifoP2P ∧
      KeptReceive m.graph [true, true, false, true] 3 1 ∧
      ((∃ c, (context.getConsTiebreakerMasked m.graph [true, true, false, true] 3 .fifoP2P).1 = .ok c ∧
        getConsTiebreakerMaskedViaRestriction m.graph [true, true, false, true] 3 .fifoP2P = .ok c) ∨
      ∃ message message',
        (context.getConsTiebreakerMasked m.graph [true, true, false, true] 3 .fifoP2P).1 =
          .error (.internalError message) ∧
        getConsTiebreakerMaskedViaRestriction m.graph [true, true, false, true] 3 .fifoP2P =
          .error (.internalError message')) := by
  obtain ⟨m, hm, hc, hkept⟩ : ∃ m : CachedGraph ℕ, m.Interleaved ∧ m.executionGraph.Accepted .fifoP2P ∧
      KeptReceive m.graph [true, true, false, true] 3 1 :=
    ⟨_, .run .empty [.op (.addEvent 1 (.send ⟨0, 7⟩)), .op (.addEvent 1 (.send ⟨0, 8⟩)),
        .op (.addEvent 0 (.receive ⟨.blocking, fun _ => true⟩)), .op (.addEvent 0 (.receive ⟨.blocking, fun _ => true⟩)),
        .op (.setReadsFromSource 2 (.send 0)), .op (.setReadsFromSource 3 (.send 1))] rfl, ⟨_, rfl, rfl⟩,
      ⟨rfl, rfl, rfl, rfl, _, _, rfl, rfl, rfl⟩⟩
  let fresh : MaskedPorfBuffers := ⟨fun _ => [], fun _ => false, fun _ => none, [], fun _ => none, [], [], 0⟩
  refine ⟨m, (fresh.getConsTiebreakerMasked m.graph [true, true, true, true] 3 .fifoP2P).2, hm, hc, hkept, ?_⟩
  exact masked_tiebreaker_agrees m hm .fifoP2P hc [true, true, false, true] 3 1 hkept _

end MustDpor

import MustDpor.Algo.MaskedView
import MustDpor.Model.KnownAcyclic

/-! # The tiebreaker

What the tiebreaker is on a consistent graph, for a receive that is the last kept event of its thread: the
least of its admissible sources. No candidate is reachable from the receive, and the least one keeps the
channels in order. -/

namespace MustDpor
set_option autoImplicit false

variable {V : Type}

open MaskedPorfContext

/-! ## Views in which a receive comes last -/

/-- A masked view in which the blocking receive `e`, reading `src`, is the last event of its thread. -/
structure EndsAt (g : ExplorationGraph V) (keepMask : List Bool) (e src : ℕ) : Prop where
  size : keepMask.length = g.eventCount
  closed : ∀ a b, g.graph.ProgramOrder a b → keeps keepMask b = true → keeps keepMask a = true
  receive : keeps keepMask e = true
  source : keeps keepMask src = true
  reads : g.graph.ReadsFrom src e
  last : ∀ b, g.graph.ProgramOrder e b → keeps keepMask b = false

section View
variable {g : ExplorationGraph V} {mask : List Bool} {e src : ℕ} (h : EndsAt g mask e src)
  (hc : g.graph.AsyncConsistent) {ctx : MaskedPorfContext}
include h hc

theorem EndsAt.event : ∃ evt receive, g.graph.events[e]? = some evt ∧ evt.label = .receive receive :=
  (hc.endpoints e (.send src) h.reads).1

theorem EndsAt.deliverable_source : Deliverable g src e := by
  obtain ⟨⟨er, receive, her, hreceive⟩, hsource⟩ := hc.endpoints e (.send src) h.reads
  obtain ⟨es, send, hes, hsend⟩ := hsource src rfl
  obtain ⟨hdest, haccepts⟩ := hc.delivered src e h.reads es er send receive hes hsend her hreceive
  exact ⟨er, receive, her, hreceive,
    (compatibleSend_iff g er.thread receive src).mpr ⟨es, send, hes, hsend, hdest, haccepts⟩⟩

theorem EndsAt.unreached (c : ℕ) : ¬ Relation.TransGen (MaskedPorf g mask) e c := by
  intro hpath
  obtain ⟨b, ⟨-, hb, hpo | hread⟩, -⟩ := Relation.TransGen.head'_iff.mp hpath
  · rw [h.last b hpo] at hb
    cases hb
  · obtain ⟨evt, receive, hevt, hlabel⟩ := h.event hc
    obtain ⟨es, send, hes, hsend⟩ := (hc.endpoints b (.send e) hread).2 e rfl
    rw [hevt] at hes
    cases hes
    rw [hlabel] at hsend
    cases hsend

section Rewrite
variable {c : ℕ} (hd : ctx.Describes g mask true) (hf : g.graph.FifoConsistent)
  (hadmits : AdmissibleSource g mask e c)
  (hleast : ∀ other, AdmissibleSource g mask e other → candidateLe g c other)
include hd

variable {x r : ℕ}

omit h in
theorem rewritten_taken (hx : ctx.rewrittenConsumers e c src x = some r) :
    (x = c ∧ r = e) ∨ (x ≠ c ∧ x ≠ src ∧ g.graph.ReadsFrom x r ∧ keeps mask r = true) := by
  rw [rewrittenConsumers_eq] at hx
  split at hx
  · rename_i hxc
    exact .inl ⟨hxc, (Option.some.inj hx).symm⟩
  · rename_i hxc
    split at hx
    · cases hx
    · rename_i hxs
      obtain ⟨hread, hr, -⟩ := (hd.fifoConsumer_iff hc x r).mp hx
      exact .inr ⟨hxc, hxs, hread, hr⟩

omit h in
theorem rewritten_free (hx : ctx.rewrittenConsumers e c src x = none) (hkept : keeps mask x = true) :
    x ≠ c ∧ (x = src ∨ ∀ r, keeps mask r = true → ¬ g.graph.ReadsFrom x r) := by
  rw [rewrittenConsumers_eq] at hx
  split at hx
  · cases hx
  · rename_i hxc
    refine ⟨hxc, ?_⟩
    split at hx
    · rename_i hxs
      exact .inl hxs
    · refine .inr fun r hr hread => ?_
      rw [(hd.fifoConsumer_iff hc x r).mpr ⟨hread, hr, hkept⟩] at hx
      cases hx

omit hd
include hf hadmits

variable {y : ℕ}

theorem EndsAt.other_ordered (hchannel : g.graph.channel? x = g.graph.channel? y) (hlt : x < y)
    (hread : g.graph.ReadsFrom y r) (hr : keeps mask r = true) (haccepts : consumerAccepts g.graph r x = true) :
    ∃ r', g.graph.ReadsFrom x r' ∧ g.graph.ProgramOrder r' r ∧ keeps mask r' = true ∧ x ≠ src ∧ x ≠ c := by
  obtain ⟨r', hread', hpo⟩ := hf y r hread x hchannel hlt haccepts
  have hr' := h.closed r' r hpo hr
  have hsrc : x ≠ src := by
    rintro rfl
    obtain rfl := hc.exclusive x r' e hread' h.reads
    rw [h.last r hpo] at hr
    cases hr
  refine ⟨r', hread', hpo, hr', hsrc, ?_⟩
  rintro rfl
  rcases hadmits.2 with hreads | ⟨-, hunread⟩
  · have := h.reads.symm.trans hreads
    cases this
    exact hsrc rfl
  · exact hunread r' hr' hread'

include hleast hd

theorem EndsAt.clauseB_kept (hx : keeps mask x = true)
    (hchannel : g.graph.channel? x = g.graph.channel? y) (hlt : x < y)
    (hy : ctx.rewrittenConsumers e c src y = some r) (hfree : ctx.rewrittenConsumers e c src x = none) :
    consumerAccepts g.graph r x = false := by
  by_contra haccepts
  rw [Bool.not_eq_false] at haccepts
  obtain ⟨-, hunread⟩ := rewritten_free hc hd hfree hx
  rcases rewritten_taken hc hd hy with ⟨rfl, rfl⟩ | ⟨-, -, hread, hr⟩
  · -- an earlier message of the channel of `c` would be an admissible source below `c`
    obtain ⟨hdeliver, hthread⟩ := hadmits.1.of_channel hchannel haccepts
    have hadmissible' : AdmissibleSource g mask r x := by
      refine ⟨hdeliver, ?_⟩
      rcases hunread with rfl | hunread
      · exact .inl h.reads
      · exact .inr ⟨hx, hunread⟩
    have hle := hleast x hadmissible'
    unfold candidateLe at hle
    omega
  · obtain ⟨r', hread', -, hr', hsrc, -⟩ := h.other_ordered hc hf hadmits hchannel hlt hread hr haccepts
    rcases hunread with rfl | hunread
    · exact hsrc rfl
    · exact hunread r' hr' hread'

omit hleast in
theorem EndsAt.clauseC_kept {r' : ℕ} (hchannel : g.graph.channel? x = g.graph.channel? y) (hlt : x < y)
    (hy : ctx.rewrittenConsumers e c src y = some r) (hx : ctx.rewrittenConsumers e c src x = some r')
    (hpo : g.graph.ProgramOrder r r') : consumerAccepts g.graph r x = false := by
  by_contra haccepts
  rw [Bool.not_eq_false] at haccepts
  have hkept : keeps mask r' = true := by
    rcases rewritten_taken hc hd hx with ⟨-, rfl⟩ | ⟨-, -, -, hr'⟩
    · exact h.receive
    · exact hr'
  rcases rewritten_taken hc hd hy with ⟨rfl, rfl⟩ | ⟨-, -, hread, hr⟩
  · rw [h.last r' hpo] at hkept
    cases hkept
  · obtain ⟨r₁, hread₁, hbefore, -, -, hne⟩ :=
      h.other_ordered hc hf hadmits hchannel hlt hread hr haccepts
    rcases rewritten_taken hc hd hx with ⟨rfl, -⟩ | ⟨-, -, hread', -⟩
    · exact hne rfl
    · obtain rfl := hc.exclusive x r₁ r' hread₁ hread'
      exact hc.acyclic r (.tail (.single (.inl hpo)) (.inl hbefore))

theorem EndsAt.rewrite_allowed : ctx.fifoRewriteViolates g e c src = false := by
  rw [fifoRewriteViolates_iff h.size hd]
  intro x y r hx _ hchannel hlt hconsumer haccepts
  cases hfree : ctx.rewrittenConsumers e c src x with
  | none =>
    rw [h.clauseB_kept hc hd hf hadmits hleast hx hchannel hlt hconsumer hfree] at haccepts
    cases haccepts
  | some r' =>
    refine ⟨r', rfl, fun hpo => ?_⟩
    rw [h.clauseC_kept hc hd hf hadmits hchannel hlt hconsumer hfree hpo] at haccepts
    cases haccepts

end Rewrite
end View

theorem EndsAt.tiebreaker_ok {g : ExplorationGraph V} {mask : List Bool} {e src : ℕ}
    (h : EndsAt g mask e src) {model : CommunicationModel}
    (hc : g.graph.ConsistentUnder model) (hordered : g.graph.IndexOrdered)
    {evt : Event V} {receive : ReceiveLabel V} (hevt : g.graph.events[e]? = some evt)
    (hlabel : evt.label = .receive receive) (hblocking : receive.isBlocking = true) :
    ∃ c, getConsTiebreakerMasked g mask e model = .ok c ∧
      AdmissibleSource g mask e c ∧ ∀ other, AdmissibleSource g mask e other → candidateLe g c other := by
  have hkept : KeptReceive g mask e src :=
    ⟨h.size, h.receive, h.source, h.reads, evt, receive, hevt, hlabel, hblocking⟩
  obtain ⟨ctx, hd, hcases⟩ := hkept.tiebreaker_cases g mask e src hordered model
  have hmem := mem_tiebreakerCandidates hd h.reads hevt hlabel
  obtain ⟨least, hleast, hle⟩ := exists_least g
    (List.ne_nil_of_mem ((hmem src).mpr ⟨h.deliverable_source hc.async, .inl h.reads⟩))
  have hadmits := (hmem least).mp hleast
  have hle' (other : ℕ) (hother : AdmissibleSource g mask e other) : candidateLe g least other :=
    hle other ((hmem other).mpr hother)
  have hpasses : PassesInView g mask model ctx e src least := by
    refine ⟨h.unreached hc.async least, fun hmodel => ?_⟩
    rw [decide_eq_true hmodel] at hd
    exact h.rewrite_allowed hc.async hd (hc.fifo hmodel) hadmits hle'
  rcases hcases with ⟨c, hok, hc', -, hmin⟩ | ⟨hnone, -⟩
  · obtain rfl := candidateLe_antisymm g (hmin least hadmits hpasses) (hle' c hc')
    exact ⟨c, hok, hadmits, hle'⟩
  · exact absurd hpasses (hnone least hadmits)

/-! ## Rewired graphs -/

section Rewired
open Relation ExplorationGraph ExecutionGraph

theorem Deliverable.isSendId {g : ExplorationGraph V} {c recv : ℕ} (h : Deliverable g c recv) :
    g.isSendId c = true := by
  obtain ⟨evt, receive, -, -, hcompat⟩ := h
  obtain ⟨es, send, hes, hsend, -⟩ := (compatibleSend_iff g evt.thread receive c).mp hcompat
  rw [isSendId_eq]
  exact (isSendAt_iff g.graph c).mpr ⟨es, send, hes, hsend⟩

theorem Deliverable.ne {g : ExplorationGraph V} {c recv : ℕ} (h : Deliverable g c recv) : recv ≠ c := by
  rintro rfl
  obtain ⟨evt, receive, hevt, hlabel, hcompat⟩ := h
  obtain ⟨es, send, hes, hsend, -⟩ := (compatibleSend_iff g evt.thread receive recv).mp hcompat
  rw [hevt] at hes
  cases hes
  rw [hlabel] at hsend
  cases hsend

theorem rewire_async_iff {g : ExplorationGraph V} {tolerance : ℕ → Bool} (hc : g.graph.AsyncConsistentExcept tolerance)
    {c recv : ℕ} (hdeliver : Deliverable g c recv) :
    (g.graph.rewire recv c).AsyncConsistentExcept tolerance ↔
      (∀ r, g.graph.ReadsFrom c r → r = recv) ∧ ¬ TransGen g.graph.Porf recv c := by
  rw [← g.graph.rewire_acyclic_iff hc.acyclic (hdeliver.ne)]
  obtain ⟨evt, receive, hevt, hlabel, hcompat⟩ := hdeliver
  obtain ⟨es, send, hes, hsend, hdest, haccepts⟩ := (compatibleSend_iff g evt.thread receive c).mp hcompat
  have hread (s r : ℕ) := g.graph.rewire_readsFrom recv c s r
  constructor
  · intro h
    refine ⟨fun r hr => ?_, h.acyclic⟩
    by_contra hne
    exact hne (h.exclusive c r recv ((hread c r).mpr (by rwa [if_neg hne])) ((hread c recv).mpr (by rw [if_pos rfl])))
  · rintro ⟨hfree, hacyclic⟩
    refine ⟨?_, fun id e receive' he hlabel' => ?_, fun s r r' hr hr' => ?_, fun s r hr => ?_, hacyclic⟩
    · refine validEndpoints_set g.graph _ recv (.send c) rfl rfl ?_ (fun id hid => ?_) hc.endpoints
      · exact (isReceiveAt_iff g.graph recv).mpr ⟨evt, receive, hevt, hlabel⟩
      · cases hid
        exact (isSendAt_iff g.graph c).mpr ⟨es, send, hes, hsend⟩
    · show (tolerance id = false → (g.graph.readsFrom.set recv (.send c)).find id ≠ none) ∧
        (receive'.isBlocking = true → (g.graph.readsFrom.set recv (.send c)).find id ≠ some .bottom)
      rw [AscendingMap.find_set]
      split
      · exact ⟨fun _ => Option.some_ne_none _, fun _ => (nomatch ·)⟩
      · exact hc.assigned id e receive' he hlabel'
    · rw [hread] at hr hr'
      split at hr
      · rename_i heq
        split at hr'
        · rename_i heq'
          exact heq.trans heq'.symm
        · rename_i hne
          rw [hr] at hr'
          exact absurd (hfree r' hr') hne
      · rename_i hne
        split at hr'
        · rw [hr'] at hr
          exact absurd (hfree r hr) hne
        · exact hc.exclusive s r r' hr hr'
    · rw [hread] at hr
      split at hr
      · rename_i heq
        subst hr
        subst heq
        intro es' er' send' receive' hes' hsend' her' hreceive'
        rw [show (g.graph.rewire r s).events = g.graph.events from rfl] at hes' her'
        rw [hes] at hes'
        rw [hevt] at her'
        cases hes'
        cases her'
        rw [hsend] at hsend'
        rw [hlabel] at hreceive'
        cases hsend'
        cases hreceive'
        exact ⟨hdest, haccepts⟩
      · exact hc.delivered s r hr

end Rewired

end MustDpor

import MustDpor.Model.RestrictionReplay

/-! # Rewriting a read under the known-acyclic flag

The preserving variants of `with_rf` and `rebind_rf` keep the flag. That is sound where the receive does not reach
the send; restrictions carry the flag along. -/

namespace MustDpor
set_option autoImplicit false
open List Relation ExplorationGraph ExecutionGraph

variable {V : Type}

theorem acyclic_of_added_edge {α : Type} (R S : α → α → Prop) (source target : α)
    (h : ∀ x y, S x y → R x y ∨ x = source ∧ y = target) (hacyclic : ∀ a, ¬ TransGen R a a)
    (hback : ¬ ReflTransGen R target source) (a : α) : ¬ TransGen S a a := by
  have hpath : ∀ b, TransGen S a b → TransGen R a b ∨
      ReflTransGen R a source ∧ ReflTransGen R target b := by
    intro b hb
    induction hb with
    | single hstep =>
      rcases h _ _ hstep with hold | ⟨rfl, rfl⟩
      · exact .inl (.single hold)
      · exact .inr ⟨.refl, .refl⟩
    | tail _ hstep ih =>
      rcases h _ _ hstep with hold | ⟨rfl, rfl⟩
      · rcases ih with hpath | ⟨hfirst, hlast⟩
        · exact .inl (hpath.tail hold)
        · exact .inr ⟨hfirst, hlast.tail hold⟩
      · rcases ih with hpath | ⟨-, hlast⟩
        · exact .inr ⟨hpath.to_reflTransGen, .refl⟩
        · exact absurd hlast hback
  intro hcycle
  rcases hpath a hcycle with hold | ⟨hfirst, hlast⟩
  · exact hacyclic a hold
  · exact hback (hlast.trans hfirst)

namespace ExecutionGraph

/-- Program order and the entries between existing receives and sends. -/
def EventPorf (g : ExecutionGraph V) (a b : ℕ) : Prop :=
  g.ProgramOrder a b ∨ g.ReadsFrom a b ∧ g.isSendAt a = true ∧ g.isReceiveAt b = true

theorem eventPorf_eq (g : ExecutionGraph V) (h : g.ValidEndpoints) : g.EventPorf = g.Porf := by
  funext a b
  refine propext (or_congr Iff.rfl ⟨And.left, fun hread => ⟨hread, ?_⟩⟩)
  obtain ⟨hreceive, hsend⟩ := h b _ hread
  exact ⟨(isSendAt_iff g a).mpr (hsend a rfl), (isReceiveAt_iff g b).mpr hreceive⟩

/-- A copy of the graph in which `recv` reads `send`. -/
def rewire (g : ExecutionGraph V) (recv send : ℕ) : ExecutionGraph V :=
  { g with readsFrom := g.readsFrom.set recv (.send send) }

theorem rewire_readsFrom (g : ExecutionGraph V) (recv send s r : ℕ) :
    (g.rewire recv send).ReadsFrom s r ↔ if r = recv then s = send else g.ReadsFrom s r := by
  unfold ReadsFrom rewire
  rw [AscendingMap.find_set]
  split
  · rw [Option.some.injEq, ReadsFromSource.send.injEq]
    exact eq_comm
  · exact Iff.rfl

theorem rewire_acyclic_iff (g : ExecutionGraph V) (hacyclic : g.Acyclic) {recv send : ℕ} (hne : recv ≠ send) :
    (g.rewire recv send).Acyclic ↔ ¬ TransGen g.Porf recv send := by
  constructor
  · intro hrewired hpath
    -- a path away from `recv` does not come back to it, so the copy has it too
    have hkept : ∀ b, TransGen g.Porf recv b → TransGen (g.rewire recv send).Porf recv b := by
      intro b hb
      have hstep (x y : ℕ) (hxy : g.Porf x y) (hy : y ≠ recv) : (g.rewire recv send).Porf x y := by
        rcases hxy with hpo | hread
        · exact .inl hpo
        · exact .inr ((g.rewire_readsFrom recv send x y).mpr (by rwa [if_neg hy]))
      induction hb with
      | single hxy => exact .single (hstep _ _ hxy fun hy => hacyclic recv (.single (hy ▸ hxy)))
      | tail hpath hxy ih => exact ih.tail (hstep _ _ hxy fun hy => hacyclic recv (hy ▸ hpath.tail hxy))
    refine hrewired recv ((hkept send hpath).tail (.inr ((g.rewire_readsFrom recv send send recv).mpr ?_)))
    rw [if_pos rfl]
  · intro hunreached
    refine acyclic_of_added_edge g.Porf (g.rewire recv send).Porf send recv (fun x y hxy => ?_) hacyclic fun hback => ?_
    · rcases hxy with hpo | hread
      · exact .inl (.inl hpo)
      · rw [rewire_readsFrom] at hread
        split at hread
        · rename_i hy
          exact .inr ⟨hread, hy⟩
        · exact .inl (.inr hread)
    · rcases Relation.reflTransGen_iff_eq_or_transGen.mp hback with heq | hpath
      · exact hne heq.symm
      · exact hunreached hpath

end ExecutionGraph

variable {recv send : ℕ}

namespace ExplorationGraph

/-- When `with_rf_preserving_known_acyclicity` and `rebind_rf_preserving_known_acyclicity` may be used: on an
acyclic graph, for a receive that does not reach the send. -/
structure SafeRewrite (g : ExplorationGraph V) (recv send : ℕ) : Prop where
  isReceive : g.isReceiveId recv = true
  isSend : g.isSendId send = true
  acyclic : ∀ id, ¬ Relation.TransGen g.graph.EventPorf id id
  unreached : ¬ Relation.TransGen g.graph.EventPorf recv send

theorem Sane.rewritten (g g' : ExplorationGraph V) (h : g.Sane) (hsafe : g.SafeRewrite recv send)
    (hevents : g'.graph.events = g.graph.events)
    (hrf : g'.graph.readsFrom = g.graph.readsFrom.set recv (.send send)) : g'.Sane := by
  have hreceive := hsafe.isReceive
  have hsend := hsafe.isSend
  rw [isReceiveId_eq] at hreceive
  rw [isSendId_eq] at hsend
  have hunreached := hsafe.unreached
  rw [g.graph.eventPorf_eq h.endpoints] at hunreached
  refine ⟨validEndpoints_set g.graph g'.graph recv (.send send) hevents hrf hreceive ?_ h.endpoints, ?_⟩
  · intro id hid
    cases hid
    exact hsend
  have hne : recv ≠ send := by
    rintro rfl
    obtain ⟨er, receive, her, hlabel⟩ := (isReceiveAt_iff g.graph recv).mp hreceive
    obtain ⟨es, send', hes, hlabel'⟩ := (isSendAt_iff g.graph recv).mp hsend
    rw [her] at hes
    cases hes
    rw [hlabel] at hlabel'
    cases hlabel'
  have hacyclic := (g.graph.rewire_acyclic_iff h.acyclic hne).mpr hunreached
  unfold ExecutionGraph.Acyclic ExecutionGraph.Porf ExecutionGraph.ProgramOrder ExecutionGraph.ReadsFrom
  rw [hevents, hrf]
  exact hacyclic

theorem Truthful.withRfPreserving {g g' : ExplorationGraph V} (h : g.Truthful)
    (hsafe : g.SafeRewrite recv send) (hcopy : g.withRfPreservingKnownAcyclicity recv send = .ok g') : g'.Truthful := by
  obtain ⟨copy, hassign, rfl⟩ := copyWithRfSource_inv hcopy
  obtain ⟨hevents, hrf, -, -⟩ := assignReadsFrom_flag hassign
  refine ⟨fun hknown => ?_, nofun⟩
  have hflag : (g.knownAcyclic && g.isReceiveId recv && g.isSendId send) = true := hknown
  rw [Bool.and_eq_true, Bool.and_eq_true] at hflag
  exact (h.sane hflag.1.1).rewritten g _ hsafe hevents hrf

theorem Truthful.restricted {g g' : ExplorationGraph V} (h : g.Truthful) (ht : g.Tabulated) {mask : List Bool}
    (hreads : g.ReadsExist) (hrestrict : g.restrictMasked mask = .ok g') : g'.Truthful := by
  obtain ⟨hlen, built, remapped, -, -, hg'⟩ := restrictMasked_inv hrestrict
  obtain ⟨other, hother, hinduces⟩ := ht.restrictMasked_induces g hreads mask hlen
  rw [hrestrict] at hother
  cases hother
  refine ⟨fun hknown => ?_, fun id hid => by rw [hg'] at hid; cases hid⟩
  have hsane := h.sane (hinduces.flag ▸ hknown)
  exact ⟨hinduces.validEndpoints hsane.endpoints, hinduces.acyclic (ht.indexOrdered g) hsane.acyclic⟩

end ExplorationGraph

end MustDpor

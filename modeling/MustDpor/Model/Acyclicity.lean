import MustDpor.Model.Reachability

/-! # The known-acyclic flag

The flag skips the cycle test, so it has to be truthful: a graph that carries it has valid reads-from
endpoints and no causal cycle. The receive named as pending is the last event; an edge into it closes
no cycle, since nothing leaves it. -/

namespace MustDpor
set_option autoImplicit false
open List Relation ExecutionGraph WorkerGraph

variable {V : Type}

theorem transGen_of_leaving {α : Type} (R S : α → α → Prop)
    (h : ∀ x y z, S x y → S y z → R x y) (a b c : α) (hpath : TransGen S a b) (hleave : S b c) :
    TransGen R a b := by
  induction hpath generalizing c with
  | single hab => exact .single (h _ _ c hab hleave)
  | tail _ hlast ih => exact (ih _ hlast).tail (h _ _ c hlast hleave)

theorem acyclic_of_leaving {α : Type} {R S : α → α → Prop} (h : ∀ x y z, S x y → S y z → R x y)
    (hacyclic : ∀ a, ¬ TransGen R a a) (a : α) : ¬ TransGen S a a := by
  intro hcycle
  obtain ⟨b, hfirst, -⟩ := TransGen.head'_iff.mp hcycle
  exact hacyclic a (transGen_of_leaving R S h a a b hcycle hfirst)

namespace ExecutionGraph

theorem programOrder_congr (g g' : ExecutionGraph V)
    (h : ∀ id : ℕ, (g'.events[id]?).map (fun e => (e.thread, e.index))
      = (g.events[id]?).map (fun e => (e.thread, e.index))) (a b : ℕ) :
    g'.ProgramOrder a b ↔ g.ProgramOrder a b := by
  have hcoord : ∀ (f : ExecutionGraph V) (id : ℕ) (t i : ℕ),
      (f.events[id]?).map (fun e => (e.thread, e.index)) = some (t, i) ↔
        ∃ e, f.events[id]? = some e ∧ e.thread = t ∧ e.index = i := by
    intro f id t i
    rw [Option.map_eq_some_iff]
    simp only [Prod.mk.injEq]
  have hiff : ∀ f : ExecutionGraph V, f.ProgramOrder a b ↔ ∃ t i j,
      (f.events[a]?).map (fun e => (e.thread, e.index)) = some (t, i) ∧
        (f.events[b]?).map (fun e => (e.thread, e.index)) = some (t, j) ∧ i < j := by
    intro f
    simp only [hcoord]
    constructor
    · rintro ⟨ea, eb, ha, hb, hthread, hindex⟩
      exact ⟨ea.thread, ea.index, eb.index, ⟨ea, ha, rfl, rfl⟩, ⟨eb, hb, hthread.symm, rfl⟩, hindex⟩
    · rintro ⟨t, i, j, ⟨ea, ha, rfl, rfl⟩, ⟨eb, hb, hthread, rfl⟩, hindex⟩
      exact ⟨ea, eb, ha, hb, hthread.symm, hindex⟩
  rw [hiff g', hiff g, h a, h b]

end ExecutionGraph

namespace ExplorationGraph

structure Sane (g : ExplorationGraph V) : Prop where
  endpoints : g.graph.ValidEndpoints
  acyclic : g.graph.Acyclic

/-- The flag and the pending receive tell the truth. -/
structure Truthful (g : ExplorationGraph V) : Prop where
  sane : g.knownAcyclic = true → g.Sane
  pending : ∀ id, g.pendingFreshReceiveId = some id → id + 1 = g.eventCount

theorem empty_truthful : (empty : ExplorationGraph V).Truthful where
  sane := fun _ =>
    { endpoints := nofun
      acyclic := fun _ hcycle => by
        obtain ⟨_, hedge, -⟩ := TransGen.head'_iff.mp hcycle
        rcases hedge with ⟨_, _, ha, -⟩ | hread
        · cases ha
        · cases hread }
  pending := nofun

theorem Sane.congr {g g' : ExplorationGraph V} (h : g.Sane) (hevents : g'.graph.events = g.graph.events)
    (hrf : g'.graph.readsFrom = g.graph.readsFrom) : g'.Sane := by
  have hporf : g'.graph.Porf = g.graph.Porf := by
    funext a b
    unfold ExecutionGraph.Porf ExecutionGraph.ProgramOrder ExecutionGraph.ReadsFrom
    rw [hevents, hrf]
  constructor
  · unfold ExecutionGraph.ValidEndpoints
    rw [hevents, hrf]
    exact h.endpoints
  · unfold ExecutionGraph.Acyclic
    rw [hporf]
    exact h.acyclic

variable {g g' : ExplorationGraph V}

/-! ## Appending an event -/

theorem validEndpoints_concat {g g' : ExecutionGraph V} {e : Event V}
    (hevents : g'.events = g.events ++ [e]) (hrf : g'.readsFrom = g.readsFrom) (h : g.ValidEndpoints) :
    g'.ValidEndpoints := by
  have hold : ∀ (id : ℕ) (a : Event V), g.events[id]? = some a → g'.events[id]? = some a := by
    intro id a ha
    rw [hevents, getElem?_append_left (lt_of_getElem? ha)]
    exact ha
  intro recv source hfind
  rw [hrf] at hfind
  obtain ⟨⟨er, receive, her, hlabel⟩, hsource⟩ := h recv source hfind
  refine ⟨⟨er, receive, hold recv er her, hlabel⟩, fun sourceId hs => ?_⟩
  obtain ⟨es, send, hes, hsend⟩ := hsource sourceId hs
  exact ⟨es, send, hold sourceId es hes, hsend⟩

theorem acyclic_concat {g g' : ExecutionGraph V} {e : Event V} (hevents : g'.events = g.events ++ [e])
    (hordered : g'.IndexOrdered) (hreads : ∀ s r, g'.ReadsFrom s r → s < g.events.length ∧
      (r < g.events.length → g.ReadsFrom s r)) (h : g.Acyclic) : g'.Acyclic := by
  have hlength : g'.events.length = g.events.length + 1 := by
    rw [hevents, length_append, length_singleton]
  -- nothing leaves the new event
  refine acyclic_of_leaving (fun x y z hxy hyz => ?_) h
  have hy : y < g.events.length := by
    rcases hyz with hpo | hread
    · have hlt := ((hordered.programOrder_iff g' y z).mp hpo).1
      have := (ExecutionGraph.ProgramOrder.lt_length g' y z hpo).2
      omega
    · exact (hreads y z hread).1
  rcases hxy with hpo | hread
  · obtain ⟨ex, ey, hx, hy', hcoord⟩ := hpo
    have hx' : x < g.events.length :=
      lt_trans ((hordered.programOrder_iff g' x y).mp ⟨ex, ey, hx, hy', hcoord⟩).1 hy
    rw [hevents, getElem?_append_left hx'] at hx
    rw [hevents, getElem?_append_left hy] at hy'
    exact .inl ⟨ex, ey, hx, hy', hcoord⟩
  · exact .inr ((hreads x y hread).2 hy)

theorem Truthful.appended (h : g.Truthful) (ht : g.Tabulated) {thread index : ℕ}
    (label : EventLabel V) (hnext : g.graph.nextEventIndex thread = .ok index) :
    (g.appended thread index label).Truthful where
  sane := fun hknown =>
    { endpoints := validEndpoints_concat rfl rfl (h.sane hknown).endpoints
      acyclic := acyclic_concat rfl ((ht.appended label hnext).indexOrdered _) (fun s r hread =>
        ⟨(ValidEndpoints.porf_lt (h.sane hknown).endpoints s r (.inr hread)).1, fun _ => hread⟩) (h.sane hknown).acyclic }
  pending := by
    intro id hid
    have hcount : (g.appended thread index label).eventCount = g.eventCount + 1 := by
      show (g.graph.events ++ _).length = _
      rw [length_append]
      rfl
    rw [hcount]
    change (if g.knownAcyclic && label.isReceive then some g.eventCount else none) = some id at hid
    split at hid
    · cases hid
      rfl
    · cases hid

/-! ## Assigning a source -/

variable {recv : ℕ} {source : ReadsFromSource}

theorem assignReadsFrom_flag (h : g.assignReadsFrom recv source = .ok g') :
    g'.graph.events = g.graph.events ∧ g'.graph.readsFrom = g.graph.readsFrom.set recv source ∧
      g'.pendingFreshReceiveId = none ∧
      (g'.knownAcyclic = true → g.knownAcyclic = true ∧ g.pendingFreshReceiveId = some recv ∧
        g.isReceiveId recv = true ∧ ∀ id, source = .send id → g.isSendId id = true) := by
  unfold assignReadsFrom at h
  obtain ⟨rf, hrf, h⟩ := Except.bind_ok_iff.mp h
  obtain ⟨b, hb, h⟩ := Except.bind_ok_iff.mp h
  have hrf' := ReadsFromRelation.assign_inv hrf
  obtain ⟨a, ha, hb⟩ := Except.bind_ok_iff.mp hb
  -- the reader counts are all that the two adjustments touch
  have hmeta : b.graph = { g.graph with readsFrom := rf } ∧ b.knownAcyclic = g.knownAcyclic ∧
      b.pendingFreshReceiveId = g.pendingFreshReceiveId := by
    rcases adjust_cases ha with rfl | ⟨_, _, rfl⟩
    all_goals rcases adjust_cases hb with rfl | ⟨_, _, rfl⟩
    all_goals exact ⟨rfl, rfl, rfl⟩
  obtain ⟨hgraph, hknown, hpending⟩ := hmeta
  have hlabel : ∀ id, b.label? id = g.label? id := by
    intro id
    unfold label?
    rw [hgraph]
  have hreceive : b.isReceiveId recv = g.isReceiveId recv := by
    unfold isReceiveId
    rw [hlabel]
  have hsend : ∀ id, b.isSendId id = g.isSendId id := by
    intro id
    unfold isSendId
    rw [hlabel]
  have hsame : (b.updateAcyclicityAfterRfAssignment recv source).graph = b.graph := by
    obtain ⟨known, pending, hmeta⟩ := updateAcyclicity_eq_withMetadata b recv source
    rw [hmeta]
    rfl
  cases h
  rw [hsame, hgraph]
  refine ⟨rfl, hrf', ?_⟩
  unfold updateAcyclicityAfterRfAssignment
  split
  · exact ⟨rfl, (nomatch ·)⟩
  · rename_i hkept
    simp only [Bool.or_eq_true, Bool.not_eq_true', decide_eq_true_eq, not_or, Bool.not_eq_false,
      ne_eq, not_not] at hkept
    obtain ⟨⟨hkept, hpend⟩, hrecv⟩ := hkept
    rw [hknown] at hkept
    rw [hpending] at hpend
    rw [hreceive] at hrecv
    cases source with
    | bottom => exact ⟨rfl, fun _ => ⟨hkept, hpend, hrecv, nofun⟩⟩
    | send sourceId =>
      dsimp only
      split
      · exact ⟨rfl, (nomatch ·)⟩
      · rename_i hsource
        rw [hsend, Bool.not_eq_true', Bool.not_eq_false] at hsource
        refine ⟨rfl, fun _ => ⟨hkept, hpend, hrecv, fun id hid => ?_⟩⟩
        cases hid
        exact hsource

theorem isReceiveId_eq (g : ExplorationGraph V) (id : ℕ) : g.isReceiveId id = g.graph.isReceiveAt id :=
  isReceiveId_iff g id

theorem isSendId_eq (g : ExplorationGraph V) (id : ℕ) : g.isSendId id = g.graph.isSendAt id :=
  isSendId_iff g id

theorem validEndpoints_set (g g' : ExecutionGraph V) (recv : ℕ) (source : ReadsFromSource)
    (hevents : g'.events = g.events) (hrf : g'.readsFrom = g.readsFrom.set recv source)
    (hreceive : g.isReceiveAt recv = true) (hsend : ∀ id, source = .send id → g.isSendAt id = true)
    (h : g.ValidEndpoints) : g'.ValidEndpoints := by
  intro id other hfind
  rw [hrf, AscendingMap.find_set] at hfind
  rw [hevents]
  split at hfind
  · rename_i hid
    cases hfind
    subst hid
    exact ⟨(isReceiveAt_iff g id).mp hreceive,
      fun sourceId hs => (isSendAt_iff g sourceId).mp (hsend sourceId hs)⟩
  · exact h id other hfind

theorem acyclic_set_last {g g' : ExecutionGraph V}
    (hevents : g'.events = g.events) (hrf : g'.readsFrom = g.readsFrom.set recv source)
    (hordered : g.IndexOrdered) (hlast : recv + 1 = g.events.length)
    (hreceive : g.isReceiveAt recv = true) (hends : g'.ValidEndpoints) (h : g.Acyclic) :
    g'.Acyclic := by
  have hpo : ∀ x y, g'.ProgramOrder x y ↔ g.ProgramOrder x y :=
    programOrder_congr g g' fun id => by rw [hevents]
  refine acyclic_of_leaving (fun x y z hxy hyz => ?_) h
  have hy : y ≠ recv := by
    rintro rfl
    rcases hyz with hnext | hread
    · rw [hpo] at hnext
      have hlt := ((hordered.programOrder_iff g y z).mp hnext).1
      have := (ExecutionGraph.ProgramOrder.lt_length g y z hnext).2
      omega
    · -- a receive is no send
      obtain ⟨es, send, hes, hsend⟩ := (hends z _ hread).2 y rfl
      obtain ⟨er, receive, her, hlabel⟩ := (isReceiveAt_iff g y).mp hreceive
      rw [hevents, her] at hes
      cases hes
      rw [hlabel] at hsend
      cases hsend
  rcases hxy with hnext | hread
  · exact .inl ((hpo x y).mp hnext)
  · unfold ExecutionGraph.ReadsFrom at hread
    rw [hrf, AscendingMap.find_set, if_neg hy] at hread
    exact .inr hread

theorem Truthful.assignReadsFrom (h : g.Truthful) (ht : g.Tabulated)
    (hassign : g.assignReadsFrom recv source = .ok g') :
    g'.Truthful := by
  obtain ⟨hevents, hrf, hpending, hkept⟩ := assignReadsFrom_flag hassign
  refine ⟨fun hknown => ?_, fun id hid => by rw [hpending] at hid; cases hid⟩
  obtain ⟨hknown, hpend, hreceive, hsend⟩ := hkept hknown
  rw [isReceiveId_eq] at hreceive
  simp only [isSendId_eq] at hsend
  have hends := validEndpoints_set g.graph g'.graph recv source hevents hrf hreceive hsend
    (h.sane hknown).endpoints
  exact ⟨hends, acyclic_set_last hevents hrf (ht.indexOrdered g)
    (h.pending recv hpend) hreceive hends (h.sane hknown).acyclic⟩

/-! ## Copies -/

theorem acyclic_set_bottom {g g' : ExecutionGraph V} (hevents : g'.events = g.events)
    (hrf : g'.readsFrom = g.readsFrom.set recv .bottom) (h : g.Acyclic) : g'.Acyclic := by
  intro id hcycle
  refine h id (TransGen.mono (fun x y hxy => ?_) id id hcycle)
  rcases hxy with hpo | hread
  · exact .inl ((programOrder_congr g g' (fun id => by rw [hevents]) x y).mp hpo)
  · unfold ExecutionGraph.ReadsFrom at hread
    rw [hrf, AscendingMap.find_set] at hread
    split at hread
    · cases hread
    · exact .inr hread

theorem Truthful.withRf {recv send : ℕ} (hcopy : g.withRf recv send = .ok g') : g'.Truthful := by
  obtain ⟨copy, -, rfl⟩ := copyWithRfSource_inv hcopy
  exact ⟨(nomatch ·), nofun⟩

theorem Truthful.withBottomRf (h : g.Truthful) {recv : ℕ} (hcopy : g.withBottomRf recv = .ok g') : g'.Truthful := by
  obtain ⟨copy, hassign, rfl⟩ := copyWithRfSource_inv hcopy
  obtain ⟨hevents, hrf, -, -⟩ := assignReadsFrom_flag hassign
  refine ⟨fun hknown => ?_, nofun⟩
  obtain ⟨hknown, hreceive⟩ := (Bool.and_eq_true _ _).mp (hknown : (g.knownAcyclic && g.isReceiveId recv) = true)
  rw [isReceiveId_eq] at hreceive
  exact ⟨validEndpoints_set g.graph copy.graph recv .bottom hevents hrf hreceive nofun
    (h.sane hknown).endpoints, acyclic_set_bottom hevents hrf (h.sane hknown).acyclic⟩

theorem Sane.set (g g' : ExplorationGraph V) (h : g.Sane) {id : ℕ} (a b : Event V)
    (hrf : g'.graph.readsFrom = g.graph.readsFrom) (ha : g.graph.events[id]? = some a)
    (hevents : g'.graph.events = g.graph.events.set id b) (hkind : SameKind a b) : g'.Sane := by
  have hget : ∀ i : ℕ, g'.graph.events[i]? = if id = i then some b else g.graph.events[i]? := by
    intro i
    rw [hevents]
    by_cases hi : id = i
    · rw [if_pos hi, ← hi, getElem?_set_self (lt_of_getElem? ha)]
    · rw [if_neg hi, getElem?_set_ne hi]
  constructor
  · rw [← validEndpoints_iff, hrf]
    intro entry hentry
    have hok := (validEndpoints_iff g.graph).mpr h.endpoints entry hentry
    have hreceive : ∀ i, g'.graph.isReceiveAt i = g.graph.isReceiveAt i := by
      intro i
      unfold isReceiveAt
      rw [hget i]
      split
      · rename_i hi
        rw [← hi, ha]
        exact hkind.2.2.1.symm
      · rfl
    have hsend : ∀ i, g'.graph.isSendAt i = g.graph.isSendAt i := by
      intro i
      unfold isSendAt
      rw [hget i]
      split
      · rename_i hi
        rw [← hi, ha]
        exact hkind.2.2.2.symm
      · rfl
    unfold endpointsOk at hok ⊢
    simp only [hreceive, hsend]
    exact hok
  · have hpo := programOrder_congr g.graph g'.graph fun i => by
      rw [hget i]
      split
      · rename_i hi
        rw [← hi, ha]
        exact congrArg some (Prod.ext hkind.1.symm hkind.2.1.symm)
      · rfl
    intro i hcycle
    refine h.acyclic i (TransGen.mono (fun x y hxy => ?_) i i hcycle)
    rcases hxy with hnext | hread
    · exact .inl ((hpo x y).mp hnext)
    · unfold ExecutionGraph.ReadsFrom at hread
      rw [hrf] at hread
      exact .inr hread

theorem Truthful.withNdValue (h : g.Truthful) {ndEvent : ℕ} {value : V}
    (hcopy : g.withNdValue ndEvent value = .ok g') : g'.Truthful := by
  obtain ⟨e, nd, he, hlabel, rfl⟩ := withNdValue_inv hcopy
  refine ⟨fun hknown => ?_, fun id hid => ?_⟩
  · exact (h.sane hknown).set g _ e _ rfl he rfl
      ⟨rfl, rfl, by rw [hlabel]; rfl, by rw [hlabel]; rfl⟩
  · rw [h.pending id hid]
    exact (length_set ..).symm

end ExplorationGraph
end MustDpor

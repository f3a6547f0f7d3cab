import MustDpor.Algo.InsertionOrder
import MustDpor.Algo.Guarantees

/-! # No execution is published twice

Every complete execution below a call of VISIT is one that the call's graph leads to. The children of a call lead to
different executions: a receive has one source to go on with, a choice one value, and where a receive waits for a
send there is one receive to revisit, and no other way to go on with the send. -/

namespace MustDpor
set_option autoImplicit false
open List

variable {V : Type}

/-- A terminal of kind Full or Blocked. -/
def Terminal.Complete (t : Terminal V) : Prop := t.kind = .full ∨ t.kind = .blocked

/-! ## Forests with different executions -/

def Distinct (terminals : List (Terminal V)) : Prop :=
  terminals.Pairwise fun t t' => t.Complete → t'.Complete → t.graph.graph.execution ≠ t'.graph.graph.execution

/-- Leaves with different executions, all of which have a property. -/
structure Spread (P : Execution V → Prop) (f : Search V) : Prop where
  distinct : Distinct f.leaves
  covered : ∀ t ∈ f.leaves, t.Complete → P t.graph.graph.execution

section Spread
variable {P Q : Execution V → Prop} {f f' : Search V}

theorem spread_of_no_leaves (h : f.leaves = []) : Spread P f := by
  refine ⟨?_, fun t ht => ?_⟩
  · unfold Distinct
    rw [h]
    exact List.Pairwise.nil
  · rw [h] at ht
    cases ht

theorem spread_leaf {t : Terminal V} (h : t.Complete → P t.graph.graph.execution) : Spread P
    (.leaf t .nil : Search V) := by
  refine ⟨pairwise_singleton _ t, fun t' ht' => ?_⟩
  rw [mem_singleton.mp ht']
  exact h

theorem Spread.node (call : Call V) (h : Spread P f) : Spread P (.node call f .nil) := by
  have hleaves : (Forest.node call f .nil : Search V).leaves = f.leaves := append_nil _
  refine ⟨?_, fun t ht => h.covered t (hleaves ▸ ht)⟩
  rw [hleaves]
  exact h.distinct

theorem Spread.imp (h : Spread P f) (himp : ∀ x, P x → Q x) : Spread Q f :=
  ⟨h.distinct, fun t ht hcomplete => himp _ (h.covered t ht hcomplete)⟩

theorem Spread.append (h : Spread P f) (h' : Spread Q f') (hdisjoint : ∀ x, P x → Q x → False) :
    Spread (fun x => P x ∨ Q x) (f ++ f') := by
  refine ⟨?_, fun t ht hcomplete => ?_⟩
  · unfold Distinct
    rw [Forest.leaves_append, pairwise_append]
    refine ⟨h.distinct, h'.distinct, fun t ht t' ht' hcomplete hcomplete' hsame => ?_⟩
    exact hdisjoint _ (h.covered t ht hcomplete) (hsame ▸ h'.covered t' ht' hcomplete')
  · rw [Forest.leaves_append] at ht
    exact (mem_append.mp ht).imp (h.covered t · hcomplete) (h'.covered t · hcomplete)

end Spread

/-! ## Regions -/

variable {tid : ℕ} {receive : ReceiveLabel V}

section Regions
variable [LinearOrder V] (config : DporConfig V) (g : ExplorationGraph V)

/-- The executions that a graph leads to. -/
def Region (x : Execution V) : Prop := x.Consistent config.communicationModel ∧ ∃ waiting, Leads x g.graph waiting

/-- Those that it leads to with a given next event. -/
def StepRegion (tid : ℕ) (n : Node V) (x : Execution V) : Prop :=
  x.Consistent config.communicationModel ∧ ∃ before after, Leads x g.graph before ∧
    ApproachStep x (g.graph.execution.on g.graph.order) (tid, threadCount g.graph.events tid) n before after

/-- Those for which a receive waits for a send. -/
def RevisitRegion (r s : Pos) (x : Execution V) : Prop :=
  x.Consistent config.communicationModel ∧ ∃ below, Leads x g.graph ((r, s) :: below)

variable {config g}

variable {x : Execution V}

theorem StepRegion.region {n : Node V} (h : StepRegion config g tid n x) : Region config g x := by
  obtain ⟨hx, before, -, hleads, -⟩ := h
  exact ⟨hx, before, hleads⟩

variable {r : Pos}

theorem RevisitRegion.region {s : Pos} (h : RevisitRegion config g r s x) : Region config g x :=
  ⟨h.1, _, h.2.choose_spec⟩

theorem RevisitRegion.unique {r' s : Pos} (h : RevisitRegion config g r s x)
    (h' : RevisitRegion config g r' s x) : r = r' := by
  obtain ⟨hx, below, hleads⟩ := h
  obtain ⟨-, below', hleads'⟩ := h'
  have hsame := Approach.unique hx hleads hleads'
  exact (Prod.mk.inj (cons.inj hsame).1).1

theorem RevisitRegion.not_step {n : Node V}
    (h : RevisitRegion config g r (tid, threadCount g.graph.events tid) x) (hlabel : n.label.isReceive = false)
    (h' : StepRegion config g tid n x) : False := by
  obtain ⟨hx, below, hleads⟩ := h
  obtain ⟨-, before, after, hleads', hstep⟩ := h'
  obtain rfl := Approach.unique hx hleads hleads'
  cases hstep with
  | wanted _ _ _ hwanted _ => exact hx.acyclic _ hwanted
  | spare _ _ _ _ _ _ _ hne _ => exact hne rfl
  | read | wait => cases hlabel

theorem StepRegion.source_unique {source source' : PosSource}
    (h : StepRegion config g tid ⟨.receive receive, some source⟩ x)
    (h' : StepRegion config g tid ⟨.receive receive, some source'⟩ x)
    (hsource : ∀ m, source = .send m → m ∈ g.graph.order ∧ g.graph.execution m ≠ none)
    (hsource' : ∀ m, source' = .send m → m ∈ g.graph.order ∧ g.graph.execution m ≠ none) : source = source' := by
  obtain ⟨hx, before, after, hleads, hstep⟩ := h
  obtain ⟨-, before', after', hleads', hstep'⟩ := h'
  obtain rfl := Approach.unique hx hleads hleads'
  refine hstep.source_unique hstep' (fun m hm => ?_) fun m hm => ?_
  · rw [Execution.on_mem (hsource m hm).1]
    exact (hsource m hm).2
  · rw [Execution.on_mem (hsource' m hm).1]
    exact (hsource' m hm).2

theorem StepRegion.choice_unique {choices : List V} {value value' : V}
    (h : StepRegion config g tid ⟨.nondeterministicChoice ⟨value, choices⟩, none⟩ x)
    (h' : StepRegion config g tid ⟨.nondeterministicChoice ⟨value', choices⟩, none⟩ x) (hchoices : choices ≠ []) :
    value = value' := by
  obtain ⟨hx, before, after, hleads, hstep⟩ := h
  obtain ⟨-, before', after', hleads', hstep'⟩ := h'
  obtain rfl := Approach.unique hx hleads hleads'
  exact hstep.choice_unique hstep' hchoices

end Regions

/-! ## The children of a call -/

section Children
variable [LinearOrder V] {config : DporConfig V} {tids : List ℕ} {g : ExplorationGraph V} {depth : ℕ}
  {recur : ExplorationGraph V → ℕ → Search V}
  (hrecur : ∀ child d, Explored config child d → Spread (Region config child) (recur child d))
include hrecur

theorem guarded_spread {child : ExplorationGraph V} {d : ℕ} (h : Prepared config child d) :
    (Explored config child d ∧
      Spread (Region config child) (guarded (Queries.ofConfig config tids) recur child d)) ∨
    (guarded (Queries.ofConfig config tids) recur child d).leaves = [] := by
  rcases guarded_cases h.truthful h.tabulated tids recur d with ⟨hconsistent, marks, heq⟩ | ⟨-, heq⟩
  · rw [heq]
    have hspread := (hrecur _ d (h.marked marks hconsistent)).node ⟨child, d, .visitIfConsistent⟩
    refine .inl ⟨⟨h, hconsistent⟩, ?_⟩
    cases marks <;> exact hspread
  · rw [heq]
    exact .inr rfl

theorem extended_spread (h : Explored config g depth) {returned label : EventLabel V}
    (hfound : NextFound config tids g tid returned) (hbecomes : Becomes returned label)
    (hreceive : label.isReceive = false) (herror : label.isError = false) (hopen : label.isBlock = false) :
    Spread (StepRegion config g tid ⟨label, none⟩) (extended recur g depth tid label) := by
  unfold extended
  rcases h.legal.addEvent_cases tid label with ⟨e, hadd, -⟩ | ⟨child, hadd, hgrows⟩
  · rw [hadd]
    exact spread_of_no_leaves rfl
  · rw [hadd]
    have hchild := hfound.grown h hgrows hbecomes hreceive herror
    refine (hrecur child _ hchild).imp ?_
    rintro x ⟨hx, waiting, hleads⟩
    obtain ⟨before, hbefore, hstep⟩ := (hgrows.leads_iff h nofun hopen).mp hleads
    exact ⟨hx, before, waiting, hbefore, hstep⟩

theorem block_spread (h : Explored config g depth)
    (hblocking : receive.isBlocking = true) (hfound : NextFound config tids g tid (.receive receive)) :
    Spread (Region config g) (extended recur g depth tid .block) := by
  unfold extended
  rcases h.legal.addEvent_cases tid .block with ⟨e, hadd, -⟩ | ⟨child, hadd, hgrows⟩
  · rw [hadd]
    exact spread_of_no_leaves rfl
  · rw [hadd]
    have hchild := hfound.grown h hgrows (.blocked receive hblocking) rfl rfl
    refine (hrecur child _ hchild).imp ?_
    rintro x ⟨hx, waiting, hleads⟩
    exact ⟨hx, waiting, (hgrows.leads_block h).mp hleads⟩

theorem choiceChildren_spread (h : Explored config g depth) {nd : NondeterministicChoiceLabel V}
    (hfound : NextFound config tids g tid (.nondeterministicChoice nd)) (hne : nd.choices ≠ []) {choices : List V}
    (hnodup : choices.Nodup) (hchoices : ∀ v ∈ choices, v ∈ nd.choices) :
    Spread (fun x => ∃ v ∈ choices, StepRegion config g tid
        ⟨.nondeterministicChoice ⟨v, eraseDuplicateNdChoices nd.choices⟩, none⟩ x)
      (choiceChildren recur g depth tid { nd with choices := eraseDuplicateNdChoices nd.choices } choices) := by
  induction choices with
  | nil => exact spread_of_no_leaves rfl
  | cons choice rest ih =>
    obtain ⟨hnot, hnodup⟩ := nodup_cons.mp hnodup
    unfold choiceChildren
    have hfirst := extended_spread hrecur h hfound
      (.choice nd choice (hchoices choice mem_cons_self)) rfl rfl rfl
    refine (hfirst.append (ih hnodup fun v hv => hchoices v (mem_cons_of_mem _ hv)) ?_).imp ?_
    · rintro x hstep ⟨v, hv, hstep'⟩
      obtain rfl := hstep.choice_unique hstep' (eraseDuplicateNdChoices_ne_nil nd.choices hne)
      exact hnot hv
    · rintro x (hstep | ⟨v, hv, hstep⟩)
      · exact ⟨choice, mem_cons_self, hstep⟩
      · exact ⟨v, mem_cons_of_mem _ hv, hstep⟩

theorem receiveChild_spread (h : Explored config g depth)
    (hfound : NextFound config tids g tid (.receive receive)) (source : ReadsFromSource)
    (hsource : ∀ id, source = .send id → id < g.eventCount) :
    Spread (StepRegion config g tid ⟨.receive receive, g.graph.posSource source⟩)
      (receiveChild (Queries.ofConfig config tids) recur g depth tid receive source) := by
  unfold receiveChild
  rcases h.legal.withReceive_cases tid receive source with ⟨e, hadd, -⟩ | ⟨child, hadd, hgrows⟩
  · rw [hadd]
    exact spread_of_no_leaves rfl
  · rw [hadd]
    have hsource' (id : ℕ) (hid : some source = some (.send id)) : id < g.eventCount := hsource id (Option.some.inj hid)
    have hprepared := h.prepared_grown hgrows hsource' hfound.isOpen hfound.limit
      hfound.answers (.receive receive) rfl
    rcases guarded_spread hrecur hprepared with ⟨-, hspread⟩ | hempty
    · refine hspread.imp ?_
      rintro x ⟨hx, waiting, hleads⟩
      obtain ⟨before, hbefore, hstep⟩ := (hgrows.leads_iff h hsource' rfl).mp hleads
      exact ⟨hx, before, waiting, hbefore, hstep⟩
    · exact spread_of_no_leaves hempty

variable {send : SendLabel V}

omit hrecur in
theorem Explored.send_mem_order (h : Explored config g depth) {id : ℕ} {es : Event V}
    (hes : g.graph.events[id]? = some es) (hsend : es.label = .send send) :
    (es.thread, es.index) ∈ g.graph.order ∧ g.graph.execution (es.thread, es.index) ≠ none := by
  have hnode := (h.tabulated.indexOrdered g).execution_event hes
  refine ⟨((h.tabulated.indexOrdered g).mem_order g.graph _).mpr ⟨_, hnode, by rw [hsend]; rfl⟩, ?_⟩
  rw [hnode]
  exact Option.some_ne_none _

omit hrecur in
theorem Receivable.place (h : Explored config g depth) {id : ℕ}
    (hid : Receivable g tid receive id) : id < g.eventCount ∧ ∃ p, g.graph.posAt id = some p ∧ p ∈ g.graph.order ∧
      g.graph.execution p ≠ none := by
  obtain ⟨es, send, hes, hsend, -⟩ := (compatibleSend_iff g tid receive id).mp hid.1
  exact ⟨lt_of_getElem? hes, _, (g.graph.posAt_eq_some id _).mpr ⟨es, hes, rfl⟩,
    h.send_mem_order hes hsend⟩

theorem candidateChildren_spread (h : Explored config g depth)
    (hfound : NextFound config tids g tid (.receive receive)) {candidates : List ℕ} (hnodup : candidates.Nodup)
    (hcandidates : ∀ id ∈ candidates, Receivable g tid receive id) :
    Spread (fun x => ∃ id ∈ candidates, StepRegion config g tid ⟨.receive receive, g.graph.posSource (.send id)⟩ x)
      (candidateChildren (Queries.ofConfig config tids) recur g depth tid receive candidates) := by
  induction candidates with
  | nil => exact spread_of_no_leaves rfl
  | cons id rest ih =>
    obtain ⟨hnot, hnodup⟩ := nodup_cons.mp hnodup
    obtain ⟨hlt, p, hp, hplace⟩ := (hcandidates id mem_cons_self).place h
    unfold candidateChildren
    have hfirst := receiveChild_spread hrecur h hfound (.send id) fun id' hid => by
      cases hid
      exact hlt
    refine (hfirst.append (ih hnodup fun id' hid => hcandidates id' (mem_cons_of_mem _ hid)) ?_).imp ?_
    · rintro x hstep ⟨id', hid', hstep'⟩
      obtain ⟨-, p', hp', hplace'⟩ := (hcandidates id' (mem_cons_of_mem _ hid')).place h
      rw [ExecutionGraph.posSource, hp] at hstep
      rw [ExecutionGraph.posSource, hp'] at hstep'
      have hsame := hstep.source_unique hstep' (fun m hm => by cases hm; exact hplace) fun m hm => by
        cases hm
        exact hplace'
      cases hsame
      obtain rfl := (h.tabulated.indexOrdered g).posAt_injective hp hp'
      exact hnot hid'
    · rintro x (hstep | ⟨id', hid', hstep⟩)
      · exact ⟨id, mem_cons_self, hstep⟩
      · exact ⟨id', mem_cons_of_mem _ hid', hstep⟩

theorem receive_spread (h : Explored config g depth) (hfound : NextFound config tids g tid (.receive receive)) :
    Spread (Region config g)
      (eventChildren (Queries.ofConfig config tids) recur g depth tid (.receive receive)) := by
  show Spread (Region config g) (candidateChildren _ recur g depth tid receive (compatibleUnreadSendIds g tid receive) ++
    bottomChild _ recur g depth tid receive)
  have hmem (id : ℕ) (hid : id ∈ compatibleUnreadSendIds g tid receive) : Receivable g tid receive id :=
    (mem_compatibleUnreadSendIds g h.tabulated h.counted tid receive id).mp hid
  have hnodup : (compatibleUnreadSendIds g tid receive).Nodup := by
    unfold compatibleUnreadSendIds
    rw [(h.tabulated.matchesScan g h.counted).unread]
    exact ((positions_nodup _ _).filter _).filter _
  have hcandidates := candidateChildren_spread hrecur h hfound hnodup hmem
  have hbottom : Spread (StepRegion config g tid ⟨.receive receive, some .bottom⟩)
      (bottomChild (Queries.ofConfig config tids) recur g depth tid receive) := by
    unfold bottomChild
    split
    · exact receiveChild_spread hrecur h hfound .bottom fun id hid => by cases hid
    · exact spread_of_no_leaves rfl
  refine (hcandidates.append hbottom ?_).imp ?_
  · rintro x ⟨id, hid, hstep⟩ hstep'
    obtain ⟨-, p, hp, hplace⟩ := (hmem id hid).place h
    rw [ExecutionGraph.posSource, hp] at hstep
    have hsame := hstep.source_unique hstep' (fun m hm => by cases hm; exact hplace) fun m hm => by cases hm
    cases hsame
  · rintro x (⟨id, -, hstep⟩ | hstep)
    · exact hstep.region
    · exact hstep.region

theorem revisitChildren_spread (h : Explored config g depth)
    {grown : ExplorationGraph V} (hgrows : Grows g tid (.send send) none grown)
    (hgrown : Explored config grown (depth + 1)) {receives : List ℕ} (hnodup : receives.Nodup)
    (hreceives : ∀ r ∈ receives, r ∈ positions grown.graph.events (receiveIn send.destination)) :
    Spread (fun x => ∃ r ∈ receives, ∃ p, grown.graph.posAt r = some p ∧
        RevisitRegion config g p (tid, threadCount g.graph.events tid) x)
      (revisitChildren (Queries.ofConfig config tids) recur grown depth g.eventCount receives) := by
  induction receives with
  | nil => exact spread_of_no_leaves rfl
  | cons r rest ih =>
    obtain ⟨hnot, hnodup⟩ := nodup_cons.mp hnodup
    have ih := ih hnodup fun r' hr' => hreceives r' (mem_cons_of_mem _ hr')
    have hlater (x : Execution V) (hx : ∃ r' ∈ rest, ∃ p, grown.graph.posAt r' = some p ∧
        RevisitRegion config g p (tid, threadCount g.graph.events tid) x) : ∃ r' ∈ r :: rest, ∃ p,
        grown.graph.posAt r' = some p ∧ RevisitRegion config g p (tid, threadCount g.graph.events tid) x := by
      obtain ⟨r', hr', hp⟩ := hx
      exact ⟨r', mem_cons_of_mem _ hr', hp⟩
    have hes := hgrows.getElem?_last
    have hfresh := hgrows.freshSend h.legal
    obtain ⟨er, her, hin⟩ := (mem_positions _ _ _).mp (hreceives r mem_cons_self)
    obtain ⟨hthread, hreceive⟩ := (Bool.and_eq_true _ _).mp hin
    obtain ⟨receive, hreceive⟩ := (EventLabel.isReceive_iff _).mp hreceive
    have hpos : grown.graph.posAt r = some (er.thread, er.index) := (grown.graph.posAt_eq_some r _).mpr ⟨er, her, rfl⟩
    unfold revisitChildren
    rw [show (Queries.ofConfig config tids).revisitReceive grown g.eventCount r =
      revisitReceive grown config.communicationModel g.eventCount r from rfl]
    rcases hfresh.revisitReceive_ok her hreceive hes rfl
      with ⟨revisited, mask, hrevisited, hrevisits, hto⟩ | ⟨hnone, -⟩
    · rw [hrevisited]
      have hprepared := hgrown.revisited hfresh hrevisits hto fun er' es' send' her' hes'
          hsend' => by
        rw [her] at her'
        cases her'
        rw [hes] at hes'
        cases hes'
        cases hsend'
        exact (of_decide_eq_true hthread).symm
      have hfirst : Spread (RevisitRegion config g (er.thread, er.index) (tid, threadCount g.graph.events tid))
          (guarded (Queries.ofConfig config tids) recur revisited (depth + 1)) := by
        rcases guarded_spread hrecur hprepared with ⟨hexplored, hspread⟩ | hempty
        · refine hspread.imp ?_
          rintro x ⟨hx, waiting, hleads⟩
          exact ⟨hx, waiting, hto.leads h hgrows hgrown hrevisits hexplored hx her hleads⟩
        · exact spread_of_no_leaves hempty
      refine (hfirst.append ih ?_).imp ?_
      · rintro x hregion ⟨r', hr', p, hp, hregion'⟩
        obtain rfl := hregion.unique hregion'
        obtain rfl := (hgrown.tabulated.indexOrdered grown).posAt_injective hpos hp
        exact hnot hr'
      · rintro x (hregion | hregion)
        · exact ⟨r, mem_cons_self, _, hpos, hregion⟩
        · exact hlater x hregion
    · rw [hnone]
      exact ih.imp hlater

theorem send_spread (h : Explored config g depth) (hfound : NextFound config tids g tid (.send send)) :
    Spread (Region config g) (sendChildren (Queries.ofConfig config tids) recur g depth tid send) := by
  unfold sendChildren
  rcases h.legal.addEvent_cases tid (.send send) with ⟨e, hadd, -⟩ | ⟨child, hadd, hgrows⟩
  · rw [hadd]
    exact spread_of_no_leaves rfl
  · rw [hadd]
    have hchild := hfound.grown h hgrows (.send send) rfl rfl
    have hreceives := hgrows.tabulated.receives_eq child send.destination
    have hrevisits : Spread _ (revisitChildren (Queries.ofConfig config tids) recur child depth g.eventCount
        (child.receiveEventIdsByThread send.destination)) :=
      revisitChildren_spread hrecur h hgrows hchild (by rw [hreceives]; exact positions_nodup _ _)
        fun r hr => hreceives ▸ hr
    have hforward : Spread (StepRegion config g tid ⟨.send send, none⟩) (recur child (depth + 1)) := by
      refine (hrecur child _ hchild).imp ?_
      rintro x ⟨hx, waiting, hleads⟩
      obtain ⟨before, hbefore, hstep⟩ := (hgrows.leads_iff h nofun rfl).mp hleads
      exact ⟨hx, before, waiting, hbefore, hstep⟩
    refine (hrevisits.append hforward ?_).imp ?_
    · rintro x ⟨r, -, p, -, hregion⟩ hstep
      exact hregion.not_step rfl hstep
    · rintro x (⟨r, -, p, -, hregion⟩ | hstep)
      · exact hregion.region
      · exact hstep.region

omit hrecur in
theorem error_spread (P : Execution V → Prop) (tid : ℕ) (error : ErrorLabel) :
    Spread P (eventChildren (Queries.ofConfig config tids) recur g depth tid (.error error)) := by
  unfold eventChildren
  dsimp only
  cases g.addEvent tid (.error error) with
  | error e => exact spread_of_no_leaves rfl
  | ok added =>
    refine spread_leaf fun hcomplete => ?_
    rcases hcomplete with hkind | hkind
    · cases hkind
    · cases hkind

theorem eventChildren_spread (h : Explored config g depth) {tid : ℕ} {returned : EventLabel V}
    (hfound : NextFound config tids g tid returned) (hlabel : returned ≠ .block) :
    Spread (Region config g)
      (eventChildren (Queries.ofConfig config tids) recur g depth tid (eventFor g tid returned)) := by
  cases returned with
  | block => exact absurd rfl hlabel
  | error error => exact error_spread _ tid error
  | send send => exact send_spread hrecur h hfound
  | nondeterministicChoice nd =>
    show Spread (Region config g) (if nd.choices.isEmpty then _ else _)
    by_cases hempty : nd.choices.isEmpty = true
    · rw [if_pos hempty]
      exact (extended_spread hrecur h hfound (.free nd (isEmpty_iff.mp hempty)) rfl rfl rfl).imp
        fun x hstep => hstep.region
    · rw [if_neg hempty]
      refine (choiceChildren_spread hrecur h hfound (fun hnil => hempty (isEmpty_iff.mpr hnil))
        (nodup_eraseDuplicateNdChoices nd.choices) fun v hv => (mem_eraseDuplicateNdChoices nd.choices v).mp hv).imp ?_
      rintro x ⟨v, -, hstep⟩
      exact hstep.region
  | receive receive =>
    unfold eventFor
    dsimp only
    split
    · rename_i hblocks
      exact block_spread hrecur h ((Bool.and_eq_true _ _).mp hblocks).1 hfound
    · exact receive_spread hrecur h hfound

omit hrecur in
theorem Explored.rescheduleChild_leads (h : Explored config g depth) {ids : List ℕ} {child : ExplorationGraph V}
    (hchild : rescheduleChild (Queries.ofConfig config tids) g ids = .ok (some child)) :
    Explored config child depth ∧
      ∀ target waiting, Leads target child.graph waiting ↔ Leads target g.graph waiting := by
  obtain ⟨tid, -, hready⟩ := rescheduleChild_inv _ hchild
  change MustDpor.rescheduleThread config.program g tid = .ok (some child) at hready
  rcases rescheduleThread_ok h.tabulated h.counted h.consistent.async.endpoints h.replays tid with
    ⟨hnone, -⟩ | ⟨id, found, hlast, hblock, hsome, hrestrict, hto⟩
  · cases hnone.symm.trans hready
  · cases hsome.symm.trans hready
    exact ⟨h.rescheduled hlast hblock hrestrict hto, fun target waiting => h.leads_unblocked hblock hto⟩

theorem visitBody_spread (hthreads : ThreadsOf config.program tids) (h : Explored config g depth) :
    Spread (Region config g)
      (visitBody (Queries.ofConfig config tids) tids config.maxDepth recur g depth) := by
  unfold visitBody
  split
  · exact spread_leaf fun hcomplete => hcomplete.elim (fun hkind => (nomatch hkind)) fun hkind => (nomatch hkind)
  · have hscanned := h.computeNextEvent_scanned hthreads
    rw [show (Queries.ofConfig config tids).computeNextEvent g =
      computeNextEvent config.program g tids config.maxThreadEvents from rfl]
    generalize computeNextEvent config.program g tids config.maxThreadEvents = next at hscanned ⊢
    cases hscanned with
    | refused tid _ _ _ _ => exact spread_of_no_leaves rfl
    | found tid label flag hmem hopen hlimit hanswers hlabel =>
      exact eventChildren_spread hrecur h ⟨hmem, hopen, hlimit, hanswers⟩ hlabel
    | exhausted flag _ _ =>
      dsimp only
      cases hchild : rescheduleChild (Queries.ofConfig config tids) g tids with
      | error e => exact spread_of_no_leaves rfl
      | ok found =>
        cases found with
        | none => exact spread_leaf fun _ => ⟨h.execution_consistent, [], h.leads_self⟩
        | some child =>
          obtain ⟨hexplored, hleads⟩ := h.rescheduleChild_leads hchild
          refine (hrecur child depth hexplored).imp ?_
          rintro x ⟨hx, waiting, hwaiting⟩
          exact ⟨hx, waiting, (hleads x waiting).mp hwaiting⟩

end Children

theorem visit_spread [LinearOrder V] (config : DporConfig V) (tids : List ℕ)
    (hthreads : ThreadsOf config.program tids) (g : ExplorationGraph V) (depth : ℕ) (h : Explored config g depth) :
    Spread (Region config g) (visit (Queries.ofConfig config tids) tids config.maxDepth g depth) := by
  unfold visit
  generalize visitCalls config.maxDepth g depth = calls
  induction calls generalizing g depth with
  | zero => exact spread_of_no_leaves rfl
  | succ calls ih =>
    unfold visitWithin
    exact (visitBody_spread ih hthreads h).node _

/-- A run returns, and no two of the Full and Blocked terminals that it publishes have the same events, with the same
labels and chosen values, that read from the same places. -/
theorem complete_terminals_distinct [LinearOrder V] (config : DporConfig V)
    (observer : List (Terminal V) → TerminalExecutionAction) (threadIds : List ℕ)
    (hthreads : sortedThreadIds config.program = .ok threadIds) :
    ∃ exit, Verifies config observer exit ∧ (∀ other, Verifies config observer other → other = exit) ∧
      exit.terminals.Pairwise fun t t' => t.Complete → t'.Complete →
        t.graph.graph.execution ≠ t'.graph.graph.execution := by
  obtain ⟨exit, hexit, hunique⟩ := Verifies.exists_unique observer hthreads
  refine ⟨exit, hexit, hunique, ?_⟩
  have hspread := visit_spread config threadIds (threadsOf_sorted config.program threadIds hthreads) _ 0
    (explored_empty config)
  rw [(Verifies.follows observer hthreads exit hexit).terminals]
  exact hspread.distinct.sublist ((observed_isPrefix _ _ _).trans (Forest.answers_isPrefix _)).sublist

/-- Two threads send to a third, which receives once. -/
def raceProgram : Program ℕ :=
  ⟨⟨[some fun _ step => if step = 0 then some (.send ⟨1, 0⟩) else none,
    some fun _ step => if step = 0 then some (.receive ⟨.blocking, fun _ => true⟩) else none,
    some fun _ step => if step = 0 then some (.send ⟨1, 2⟩) else none]⟩⟩

def raceConfig : DporConfig ℕ := ⟨raceProgram, 10, 0, .async⟩

theorem race_terminals_distinct :
    ∃ exit, Verifies raceConfig (fun _ => .continue) exit ∧
      exit.terminals.map Terminal.kind = [.full, .full] ∧
      exit.terminals.Pairwise fun t t' => t.Complete → t'.Complete →
        t.graph.graph.execution ≠ t'.graph.graph.execution := by
  obtain ⟨exit, hexit, -, hdistinct⟩ := complete_terminals_distinct raceConfig (fun _ => .continue) [0, 1, 2] rfl
  refine ⟨exit, hexit, ?_, hdistinct⟩
  rw [(Verifies.follows (fun _ => .continue) rfl exit hexit).terminals]
  decide +kernel

end MustDpor

import MustDpor.Model.KnownAcyclic

/-! # Calls that throw

`set_reads_from_source` and `rebind_rf` store their entry before they update the reader counts. Where the count of
the old source underflows they throw, and the object they leave has the new entry with the flag of the old graph;
`rebind_rf` leaves the cache of the old graph as well. No count underflows as long as no send is added under an id
that an entry or an rf undo record names. In runs that keep to this, with the calls that throw, the flag is sound,
the cache is that of the graph, the two checkers agree and so do the three cycle detectors. -/

namespace MustDpor
set_option autoImplicit false
open List ExplorationGraph ExecutionGraph

variable {V : Type}

/-- The calls that work on the object itself; rollbacks are kept apart. -/
def GraphCall.InPlace : GraphCall V → Prop
  | .op (.addEvent _ _) => True
  | .op (.setReadsFromSource _ _) => True
  | .op (.rebindRf _ _ _) => True
  | .op (.rebindRfPreservingKnownAcyclicity _ _) => True
  | .op _ => False
  | _ => True

/-- The calls that make another object. -/
def GraphCall.Derives : GraphCall V → Prop
  | .op (.restrict _) => True
  | .op (.withRf _ _) => True
  | .op (.withRfPreservingKnownAcyclicity _ _) => True
  | .op (.withBottomRf _) => True
  | .op (.withNdValue _ _) => True
  | .op .copy => True
  | _ => False

namespace CachedGraph

/-- The objects that allowed calls lead to, returning or throwing, with the objects at which the checkpoints of the
current history were taken, the latest first. A call that should make another object and throws makes none. -/
inductive Attempted (allowed : CachedGraph V → GraphCall V → Prop) : List (CachedGraph V) → CachedGraph V → Prop
  | empty : Attempted allowed [] empty
  | checkpoint (taken : List (CachedGraph V)) (m : CachedGraph V) :
    Attempted allowed taken m → Attempted allowed (m :: taken) m
  | rollback (newer older : List (CachedGraph V)) (v m m' : CachedGraph V) :
    Attempted allowed (newer ++ v :: older) m → m.rollback v.checkpoint = .ok m' → Attempted allowed (v :: older) m'
  | inPlace (taken : List (CachedGraph V)) (m : CachedGraph V) (call : GraphCall V) :
    Attempted allowed taken m → call.InPlace → allowed m call → Attempted allowed taken (m.after call)
  | derived (taken : List (CachedGraph V)) (m m' : CachedGraph V) (call : GraphCall V) (answer : GraphAnswer V) :
    Attempted allowed taken m → call.Derives → allowed m call → m.step call = .ok (answer, m') →
      Attempted allowed [] m'
  | copyAssign (taken taken' : List (CachedGraph V)) (m other : CachedGraph V) :
    Attempted allowed taken m → Attempted allowed taken' other → Attempted allowed [] (m.copyAssign other)

/-- No send is added under an id that an entry or an rf undo record names. -/
def Unnamed (m : CachedGraph V) : GraphCall V → Prop
  | .op operation => operation.AddsUnnamed m.worker
  | _ => True

/-- Restrictions while all ids of the entries exist, and rewrites that keep the flag only where they may. -/
def Careful (m : CachedGraph V) : GraphCall V → Prop
  | .op (.restrict _) => m.graph.ReadsExist
  | .op (.withRfPreservingKnownAcyclicity recv send) => m.graph.SafeRewrite recv send
  | .op (.rebindRfPreservingKnownAcyclicity recv send) => m.graph.SafeRewrite recv send
  | .op (.rebindRf _ _ _) => False
  | _ => True

/-! ## One call -/

/-- Each checkpoint leads to a graph of which the trace tells. A rebind writes no undo record, so that graph need
not be the one at which the checkpoint was taken. -/
structure Tracked (safe : Prop) (taken : List (CachedGraph V)) (m : CachedGraph V) : Prop where
  fresh : m.Fresh
  trace : ∃ targets, taken.map CachedGraph.checkpoint = targets.map WorkerGraph.checkpoint ∧
    WorkerGraph.Traceable safe targets m.worker

variable {safe : Prop} {taken : List (CachedGraph V)} {m m' : CachedGraph V}

theorem Tracked.sturdy (h : Tracked safe taken m) : m.worker.Sturdy safe := by
  obtain ⟨targets, -, htrace⟩ := h.trace
  exact htrace.sturdy m.worker mem_cons_self

theorem Tracked.fresh_history (hfresh : m.Fresh) (h : m.worker.Sturdy safe) : Tracked safe [] m :=
  ⟨hfresh, [], rfl, .fresh_history h⟩

end CachedGraph

namespace WorkerGraph
variable {safe : Prop} {targets : List (WorkerGraph V)} {w w' : WorkerGraph V}

theorem Traceable.marked (h : Traceable safe targets w) (known : Bool) (pending : Option ℕ)
    (htruthful : safe → (w.withMetadata known pending).graph.Truthful) :
    Traceable safe targets (w.withMetadata known pending) := by
  obtain ⟨htables, hcounted, -⟩ := h.sturdy w mem_cons_self
  exact h.step ⟨htables.withMetadata known pending, hcounted, htruthful⟩
    fun v hv => (w.rollback_withMetadata _ known pending).trans hv

/-- Where the logs are empty a rollback restores the flag and the pending receive. -/
theorem rollback_clean {cp : Checkpoint} (hevents : w.eventUndoLog = []) (hrf : w.rfUndoLog = [])
    (hroll : w.rollback cp = .ok w') : w' = w.withMetadata cp.knownAcyclic cp.pendingFreshReceiveId := by
  rw [rollback_eq, hevents, hrf] at hroll
  split at hroll
  · cases hroll
  · unfold undoTo at hroll
    rw [hrf, length_nil, Nat.zero_sub] at hroll
    change (undoEventAppends (w.eventUndoLog.length - cp.eventUndoSize) w).map _ = _ at hroll
    rw [hevents, length_nil, Nat.zero_sub] at hroll
    cases hroll
    rfl

/-- `w` under the flag and the pending receive of `v`. -/
def flaggedAs (w v : WorkerGraph V) : WorkerGraph V :=
  w.withMetadata v.graph.knownAcyclic v.graph.pendingFreshReceiveId

theorem rollback_flaggedAs (w u v : WorkerGraph V) :
    (w.flaggedAs u).rollback (w.flaggedAs v).checkpoint = .ok (w.flaggedAs v) := by
  have hback := (w.flaggedAs v).rollback_checkpoint
  unfold flaggedAs at hback ⊢
  rw [rollback_withMetadata] at hback ⊢
  exact hback

/-- A rebind moves every graph that a checkpoint leads to. -/
theorem Traceable.rebound (h : Traceable safe targets w) {recv send : ℕ} {preserve : Bool}
    (hrebind : w.rebindRf recv send preserve = .ok w') (hown : safe → w'.graph.Truthful)
    (hmoved : safe → ∀ known pending, (w.graph.withMetadata known pending).Truthful →
      (w'.graph.withMetadata known pending).Truthful) :
    ∃ moved, targets.map WorkerGraph.checkpoint = moved.map WorkerGraph.checkpoint ∧ Traceable safe moved w' := by
  obtain ⟨htables, hcounted, -⟩ := h.sturdy w mem_cons_self
  have htables' := htables.rebindRf w w' recv send preserve hrebind
  have hcounted' := counted_rebindRf hcounted htables.graph.sound hrebind
  obtain ⟨heventLog, hrfLog, a, b, -, -, hw'⟩ := rebindRf_inv hrebind
  have hclean : ∀ v ∈ targets, v = w.flaggedAs v := fun v hv =>
    rollback_clean heventLog hrfLog ((pairwise_cons.mp h.back).1 v hv)
  refine ⟨targets.map w'.flaggedAs, ?_, fun v hv => ?_, pairwise_cons.mpr ⟨fun v hv => ?_, ?_⟩⟩
  · rw [map_map]
    refine map_congr_left fun v hv => ?_
    have heventLog' : v.eventUndoLog = [] := by rw [hclean v hv]; exact heventLog
    have hrfLog' : v.rfUndoLog = [] := by rw [hclean v hv]; exact hrfLog
    unfold Function.comp WorkerGraph.checkpoint
    rw [heventLog', hrfLog', hw']
    rfl
  · rcases mem_cons.mp hv with rfl | hv
    · exact ⟨htables', hcounted', hown⟩
    · obtain ⟨u, hu, rfl⟩ := mem_map.mp hv
      refine ⟨htables'.withMetadata _ _, hcounted', fun hsafe => hmoved hsafe _ _ ?_⟩
      have htruthful := (h.sturdy u (mem_cons_of_mem _ hu)).truthful hsafe
      rw [hclean u hu] at htruthful
      exact htruthful
  · obtain ⟨u, -, rfl⟩ := mem_map.mp hv
    exact w'.rollback_flaggedAs w' u
  · exact pairwise_map.mpr (pairwise_of_forall fun u v => w'.rollback_flaggedAs u v)

end WorkerGraph

namespace CachedGraph
variable {safe : Prop} {taken : List (CachedGraph V)} {m m' : CachedGraph V} {call : GraphCall V}
  {answer : GraphAnswer V}

theorem rebound_truthful {g g' : ExplorationGraph V} {recv send : ℕ} (hsafe : g.SafeRewrite recv send)
    (hevents : g'.graph.events = g.graph.events) (hrf : g'.graph.readsFrom = g.graph.readsFrom.set recv (.send send))
    (known : Bool) (pending : Option ℕ) (h : (g.withMetadata known pending).Truthful) :
    (g'.withMetadata known pending).Truthful := by
  refine ⟨fun hknown => ?_, fun id hid => ?_⟩
  · have hsane : g.Sane := (h.sane hknown).congr rfl rfl
    exact (hsane.rewritten g g' hsafe hevents hrf).congr rfl rfl
  · show id + 1 = g'.graph.events.length
    rw [hevents]
    exact h.pending id hid

theorem Tracked.rebound (h : Tracked safe taken m) {recv send : ℕ} {preserve : Bool} {w : WorkerGraph V}
    (hrebind : m.worker.rebindRf recv send preserve = .ok w)
    (hsafe : safe → m.graph.SafeRewrite recv send ∧ (preserve = true → m.graph.knownAcyclic = true)) :
    Tracked safe taken ⟨w, none⟩ := by
  obtain ⟨targets, hsame, htrace⟩ := h.trace
  have hevents := WorkerGraph.rebindRf_events hrebind
  obtain ⟨-, -, a, b, -, -, hw⟩ := WorkerGraph.rebindRf_inv hrebind
  have hrf : w.graph.graph.readsFrom = m.graph.graph.readsFrom.set recv (.send send) := by
    rw [hw]
    rfl
  obtain ⟨moved, hmoved, hback⟩ := htrace.rebound hrebind
    (fun hs => by
      have hown : (m.graph.withMetadata preserve none).Truthful :=
        ⟨fun hknown => (((h.sturdy.truthful hs).sane ((hsafe hs).2 hknown)).congr rfl rfl), nofun⟩
      have hrebound := rebound_truthful (hsafe hs).1 hevents hrf _ _ hown
      rw [hw] at hrebound ⊢
      exact hrebound)
    fun hs known pending => rebound_truthful (hsafe hs).1 hevents hrf known pending
  exact ⟨fresh_of_none w, moved, hsame.trans hmoved, hback⟩

theorem Tracked.inPlace (h : Tracked safe taken m) (hplace : call.InPlace) (hunnamed : m.Unnamed call)
    (hcareful : safe → m.Careful call) (hstep : m.step call = .ok (answer, m')) : Tracked safe taken m' := by
  obtain ⟨hfresh, ⟨operation, rfl, hrun⟩ | ⟨-, hquery, known, pending, hworker⟩⟩ := step_cases h.fresh hstep
  · obtain ⟨targets, hsame, htrace⟩ := h.trace
    cases operation with
    | addEvent thread label =>
      obtain ⟨⟨id, w⟩, hw, hout⟩ := Except.bind_ok_iff.mp hrun
      cases hout
      exact ⟨hfresh, targets, hsame, htrace.addEvent hunnamed hw⟩
    | setReadsFromSource recv source => exact ⟨hfresh, targets, hsame, htrace.setReadsFromSource hrun⟩
    | rebindRf recv send preserve =>
      exact ⟨hfresh, (h.rebound hrun fun hs => (hcareful hs).elim).trace⟩
    | rebindRfPreservingKnownAcyclicity recv send =>
      refine ⟨hfresh, (h.rebound hrun fun hs => ⟨hcareful hs, fun hflag => ?_⟩).trace⟩
      rw [Bool.and_eq_true, Bool.and_eq_true] at hflag
      exact hflag.1.1
    | _ => exact hplace.elim
  · obtain ⟨targets, hsame, htrace⟩ := h.trace
    refine ⟨hfresh, targets, hsame, ?_⟩
    rw [hworker]
    refine htrace.marked known pending fun hs => ?_
    rw [← hworker]
    rcases hquery with hsameWorker | ⟨model, _, hcheck⟩
    · rw [hsameWorker]
      exact h.sturdy.truthful hs
    · obtain ⟨_, _, hchecked, -, -, hkept⟩ :=
        Kept.check_agrees m ⟨h.sturdy.tables, h.sturdy.truthful hs, h.fresh⟩ model
      cases hcheck.symm.trans hchecked
      exact hkept.truthful

theorem Tracked.thrown (h : Tracked safe taken m) {e : DporError} (hstep : m.step call = .error e) :
    Tracked safe taken (m.after call) := by
  obtain ⟨targets, hsame, htrace⟩ := h.trace
  obtain ⟨hworker, hfresh⟩ := after_of_error h.sturdy.counted h.fresh hstep
  exact ⟨hfresh, targets, hsame, hworker ▸ htrace⟩

theorem derived_truthful {operation : GraphOp V} {w : WorkerGraph V} (h : m.graph.Truthful) (ht : m.graph.Tabulated)
    (hderives : (GraphCall.op operation).Derives) (hcareful : m.Careful (.op operation))
    (hrun : operation.run m.worker = .ok w) : w.graph.Truthful := by
  cases operation with
  | restrict keepSet =>
    obtain ⟨g', hg', hout⟩ := Except.bind_ok_iff.mp hrun
    cases hout
    exact h.restricted ht hcareful hg'
  | withRf recv send =>
    obtain ⟨g', hg', hout⟩ := Except.bind_ok_iff.mp hrun
    cases hout
    exact .withRf hg'
  | withRfPreservingKnownAcyclicity recv send =>
    obtain ⟨g', hg', hout⟩ := Except.bind_ok_iff.mp hrun
    cases hout
    exact h.withRfPreserving hcareful hg'
  | withBottomRf recv =>
    obtain ⟨g', hg', hout⟩ := Except.bind_ok_iff.mp hrun
    cases hout
    exact h.withBottomRf hg'
  | withNdValue ndEvent value =>
    obtain ⟨g', hg', hout⟩ := Except.bind_ok_iff.mp hrun
    cases hout
    exact h.withNdValue hg'
  | copy =>
    cases hrun
    exact h
  | _ => exact hderives.elim

theorem Tracked.derived (h : Tracked safe taken m) (hderives : call.Derives) (hunnamed : m.Unnamed call)
    (hcareful : safe → m.Careful call) (hstep : m.step call = .ok (answer, m')) : Tracked safe [] m' := by
  obtain ⟨htables, hcounted, htruthful⟩ := h.sturdy
  obtain ⟨hfresh, ⟨operation, rfl, hrun⟩ | ⟨hquery, -⟩⟩ := step_cases h.fresh hstep
  · exact .fresh_history hfresh ⟨GraphOp.run_tabulated htables hrun, GraphOp.run_counted htables hcounted hunnamed hrun,
      fun hs => derived_truthful (htruthful hs) htables.graph hderives (hcareful hs) hrun⟩
  · cases call with
    | op operation => exact absurd rfl (hquery operation)
    | _ => exact hderives.elim

/-! ## Runs -/

theorem Attempted.tracked (allowed : CachedGraph V → GraphCall V → Prop)
    (hunnamed : ∀ m call, allowed m call → m.Unnamed call) (hcareful : safe → ∀ m call, allowed m call → m.Careful call)
    (taken : List (CachedGraph V)) (m : CachedGraph V) (h : Attempted allowed taken m) : Tracked safe taken m := by
  induction h with
  | empty => exact .fresh_history (fresh_of_none _) (WorkerGraph.empty_sturdy safe)
  | checkpoint taken m _ ih =>
    obtain ⟨targets, hsame, htrace⟩ := ih.trace
    exact ⟨ih.fresh, m.worker :: targets, congrArg (_ :: ·) hsame, htrace.checkpoint⟩
  | rollback newer older v m m' _ hroll ih =>
    obtain ⟨targets, hsame, htrace⟩ := ih.trace
    obtain ⟨u, hu, hm'⟩ := Except.bind_ok_iff.mp hroll
    cases hm'
    rw [map_append, map_cons] at hsame
    obtain ⟨front, back, rfl, hfront, hback⟩ := append_eq_map_iff.mp hsame
    obtain ⟨target, rest, rfl, htarget, hrest⟩ := map_eq_cons_iff.mp hback
    rw [← htarget] at hu
    exact ⟨fresh_of_none u, target :: rest, by rw [map_cons, map_cons, htarget, hrest], htrace.rollback hu⟩
  | inPlace taken m call _ hplace hallowed ih =>
    cases hstep : m.step call with
    | error e => exact ih.thrown hstep
    | ok stepped =>
      rw [after_of_ok hstep]
      exact ih.inPlace hplace (hunnamed m call hallowed) (fun hs => hcareful hs m call hallowed) hstep
  | derived taken m m' call answer _ hderives hallowed hstep ih =>
    exact ih.derived hderives (hunnamed m call hallowed) (fun hs => hcareful hs m call hallowed) hstep
  | copyAssign taken taken' m other _ _ _ ih =>
    obtain ⟨htables, hcounted, htruthful⟩ := ih.sturdy
    exact .fresh_history ih.fresh ⟨.ofGraph htables.graph, hcounted, htruthful⟩

/-- No rollback of such a run throws: each checkpoint of the history can be rolled back to. -/
theorem Attempted.rollback_returns (h : Attempted Unnamed taken m) (v : CachedGraph V) (hv : v ∈ taken) :
    ∃ m', m.rollback v.checkpoint = .ok m' := by
  have htracked : Tracked False taken m := h.tracked _ (fun _ _ hcall => hcall) False.elim taken m
  obtain ⟨targets, hsame, htrace⟩ := htracked.trace
  have hmem : v.checkpoint ∈ targets.map WorkerGraph.checkpoint := hsame ▸ mem_map_of_mem hv
  obtain ⟨target, htarget, hcheckpoint⟩ := mem_map.mp hmem
  refine ⟨⟨target, none⟩, ?_⟩
  unfold CachedGraph.rollback
  rw [← hcheckpoint, (pairwise_cons.mp htrace.back).1 target htarget]
  rfl

/-- The calls of a run that names no id in advance and keeps the flag only where it may. -/
def Disciplined (m : CachedGraph V) (call : GraphCall V) : Prop := m.Unnamed call ∧ m.Careful call

theorem Attempted.kept (h : Attempted Disciplined taken m) : m.Kept := by
  have htracked : Tracked True taken m :=
    h.tracked _ (fun _ _ hcall => hcall.1) (fun _ _ _ hcall => hcall.2) taken m
  exact ⟨htracked.sturdy.tables, htracked.sturdy.truthful trivial, htracked.fresh⟩

/-- On every object of such a run both checkers return the same issues, and the check changes neither the events
nor the reads-from relation. -/
theorem checkers_agree (taken : List (CachedGraph V)) (m : CachedGraph V) (h : Attempted Disciplined taken m)
    (communicationModel : CommunicationModel) :
    ∃ result m', m.check communicationModel = .ok (result, m') ∧
      checkExecutionGraph m.executionGraph communicationModel noMissingReadsTolerance = .ok result ∧
      m'.executionGraph.events = m.executionGraph.events ∧
      m'.executionGraph.readsFrom = m.executionGraph.readsFrom := by
  obtain ⟨result, m', hfast, hslow, hworker, -⟩ := h.kept.check_agrees m communicationModel
  refine ⟨result, m', hfast, hslow, ?_⟩
  unfold executionGraph
  rcases hworker with hw | hw
  · rw [hw]
    exact ⟨rfl, rfl⟩
  · rw [hw]
    exact ⟨rfl, rfl⟩

/-- A receive that reads the send after it in its own thread, with a warm cache, after an assignment that the entry
vector refused. -/
theorem cyclic_checkers_agree :
    ∃ m : CachedGraph ℕ, (∃ taken, Attempted Disciplined taken m) ∧ m.graph.knownAcyclic = false ∧
      m.porfCache.isSome = true ∧ ∃ result m', m.check .fifoP2P = .ok (result, m') ∧
        checkExecutionGraph m.executionGraph .fifoP2P noMissingReadsTolerance = .ok result ∧
        m'.executionGraph.events = m.executionGraph.events ∧
        m'.executionGraph.readsFrom = m.executionGraph.readsFrom := by
  have hreceive : Attempted Disciplined [] _ := .inPlace [] _ (.op (.addEvent 1 (.receive ⟨.blocking, fun _ => true⟩)))
    (Attempted.empty (V := ℕ)) trivial ⟨nofun, trivial⟩
  have hsend : Attempted Disciplined [] _ := .inPlace [] _ (.op (.addEvent 1 (.send ⟨1, 7⟩))) hreceive trivial
    ⟨fun _ => ⟨nofun, nofun⟩, trivial⟩
  have hread : Attempted Disciplined [] _ :=
    .inPlace [] _ (.op (.setReadsFromSource 0 (.send 1))) hsend trivial ⟨trivial, trivial⟩
  have hrefused : Attempted Disciplined [] _ :=
    .inPlace [] _ (.op (.setReadsFromSource (2 ^ 60) .bottom)) hread trivial ⟨trivial, trivial⟩
  have hwarm : Attempted Disciplined [] _ := .inPlace [] _ .hasCausalCycle hrefused trivial ⟨trivial, trivial⟩
  exact ⟨_, ⟨[], hwarm⟩, rfl, rfl, checkers_agree [] _ hwarm .fifoP2P⟩

/-- Receive 0 of thread 0 is made to read event 1 before there is one. Then send 1 comes, with no reader, and a
second send in the given thread. -/
def readAhead (thread : ℕ) : CachedGraph ℕ :=
  (((empty.after (.op (.addEvent 0 (.receive ⟨.nonBlocking, fun _ => true⟩)))).after
    (.op (.setReadsFromSource 0 (.send 1)))).after (.op (.addEvent 1 (.send ⟨0, 7⟩)))).after
    (.op (.addEvent thread (.send ⟨0, 8⟩)))

theorem readAhead_attempted (allowed : CachedGraph ℕ → GraphCall ℕ → Prop)
    (hallowed : ∀ m call, m.Careful call → allowed m call) (thread : ℕ) : Attempted allowed [] (readAhead thread) := by
  refine .inPlace [] _ _ (.inPlace [] _ _ (.inPlace [] _ _ (.inPlace [] _ _ .empty ?_ ?_) ?_ ?_) ?_ ?_) ?_ ?_
  all_goals first | exact trivial | exact hallowed _ _ trivial

/-- The graph is checked and marked; then the receive is to read send 2, which follows it in its thread. -/
def abandonedRead : CachedGraph ℕ :=
  ((readAhead 0).after (.check .async)).after (.op (.setReadsFromSource 0 (.send 2)))

theorem abandonedRead_attempted : Attempted Careful [] abandonedRead :=
  .inPlace [] _ _ (.inPlace [] _ _ (readAhead_attempted Careful (fun _ _ h => h) 0) trivial trivial) trivial trivial

/-- The flag lets the exploration checker skip the cycle that the other one finds. -/
theorem abandoned_read_splits_checkers :
    Attempted Careful [] abandonedRead ∧ (∃ m', abandonedRead.check .async = .ok (⟨[]⟩, m')) ∧
      checkExecutionGraph abandonedRead.executionGraph .async noMissingReadsTolerance =
        .ok (ConsistencyResult.addCausalCycleIssue ⟨[]⟩) :=
  ⟨abandonedRead_attempted, ⟨_, rfl⟩, rfl⟩

/-! ## The flag -/

/-- An object that says it is acyclic is. -/
theorem known_acyclic_sound (taken : List (CachedGraph V)) (m : CachedGraph V) (h : Attempted Disciplined taken m)
    (hknown : m.graph.knownAcyclic = true) : ∀ id, ¬ Relation.TransGen m.executionGraph.EventPorf id id := by
  have hsane := h.kept.truthful.sane hknown
  have hsame := eventPorf_eq m.executionGraph hsane.endpoints
  rw [hsame]
  exact hsane.acyclic

/-- A receive assigned out of order loses the flag, a check earns it back, and a rollback over a forward
reference keeps it. -/
theorem checked_then_rolled_back :
    ∃ (taken : List (CachedGraph ℕ)) (m : CachedGraph ℕ), Attempted Disciplined taken m ∧
      m.graph.knownAcyclic = true ∧ ∀ id, ¬ Relation.TransGen m.executionGraph.EventPorf id id := by
  have hreceive : Attempted Disciplined [] _ := .inPlace [] _ (.op (.addEvent 1 (.receive ⟨.blocking, fun _ => true⟩)))
    (Attempted.empty (V := ℕ)) trivial ⟨nofun, trivial⟩
  have hsend : Attempted Disciplined [] _ := .inPlace [] _ (.op (.addEvent 0 (.send ⟨1, 7⟩))) hreceive trivial
    ⟨fun _ => ⟨nofun, nofun⟩, trivial⟩
  have hread : Attempted Disciplined [] _ :=
    .inPlace [] _ (.op (.setReadsFromSource 0 (.send 1))) hsend trivial ⟨trivial, trivial⟩
  have hchecked : Attempted Disciplined [] _ := .inPlace [] _ (.check .fifoP2P) hread trivial ⟨trivial, trivial⟩
  have hforward : Attempted Disciplined _ _ := .inPlace _ _ (.op (.setReadsFromSource 0 (.send 5)))
    (.checkpoint [] _ hchecked) trivial ⟨trivial, trivial⟩
  obtain ⟨taken, m, hrolled, hknown⟩ : ∃ (taken : List (CachedGraph ℕ)) (m : CachedGraph ℕ),
      Attempted Disciplined taken m ∧ m.graph.knownAcyclic = true :=
    ⟨_, _, .rollback [] [] _ _ _ hforward rfl, rfl⟩
  exact ⟨taken, m, hrolled, hknown, known_acyclic_sound taken m hrolled hknown⟩

/-- The entry that the throwing call stored closes a cycle under a flag that nothing took back. -/
theorem abandoned_read_keeps_flag :
    Attempted Careful [] abandonedRead ∧ abandonedRead.graph.knownAcyclic = true ∧
      Relation.TransGen abandonedRead.executionGraph.EventPorf 0 0 := by
  have hbehind : abandonedRead.executionGraph.EventPorf 0 2 := .inl ⟨_, _, rfl, rfl, rfl, Nat.zero_lt_one⟩
  have hread : abandonedRead.executionGraph.EventPorf 2 0 := .inr ⟨rfl, rfl, rfl⟩
  exact ⟨abandonedRead_attempted, rfl, .head hbehind (.single hread)⟩

/-! ## The cache -/

/-- A cache that an object holds is the one its graph would have built now, and on well-formed acyclic
graphs the answer is reachability in that graph. -/
theorem porf_contains_exact (taken : List (CachedGraph V)) (m : CachedGraph V) (h : Attempted Unnamed taken m) :
    m.Fresh ∧ (m.executionGraph.ValidEndpoints → m.executionGraph.Acyclic →
      ∀ a b, a < m.graph.eventCount → b < m.graph.eventCount →
        ∃ found, m.porfContains a b = .ok (found, m.warmed) ∧
          (found = true ↔ Relation.TransGen m.executionGraph.Porf a b)) := by
  have htracked : Tracked False taken m := h.tracked _ (fun _ _ hcall => hcall) False.elim taken m
  refine ⟨htracked.fresh, fun hendpoints hacyclic a b ha hb => ?_⟩
  obtain ⟨found, hfound, hiff⟩ :=
    htracked.sturdy.tables.graph.porfContains_ok m.graph hendpoints hacyclic a b ha hb
  refine ⟨found, ?_, hiff⟩
  rw [htracked.fresh.porfContains, hfound]
  rfl

/-- A receive of thread 1 that first reads the send of thread 0, and is rebound to the send of thread 2
after the first answer was cached. -/
theorem rebound_reaches_exactly :
    ∃ m : CachedGraph ℕ, Attempted Unnamed [] m ∧ m.executionGraph.ValidEndpoints ∧ m.executionGraph.Acyclic ∧
      2 < m.graph.eventCount ∧
      ∃ found, m.porfContains 2 0 = .ok (found, m.warmed) ∧
        (found = true ↔ Relation.TransGen m.executionGraph.Porf 2 0) := by
  have hreceive : Attempted Unnamed [] _ := .inPlace [] _ (.op (.addEvent 1 (.receive ⟨.blocking, fun _ => true⟩)))
    (Attempted.empty (V := ℕ)) trivial nofun
  have hfirst : Attempted Unnamed [] _ :=
    .inPlace [] _ (.op (.addEvent 0 (.send ⟨1, 7⟩))) hreceive trivial fun _ => ⟨nofun, nofun⟩
  have hsecond : Attempted Unnamed [] _ :=
    .inPlace [] _ (.op (.addEvent 2 (.send ⟨1, 8⟩))) hfirst trivial fun _ => ⟨nofun, nofun⟩
  have hread : Attempted Unnamed [] _ := .inPlace [] _ (.op (.setReadsFromSource 0 (.send 1))) hsecond trivial trivial
  have hcopy : Attempted Unnamed [] _ := .derived [] _ _ (.op .copy) _ hread trivial trivial rfl
  have hwarm : Attempted Unnamed [] _ := .inPlace [] _ (.porfContains 1 0) hcopy trivial trivial
  obtain ⟨m, hrebound, hentries, hcount, hsort⟩ : ∃ m : CachedGraph ℕ, Attempted Unnamed [] m ∧
      m.executionGraph.readsFrom.entries.all m.executionGraph.endpointsOk = true ∧ m.graph.eventCount = 3 ∧
      (TopologicalOrder.order m.graph.eventCount m.graph.immediateEdges).length = m.graph.eventCount :=
    ⟨_, .inPlace [] _ (.op (.rebindRf 0 2 true)) hwarm trivial trivial, rfl, rfl, rfl⟩
  have htracked : Tracked False [] m := hrebound.tracked _ (fun _ _ hcall => hcall) False.elim [] m
  have hendpoints := (validEndpoints_iff m.executionGraph).mp (List.all_eq_true.mp hentries)
  have hacyclic := (htracked.sturdy.tables.graph.order_length_iff m.graph hendpoints).mp hsort
  have htwo : 2 < m.graph.eventCount := hcount ▸ by decide
  exact ⟨m, hrebound, hendpoints, hacyclic, htwo,
    (porf_contains_exact [] m hrebound).2 hendpoints hacyclic 2 0 htwo (hcount ▸ by decide)⟩

/-- A copy answers one query and is then to be rebound to the second send. -/
def abandonedRebind (thread : ℕ) : CachedGraph ℕ :=
  (((readAhead thread).after (.op .copy)).after (.porfContains 1 0)).after (.op (.rebindRf 0 2 false))

theorem abandonedRebind_attempted (thread : ℕ) : Attempted (fun _ _ => True) [] (abandonedRebind thread) := by
  have hcopy : Attempted (fun _ _ => True) [] ((readAhead thread).after (.op .copy)) :=
    .derived [] _ _ (.op .copy) _ (readAhead_attempted _ (fun _ _ _ => trivial) thread) trivial trivial rfl
  exact .inPlace [] _ _ (.inPlace [] _ _ hcopy trivial trivial) trivial trivial

/-- The cache says that the receive is not behind the send that it reads. -/
theorem abandoned_rebind_answers_stale :
    Attempted (fun _ _ => True) [] (abandonedRebind 2) ∧ (abandonedRebind 2).executionGraph.ValidEndpoints ∧
      (abandonedRebind 2).executionGraph.Acyclic ∧ 2 < (abandonedRebind 2).graph.eventCount ∧
      (∃ m', (abandonedRebind 2).porfContains 2 0 = .ok (false, m')) ∧
      Relation.TransGen (abandonedRebind 2).executionGraph.Porf 2 0 := by
  have hindices : (abandonedRebind 2).executionGraph.events.all (fun e => e.index == 0) = true := rfl
  have hentries : (abandonedRebind 2).executionGraph.readsFrom.entries = [(0, .send 2)] := rfl
  have hendpoints := (validEndpoints_iff (abandonedRebind 2).executionGraph).mp
    (List.all_eq_true.mp (show _ = true from rfl))
  have hedge (a b : ℕ) (h : (abandonedRebind 2).executionGraph.Porf a b) : a = 2 ∧ b = 0 := by
    rcases h with ⟨ea, eb, -, heb, -, hlt⟩ | hread
    · have hzero := List.all_eq_true.mp hindices eb (mem_of_getElem? heb)
      simp only [beq_iff_eq] at hzero
      omega
    · have hmem := AscendingMap.mem_entries.mpr hread
      rw [hentries, mem_singleton] at hmem
      cases hmem
      exact ⟨rfl, rfl⟩
  refine ⟨abandonedRebind_attempted 2, hendpoints, fun id hcycle => ?_, by decide, ⟨_, rfl⟩, .single (.inr rfl)⟩
  obtain ⟨b, hfirst, -⟩ := Relation.TransGen.head'_iff.mp hcycle
  obtain ⟨c, -, hlast⟩ := Relation.TransGen.tail'_iff.mp hcycle
  have htwo := (hedge id b hfirst).1
  have hzero := (hedge c id hlast).2
  omega

/-- The cached query, the cold sort and the search of the checker give one answer, and it is the truth. -/
theorem cycle_detectors_agree (taken : List (CachedGraph V)) (m : CachedGraph V) (h : Attempted Unnamed taken m)
    (hendpoints : m.executionGraph.ValidEndpoints) :
    ∃ found po, m.hasCausalCycle = .ok (found, m.warmed) ∧ m.graph.hasCausalCycleWithoutCache = .ok found ∧
      m.executionGraph.poRelation = .ok po ∧
      MustDpor.hasCausalCycle po (validateGraph m.executionGraph noMissingReadsTolerance).validRfEdges
        m.executionGraph.events.length = found ∧
      (found = true ↔ ∃ id, Relation.TransGen m.executionGraph.Porf id id) := by
  have htracked : Tracked False taken m := h.tracked _ (fun _ _ hcall => hcall) False.elim taken m
  have htables := htracked.sturdy.tables
  have hordered := htables.graph.indexOrdered m.graph
  obtain ⟨found, hcold, hfound⟩ := htables.graph.hasCausalCycleWithoutCache_ok m.graph hendpoints
  obtain ⟨cache, hcache, hcycle⟩ := htables.graph.ensurePorfCache_ok m.graph hendpoints
  have hsearch := hasCausalCycle_validated m.executionGraph hordered hendpoints
  rw [← (validateGraph_validated m.executionGraph noMissingReadsTolerance).edges] at hsearch
  refine ⟨found, _, ?_, hcold, poRelation_ok m.executionGraph hordered, ?_, ?_⟩
  · have hsame : cache.hasCycle = found := by
      rw [Bool.eq_iff_iff, hcycle, hfound]
    rw [htracked.fresh.hasCausalCycle]
    unfold ExplorationGraph.hasCausalCycle
    rw [hcache, ← hsame]
    rfl
  · rw [Bool.eq_iff_iff, hsearch, hfound]
    rfl
  · rw [hfound]
    unfold ExecutionGraph.Acyclic
    rw [not_forall]
    exact exists_congr fun id => not_not

/-- A receive that reads the send behind it in its own thread. -/
theorem self_read_detected :
    ∃ m : CachedGraph ℕ, Attempted Unnamed [] m ∧ m.executionGraph.ValidEndpoints ∧
      ∃ found po, m.hasCausalCycle = .ok (found, m.warmed) ∧ m.graph.hasCausalCycleWithoutCache = .ok found ∧
        m.executionGraph.poRelation = .ok po ∧
        MustDpor.hasCausalCycle po (validateGraph m.executionGraph noMissingReadsTolerance).validRfEdges
          m.executionGraph.events.length = found ∧
        (found = true ↔ ∃ id, Relation.TransGen m.executionGraph.Porf id id) := by
  have hreceive : Attempted Unnamed [] _ := .inPlace [] _ (.op (.addEvent 1 (.receive ⟨.blocking, fun _ => true⟩)))
    (Attempted.empty (V := ℕ)) trivial nofun
  have hsend : Attempted Unnamed [] _ :=
    .inPlace [] _ (.op (.addEvent 1 (.send ⟨1, 7⟩))) hreceive trivial fun _ => ⟨nofun, nofun⟩
  obtain ⟨m, hread, hentries⟩ : ∃ m : CachedGraph ℕ, Attempted Unnamed [] m ∧
      m.executionGraph.readsFrom.entries.all m.executionGraph.endpointsOk = true :=
    ⟨_, .inPlace [] _ (.op (.setReadsFromSource 0 (.send 1))) hsend trivial trivial, rfl⟩
  have hendpoints := (validEndpoints_iff m.executionGraph).mp (List.all_eq_true.mp hentries)
  exact ⟨m, hread, hendpoints, cycle_detectors_agree [] m hread hendpoints⟩

/-- The cache knows of no cycle; the other two detectors find the one that the stored entry closes. -/
theorem abandoned_rebind_splits_detectors :
    Attempted (fun _ _ => True) [] (abandonedRebind 0) ∧ (abandonedRebind 0).executionGraph.ValidEndpoints ∧
      (∃ m', (abandonedRebind 0).hasCausalCycle = .ok (false, m')) ∧
      (abandonedRebind 0).graph.hasCausalCycleWithoutCache = .ok true ∧
      ∃ po, (abandonedRebind 0).executionGraph.poRelation = .ok po ∧
        MustDpor.hasCausalCycle po
          (validateGraph (abandonedRebind 0).executionGraph noMissingReadsTolerance).validRfEdges
          (abandonedRebind 0).executionGraph.events.length = true :=
  ⟨abandonedRebind_attempted 0, (validEndpoints_iff (abandonedRebind 0).executionGraph).mp
    (List.all_eq_true.mp (show _ = true from rfl)), ⟨_, rfl⟩, rfl, _, rfl, rfl⟩

end CachedGraph
end MustDpor

import MustDpor.Model.ExecutionPast
import MustDpor.Algo.Guarantees

/-! # Waking up a blocked receive

`find_blocked_receive_reschedule_child` asks all its questions of the graph with the Block still in it. The
plain procedure takes the Block out first and asks the smaller graph; on the graphs of a search both find the
same thread and the same child, and that thread is the next one to step. -/

namespace MustDpor
set_option autoImplicit false
open List Function

variable {V : Type}

/-! ## An execution without a Block -/

namespace Execution

section Without
variable (x : Execution V) (p : Pos) (n : Node V) (hn : x p = some n) (hblock : n.label = .block)
include hn hblock

theorem delivered_without (source : PosSource) :
    Execution.delivered (update x p none) source = x.delivered source := by
  cases source with
  | bottom => rfl
  | send q =>
    show (update x p none q).bind _ = (x q).bind _
    by_cases hq : q = p
    · subst hq
      rw [update_self, hn, Option.bind_none, Option.bind_some, hblock]
      rfl
    · rw [update_of_ne hq]

theorem trace_without (thread i : ℕ) :
    Execution.trace (update x p none) thread i = x.trace thread i := by
  have hobservation (m : Node V) : Execution.observation (update x p none) m = x.observation m := by
    unfold Execution.observation
    cases m.label with
    | receive receive =>
      dsimp only
      congr 1
      funext source
      exact x.delivered_without p n hn hblock source
    | _ => rfl
  refine Execution.trace_congr _ _ fun j _ => ?_
  by_cases hq : (thread, j) = p
  · rw [hq, update_self, hn, Option.bind_none, Option.bind_some, Execution.observation, hblock]
  · rw [update_of_ne hq]
    exact Option.bind_congr fun m _ => hobservation m

theorem receivable_without (hsource : n.source = none) (tid : ℕ) (receive : ReceiveLabel V) (q : Pos) :
    Execution.Receivable (update x p none) tid receive q ↔ x.Receivable tid receive q := by
  unfold Execution.Receivable
  refine and_congr ?_ ?_
  · by_cases hq : q = p
    · subst hq
      rw [update_self]
      refine iff_of_false ?_ ?_
      · rintro ⟨_, _, h, _⟩
        cases h
      · rintro ⟨m, send, hm, hsend, -⟩
        rw [hn] at hm
        cases hm
        rw [hblock] at hsend
        cases hsend
    · rw [update_of_ne hq]
  · constructor
    · intro hunread r m hm
      by_cases hr : r = p
      · subst hr
        rw [hn] at hm
        cases hm
        rw [hsource]
        exact nofun
      · exact hunread r m (by rw [update_of_ne hr]; exact hm)
    · intro hunread r m hm
      by_cases hr : r = p
      · subst hr
        rw [update_self] at hm
        cases hm
      · rw [update_of_ne hr] at hm
        exact hunread r m hm

end Without
end Execution

theorem receivable_at {g : ExplorationGraph V} (hordered : g.graph.IndexOrdered) (hends : g.graph.ValidEndpoints)
    (tid : ℕ) (receive : ReceiveLabel V) {id : ℕ} {p : Pos} (hpos : g.graph.posAt id = some p) :
    Receivable g tid receive id ↔ g.graph.execution.Receivable tid receive p := by
  obtain ⟨es, hes, rfl⟩ := (g.graph.posAt_eq_some id p).mp hpos
  have hnode := hordered.execution_event hes
  constructor
  · rintro ⟨hcompat, hunread⟩
    obtain ⟨es', send, hes', hsend⟩ := (compatibleSend_iff g tid receive id).mp hcompat
    obtain rfl : es = es' := Option.some.inj (hes.symm.trans hes')
    refine ⟨⟨_, send, hnode, hsend⟩, fun q n hq hsource => ?_⟩
    obtain ⟨a, r, ha, -, hread⟩ := (hordered.reads_iff g.graph hends _ q).mp ⟨n, hq, hsource⟩
    obtain rfl := hordered.posAt_injective ha hpos
    exact hunread r hread
  · rintro ⟨⟨n, send, hn, hsend⟩, hunread⟩
    obtain rfl := Option.some.inj (hnode.symm.trans hn)
    refine ⟨(compatibleSend_iff g tid receive id).mpr ⟨es, send, hes, hsend⟩, fun r hread => ?_⟩
    obtain ⟨⟨er, -, her, -⟩, -⟩ := hends r _ hread
    obtain ⟨nr, hnr, hsource⟩ := (hordered.reads_iff g.graph hends _ _).mpr
      ⟨id, r, hpos, (g.graph.posAt_eq_some r _).mpr ⟨er, her, rfl⟩, hread⟩
    exact hunread _ nr hnr hsource

theorem receivable_iff_execution {g : ExplorationGraph V} (hordered : g.graph.IndexOrdered)
    (hends : g.graph.ValidEndpoints) (tid : ℕ) (receive : ReceiveLabel V) :
    (∃ id, Receivable g tid receive id) ↔ ∃ p, g.graph.execution.Receivable tid receive p := by
  constructor
  · rintro ⟨id, hid⟩
    obtain ⟨es, -, hes, -⟩ := (compatibleSend_iff g tid receive id).mp hid.1
    exact ⟨_, (receivable_at hordered hends tid receive
      ((g.graph.posAt_eq_some id _).mpr ⟨es, hes, rfl⟩)).mp hid⟩
  · rintro ⟨p, hp⟩
    obtain ⟨⟨n, -, hn, -⟩, -⟩ := id hp
    obtain ⟨id, hpos, -⟩ := (hordered.execution_eq_some p n).mp hn
    exact ⟨id, (receivable_at hordered hends tid receive hpos).mpr hp⟩

/-! ## A graph without a Block -/

section Unblocked
variable [LinearOrder V] {config : DporConfig V} {g child : ExplorationGraph V} {depth : ℕ}

theorem endsInBlock_iff (htabulated : g.Tabulated) (hreplays : Replays config.program g.graph.execution) (tid : ℕ) :
    EndsInBlock g tid ↔ ∃ i n, g.graph.execution (tid, i) = some n ∧ n.label = .block := by
  have hordered := htabulated.indexOrdered g
  constructor
  · rintro ⟨id, hlast, hblock⟩
    obtain ⟨e, he, rfl, -⟩ := lastEventId_some htabulated hlast
    obtain ⟨e', he', hlabel⟩ := (isBlockId_iff id).mp hblock
    rw [he] at he'
    cases he'
    exact ⟨e.index, _, hordered.execution_event he, hlabel⟩
  · rintro ⟨i, n, hn, hlabel⟩
    obtain ⟨id, hpos, hnode⟩ := (hordered.execution_eq_some _ n).mp hn
    obtain ⟨e, he, rfl⟩ := Option.map_eq_some_iff.mp hnode
    obtain ⟨e', he', hp⟩ := (g.graph.posAt_eq_some id _).mp hpos
    rw [he] at he'
    cases he'
    have hblock : g.isBlockId id = true := (isBlockId_iff id).mpr ⟨e, he, hlabel⟩
    obtain ⟨tid', hlast⟩ := block_last htabulated hreplays id hblock
    obtain ⟨e', he', hthread, -⟩ := lastEventId_some htabulated hlast
    rw [he] at he'
    cases he'
    rw [← (Prod.mk.inj hp).1, hthread]
    exact ⟨id, hlast, hblock⟩

/-- The child of a blocked thread: its graph has one event less, the Block at the end of the thread. -/
structure Unblocks (g : ExplorationGraph V) (tid : ℕ) (child : ExplorationGraph V) : Prop where
  block : ∃ n, g.graph.execution (tid, threadCount g.graph.events tid - 1) = some n ∧ n.label = .block ∧
    n.source = none
  count : threadCount g.graph.events tid ≠ 0
  execution : child.graph.execution =
    Function.update g.graph.execution (tid, threadCount g.graph.events tid - 1) none

theorem Explored.unblocks (h : Explored config g depth) {tid id : ℕ} (hlast : g.lastEventId tid = some id)
    (hblock : g.isBlockId id = true) (hto : g.RestrictsTo (dropMask g.eventCount id) child) :
    Unblocks g tid child := by
  have hordered := h.tabulated.indexOrdered g
  have hends := h.consistent.async.endpoints
  obtain ⟨e, he, rfl, hindex⟩ := lastEventId_some h.tabulated hlast
  obtain ⟨e', he', hlabel⟩ := (isBlockId_iff id).mp hblock
  rw [he] at he'
  cases he'
  have hposition : threadCount g.graph.events e.thread - 1 = e.index := by omega
  have hpos : g.graph.posAt id = some (e.thread, e.index) := (g.graph.posAt_eq_some id _).mpr ⟨e, he, rfl⟩
  have hfind : g.graph.readsFrom.find id = none := by
    by_contra hsome
    obtain ⟨source, hsource⟩ := Option.ne_none_iff_exists'.mp hsome
    obtain ⟨⟨er, receive, her, hreceive⟩, -⟩ := hends id _ hsource
    rw [he] at her
    cases her
    rw [hlabel] at hreceive
    cases hreceive
  have hkept (other : ℕ) (eo : Event V) (heo : g.graph.events[other]? = some eo) (hne : other ≠ id) :
      ∃ newId, ExplorationGraph.remapId (dropMask g.eventCount id) other = some newId :=
    exists_place _ other (dropMask_getD.mpr ⟨lt_of_getElem? heo, hne⟩)
  refine ⟨⟨_, by rw [hposition]; exact hordered.execution_event he, hlabel, by rw [hfind]; rfl⟩,
    by omega, ?_⟩
  rw [hposition]
  funext p
  by_cases hp : p = (e.thread, e.index)
  · subst hp
    rw [update_self]
    refine hto.execution_dropped fun other hother => ?_
    obtain rfl := hordered.posAt_injective hother hpos
    by_contra hsome
    obtain ⟨newId, hnew⟩ := Option.ne_none_iff_exists'.mp hsome
    exact absurd rfl (dropMask_getD.mp (marked_of_place _ _ _ hnew)).2
  · rw [update_of_ne hp]
    by_cases hold : ∃ other, g.graph.posAt other = some p
    · obtain ⟨other, hother⟩ := hold
      obtain ⟨eo, heo, -⟩ := (g.graph.posAt_eq_some other p).mp hother
      have hne : other ≠ id := by
        rintro rfl
        exact hp (Option.some.inj (hother.symm.trans hpos))
      obtain ⟨newId, hnew⟩ := hkept other eo heo hne
      refine hto.execution_same hordered hends hnew hother fun src hread => ?_
      obtain ⟨es, send, hes, hsend⟩ := (hends other _ hread).2 src rfl
      refine hkept src es hes ?_
      rintro rfl
      rw [he] at hes
      cases hes
      rw [hlabel] at hsend
      cases hsend
    · rw [(hordered.execution_eq_none p).mpr fun other hother => hold ⟨other, hother⟩]
      exact hto.execution_dropped fun other hother => absurd ⟨other, hother⟩ hold

section Answers
variable (h : Explored config g depth) (hchild : Explored config child depth) {tid : ℕ} (hu : Unblocks g tid child)
include h hchild hu

variable {other : ℕ}

theorem Unblocks.threadCount_other (hne : other ≠ tid) :
    threadCount child.graph.events other = threadCount g.graph.events other := by
  have hsame (i : ℕ) : i < threadCount child.graph.events other ↔ i < threadCount g.graph.events other := by
    rw [← hchild.tabulated.execution_ne_none_iff, ← h.tabulated.execution_ne_none_iff, hu.execution,
      update_of_ne fun hpos => hne (Prod.mk.inj hpos).1]
  have hge := hsame (threadCount child.graph.events other)
  have hle := hsame (threadCount g.graph.events other)
  omega

theorem Unblocks.threadCount_self :
    threadCount child.graph.events tid = threadCount g.graph.events tid - 1 := by
  have hsame (i : ℕ) (hi : i ≠ threadCount g.graph.events tid - 1) :
      i < threadCount child.graph.events tid ↔ i < threadCount g.graph.events tid := by
    rw [← hchild.tabulated.execution_ne_none_iff, ← h.tabulated.execution_ne_none_iff, hu.execution,
      update_of_ne fun hpos => hi (Prod.mk.inj hpos).2]
  have hlast : ¬ threadCount g.graph.events tid - 1 < threadCount child.graph.events tid := by
    rw [← hchild.tabulated.execution_ne_none_iff, hu.execution, update_self]
    exact fun hne => hne rfl
  have hpositive := hu.count
  rcases Nat.lt_or_ge (threadCount child.graph.events tid) (threadCount g.graph.events tid - 1) with hlt | hge
  · exact absurd ((hsame _ (ne_of_lt hlt)).mpr (by omega)) (lt_irrefl _)
  · omega

theorem Unblocks.threadTrace_eq (other : ℕ) : child.threadTrace other = g.threadTrace other := by
  obtain ⟨n, hn, hlabel, -⟩ := hu.block
  rw [hchild.tabulated.threadTrace_ok hchild.consistent.async.endpoints,
    h.tabulated.threadTrace_ok h.consistent.async.endpoints, hu.execution,
    Execution.trace_without _ _ n hn hlabel]
  by_cases hother : other = tid
  · subst hother
    have hpositive := hu.count
    rw [hu.threadCount_self h hchild]
    obtain ⟨c, hc⟩ : ∃ c, threadCount g.graph.events other = c + 1 := ⟨_, (Nat.succ_pred hpositive).symm⟩
    rw [hc, Nat.add_sub_cancel] at hn
    rw [hc, Nat.add_sub_cancel, Execution.trace_succ, hn, Option.bind_some, Execution.observation, hlabel]
    exact congrArg Except.ok (append_nil _).symm
  · rw [hu.threadCount_other h hchild hother]

theorem Unblocks.hasCompatibleUnreadSend_eq (other : ℕ) (receive : ReceiveLabel V) :
    hasCompatibleUnreadSend child other receive = hasCompatibleUnreadSend g other receive := by
  obtain ⟨n, hn, hlabel, hsource⟩ := hu.block
  rw [Bool.eq_iff_iff, hasCompatibleUnreadSend_iff child hchild.tabulated hchild.counted,
    hasCompatibleUnreadSend_iff g h.tabulated h.counted,
    receivable_iff_execution (hchild.tabulated.indexOrdered child) hchild.consistent.async.endpoints,
    receivable_iff_execution (h.tabulated.indexOrdered g) h.consistent.async.endpoints, hu.execution]
  exact exists_congr fun p => Execution.receivable_without _ _ n hn hlabel hsource other receive p

theorem Unblocks.endsInBlock_other (hne : other ≠ tid) : EndsInBlock child other ↔ EndsInBlock g other := by
  rw [endsInBlock_iff hchild.tabulated hchild.replays, endsInBlock_iff h.tabulated h.replays, hu.execution]
  refine exists_congr fun i => ?_
  rw [update_of_ne fun hpos => hne (Prod.mk.inj hpos).1]

theorem Unblocks.not_endsInBlock : ¬ EndsInBlock child tid := by
  rw [endsInBlock_iff hchild.tabulated hchild.replays, hu.execution]
  rintro ⟨i, n, hn, hlabel⟩
  by_cases hi : i = threadCount g.graph.events tid - 1
  · rw [hi, update_self] at hn
    cases hn
  · rw [update_of_ne fun hpos => hi (Prod.mk.inj hpos).2] at hn
    -- a Block in front of the last event would be the last one
    have hnext := h.replays.blockLast tid i n hn hlabel
    have hlt := (h.tabulated.execution_ne_none_iff tid i).mp (by rw [hn]; exact nofun)
    exact absurd hnext ((h.tabulated.execution_ne_none_iff tid (i + 1)).mpr (by omega))

theorem Unblocks.answers_other (hne : other ≠ tid) (answer : Option (EventLabel V)) :
    Answers config.program child other answer ↔ Answers config.program g other answer := by
  unfold Answers
  rw [hu.threadTrace_eq h hchild, threadEventCount_eq hchild.tabulated, threadEventCount_eq h.tabulated,
    hu.threadCount_other h hchild hne]

theorem Unblocks.atLimit_other (maxThreadEvents other : ℕ) (hne : other ≠ tid) :
    AtLimit maxThreadEvents child other ↔ AtLimit maxThreadEvents g other := by
  unfold AtLimit
  rw [threadEventCount_eq hchild.tabulated, threadEventCount_eq h.tabulated, hu.threadCount_other h hchild hne]

theorem Unblocks.next (tids : List ℕ) (hthreads : ThreadsOf config.program tids) (flag : Bool)
    (hnone : computeNextEvent config.program g tids config.maxThreadEvents = .ok ⟨none, flag⟩)
    (htid : tid ∈ tids) (receive : ReceiveLabel V)
    (hanswers : Answers config.program child tid (some (.receive receive)))
    (hready : hasCompatibleUnreadSend child tid receive = true) :
    ∃ flag', computeNextEvent config.program child tids config.maxThreadEvents =
      .ok ⟨some (tid, .receive receive), flag'⟩ := by
  have hbefore := h.computeNextEvent_scanned hthreads
  rw [hnone] at hbefore
  have hunique (other : ℕ) (a b : Option (EventLabel V)) (ha : Answers config.program child other a)
      (hb : Answers config.program child other b) : a = b := by
    obtain ⟨threadFn, trace, hthread, htrace, rfl⟩ := ha
    obtain ⟨threadFn', trace', hthread', htrace', rfl⟩ := hb
    rw [hthread] at hthread'
    rw [htrace] at htrace'
    cases hthread'
    cases htrace'
    rfl
  cases hbefore with
  | exhausted _ _ hall =>
    -- the others have nothing to say, with the Block and without it
    have hother (other : ℕ) (hmem : other ∈ tids) (hne : other ≠ tid)
        (hopen : child.threadIsTerminated other = false) (hlimit : ¬ AtLimit config.maxThreadEvents child other) :
        Answers config.program child other none := by
      rcases hall other hmem with hterminated | hatLimit | hdone
      · have hends := (hu.endsInBlock_other h hchild hne).mpr ((h.terminated_iff other).mp hterminated)
        exact absurd hends ((not_endsInBlock_iff hchild other).mp hopen)
      · exact absurd ((hu.atLimit_other h hchild _ other hne).mpr hatLimit) hlimit
      · exact (hu.answers_other h hchild hne none).mpr hdone
    have hopen : child.threadIsTerminated tid = false :=
      (not_endsInBlock_iff hchild tid).mpr (hu.not_endsInBlock h hchild)
    have hlimit : ¬ AtLimit config.maxThreadEvents child tid := by
      rintro ⟨hne, hle⟩
      have hbound := h.bounded hne tid
      have hpositive := hu.count
      rw [threadEventCount_eq hchild.tabulated, hu.threadCount_self h hchild] at hle
      omega
    have hafter := hchild.computeNextEvent_scanned hthreads
    generalize computeNextEvent config.program child tids config.maxThreadEvents = result at hafter ⊢
    cases hafter with
    | refused other hmem hopen' hlimit' hblock =>
      by_cases hne : other = tid
      · subst hne
        cases hunique _ _ _ hblock hanswers
      · cases hunique _ _ _ hblock (hother other hmem hne hopen' hlimit')
    | exhausted last _ hall' =>
      rcases hall' tid htid with hterminated | hatLimit | hdone
      · exact absurd hopen (by rw [hterminated]; decide)
      · exact absurd hatLimit hlimit
      · cases hunique _ _ _ hdone hanswers
    | found other label last hmem hopen' hlimit' hfound hlabel =>
      by_cases hne : other = tid
      · subst hne
        cases hunique _ _ _ hfound hanswers
        refine ⟨last, ?_⟩
        unfold eventFor
        simp [hready]
      · cases hunique _ _ _ hfound (hother other hmem hne hopen' hlimit')

end Answers
end Unblocked

/-! ## The plain procedure -/

/-- Takes the Block out, then asks. -/
def plainRescheduleThread (program : Program V) (graph : ExplorationGraph V) (tid : ℕ) :
    Except DporError (Option (ExplorationGraph V)) :=
  match graph.lastEventId tid with
  | none => .ok none
  | some lastId =>
    if !graph.isBlockId lastId then .ok none
    else do
      let child ← graph.restrictMasked (dropMask graph.eventCount lastId)
      let threadFn ← program.threads.atThread tid
      let trace ← child.threadTrace tid
      match threadFn trace (child.threadEventCount tid) with
      | some (.receive receive) =>
        if receive.isBlocking && hasCompatibleUnreadSend child tid receive then return some child else return none
      | _ => return none

/-- The first thread that can go on, with its child. -/
def plainReschedule (program : Program V) (graph : ExplorationGraph V) :
    List ℕ → Except DporError (Option (ℕ × ExplorationGraph V))
  | [] => .ok none
  | tid :: rest => do
    match ← plainRescheduleThread program graph tid with
    | some child => return some (tid, child)
    | none => plainReschedule program graph rest

def BlockedReceiveReschedule.ofPlain : Option (ℕ × ExplorationGraph V) → BlockedReceiveReschedule V
  | .none => .none
  | .some (_, child) => .ready child

section Plain
variable [LinearOrder V] {config : DporConfig V} {g : ExplorationGraph V} {depth : ℕ} (h : Explored config g depth)
include h

/-- One thread: both ways go on, or both return the same child, in which the thread has a receive to make. -/
theorem Explored.plainRescheduleThread_eq (tid : ℕ) :
    rescheduleThread config.program g tid = plainRescheduleThread config.program g tid ∧
    ∃ found, rescheduleThread config.program g tid = .ok found ∧ ∀ child, found = some child →
      Explored config child depth ∧ Unblocks g tid child ∧ ∃ receive, receive.isBlocking = true ∧
        Answers config.program child tid (some (.receive receive)) ∧
        hasCompatibleUnreadSend child tid receive = true := by
  unfold rescheduleThread plainRescheduleThread
  cases hlast : g.lastEventId tid with
  | none => exact ⟨rfl, none, rfl, nofun⟩
  | some id =>
    dsimp only
    by_cases hblock : g.isBlockId id = true
    · rw [if_neg (by simp [hblock]), if_neg (by simp [hblock])]
      obtain ⟨threadFn, trace, receive, hthread, htrace, hanswer, hblocking⟩ :=
        h.replays.block_answers h.tabulated h.consistent.async.endpoints hlast hblock
      have hclosed := threadClosed_dropMask h.tabulated hlast
      obtain ⟨child, hrestrict, hto⟩ := h.tabulated.restrictMasked_ok h.consistent.async.endpoints (by rw [dropMask, length_set, length_replicate]) hclosed
      have hchild := h.rescheduled hlast hblock hrestrict hto
      have hu := h.unblocks hlast hblock hto
      have hcount : child.threadEventCount tid = g.threadEventCount tid - 1 := by
        rw [threadEventCount_eq hchild.tabulated, threadEventCount_eq h.tabulated, hu.threadCount_self h hchild]
      have hmode : receive.isNonblocking = false := by rw [ReceiveLabel.isNonblocking_eq, hblocking]; rfl
      rw [show (replicate g.eventCount true).set id false = dropMask g.eventCount id from rfl]
      simp only [hthread, htrace, hrestrict, hu.threadTrace_eq h hchild, hcount, bind, Except.bind, hanswer, hmode,
        hblocking, Bool.false_eq_true, if_false, Bool.true_and, hu.hasCompatibleUnreadSend_eq h hchild]
      cases hready : hasCompatibleUnreadSend g tid receive with
      | false => exact ⟨rfl, none, rfl, nofun⟩
      | true =>
        refine ⟨rfl, some child, rfl, fun other hother => ?_⟩
        cases hother
        refine ⟨hchild, hu, receive, hblocking, ⟨threadFn, trace, hthread, ?_, ?_⟩, ?_⟩
        · rw [hu.threadTrace_eq h hchild, htrace]
        · rw [hcount, hanswer]
        · rw [hu.hasCompatibleUnreadSend_eq h hchild, hready]
    · rw [if_pos (by simpa using hblock), if_pos (by simpa using hblock)]
      exact ⟨rfl, none, rfl, nofun⟩

theorem Explored.plainReschedule_ok (ids : List ℕ) :
    ∃ found, plainReschedule config.program g ids = .ok found ∧
      (∀ (tids : List ℕ) (answers : ExecutorAnswers V), (∀ tid, answers.stopAtThread tid = false) →
        findBlockedReceiveRescheduleChild (Queries.ofConfig config tids) answers g ids =
          .ok (BlockedReceiveReschedule.ofPlain found)) ∧
      ∀ tid child, found = some (tid, child) → tid ∈ ids ∧ Explored config child depth ∧ Unblocks g tid child ∧
        ∃ receive, receive.isBlocking = true ∧ Answers config.program child tid (some (.receive receive)) ∧
          hasCompatibleUnreadSend child tid receive = true := by
  induction ids with
  | nil => exact ⟨none, rfl, fun _ _ _ => rfl, nofun⟩
  | cons tid rest ih =>
    obtain ⟨hsame, found, hfound, hchild⟩ := h.plainRescheduleThread_eq tid
    cases found with
    | some child =>
      refine ⟨some (tid, child), ?_, fun tids answers hstop => ?_, fun other child' hother => ?_⟩
      · unfold plainReschedule
        rw [← hsame, hfound]
        rfl
      · unfold findBlockedReceiveRescheduleChild
        rw [hstop tid, if_neg Bool.false_ne_true, show (Queries.ofConfig config tids).rescheduleThread g tid =
          rescheduleThread config.program g tid from rfl, hfound]
        rfl
      · cases hother
        exact ⟨mem_cons_self, hchild child rfl⟩
    | none =>
      obtain ⟨found, hplain, hfind, hlater⟩ := ih
      refine ⟨found, ?_, fun tids answers hstop => ?_, fun other child hother => ?_⟩
      · unfold plainReschedule
        rw [← hsame, hfound]
        exact hplain
      · unfold findBlockedReceiveRescheduleChild
        rw [hstop tid, if_neg Bool.false_ne_true, show (Queries.ofConfig config tids).rescheduleThread g tid =
          rescheduleThread config.program g tid from rfl, hfound]
        exact hfind tids answers hstop
      · obtain ⟨hmem, hrest⟩ := hlater other child hother
        exact ⟨mem_cons_of_mem _ hmem, hrest⟩

end Plain

/-- On every graph of a search that has no next event, the reschedule scan returns what the plain procedure
returns; and a thread that is woken up makes its receive next, with a send to read from. -/
theorem reschedule_is_plain [LinearOrder V] (config : DporConfig V) (threadIds : List ℕ)
    (hthreads : sortedThreadIds config.program = .ok threadIds) (explorer : Explorer V)
    (hexplorer : Explores config threadIds explorer) (answers : ExecutorAnswers V) (g : ExplorationGraph V)
    (hg : explorer.nextEventGraph (Queries.ofConfig config threadIds) config.maxDepth answers = some g)
    (flag : Bool) (hnone : computeNextEvent config.program g threadIds config.maxThreadEvents = .ok ⟨none, flag⟩)
    (hstop : ∀ tid, answers.stopAtThread tid = false) :
    ∃ found, plainReschedule config.program g threadIds = .ok found ∧
      findBlockedReceiveRescheduleChild (Queries.ofConfig config threadIds) answers g threadIds =
        .ok (BlockedReceiveReschedule.ofPlain found) ∧
      ∀ tid child, found = some (tid, child) → ∃ receive flag', receive.isBlocking = true ∧
        computeNextEvent config.program child threadIds config.maxThreadEvents =
          .ok ⟨some (tid, .receive receive), flag'⟩ ∧
        compatibleUnreadSendIds child tid receive ≠ [] := by
  have hthreads := threadsOf_sorted config.program threadIds hthreads
  obtain ⟨depth, -, h⟩ := (hexplorer.surveyed hthreads explorer).nextEventGraph explorer answers g hg
  obtain ⟨found, hplain, hfind, hchild⟩ := h.plainReschedule_ok threadIds
  refine ⟨found, hplain, hfind threadIds answers hstop, fun tid child hfound => ?_⟩
  obtain ⟨htid, hexplored, hu, receive, hblocking, hanswers, hready⟩ := hchild tid child hfound
  obtain ⟨flag', hnext⟩ := hu.next h hexplored threadIds hthreads flag hnone htid receive hanswers hready
  refine ⟨receive, flag', hblocking, hnext, fun hempty => ?_⟩
  obtain ⟨id, hid⟩ := (hasCompatibleUnreadSend_iff child hexplored.tabulated hexplored.counted tid receive).mp hready
  rw [← mem_compatibleUnreadSendIds child hexplored.tabulated hexplored.counted, hempty] at hid
  cases hid

/-- A receive that is asked for before the send it waits for. -/
def wokenConfig : DporConfig ℕ :=
  ⟨⟨⟨[some fun _ step => if step = 0 then some (.receive ⟨.blocking, fun _ => true⟩) else none,
    some fun _ step => if step = 0 then some (.send ⟨0, 7⟩) else none]⟩⟩, 10, 1, .fifoP2P⟩

/-- Never stops, never takes a child. -/
def obligingExecutor : ExecutorAnswers ℕ :=
  ⟨false, false, none, false, fun _ => false, false, false, false, false, fun _ => none⟩

/-- The explorer in front of the graph that holds the Block and the send. -/
def wokenExplorer : ℕ → Explorer ℕ
  | 0 => Explorer.start (WorkerGraph.ofGraph ExplorationGraph.empty) 0 .visit
  | rounds + 1 => ((wokenExplorer rounds).iterate (Queries.ofConfig wokenConfig [0, 1]) [0, 1] wokenConfig.maxDepth
      obligingExecutor).explorer

theorem woken_reschedule_is_plain :
    ∃ g tid child receive flag, (wokenExplorer 3).nextEventGraph (Queries.ofConfig wokenConfig [0, 1]) 10
        obligingExecutor = some g ∧
      plainReschedule wokenConfig.program g [0, 1] = .ok (some (tid, child)) ∧
      computeNextEvent wokenConfig.program child [0, 1] 1 = .ok ⟨some (tid, .receive receive), flag⟩ := by
  have hexplores : Explores wokenConfig [0, 1] (wokenExplorer 3) :=
    .round _ obligingExecutor (.round _ obligingExecutor (.round _ obligingExecutor .start rfl) rfl) rfl
  obtain ⟨found, hplain, -, hchild⟩ := reschedule_is_plain wokenConfig [0, 1] rfl (wokenExplorer 3) hexplores
    obligingExecutor _ rfl true rfl fun _ => rfl
  cases found with
  | none =>
    have hsome := congrArg (fun result => result.toOption.join.isSome) hplain
    exact absurd hsome (by decide +kernel)
  | some answer =>
    obtain ⟨receive, flag, -, hnext, -⟩ := hchild answer.1 answer.2 rfl
    exact ⟨_, answer.1, answer.2, receive, flag, rfl, hplain, hnext⟩

end MustDpor

import MustDpor.Algo.NextEvent
import MustDpor.Algo.Tiebreaker
import MustDpor.Model.Execution

/-! # Executions of a program

When an execution replays a program, and what the scan for the next event and the scan for a blocked
receive find on a graph whose execution does. -/

namespace MustDpor
set_option autoImplicit false
open List Function

variable {V : Type}

/-- The events that an answer of a thread function turns into. -/
inductive Becomes [DecidableEq V] : EventLabel V → EventLabel V → Prop where
  | receive (receive : ReceiveLabel V) : Becomes (.receive receive) (.receive receive)
  | blocked (receive : ReceiveLabel V) : receive.isBlocking = true → Becomes (.receive receive) .block
  | send (send : SendLabel V) : Becomes (.send send) (.send send)
  | error (error : ErrorLabel) : Becomes (.error error) (.error error)
  | free (nd : NondeterministicChoiceLabel V) : nd.choices = [] →
      Becomes (.nondeterministicChoice nd) (.nondeterministicChoice nd)
  | choice (nd : NondeterministicChoiceLabel V) (value : V) : value ∈ nd.choices →
      Becomes (.nondeterministicChoice nd)
        (.nondeterministicChoice ⟨value, eraseDuplicateNdChoices nd.choices⟩)

/-- Every event is what its thread function makes of the trace before it. -/
structure Replays [DecidableEq V] (program : Program V) (x : Execution V) : Prop where
  event : ∀ thread i n, x (thread, i) = some n → ∃ threadFn returned,
    program.threads.atThread thread = .ok threadFn ∧ threadFn (x.trace thread i) i = some returned ∧
      Becomes returned n.label
  dense : ∀ thread i, x (thread, i + 1) ≠ none → x (thread, i) ≠ none
  blockLast : ∀ thread i n, x (thread, i) = some n → n.label = .block → x (thread, i + 1) = none

section Replays
variable [DecidableEq V] {program : Program V} {x : Execution V}

theorem Replays.cut (h : Replays program x) {y : Execution V}
    (hlabels : ∀ p n, y p = some n → ∃ m, x p = some m ∧ m.label = n.label)
    (hbelow : ∀ thread i, y (thread, i + 1) ≠ none → y (thread, i) ≠ none ∧
      (y (thread, i)).bind y.observation = (x (thread, i)).bind x.observation) : Replays program y where
  event := by
    intro thread i n hn
    obtain ⟨m, hm, hlabel⟩ := hlabels _ n hn
    have hfilled (j : ℕ) (hj : j ≤ i) : y (thread, j) ≠ none := by
      induction hk : i - j generalizing j with
      | zero =>
        obtain rfl : j = i := by omega
        rw [hn]
        exact Option.some_ne_none _
      | succ k ih => exact (hbelow thread j (ih (j + 1) (by omega) (by omega))).1
    have htrace : y.trace thread i = x.trace thread i :=
      y.trace_congr x fun j hj => (hbelow thread j (hfilled (j + 1) hj)).2
    rw [htrace, ← hlabel]
    exact h.event thread i m hm
  dense := fun thread i hi => (hbelow thread i hi).1
  blockLast := by
    intro thread i n hn hblock
    obtain ⟨m, hm, hlabel⟩ := hlabels _ n hn
    by_contra hnext
    obtain ⟨n', hn'⟩ := Option.ne_none_iff_exists'.mp hnext
    obtain ⟨m', hm', -⟩ := hlabels _ n' hn'
    rw [h.blockLast thread i m hm (hlabel.trans hblock)] at hm'
    cases hm'

omit [DecidableEq V] in
/-- What a thread has observed does not depend on an event that comes later. -/
theorem Execution.trace_update {thread i : ℕ} {n : Node V} (hnew : x (thread, i) = none)
    (hsources : ∀ p m q, x p = some m → m.source = some (.send q) → x q ≠ none) (t j : ℕ) (hj : t = thread → j ≤ i) :
    Execution.trace (update x (thread, i) (some n)) t j = x.trace t j := by
  have hobserved (p : Pos) (m : Node V) (hm : x p = some m) :
      Execution.observation (update x (thread, i) (some n)) m = x.observation m := by
    unfold Execution.observation
    cases m.label with
    | receive receive =>
      dsimp only
      cases hsource : m.source with
      | none => rfl
      | some source =>
        cases source with
        | bottom => rfl
        | send q =>
          have hq : q ≠ (thread, i) := by
            rintro rfl
            exact hsources p m _ hm hsource hnew
          simp only [Option.bind_some, Execution.delivered, update_of_ne hq]
    | _ => rfl
  refine Execution.trace_congr _ _ fun k hk => ?_
  have hne : (t, k) ≠ (thread, i) := by
    intro hsame
    obtain ⟨hthread, hki⟩ := Prod.mk.inj hsame
    exact absurd (hj hthread) (by omega)
  rw [update_of_ne hne]
  cases hm : x (t, k) with
  | none => rfl
  | some m => exact hobserved (t, k) m hm

theorem Replays.grow (h : Replays program x) {thread i : ℕ} {n : Node V} (hfilled : ∀ j, x (thread, j) ≠ none ↔ j < i)
    (hsources : ∀ p m q, x p = some m → m.source = some (.send q) → x q ≠ none)
    (hopen : ∀ j m, j + 1 = i → x (thread, j) = some m → m.label ≠ .block)
    {threadFn : ThreadFunction V} {returned : EventLabel V} (hthread : program.threads.atThread thread = .ok threadFn)
    (hreturned : threadFn (x.trace thread i) i = some returned) (hbecomes : Becomes returned n.label) :
    Replays program (update x (thread, i) (some n)) := by
  have hnew : x (thread, i) = none := not_not.mp fun hne => lt_irrefl i ((hfilled i).mp hne)
  have htrace := Execution.trace_update (n := n) hnew hsources
  refine ⟨fun t j m hm => ?_, fun t j hne => ?_, fun t j m hm hblock => ?_⟩
  · by_cases hp : (t, j) = (thread, i)
    · obtain ⟨rfl, rfl⟩ := Prod.mk.inj hp
      rw [update_self] at hm
      cases hm
      rw [htrace t j fun _ => le_refl j]
      exact ⟨threadFn, returned, hthread, hreturned, hbecomes⟩
    · rw [update_of_ne hp] at hm
      rw [htrace t j]
      · exact h.event t j m hm
      · rintro rfl
        exact le_of_lt ((hfilled j).mp (by rw [hm]; exact Option.some_ne_none _))
  · by_cases hp : (t, j) = (thread, i)
    · rw [hp, update_self]
      exact Option.some_ne_none _
    · rw [update_of_ne hp]
      by_cases hnext : (t, j + 1) = (thread, i)
      · obtain ⟨rfl, rfl⟩ := Prod.mk.inj hnext
        exact (hfilled j).mpr (Nat.lt_succ_self j)
      · rw [update_of_ne hnext] at hne
        exact h.dense t j hne
  · by_cases hp : (t, j) = (thread, i)
    · obtain ⟨rfl, rfl⟩ := Prod.mk.inj hp
      rw [update_of_ne (by simp)]
      exact not_not.mp fun hne => absurd ((hfilled (j + 1)).mp hne) (by omega)
    · rw [update_of_ne hp] at hm
      rw [update_of_ne]
      · exact h.blockLast t j m hm hblock
      · intro hnext
        obtain ⟨rfl, hi⟩ := Prod.mk.inj hnext
        exact hopen j m hi hm hblock

end Replays

/-- A restriction to the beginnings of threads replays the program, if every event that is not the last of
its thread keeps its source. -/
theorem ExplorationGraph.Selects.replays [DecidableEq V] {program : Program V} {g child : ExplorationGraph V}
    {mask : List Bool} (hto : g.Selects mask child) (ht : g.Tabulated)
    (hends : g.graph.ValidEndpoints) (hclosed : ThreadClosed g.graph.events mask)
    (hreads : ∀ id newId, ExplorationGraph.remapId mask id = some newId →
      (∃ b, child.graph.ProgramOrder newId b) →
        child.graph.readsFrom.find newId =
          (g.graph.readsFrom.find id).bind (ExplorationGraph.remapSource mask) ∧
        ∀ src, g.graph.ReadsFrom src id → mask.getD src false = true)
    (h : Replays program g.graph.execution) : Replays program child.graph.execution := by
  have hordered := ht.indexOrdered g
  have hlabel (id newId : ℕ) (p : Pos) (hid : ExplorationGraph.remapId mask id = some newId)
      (hp : g.graph.posAt id = some p) : ∃ n m, child.graph.execution p = some n ∧
        g.graph.execution p = some m ∧ m.label = n.label := by
    obtain ⟨e, he, -⟩ := (g.graph.posAt_eq_some id p).mp hp
    have hn := hto.execution_kept hid hp rfl
    rw [he] at hn
    have hm := hordered.execution_of_posAt hp
    rw [ExecutionGraph.nodeAt, he] at hm
    exact ⟨_, _, hn, hm, rfl⟩
  refine h.cut (fun p n hn => ?_) fun thread i hnext => ?_
  · obtain ⟨id, newId, hid, hp⟩ := hto.exists_kept hn
    obtain ⟨n', m, hn', hm, hsame⟩ := hlabel id newId p hid hp
    rw [hn] at hn'
    cases hn'
    exact ⟨m, hm, hsame⟩
  · obtain ⟨next, hnode⟩ := Option.ne_none_iff_exists'.mp hnext
    obtain ⟨b, newB, hb, hbp⟩ := hto.exists_kept hnode
    obtain ⟨eb, heb, hposB⟩ := (g.graph.posAt_eq_some b _).mp hbp
    obtain ⟨hthreadB, hindexB⟩ := Prod.mk.inj hposB
    have hfilled : g.graph.execution (thread, i) ≠ none := h.dense thread i (by
      obtain ⟨-, m, -, hm, -⟩ := hlabel b newB _ hb hbp
      rw [hm]
      exact Option.some_ne_none _)
    obtain ⟨m, hm⟩ := Option.ne_none_iff_exists'.mp hfilled
    obtain ⟨a, hap, -⟩ := (hordered.execution_eq_some _ m).mp hm
    obtain ⟨ea, hea, hposA⟩ := (g.graph.posAt_eq_some a _).mp hap
    obtain ⟨hthreadA, hindexA⟩ := Prod.mk.inj hposA
    have hpo : g.graph.ProgramOrder a b :=
      ⟨ea, eb, hea, heb, hthreadA.trans hthreadB.symm, by rw [hindexA, hindexB]; exact Nat.lt_succ_self i⟩
    have hlt := ((hordered.programOrder_iff g.graph a b).mp hpo).1
    have hkept := hclosed a b ea eb hlt hea heb (hthreadA.trans hthreadB.symm) (marked_of_place _ b newB hb)
    obtain ⟨newA, hnewA⟩ : ∃ newA, ExplorationGraph.remapId mask a = some newA := exists_place _ a hkept
    obtain ⟨hfind, hsources⟩ := hreads a newA hnewA ⟨newB, (hto.programOrder_iff hnewA hb).mpr hpo⟩
    have hchild := hto.execution_kept hnewA hap rfl
    have hold : g.graph.execution (thread, i) = g.graph.nodeAt a :=
      hordered.execution_of_posAt hap
    rw [ExecutionGraph.nodeAt, hea] at hold
    rw [hea] at hchild
    refine ⟨by rw [hchild]; exact Option.some_ne_none _, ?_⟩
    rw [hchild, hold]
    show Execution.observation _ ⟨ea.label, _⟩ = Execution.observation _ ⟨ea.label, _⟩
    unfold Execution.observation
    cases ea.label with
    | receive receive =>
      dsimp only
      rw [hfind]
      cases hsource : g.graph.readsFrom.find a with
      | none => rfl
      | some source =>
        cases source with
        | bottom => rfl
        | send src =>
          obtain ⟨es, send, hes, -⟩ := (hends a _ hsource).2 src rfl
          obtain ⟨newSrc, hnewSrc⟩ : ∃ newSrc, ExplorationGraph.remapId mask src = some newSrc :=
            exists_place _ src (hsources src hsource)
          have hpos : g.graph.posAt src = some (es.thread, es.index) :=
            (g.graph.posAt_eq_some src _).mpr ⟨es, hes, rfl⟩
          obtain ⟨n', m', hn', hm', hsame⟩ := hlabel src newSrc _ hnewSrc hpos
          simp only [Option.bind_some, ExplorationGraph.remapSource, hnewSrc, Option.map_some,
            ExecutionGraph.posSource, hto.posAt hnewSrc, hpos, Execution.delivered, hn', hm', hsame]
    | _ => rfl

/-! ## Sends that a receive can still take -/

/-- An unread send addressed to the thread, with a value the receive accepts. -/
def Receivable (g : ExplorationGraph V) (tid : ℕ) (receive : ReceiveLabel V) (id : ℕ) : Prop :=
  compatibleSend g tid receive id = true ∧ ∀ r, ¬ g.graph.ReadsFrom id r

section Unread
variable (g : ExplorationGraph V) (ht : g.Tabulated) (hc : g.Counted)
include ht hc

theorem mem_compatibleUnreadSendIds (tid : ℕ) (receive : ReceiveLabel V) (id : ℕ) :
    id ∈ compatibleUnreadSendIds g tid receive ↔ Receivable g tid receive id := by
  unfold compatibleUnreadSendIds Receivable
  rw [mem_filter, (ht.matchesScan g hc).unread, and_comm]
  refine and_congr_right fun hcompat => ?_
  obtain ⟨es, send, hes, hsend, -⟩ := (compatibleSend_iff g tid receive id).mp hcompat
  have hpos : id ∈ positions g.events fun e => e.label.isSend :=
    (mem_positions _ _ id).mpr ⟨es, hes, by rw [hsend]; rfl⟩
  unfold ExplorationGraph.scanUnread
  rw [mem_filter, and_iff_right hpos, all_eq_true]
  simp only [decide_eq_true_eq]
  constructor
  · exact fun hall r hread => hall (r, .send id) (AscendingMap.mem_entries.mpr hread) rfl
  · rintro hnone ⟨r, source⟩ hentry rfl
    exact hnone r (AscendingMap.mem_entries.mp hentry)

theorem hasCompatibleUnreadSend_iff (tid : ℕ) (receive : ReceiveLabel V) :
    hasCompatibleUnreadSend g tid receive = true ↔ ∃ id, Receivable g tid receive id := by
  have hany : hasCompatibleUnreadSend g tid receive =
      g.unreadSendEventIds.any (compatibleSend g tid receive) := by
    unfold hasCompatibleUnreadSend
    rw [(ht.matchesScan g hc).anyUnread, (ht.matchesScan g hc).unread]
  rw [hany, any_eq_true]
  refine exists_congr fun id => ?_
  rw [← mem_compatibleUnreadSendIds g ht hc, compatibleUnreadSendIds, mem_filter]

end Unread

/-! ## Looking for the next event -/

/-- What the thread function answers on the thread's trace and event count. -/
def Answers (program : Program V) (g : ExplorationGraph V) (tid : ℕ) (answer : Option (EventLabel V)) : Prop :=
  ∃ threadFn trace, program.threads.atThread tid = .ok threadFn ∧ g.threadTrace tid = .ok trace ∧
    threadFn trace (g.threadEventCount tid) = answer

def EndsInBlock (g : ExplorationGraph V) (tid : ℕ) : Prop :=
  ∃ id, g.lastEventId tid = some id ∧ g.isBlockId id = true

def AtLimit (maxThreadEvents : ℕ) (g : ExplorationGraph V) (tid : ℕ) : Prop :=
  maxThreadEvents ≠ 0 ∧ maxThreadEvents ≤ g.threadEventCount tid

/-- How the scan of the threads can end, with `suppressed` set by the threads passed before. -/
inductive Scanned (program : Program V) (g : ExplorationGraph V) (maxThreadEvents : ℕ) (tids : List ℕ)
    (suppressed : Bool) : Except DporError (NextEventResult V) → Prop where
  | refused (tid : ℕ) : tid ∈ tids → g.threadIsTerminated tid = false → ¬ AtLimit maxThreadEvents g tid →
      Answers program g tid (some .block) →
      Scanned program g maxThreadEvents tids suppressed (.error (blockLabelError tid))
  | exhausted (flag : Bool) :
      (flag = true ↔ suppressed = true ∨
        ∃ tid ∈ tids, g.threadIsTerminated tid = false ∧ AtLimit maxThreadEvents g tid) →
      (∀ tid ∈ tids, g.threadIsTerminated tid = true ∨ AtLimit maxThreadEvents g tid ∨
        Answers program g tid none) →
      Scanned program g maxThreadEvents tids suppressed (.ok ⟨none, flag⟩)
  | found (tid : ℕ) (label : EventLabel V) (flag : Bool) : tid ∈ tids →
      g.threadIsTerminated tid = false → ¬ AtLimit maxThreadEvents g tid →
      Answers program g tid (some label) → label ≠ .block →
      Scanned program g maxThreadEvents tids suppressed (.ok ⟨some (tid, eventFor g tid label), flag⟩)

section Scan
variable {program : Program V} {g : ExplorationGraph V} {maxThreadEvents : ℕ}

theorem Scanned.pass {tid : ℕ} {ids : List ℕ} {suppressed flag : Bool} {result : Except DporError (NextEventResult V)}
    (hflag : flag = true ↔ suppressed = true ∨
      (g.threadIsTerminated tid = false ∧ AtLimit maxThreadEvents g tid))
    (hpassed : g.threadIsTerminated tid = true ∨ AtLimit maxThreadEvents g tid ∨ Answers program g tid none)
    (h : Scanned program g maxThreadEvents ids flag result) :
    Scanned program g maxThreadEvents (tid :: ids) suppressed result := by
  cases h with
  | refused other hmem hopen hlimit hanswers =>
    exact .refused other (mem_cons_of_mem _ hmem) hopen hlimit hanswers
  | exhausted last hlast hall =>
    refine .exhausted last ?_ fun other hother => ?_
    · rw [hlast, hflag, or_assoc]
      refine or_congr_right ?_
      simp only [mem_cons, exists_eq_or_imp]
    · rcases mem_cons.mp hother with rfl | hother
      · exact hpassed
      · exact hall other hother
  | found other label last hmem hopen hlimit hanswers hlabel =>
    exact .found other label last (mem_cons_of_mem _ hmem) hopen hlimit hanswers hlabel

theorem computeNextEventFrom_scanned {ids : List ℕ} (suppressed : Bool)
    (hthreads : ∀ tid ∈ ids, ∃ threadFn, program.threads.atThread tid = .ok threadFn)
    (htrace : ∀ tid, ∃ trace, g.threadTrace tid = .ok trace) :
    Scanned program g maxThreadEvents ids suppressed
      (computeNextEventFrom program g maxThreadEvents ids suppressed) := by
  induction ids generalizing suppressed with
  | nil =>
    refine .exhausted suppressed ?_ nofun
    simp
  | cons tid rest ih =>
    have ih := fun flag => ih flag fun other hother => hthreads other (mem_cons_of_mem _ hother)
    unfold computeNextEventFrom
    cases hterminated : g.threadIsTerminated tid with
    | true =>
      refine .pass ?_ (.inl hterminated) (ih suppressed)
      simp [hterminated]
    | false =>
      rw [if_neg Bool.false_ne_true]
      by_cases hlimit : AtLimit maxThreadEvents g tid
      · rw [if_pos (show maxThreadEvents ≠ 0 ∧ maxThreadEvents ≤ g.threadEventCount tid from hlimit)]
        refine .pass ?_ (.inr (.inl hlimit)) (ih true)
        simp [hterminated, hlimit]
      · rw [if_neg (show ¬ (maxThreadEvents ≠ 0 ∧ maxThreadEvents ≤ g.threadEventCount tid) from hlimit)]
        obtain ⟨threadFn, hthread⟩ := hthreads tid mem_cons_self
        obtain ⟨trace, htraced⟩ := htrace tid
        simp only [hthread, htraced, bind, Except.bind]
        have hanswers : Answers program g tid (threadFn trace (g.threadEventCount tid)) :=
          ⟨threadFn, trace, hthread, htraced, rfl⟩
        cases hanswer : threadFn trace (g.threadEventCount tid) with
        | none =>
          rw [hanswer] at hanswers
          refine .pass ?_ (.inr (.inr hanswers)) (ih suppressed)
          simp [hlimit]
        | some label =>
          rw [hanswer] at hanswers
          cases label with
          | block => exact .refused tid mem_cons_self hterminated hlimit hanswers
          | receive | send | error | nondeterministicChoice =>
            exact .found tid _ suppressed mem_cons_self hterminated hlimit hanswers nofun

end Scan

/-! ## The last event of a thread -/

variable {tid id : ℕ}

section Last
variable {g : ExplorationGraph V} (ht : g.Tabulated)
include ht

theorem threadEventCount_eq (tid : ℕ) : g.threadEventCount tid = threadCount g.graph.events tid := by
  unfold ExplorationGraph.threadEventCount
  rw [ht.threadState_eq g tid]
  exact length_positions g.graph.events (inThread tid)

theorem lastEventId_some (hlast : g.lastEventId tid = some id) :
    ∃ e, g.graph.events[id]? = some e ∧ e.thread = tid ∧ e.index + 1 = threadCount g.graph.events tid := by
  rw [ht.lastEventId_eq g tid] at hlast
  rcases ht.numbered.last_eq tid with ⟨hnone, -⟩ | ⟨last, e, hsome, he⟩
  · exact absurd (hlast.symm.trans hnone) nofun
  · have hid : id = last := Option.some.inj (hlast.symm.trans hsome)
    rw [hid]
    exact ⟨e, he⟩

theorem lastEventId_of_index {e : Event V} (he : g.graph.events[id]? = some e)
    (hindex : e.index + 1 = threadCount g.graph.events e.thread) : g.lastEventId e.thread = some id := by
  cases hlast : g.lastEventId e.thread with
  | none =>
    rw [ht.lastEventId_eq g e.thread] at hlast
    rcases ht.numbered.last_eq e.thread with ⟨-, hzero⟩ | ⟨last, e', hsome, -⟩
    · omega
    · exact absurd (hlast.symm.trans hsome) nofun
  | some last =>
    obtain ⟨e', he', hthread, hindex'⟩ := lastEventId_some ht hlast
    have hpos : g.graph.posAt id = some (e.thread, e.index) := (g.graph.posAt_eq_some id _).mpr ⟨e, he, rfl⟩
    have hpos' : g.graph.posAt last = some (e.thread, e.index) :=
      (g.graph.posAt_eq_some last _).mpr ⟨e', he', by rw [hthread, show e'.index = e.index by omega]⟩
    rw [(ht.indexOrdered g).posAt_injective hpos' hpos]

omit ht in
theorem isBlockId_iff (id : ℕ) : g.isBlockId id = true ↔ ∃ e, g.graph.events[id]? = some e ∧ e.label = .block := by
  unfold ExplorationGraph.isBlockId ExplorationGraph.label?
  cases g.graph.events[id]? with
  | none => simp
  | some e => simp [EventLabel.isBlock_iff]

theorem Replays.block_answers [DecidableEq V] {program : Program V} (h : Replays program g.graph.execution)
    (hends : g.graph.ValidEndpoints) (hlast : g.lastEventId tid = some id) (hblock : g.isBlockId id = true) :
    ∃ threadFn trace receive, program.threads.atThread tid = .ok threadFn ∧ g.threadTrace tid = .ok trace ∧
      threadFn trace (g.threadEventCount tid - 1) = some (.receive receive) ∧ receive.isBlocking = true := by
  obtain ⟨e, he, rfl, hindex⟩ := lastEventId_some ht hlast
  obtain ⟨e', he', hlabel⟩ := (isBlockId_iff id).mp hblock
  rw [he] at he'
  cases he'
  have hnode : g.graph.execution (e.thread, e.index) =
      some ⟨e.label, (g.graph.readsFrom.find id).bind g.graph.posSource⟩ := by
    rw [(ht.indexOrdered g).execution_of_posAt ((g.graph.posAt_eq_some id _).mpr ⟨e, he, rfl⟩),
      ExecutionGraph.nodeAt, he]
    rfl
  obtain ⟨threadFn, returned, hthread, hreturned, hbecomes⟩ := h.event _ _ _ hnode
  -- the Block itself observes nothing
  have htrace : g.graph.execution.trace e.thread (threadCount g.graph.events e.thread) =
      g.graph.execution.trace e.thread e.index := by
    rw [← hindex, Execution.trace_succ, hnode, Option.bind_some, Execution.observation, hlabel]
    exact append_nil _
  have hcount : g.threadEventCount e.thread - 1 = e.index := by
    rw [threadEventCount_eq ht]
    omega
  rw [hlabel] at hbecomes
  cases hbecomes with
  | blocked receive hblocking =>
    exact ⟨threadFn, _, receive, hthread, ht.threadTrace_ok hends e.thread,
      by rw [htrace, hcount]; exact hreturned, hblocking⟩

end Last

/-! ## Looking for a blocked receive that can go on -/

/-- The blocking receive behind the thread's Block can take no unread send. -/
def Stuck (program : Program V) (g : ExplorationGraph V) (tid : ℕ) : Prop :=
  ∃ threadFn trace receive, program.threads.atThread tid = .ok threadFn ∧ g.threadTrace tid = .ok trace ∧
    threadFn trace (g.threadEventCount tid - 1) = some (.receive receive) ∧ receive.isBlocking = true ∧
    ∀ id, ¬ Receivable g tid receive id

/-- All events but one. -/
def dropMask (n id : ℕ) : List Bool := (List.replicate n true).set id false

theorem dropMask_getD {n id other : ℕ} :
    (dropMask n id).getD other false = true ↔ other < n ∧ other ≠ id := by
  unfold dropMask
  rw [getD_eq_getElem?_getD, getElem?_set, length_replicate, getElem?_replicate]
  by_cases hsame : id = other
  · subst hsame
    by_cases hlt : id < n <;> simp [hlt]
  · by_cases hlt : other < n
    · simp [hsame, hlt, Ne.symm hsame]
    · simp [hsame, hlt]

theorem threadClosed_dropMask {g : ExplorationGraph V} (ht : g.Tabulated)
    (hlast : g.lastEventId tid = some id) : ThreadClosed g.graph.events (dropMask g.eventCount id) := by
  intro a b ea eb hlt ha hb hsame hkept
  refine dropMask_getD.mpr ⟨lt_of_getElem? ha, ?_⟩
  rintro rfl
  obtain ⟨e, he, rfl, hindex⟩ := lastEventId_some ht hlast
  have hless := ht.indexOrdered g a b ea eb hlt ha hb hsame
  rw [he] at ha
  cases ha
  have hbound := ht.numbered.index_lt hb
  rw [← hsame] at hbound
  omega

/-- On a replaying graph the thread function answers what it answered before, so a blocked thread either
stays or loses its Block. -/
theorem rescheduleThread_ok [DecidableEq V] {program : Program V} {g : ExplorationGraph V} (ht : g.Tabulated)
    (hc : g.Counted) (hends : g.graph.ValidEndpoints) (h : Replays program g.graph.execution) (tid : ℕ) :
    (rescheduleThread program g tid = .ok none ∧ (EndsInBlock g tid → Stuck program g tid)) ∨
    ∃ id child, g.lastEventId tid = some id ∧ g.isBlockId id = true ∧
      rescheduleThread program g tid = .ok (some child) ∧
      g.restrictMasked (dropMask g.eventCount id) = .ok child ∧
      g.RestrictsTo (dropMask g.eventCount id) child := by
  unfold rescheduleThread
  cases hlast : g.lastEventId tid with
  | none =>
    refine .inl ⟨rfl, ?_⟩
    rintro ⟨id, hid, -⟩
    rw [hlast] at hid
    cases hid
  | some id =>
    dsimp only
    by_cases hblock : g.isBlockId id = true
    · rw [if_neg (by simp [hblock])]
      obtain ⟨threadFn, trace, receive, hthread, htrace, hanswer, hblocking⟩ :=
        h.block_answers ht hends hlast hblock
      have hmode : receive.isNonblocking = false := by rw [ReceiveLabel.isNonblocking_eq, hblocking]; rfl
      simp only [hthread, htrace, bind, Except.bind, hanswer, hmode, Bool.false_eq_true, if_false]
      by_cases hready : hasCompatibleUnreadSend g tid receive = true
      · rw [if_neg (by simp [hready])]
        have hclosed := threadClosed_dropMask ht hlast
        obtain ⟨child, hchild, hto⟩ := ht.restrictMasked_ok hends
          (by rw [dropMask, length_set, length_replicate]) hclosed
        refine .inr ⟨id, child, rfl, hblock, ?_, hchild, hto⟩
        rw [show (replicate g.eventCount true).set id false = dropMask g.eventCount id from rfl, hchild]
        rfl
      · rw [if_pos (by simpa using hready)]
        refine .inl ⟨rfl, fun _ => ⟨threadFn, trace, receive, hthread, htrace, hanswer, hblocking, ?_⟩⟩
        exact fun other hother => hready ((hasCompatibleUnreadSend_iff g ht hc tid receive).mpr ⟨other, hother⟩)
    · rw [if_pos (by simpa using hblock)]
      refine .inl ⟨rfl, ?_⟩
      rintro ⟨other, hother, hends⟩
      rw [hlast] at hother
      cases hother
      exact absurd hends hblock

end MustDpor

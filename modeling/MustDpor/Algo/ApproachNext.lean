import Mathlib.Data.Prod.Lex
import Mathlib.Order.WellFounded
import MustDpor.Algo.Approach

/-! # The next event on the way

A graph that approaches an execution can go on towards it with whatever event its program has next: a receive finds
a source among the sends that are there, and where the send on top of the stack arrives, the receive that waits for
it can be revisited. -/

namespace MustDpor
set_option autoImplicit false
open List Relation

variable {V : Type}

/-! ## What a thread has observed -/

theorem Aligned.trace_eq {target y : Execution V} {order : List Pos} {waiting : WaitStack}
    (h : Aligned target (y.on order) waiting)
    (hsources : ∀ s r, (y.on order).Reads s r → y.on order s ≠ none) {tid i : ℕ}
    (hthere : ∀ j, j < i → y.on order (tid, j) ≠ none) (hwanted : ∀ j, j < i → Wanted target waiting (tid, j)) :
    y.trace tid i = target.trace tid i := by
  have hon (p : Pos) (hp : y.on order p ≠ none) (hpast : Wanted target waiting p) : y p = target p := by
    obtain ⟨n, hn⟩ := Option.ne_none_iff_exists'.mp hp
    rw [← h.agrees p hp hpast, hn]
    exact (Execution.on_eq_some.mp hn).2
  refine Execution.trace_congr y target fun j hj => ?_
  obtain ⟨n, hn⟩ := Option.ne_none_iff_exists'.mp (hthere j hj)
  have hsame := hon (tid, j) (hthere j hj) (hwanted j hj)
  rw [hsame, ← h.agrees _ (hthere j hj) (hwanted j hj), hn, Option.bind_some, Option.bind_some]
  unfold Execution.observation
  cases n.label with
  | receive receive =>
    dsimp only
    cases hsource : n.source with
    | none => rfl
    | some source =>
      cases source with
      | bottom => rfl
      | send s =>
        have hread : (y.on order).Reads s (tid, j) := ⟨n, hn, hsource⟩
        have hread' : target.Reads s (tid, j) := hread.congr (h.agrees _ (hthere j hj) (hwanted j hj))
        show (y s).bind _ = (target s).bind _
        rw [hon s (hsources s _ hread) ((hwanted j hj).past (.read hread'))]
  | _ => rfl

/-! ## First choices exist -/

theorem posLe_iff (a b : Pos) : PosLe a b ↔ toLex a ≤ toLex b := Prod.Lex.toLex_le_toLex.symm

theorem exists_firstChoice {x : Execution V} {thread : ℕ} {receive : ReceiveLabel V}
    (hready : receive.isNonblocking = true ∨ ∃ m, x.Receivable thread receive m) :
    ∃ source, FirstChoice x thread receive source := by
  unfold FirstChoice
  by_cases hmode : receive.isNonblocking = true
  · exact ⟨.bottom, by rw [if_pos hmode]⟩
  · obtain ⟨m, hm⟩ := hready.resolve_left hmode
    obtain ⟨least, hleast, hmin⟩ := wellFounded_lt.has_min
      {p : Lex Pos | x.Receivable thread receive (ofLex p)} ⟨toLex m, hm⟩
    refine ⟨.send (ofLex least), ?_⟩
    rw [if_neg hmode]
    refine ⟨ofLex least, rfl, hleast, fun m' hm' => (posLe_iff _ _).mpr ?_⟩
    exact not_lt.mp (hmin (toLex m') hm')

/-! ## Sources that are there -/

/-- Every send of the channel in front of `c` that the receive at `(tid, i)` could take has been read. -/
def Behind (o x : Execution V) (tid i : ℕ) (receive : ReceiveLabel V) (c : Pos) : Prop :=
  ∀ j n send, j < c.2 → o (c.1, j) = some n → n.label = .send send → send.destination = tid →
    receive.accepts send.value = true → ∃ k, k < i ∧ x.Reads (c.1, j) (tid, k)

/-- A source that the search offers, and that the communication model lets the receive have. -/
inductive Attainable (communicationModel : CommunicationModel) (x : Execution V) (tid i : ℕ) (receive : ReceiveLabel V) :
    PosSource → Prop where
  | bottom : receive.isNonblocking = true → Attainable communicationModel x tid i receive .bottom
  | send (m : Pos) : x.Receivable tid receive m → (communicationModel = .fifoP2P → Behind x x tid i receive m) →
      Attainable communicationModel x tid i receive (.send m)

variable {n : Node V}

section Next
variable {target x : Execution V} {waiting : WaitStack} {model : CommunicationModel}
  (htarget : target.Consistent model) (h : Aligned target x waiting) {d : Pos}
  (hwanted : ∀ a, target.Past a d → Wanted target waiting a)

include h hwanted in
theorem Aligned.overlay_eq {a : Pos} (ha : x a ≠ none) : target.overlay x d a = x a := by
  by_cases hpast : target.Past a d
  · rw [Execution.overlay_past hpast]
    exact (h.agrees a ha (hwanted a hpast)).symm
  · exact Execution.overlay_other hpast

variable {m : Pos}

include h hwanted in
theorem Aligned.receivable_of_overlay {tid : ℕ} {receive : ReceiveLabel V}
    (hm : (target.overlay x d).Receivable tid receive m) (hne : x m ≠ none) : x.Receivable tid receive m := by
  obtain ⟨⟨n, send, hn, hsend⟩, hunread⟩ := hm
  rw [h.overlay_eq hwanted hne] at hn
  refine ⟨⟨n, send, hn, hsend⟩, fun r nr hr hsource => hunread r nr ?_ hsource⟩
  rw [h.overlay_eq hwanted (by rw [hr]; exact Option.some_ne_none nr)]
  exact hr

variable {tid i : ℕ} (hbelow : ∀ k, k < i → x (tid, k) ≠ none) (hnot : ¬ target.Past (tid, i) d)
include htarget h hwanted hbelow hnot

theorem Aligned.read_of_overlay {r : Pos} {send : SendLabel V}
    (hm : target.overlay x d m = some n) (hsend : n.label = .send send) (hdest : send.destination = tid)
    (hread : (target.overlay x d).Reads m r) (hpast : target.Past r d) : ∃ k, k < i ∧ r = (tid, k) ∧ x.Reads m r := by
  have hread' : target.Reads m r := hread.congr (Execution.overlay_past hpast)
  obtain ⟨ns, send', -, -, hs, hsend', -, -, hdestination', -⟩ := htarget.delivered m r hread'
  rw [Execution.overlay_past ((Execution.Past.read hread').trans hpast), hs] at hm
  cases hm
  rw [hsend] at hsend'
  cases hsend'
  obtain ⟨thread, k⟩ := r
  obtain rfl : tid = thread := hdest.symm.trans hdestination'
  have hk : k < i := by
    by_contra hge
    exact hnot (htarget.past_below hpast (not_lt.mp hge))
  exact ⟨k, hk, rfl, hread'.congr (h.agrees _ (hbelow k hk) (hwanted _ hpast)).symm⟩

theorem Aligned.receivable_overlay {receive : ReceiveLabel V} (hm : x.Receivable tid receive m) :
    (target.overlay x d).Receivable tid receive m := by
  have hsame := h.overlay_eq hwanted hm.ne_none
  obtain ⟨⟨n, send, hn, hsend, hdest, haccepts⟩, hunread⟩ := hm
  refine ⟨⟨n, send, hsame.trans hn, hsend, hdest, haccepts⟩, fun r nr hr hsource => ?_⟩
  by_cases hpast : target.Past r d
  · obtain ⟨-, -, -, nr', hr', hsource'⟩ := h.read_of_overlay htarget hwanted hbelow hnot (hsame.trans hn) hsend
      hdest ⟨nr, hr, hsource⟩ hpast
    exact hunread r nr' hr' hsource'
  · rw [Execution.overlay_other hpast] at hr
    exact hunread r nr hr hsource

variable (habove : ∀ k, x (tid, k) ≠ none → k < i)
include habove

theorem FirstChoice.behind {receive : ReceiveLabel V} {c : Pos}
    (hdelivered : ∀ j r n send, j < c.2 → x.Reads (c.1, j) r → target.overlay x d (c.1, j) = some n →
      n.label = .send send → send.destination = r.1)
    (hchoice : FirstChoice (target.overlay x d) tid receive (.send c)) :
    Behind (target.overlay x d) x tid i receive c := by
  intro j n send hlt hn hsend hdest haccepts
  by_contra hnone
  have hreceivable : (target.overlay x d).Receivable tid receive (c.1, j) := by
    refine ⟨⟨n, send, hn, hsend, hdest, haccepts⟩, fun r nr hr hsource => hnone ?_⟩
    by_cases hpast : target.Past r d
    · obtain ⟨k, hk, rfl, hread⟩ := h.read_of_overlay htarget hwanted hbelow hnot hn hsend hdest
        ⟨nr, hr, hsource⟩ hpast
      exact ⟨k, hk, hread⟩
    · rw [Execution.overlay_other hpast] at hr
      have hthread := hdelivered j r n send hlt ⟨nr, hr, hsource⟩ hn hsend
      obtain ⟨thread, k⟩ := r
      obtain rfl : tid = thread := hdest.symm.trans hthread
      exact ⟨k, habove k (by rw [hr]; exact Option.some_ne_none nr), nr, hr, hsource⟩
  unfold FirstChoice at hchoice
  by_cases hmode : receive.isNonblocking = true
  · rw [if_pos hmode] at hchoice
    cases hchoice
  · rw [if_neg hmode] at hchoice
    obtain ⟨c', hc, -, hleast⟩ := hchoice
    cases hc
    rcases hleast _ hreceivable with hless | ⟨-, hle⟩
    · exact lt_irrefl _ hless
    · exact not_le.mpr hlt hle

variable (hdelivered : ∀ s r, x.Reads s r → ∃ n send, x s = some n ∧ n.label = .send send ∧ send.destination = r.1)
include hdelivered

theorem FirstChoice.attainable {receive : ReceiveLabel V} {source : PosSource}
    (hchoice : FirstChoice (target.overlay x d) tid receive source) (hthere : ∀ m, source = .send m → x m ≠ none) :
    Attainable model x tid i receive source := by
  cases source with
  | bottom =>
    refine .bottom ?_
    unfold FirstChoice at hchoice
    by_contra hmode
    rw [if_neg hmode] at hchoice
    obtain ⟨m, hm, -⟩ := hchoice
    cases hm
  | send m =>
    refine .send m (h.receivable_of_overlay hwanted hchoice.receivable (hthere m rfl)) fun _ j n send hlt hn => ?_
    have hsame (p : Pos) (n : Node V) (hp : x p = some n) : target.overlay x d p = some n := by
      rw [h.overlay_eq hwanted (by rw [hp]; exact Option.some_ne_none n)]
      exact hp
    refine hchoice.behind htarget h hwanted hbelow hnot habove (fun j r n send _ hread hn hsend => ?_) j n send hlt
      (hsame _ n hn)
    obtain ⟨n', send', hn', hsend', hdest⟩ := hdelivered _ r hread
    obtain rfl := Option.some.inj ((hsame _ n' hn').symm.trans hn)
    rw [hsend] at hsend'
    cases hsend'
    exact hdest

end Next

variable {p : Pos}

section Step
variable {target x : Execution V} {waiting : WaitStack} {model : CommunicationModel}
  (htarget : target.Consistent model) (h : Aligned target x waiting) {tid i : ℕ}
  (hbelow : ∀ k, k < i → x (tid, k) ≠ none) (habove : ∀ k, x (tid, k) ≠ none → k < i)
  (hdelivered : ∀ s r, x.Reads s r → ∃ n send, x s = some n ∧ n.label = .send send ∧ send.destination = r.1)
  {receive : ReceiveLabel V}
include htarget h hbelow

theorem Aligned.behind_wanted (hwanted : Wanted target waiting (tid, i)) {c : Pos}
    (hp : target (tid, i) = some ⟨.receive receive, some (.send c)⟩) (hmodel : model = .fifoP2P) :
    Behind target x tid i receive c := by
  intro j n send hlt hn hsend hdest haccepts
  obtain ⟨k, hk, hread⟩ := htarget.fifo hmodel c (tid, i) _ receive ⟨_, hp, rfl⟩ hp rfl j n send hlt hn hsend
    hdest haccepts
  have hpast : target.Past (tid, k) (tid, i) := htarget.past_order (by rw [hp]; exact Option.some_ne_none _) hk
  exact ⟨k, hk, hread.congr (h.agrees _ (hbelow k hk) (hwanted.past hpast)).symm⟩

include habove

theorem Aligned.attainable_wanted (hwanted : Wanted target waiting (tid, i)) {source : PosSource}
    (hp : target (tid, i) = some ⟨.receive receive, some source⟩) (hthere : ∀ m, source = .send m → x m ≠ none) :
    Attainable model x tid i receive source := by
  cases source with
  | bottom =>
    refine .bottom ?_
    obtain ⟨source, hsource, hblocking⟩ := htarget.assigned _ _ receive hp rfl
    cases hsource
    rw [ReceiveLabel.isNonblocking_eq, Bool.not_eq_true', ← Bool.not_eq_true]
    exact fun hmode => hblocking hmode rfl
  | send m =>
    have hread : target.Reads m (tid, i) := ⟨_, hp, rfl⟩
    have hwanted' (a : Pos) (ha : target.Past a m ∨ a = m) : Wanted target waiting a := by
      rcases ha with ha | rfl
      · exact (hwanted.past (.read hread)).past ha
      · exact hwanted.past (.read hread)
    refine .send m ⟨?_, fun r nr hr hsource => ?_⟩ fun hmodel j n send hlt hn hsend => ?_
    · obtain ⟨n, send, receive', nr, hn, hsend, hnr, hreceive, hdest, haccepts⟩ := htarget.delivered m _ hread
      obtain rfl := Option.some.inj (hp.symm.trans hnr)
      cases hreceive
      exact ⟨n, send, (h.agrees m (hthere m rfl) (hwanted' m (.inr rfl))).trans hn, hsend, hdest, haccepts⟩
    · have hsame := h.exclusive m r (tid, i) ⟨nr, hr, hsource⟩ hwanted hread
      have hlt := habove i (by rw [hsame, hr]; exact Option.some_ne_none nr)
      exact lt_irrefl i hlt
    · refine h.behind_wanted htarget hbelow hwanted hp hmodel j n send hlt ?_ hsend
      have hm : target (m.1, m.2) ≠ none := htarget.source_ne_none hread
      rw [← hn]
      refine (h.agrees (m.1, j) (by rw [hn]; exact Option.some_ne_none n) (hwanted' _ (.inl ?_))).symm
      exact htarget.past_order hm hlt

include hdelivered

theorem Aligned.exists_waits (hwf : WellFounded target.Past)
    (hready : receive.isNonblocking = true ∨ ∃ m, x.Receivable tid receive m) {d : Pos} (habsent : x d = none)
    (hwanted : Wanted target waiting d) (hnot : ¬ target.Past (tid, i) d) :
    ∃ source waits, Waits target x (tid, i) receive d source waits ∧
      Attainable model x tid i receive source := by
  induction d using hwf.induction with
  | _ d ih =>
    have hpast (a : Pos) (ha : target.Past a d) : Wanted target waiting a := hwanted.past ha
    obtain ⟨source, hchoice⟩ := exists_firstChoice
      (hready.imp_right fun ⟨m, hm⟩ => ⟨m, h.receivable_overlay htarget hpast hbelow hnot hm⟩)
    by_cases hthere : ∀ m, source = .send m → x m ≠ none
    · exact ⟨source, _, .stop d source habsent hchoice,
        hchoice.attainable htarget h hpast hbelow hnot habove hdelivered hthere⟩
    · simp only [not_forall, not_not] at hthere
      obtain ⟨m, rfl, hm⟩ := hthere
      have hmd := hchoice.past_of_absent hm
      obtain ⟨source, waits, hwaits, hattainable⟩ := ih m hmd hm (hpast m hmd) fun hback => hnot (hback.trans hmd)
      exact ⟨source, _, .next d m source waits habsent hchoice hwaits, hattainable⟩

theorem Aligned.exists_receive [LinearOrder V] (hwf : WellFounded target.Past)
    (hready : receive.isNonblocking = true ∨ ∃ m, x.Receivable tid receive m)
    (hreceives : Wanted target waiting (tid, i) → ∃ source, target (tid, i) = some ⟨.receive receive, some source⟩)
    (hne : ∀ r q below, waiting = (r, q) :: below → (tid, i) ≠ q) :
    ∃ source waiting', ApproachStep target x (tid, i) ⟨.receive receive, some source⟩ waiting waiting' ∧
      Attainable model x tid i receive source := by
  obtain ⟨source, hdesired, hattainable⟩ : ∃ source, Desired target x (tid, i) receive waiting source ∧
      ((∀ m, source = .send m → x m ≠ none) → Attainable model x tid i receive source) := by
    by_cases hwanted : Wanted target waiting (tid, i)
    · obtain ⟨source, hp⟩ := hreceives hwanted
      exact ⟨source, .wanted waiting source hwanted hp, h.attainable_wanted htarget hbelow habove hwanted hp⟩
    · cases waiting with
      | nil => exact absurd trivial hwanted
      | cons top below =>
        obtain ⟨r, q⟩ := top
        obtain ⟨source, hchoice⟩ := exists_firstChoice
          (hready.imp_right fun ⟨m, hm⟩ => ⟨m, h.receivable_overlay htarget (fun _ ha => ha) hbelow hwanted hm⟩)
        exact ⟨source, .spare r q below source hwanted (hne r q below rfl) hchoice,
          hchoice.attainable htarget h (fun _ ha => ha) hbelow hwanted habove hdelivered⟩
  by_cases hthere : ∀ m, source = .send m → x m ≠ none
  · exact ⟨source, waiting, .read receive source waiting hdesired, hattainable hthere⟩
  · simp only [not_forall, not_not] at hthere
    obtain ⟨d, rfl, hd⟩ := hthere
    obtain ⟨hwanted, -, hnot⟩ := hdesired.of_absent htarget hd
    obtain ⟨source, waits, hwaits, hsource⟩ := h.exists_waits htarget hbelow habove hdelivered hwf hready hd hwanted hnot
    exact ⟨source, _, .wait receive d source waits waiting hdesired hwaits, hsource⟩

omit hdelivered habove hbelow h htarget in
theorem ApproachStep.of_open [LinearOrder V] (hlabel : n.label.isReceive = false)
    (hsource : n.source = none) (htop : Wanted target waiting p → target p = some n)
    (hne : ∀ r q below, waiting = (r, q) :: below → p ≠ q) (hspare : ¬ Wanted target waiting p → Spare x p n.label) :
    ApproachStep target x p n waiting waiting := by
  by_cases hwanted : Wanted target waiting p
  · exact .wanted n waiting hlabel hwanted (htop hwanted)
  · cases waiting with
    | nil => exact absurd trivial hwanted
    | cons top below =>
      obtain ⟨r, q⟩ := top
      exact .spare n r q below hlabel hsource hwanted (hne r q below rfl) (hspare hwanted)

end Step

/-! ## The send on top arrives -/

/-- The receive `r` reads `source` and is to read `d`, it waits for `q` in front of `rest`, and what was inserted
after it left the stack alone. -/
structure Outstanding [LinearOrder V] (target y : Execution V) (before after : List Pos) (r q : Pos)
    (receive : ReceiveLabel V) (d : Pos) (source : PosSource) (rest earlier : WaitStack) : Prop where
  front : Approach target y [] [] before earlier
  reads : y r = some ⟨.receive receive, some source⟩
  desired : Desired target (y.on before) r receive earlier (.send d)
  waits : Waits target (y.on before) r receive d source ((r, q) :: rest)
  steady : ∀ pre p post n, after = pre ++ p :: post → y p = some n →
    ApproachStep target (y.on (before ++ r :: pre)) p n ((r, q) :: (rest ++ earlier)) ((r, q) :: (rest ++ earlier))

section Top
variable [LinearOrder V] {target y : Execution V} {before after : List Pos} {r q : Pos} {receive : ReceiveLabel V}
  {d : Pos} {source : PosSource} {rest earlier : WaitStack}

theorem Outstanding.extend (h : Outstanding target y before after r q receive d source rest earlier)
    (hn : y p = some n) (hstep : ApproachStep target (y.on (before ++ r :: after)) p n
      ((r, q) :: (rest ++ earlier)) ((r, q) :: (rest ++ earlier))) :
    Outstanding target y before (after ++ [p]) r q receive d source rest earlier := by
  refine ⟨h.front, h.reads, h.desired, h.waits, fun pre p' post n' hsplit hn' => ?_⟩
  rcases eq_nil_or_concat' post with rfl | ⟨post', last, rfl⟩
  · obtain ⟨rfl, hlast⟩ := append_inj' hsplit rfl
    cases hlast
    obtain rfl := Option.some.inj (hn.symm.trans hn')
    exact hstep
  · rw [← cons_append, ← append_assoc] at hsplit
    obtain ⟨hsplit, -⟩ := append_inj' hsplit rfl
    exact h.steady pre p' post' n' hsplit hn'

theorem Approach.top {order : List Pos} {below : WaitStack} (h : Approach target y [] [] order ((r, q) :: below)) :
    ∃ before after receive d source rest earlier, order = before ++ r :: after ∧ below = rest ++ earlier ∧
      Outstanding target y before after r q receive d source rest earlier := by
  induction order using reverseRecOn generalizing r q below with
  | nil => cases h
  | append_singleton order p ih =>
    obtain ⟨middle, hfront, hlast⟩ := h.split
    obtain ⟨n, hn, hstep⟩ := hlast.step
    rw [nil_append] at hstep
    have hkeep (hsame : middle = (r, q) :: below)
        (hstep : ApproachStep target (y.on order) p n ((r, q) :: below) ((r, q) :: below)) :
        ∃ before after receive d source rest earlier, order ++ [p] = before ++ r :: after ∧ below = rest ++ earlier ∧
          Outstanding target y before after r q receive d source rest earlier := by
      subst hsame
      obtain ⟨before, after, receive, d, source, rest, earlier, rfl, rfl, houtstanding⟩ := ih hfront
      exact ⟨before, after ++ [p], receive, d, source, rest, earlier, by simp, rfl, houtstanding.extend hn hstep⟩
    generalize hstack : (r, q) :: below = stack at hstep
    cases hstep with
    | wanted _ _ hlabel hwanted hp =>
      subst hstack
      exact hkeep rfl (.wanted n _ hlabel hwanted hp)
    | spare _ r' q' below' hlabel hsource hnot hne hspare =>
      cases hstack
      exact hkeep rfl (.spare n r q below hlabel hsource hnot hne hspare)
    | read receive source _ hdesired =>
      subst hstack
      exact hkeep rfl (.read receive source _ hdesired)
    | wait receive d source waits _ hdesired hwaits =>
      obtain ⟨q', rest, rfl, -⟩ := hwaits.front
      cases hstack
      exact ⟨order, [], receive, d, source, rest, middle, rfl, rfl, hfront, hn, hdesired, hwaits,
        fun pre p post n hsplit => by simp at hsplit⟩

variable (h : Outstanding target y before after r q receive d source rest earlier) {model : CommunicationModel}
  (htarget : target.Consistent model)
include h htarget

theorem Outstanding.independent : r ≠ q ∧ ¬ target.Past r q ∧ Wanted target earlier q ∧
    FirstChoice (target.overlay (y.on before) q) r.1 receive source := by
  obtain ⟨q', rest', hsame, -, hne, hnot, hwanted, hchoice⟩ := h.desired.front htarget h.waits
  cases hsame
  exact ⟨hne, hnot, hwanted, hchoice⟩

omit htarget in
theorem Outstanding.deletable (hpast : ∀ a, y.Past a q ↔ target.Past a q) (hagree : ∀ a, y.Past a q → y a = target a)
    (pre : List Pos) (post : List Pos) (hsplit : after = pre ++ p :: post)
    (hnot : ¬ y.Past p q) (hn : y p = some n) : Deletable y (y.on (before ++ r :: pre)) q p n := by
  have hnot' : ¬ target.Past p q := fun hp => hnot ((hpast p).mpr hp)
  obtain ⟨stack, hstack, hstep⟩ : ∃ stack, stack = (r, q) :: (rest ++ earlier) ∧
      ApproachStep target (y.on (before ++ r :: pre)) p n ((r, q) :: (rest ++ earlier)) stack :=
    ⟨_, rfl, h.steady pre p post n hsplit hn⟩
  cases hstep with
  | wanted _ _ _ hwanted _ => exact absurd hwanted hnot'
  | spare _ _ _ _ hlabel hsource _ _ hspare =>
    obtain ⟨label, source'⟩ := n
    unfold Deletable
    cases label with
    | receive receive => cases hlabel
    | send | nondeterministicChoice | block | error => exact ⟨hsource, hspare⟩
  | read receive source _ hdesired =>
    cases hdesired with
    | wanted _ _ hwanted _ => exact absurd hwanted hnot'
    | spare _ _ _ _ _ _ hchoice =>
      refine ⟨source, rfl, ?_⟩
      rw [overlay_congr hpast hagree]
      exact hchoice
  | wait _ _ _ _ _ _ hwaits =>
    obtain ⟨q', rest', rfl, -⟩ := hwaits.front
    have hlength := congrArg length hstack
    simp only [length_append, length_cons] at hlength
    omega

theorem Outstanding.next : (q = d ∧ rest = []) ∨
    ∃ q' rest', rest = (r, q') :: rest' ∧ Waits target (y.on before) r receive d (.send q) rest ∧
      target.Past q q' ∧ Wanted target earlier q' ∧ ¬ target.Past r q' ∧
      FirstChoice (target.overlay (y.on before) q') r.1 receive (.send q) := by
  refine h.waits.shorten.imp_right fun hrest => ?_
  obtain ⟨q', rest', rfl, -, -, hnot, hwanted, hchoice⟩ := h.desired.front htarget hrest
  obtain ⟨q'', _, hsame, habsent, -⟩ := h.waits.front
  cases hsame
  exact ⟨q', rest', rfl, hrest, hchoice.past_of_absent habsent, hwanted, hnot, hchoice⟩

theorem Outstanding.revisit {child : Execution V} {kept : List Pos} (hbefore : ∀ p ∈ before, child p = y p)
    (hr : child r = some ⟨.receive receive, some (.send q)⟩) (hq : child q = target q) (hne : target q ≠ none)
    (hkept : ∀ p ∈ kept, target.Past p q ∧ child p = target p) :
    Approach target child [] [] (before ++ r :: (kept ++ [q])) (rest ++ earlier) := by
  obtain ⟨-, -, hwanted, -⟩ := h.independent htarget
  have hon : child.on before = y.on before := Execution.on_congr hbefore
  have hfront : Approach target child [] [] before earlier :=
    h.front.congr (fun p hp => absurd hp not_mem_nil) fun p hp => (hbefore p hp).symm
  obtain ⟨hstep, hwanted⟩ : ApproachStep target (child.on before) r ⟨.receive receive, some (.send q)⟩ earlier
      (rest ++ earlier) ∧ Wanted target (rest ++ earlier) q := by
    rw [hon]
    rcases h.next htarget with ⟨rfl, rfl⟩ | ⟨q', rest', rfl, hrest, hpast, -⟩
    · exact ⟨.read receive _ earlier h.desired, hwanted⟩
    · exact ⟨.wait receive d _ _ earlier h.desired hrest, hpast⟩
  refine hfront.append (.cons _ _ _ _ r _ _ hr (by rw [nil_append]; exact hstep) ?_)
  refine Approach.along _ _ (fun p n receive hn hreceive => ?_) fun p hp => ?_
  · obtain ⟨source, hsource, -⟩ := htarget.assigned p n receive hn hreceive
    exact ⟨source, hsource⟩
  · rcases mem_append.mp hp with hp | hp
    · exact ⟨hwanted.past (hkept p hp).1, (hkept p hp).2, htarget.past_ne_none (hkept p hp).1⟩
    · obtain rfl := mem_singleton.mp hp
      exact ⟨hwanted, hq, hne⟩

theorem Outstanding.compatible : ∃ n send, target q = some n ∧ n.label = .send send ∧ send.destination = r.1 ∧
    receive.accepts send.value = true := by
  have hchosen (q' : Pos) (hpast : target.Past q q')
      (hchoice : FirstChoice (target.overlay (y.on before) q') r.1 receive (.send q)) : ∃ n send,
      target q = some n ∧ n.label = .send send ∧ send.destination = r.1 ∧ receive.accepts send.value = true := by
    obtain ⟨⟨n, send, hn, hsend⟩, -⟩ := hchoice.receivable
    rw [Execution.overlay_past hpast] at hn
    exact ⟨n, send, hn, hsend⟩
  rcases h.next htarget with ⟨rfl, -⟩ | ⟨q', -, -, -, hpast, -, -, hchoice⟩
  · have hdesired := h.desired
    cases hdesired with
    | wanted _ _ _ hp =>
      obtain ⟨n, send, receive', m, hn, hsend, hm, hreceive, hdest, haccepts⟩ :=
        htarget.delivered q r ⟨_, hp, rfl⟩
      obtain rfl := Option.some.inj (hp.symm.trans hm)
      cases hreceive
      exact ⟨n, send, hn, hsend, hdest, haccepts⟩
    | spare r' q' below _ _ _ hchoice => exact hchosen q' (hchoice.past_of_absent h.waits.absent) hchoice
  · exact hchosen q' hpast hchoice

theorem Outstanding.behind (hmodel : model = .fifoP2P) (hbelow : ∀ k, k < r.2 → y.on before (r.1, k) ≠ none)
    (habove : ∀ k, y.on before (r.1, k) ≠ none → k < r.2)
    (hdelivered : ∀ j b n send, j < q.2 → (y.on before).Reads (q.1, j) b → target (q.1, j) = some n →
      n.label = .send send → send.destination = b.1) :
    Behind target (y.on before) r.1 r.2 receive q := by
  have haligned := h.front.aligned_start htarget
  obtain ⟨n, send, hq, -⟩ := h.compatible htarget
  have hchosen (q' : Pos) (hpast : target.Past q q') (hnot : ¬ target.Past r q')
      (hwanted : ∀ a, target.Past a q' → Wanted target earlier a)
      (hchoice : FirstChoice (target.overlay (y.on before) q') r.1 receive (.send q)) :
      Behind target (y.on before) r.1 r.2 receive q := by
    have hsame (j : ℕ) (hlt : j < q.2) : target.overlay (y.on before) q' (q.1, j) = target (q.1, j) :=
      Execution.overlay_past
        ((htarget.past_order (by rw [hq]; exact Option.some_ne_none _) hlt).trans hpast)
    intro j n send hlt hn
    refine hchoice.behind htarget haligned hwanted hbelow hnot habove (fun j b n send hlt hread hn => ?_) j n send hlt
      ((hsame j hlt).trans hn)
    exact hdelivered j b n send hlt hread ((hsame j hlt).symm.trans hn)
  rcases h.next htarget with ⟨rfl, -⟩ | ⟨q', -, -, -, hpast, hwanted, hnot, hchoice⟩
  · have hdesired := h.desired
    cases hdesired with
    | wanted _ _ hwanted hp => exact haligned.behind_wanted htarget hbelow hwanted hp hmodel
    | spare r' q' below _ hnot _ hchoice =>
      exact hchosen q' (hchoice.past_of_absent h.waits.absent) hnot (fun _ ha => ha) hchoice
  · exact hchosen q' hpast hnot (fun a ha => hwanted.past ha) hchoice

end Top

theorem Revisited.fifo [LinearOrder V] {y child : Execution V} {before after : List Pos} {s r : Pos}
    {model : CommunicationModel} (h : Revisited y before after s r child)
    (hy : y.Consistent model) (hmodel : model = .fifoP2P)
    (hkept : ∀ p n, child p = some n → n.label.isBlock = false → p ∈ before ∨ p = r ∨ y.Past p s ∨ p = s)
    (hclosed : ∀ thread i k, (thread, i) ∈ before → k < i → (thread, k) ∈ before)
    (hbehind : ∀ receive source, y r = some ⟨.receive receive, source⟩ → Behind y (y.on before) r.1 r.2 receive s)
    (a b : Pos) (m : Node V) (receive : ReceiveLabel V) (hread : child.Reads a b) (hm : child b = some m)
    (hreceive : m.label = .receive receive) (j : ℕ) (n : Node V) (send : SendLabel V) (hlt : j < a.2)
    (hn : child (a.1, j) = some n) (hsend : n.label = .send send) (hdest : send.destination = b.1)
    (haccepts : receive.accepts send.value = true) : ∃ k, k < b.2 ∧ child.Reads (a.1, j) (b.1, k) := by
  have hsame (p : Pos) (n : Node V) (hp : child p = some n) (hopen : n.label.isBlock = false) (hne : p ≠ r) :
      y p = some n := by
    rw [← hp]
    rcases hkept p n hp hopen with hin | heq | hpast | heq
    · exact (h.same p (.inl hin)).symm
    · exact absurd heq hne
    · exact (h.same p (.inr (.inl hpast))).symm
    · exact (h.same p (.inr (.inr heq))).symm
  obtain ⟨receiveR, source, hr, hrchild, -⟩ := h.receive
  have hfront : y (a.1, j) = some n := by
    refine hsame _ n hn (by rw [hsend]; rfl) ?_
    intro heq
    rw [heq, hrchild] at hn
    cases hn
    cases hsend
  by_cases hb : b = r
  · subst hb
    obtain rfl := Option.some.inj (hm.symm.trans hrchild)
    cases hreceive
    obtain ⟨m', hm', hsource⟩ := hread
    obtain rfl := Option.some.inj (hm'.symm.trans hrchild)
    cases hsource
    obtain ⟨k, hk, nk, hnk, hsourcek⟩ := hbehind receive _ hr j n send hlt hfront hsend hdest haccepts
    obtain ⟨hin, hnk⟩ := Execution.on_eq_some.mp hnk
    exact ⟨k, hk, nk, (h.same _ (.inl hin)).trans hnk, hsourcek⟩
  · have hbold := hsame b m hm (by rw [hreceive]; rfl) hb
    obtain ⟨k, hk, hreadk⟩ := hy.fifo hmodel a b m receive (hread.congr (hm.trans hbold.symm)) hbold hreceive j n send hlt
      hfront hsend hdest haccepts
    refine ⟨k, hk, hreadk.congr (h.same _ ?_).symm⟩
    rcases hkept b m hm (by rw [hreceive]; rfl) with hin | heq | hpast | rfl
    · exact .inl (hclosed b.1 b.2 k hin hk)
    · exact absurd heq hb
    · exact .inr (.inl (hy.past_below hpast (le_of_lt hk)))
    · obtain ⟨ns, sendS, hs, hlabel⟩ := h.send
      obtain rfl := Option.some.inj (hbold.symm.trans hs)
      rw [hreceive] at hlabel
      cases hlabel

theorem Aligned.past_top {target x y : Execution V} {r q : Pos} {below : WaitStack}
    {model : CommunicationModel} (htarget : target.Consistent model)
    (h : Aligned target x ((r, q) :: below)) (hdense : ∀ thread i, y (thread, i + 1) ≠ none → y (thread, i) ≠ none)
    (hq : y q = target q) (hthere : ∀ a, y.Past a q → x a = y a ∧ x a ≠ none) :
    (∀ a, y.Past a q ↔ target.Past a q) ∧ ∀ a, y.Past a q → y a = target a := by
  have hagree (a : Pos) (ha : y.Past a q) : target.Past a q ∧ y a = target a := by
    have hsame (hpast : target.Past a q) : target.Past a q ∧ y a = target a :=
      ⟨hpast, (hthere a ha).1.symm.trans (h.agrees a (hthere a ha).2 hpast)⟩
    induction ha using TransGen.head_induction_on with
    | single hedge => exact hsame (.single (hedge.congr htarget.dense hq))
    | head hedge hrest ih =>
      obtain ⟨hpast, hnode⟩ := ih fun hpast => ⟨hpast, (hthere _ hrest).1.symm.trans (h.agrees _ (hthere _ hrest).2 hpast)⟩
      exact hsame (.head (hedge.congr htarget.dense hnode) hpast)
  exact ⟨Execution.past_congr hdense htarget.dense hq fun a ha => (hagree a ha).2, fun a ha => (hagree a ha).2⟩

end MustDpor

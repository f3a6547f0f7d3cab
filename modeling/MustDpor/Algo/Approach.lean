import MustDpor.Model.ExecutionPast
import MustDpor.Algo.Revisit

/-! # Approaching an execution

Which graphs of the search have a given execution among the leaves below them. Reading the events of such a graph
in the order of their insertion, one keeps a stack of receives that wait for a send: what belongs to the past of
the send on top is as the execution has it, everything else is there to be deleted when the send arrives, and is
what the search puts there first. The stack is a function of the graph, so a graph has at most one child that
approaches the execution. -/

namespace MustDpor
set_option autoImplicit false
open List Function Relation

variable {V : Type}

/-! ## The source a receive gets first -/

/-- By thread, then by index. -/
def PosLe (a b : Pos) : Prop := a.1 < b.1 ∨ (a.1 = b.1 ∧ a.2 ≤ b.2)

variable {a : Pos}

theorem PosLe.antisymm {b : Pos} (h : PosLe a b) (h' : PosLe b a) : a = b := by
  obtain ⟨t, i⟩ := a
  obtain ⟨u, j⟩ := b
  unfold PosLe at h h'
  dsimp only at h h'
  exact Prod.ext (by dsimp only; omega) (by dsimp only; omega)

/-- Bottom if the receive does not block, and else the least send that it can take. -/
def FirstChoice (x : Execution V) (thread : ℕ) (receive : ReceiveLabel V) (source : PosSource) : Prop :=
  if receive.isNonblocking then source = .bottom
  else ∃ m, source = .send m ∧ x.Receivable thread receive m ∧ ∀ m', x.Receivable thread receive m' → PosLe m m'

variable {thread : ℕ} {source' : PosSource}

theorem FirstChoice.unique {x : Execution V} {receive : ReceiveLabel V} {source : PosSource}
    (h : FirstChoice x thread receive source) (h' : FirstChoice x thread receive source') : source = source' := by
  unfold FirstChoice at h h'
  by_cases hmode : receive.isNonblocking = true
  · rw [if_pos hmode] at h h'
    exact h.trans h'.symm
  · rw [if_neg hmode] at h h'
    obtain ⟨m, rfl, hm, hleast⟩ := h
    obtain ⟨m', rfl, hm', hleast'⟩ := h'
    rw [(hleast m' hm').antisymm (hleast' m hm)]

variable {m : Pos}

theorem FirstChoice.receivable {x : Execution V} {receive : ReceiveLabel V}
    (h : FirstChoice x thread receive (.send m)) : x.Receivable thread receive m := by
  unfold FirstChoice at h
  by_cases hmode : receive.isNonblocking = true
  · rw [if_pos hmode] at h
    cases h
  · rw [if_neg hmode] at h
    obtain ⟨m', hm', hreceivable, -⟩ := h
    cases hm'
    exact hreceivable

theorem Execution.Receivable.ne_none {x : Execution V} {receive : ReceiveLabel V}
    (h : x.Receivable thread receive m) : x m ≠ none := by
  obtain ⟨⟨n, -, hn, -⟩, -⟩ := h
  rw [hn]
  exact Option.some_ne_none n

theorem Execution.Receivable.unread {x : Execution V} {receive : ReceiveLabel V} {r : Pos}
    (h : x.Receivable thread receive m) : ¬ x.Reads m r := fun ⟨n, hn, hsource⟩ => h.2 r n hn hsource

open Classical in
/-- The past of a position as one execution has it, and the rest as another has it. -/
noncomputable def Execution.overlay (target x : Execution V) (q : Pos) : Execution V := fun p =>
  if target.Past p q then target p else x p

variable {q : Pos}

theorem Execution.overlay_past {target x : Execution V} {p : Pos} (h : target.Past p q) :
    target.overlay x q p = target p := if_pos h

theorem Execution.overlay_other {target x : Execution V} {p : Pos} (h : ¬ target.Past p q) :
    target.overlay x q p = x p := if_neg h

theorem FirstChoice.past_of_absent {target x : Execution V} {receive : ReceiveLabel V}
    (h : FirstChoice (target.overlay x q) thread receive (.send m)) (habsent : x m = none) : target.Past m q := by
  by_contra hpast
  have hne := h.receivable.ne_none
  rw [Execution.overlay_other hpast] at hne
  exact hne habsent

/-! ## The stack -/

/-- The receives that wait for a send, the latest in front. -/
abbrev WaitStack := List (Pos × Pos)

section Stack
variable (target x : Execution V)

/-- What the top of the stack is waiting for, or everything. -/
def Wanted : WaitStack → Pos → Prop
  | [], _ => True
  | (_, q) :: _, p => target.Past p q

/-- The receive at `p` is to read `d` in the end, reads `source` now, and is revisited in between: what it reads
is its first choice as long as it waits for the front of `waits`, which is its first choice as long as it waits
for the next, and so on. -/
inductive Waits (p : Pos) (receive : ReceiveLabel V) : Pos → PosSource → WaitStack → Prop where
  | stop (d : Pos) (source : PosSource) : x d = none →
      FirstChoice (target.overlay x d) p.1 receive source → Waits p receive d source [(p, d)]
  | next (d q : Pos) (source : PosSource) (waits : WaitStack) : x d = none →
      FirstChoice (target.overlay x d) p.1 receive (.send q) → Waits p receive q source waits →
      Waits p receive d source (waits ++ [(p, d)])

/-- What a receive is to read: its source in the target if it is wanted, and else its first choice. -/
inductive Desired (p : Pos) (receive : ReceiveLabel V) : WaitStack → PosSource → Prop where
  | wanted (waiting : WaitStack) (source : PosSource) : Wanted target waiting p →
      target p = some ⟨.receive receive, some source⟩ → Desired p receive waiting source
  | spare (r q : Pos) (below : WaitStack) (source : PosSource) : ¬ target.Past p q → p ≠ q →
      FirstChoice (target.overlay x q) p.1 receive source → Desired p receive ((r, q) :: below) source

/-- What an event that is no receive must be to be deleted again: the least choice, and read by nobody. -/
def Spare [LinearOrder V] (p : Pos) : EventLabel V → Prop
  | .nondeterministicChoice nd => isMinimalChoice nd = true
  | _ => ∀ r, ¬ x.Reads p r

/-- The next event, after those of `x`, and what becomes of the stack. -/
inductive ApproachStep [LinearOrder V] (p : Pos) : Node V → WaitStack → WaitStack → Prop where
  | wanted (n : Node V) (waiting : WaitStack) : n.label.isReceive = false → Wanted target waiting p →
      target p = some n → ApproachStep p n waiting waiting
  | spare (n : Node V) (r q : Pos) (below : WaitStack) : n.label.isReceive = false → n.source = none →
      ¬ target.Past p q → p ≠ q → Spare x p n.label → ApproachStep p n ((r, q) :: below) ((r, q) :: below)
  | read (receive : ReceiveLabel V) (source : PosSource) (waiting : WaitStack) :
      Desired target x p receive waiting source →
      ApproachStep p ⟨.receive receive, some source⟩ waiting waiting
  | wait (receive : ReceiveLabel V) (d : Pos) (source : PosSource) (waits waiting : WaitStack) :
      Desired target x p receive waiting (.send d) → Waits target x p receive d source waits →
      ApproachStep p ⟨.receive receive, some source⟩ waiting (waits ++ waiting)

end Stack

/-- The events of `x` at the given positions. -/
def Execution.on (x : Execution V) (positions : List Pos) : Execution V := fun p =>
  if positions.any fun q => decide (q = p) then x p else none

/-- Reading `rest` after `done`. -/
inductive Approach [LinearOrder V] (target x : Execution V) : List Pos → WaitStack → List Pos → WaitStack → Prop where
  | nil (done : List Pos) (waiting : WaitStack) : Approach target x done waiting [] waiting
  | cons (done : List Pos) (waiting waiting' waiting'' : WaitStack) (p : Pos) (n : Node V) (rest : List Pos) :
      x p = some n → ApproachStep target (x.on done) p n waiting waiting' →
      Approach target x (done ++ [p]) waiting' rest waiting'' →
      Approach target x done waiting (p :: rest) waiting''

section Waits
variable {target x : Execution V} {p : Pos} {receive : ReceiveLabel V} {d : Pos} {source : PosSource}
  {waits : WaitStack}

theorem Waits.absent (h : Waits target x p receive d source waits) : x d = none := by
  cases h with
  | stop _ _ habsent | next _ _ _ _ habsent => exact habsent

theorem Waits.front (h : Waits target x p receive d source waits) :
    ∃ q rest, waits = (p, q) :: rest ∧ x q = none ∧ (q = d ∨ target.Past q d) ∧
      FirstChoice (target.overlay x q) p.1 receive source := by
  induction h with
  | stop d source habsent hchoice => exact ⟨d, [], rfl, habsent, .inl rfl, hchoice⟩
  | next d q source waits habsent hchoice hwaits ih =>
    obtain ⟨front, rest, rfl, hfront, hpast, hsource⟩ := ih
    have hq := hchoice.past_of_absent hwaits.absent
    refine ⟨front, rest ++ [(p, d)], rfl, hfront, .inr ?_, hsource⟩
    rcases hpast with rfl | hpast
    · exact hq
    · exact hpast.trans hq

theorem Waits.source_ne (hacyclic : ∀ q, ¬ target.Past q q) (h : Waits target x p receive d source waits) :
    source ≠ .send d := by
  rintro rfl
  obtain ⟨q, -, -, -, hpast, hchoice⟩ := h.front
  have hd := hchoice.past_of_absent h.absent
  rcases hpast with rfl | hpast
  · exact hacyclic _ hd
  · exact hacyclic _ (hd.trans hpast)

theorem Waits.unique (hacyclic : ∀ q, ¬ target.Past q q) {waits' : WaitStack}
    (h : Waits target x p receive d source waits) (h' : Waits target x p receive d source waits') :
    waits = waits' := by
  induction h generalizing waits' with
  | stop d source _ hchoice =>
    cases h' with
    | stop _ _ _ _ => rfl
    | next _ q _ _ _ hchoice' hwaits => exact absurd (hchoice.unique hchoice') (hwaits.source_ne hacyclic)
  | next d q source waits _ hchoice hwaits ih =>
    cases h' with
    | stop _ _ _ hchoice' => exact absurd (hchoice'.unique hchoice) (hwaits.source_ne hacyclic)
    | next _ q' _ _ _ hchoice' hwaits' =>
      obtain rfl : q = q' := PosSource.send.inj (hchoice.unique hchoice')
      rw [ih hwaits']

theorem Waits.source_unique {waits' : WaitStack}
    (h : Waits target x p receive d source waits) (h' : Waits target x p receive d source' waits')
    (hsource : ∀ m, source = .send m → x m ≠ none) (hsource' : ∀ m, source' = .send m → x m ≠ none) :
    source = source' := by
  induction h generalizing waits' with
  | stop d source _ hchoice =>
    cases h' with
    | stop _ _ _ hchoice' => exact hchoice.unique hchoice'
    | next _ q _ _ _ hchoice' hwaits => exact absurd hwaits.absent (hsource q (hchoice.unique hchoice'))
  | next d q source waits _ hchoice hwaits ih =>
    cases h' with
    | stop _ _ _ hchoice' => exact absurd hwaits.absent (hsource' q (hchoice'.unique hchoice))
    | next _ q' _ _ _ hchoice' hwaits' =>
      obtain rfl : q = q' := PosSource.send.inj (hchoice.unique hchoice')
      exact ih hwaits' hsource

theorem Waits.extend {s : Pos} (h : Waits target x p receive d (.send s) waits)
    (habsent : x s = none) (hchoice : FirstChoice (target.overlay x s) p.1 receive source') :
    Waits target x p receive d source' ((p, s) :: waits) := by
  generalize hs : PosSource.send s = source at h
  induction h with
  | stop d source hd hfirst =>
    subst hs
    exact .next d s source' [(p, s)] hd hfirst (.stop s source' habsent hchoice)
  | next d q source waits hd hfirst _ ih => exact .next d q source' ((p, s) :: waits) hd hfirst (ih hs)

theorem Waits.shorten {rest : WaitStack} (h : Waits target x p receive d source ((p, q) :: rest)) :
    (q = d ∧ rest = []) ∨ Waits target x p receive d (.send q) rest := by
  generalize hwaits : (p, q) :: rest = waits at h
  induction h generalizing rest with
  | stop d source _ _ =>
    cases hwaits
    exact .inl ⟨rfl, rfl⟩
  | next d q' source waits hd hfirst hrest ih =>
    obtain ⟨front, tail, rfl, -⟩ := hrest.front
    obtain ⟨hfront, rfl⟩ := cons.inj hwaits
    cases hfront
    rcases ih rfl with ⟨rfl, rfl⟩ | hshort
    · exact .inr (.stop d _ hd hfirst)
    · exact .inr (.next d q' _ tail hd hfirst hshort)

end Waits

/-! ## One event -/

variable {n : Node V} {waiting'' : WaitStack}

section Step
variable {target x : Execution V} {p : Pos} {receive : ReceiveLabel V} {waiting waiting' : WaitStack}

theorem Wanted.past {b : Pos} (h : Wanted target waiting b) (hpast : target.Past a b) : Wanted target waiting a := by
  cases waiting with
  | nil => trivial
  | cons top below => exact hpast.trans h

theorem Wanted.below {model : CommunicationModel} (htarget : target.Consistent model)
    {tid i j : ℕ} (h : Wanted target waiting (tid, i)) (hj : j < i) : Wanted target waiting (tid, j) := by
  cases waiting with
  | nil => trivial
  | cons top below => exact htarget.past_below h (le_of_lt hj)

theorem Desired.unique {source : PosSource} (h : Desired target x p receive waiting source)
    (h' : Desired target x p receive waiting source') : source = source' := by
  cases h with
  | wanted _ _ hwanted hp =>
    cases h' with
    | wanted _ _ _ hp' =>
      have hsame := hp.symm.trans hp'
      simp only [Option.some.injEq, Node.mk.injEq, true_and] at hsame
      exact hsame
    | spare r q below _ hpast _ _ => exact absurd hwanted hpast
  | spare r q below _ hpast _ hchoice =>
    cases h' with
    | wanted _ _ hwanted _ => exact absurd hwanted hpast
    | spare _ _ _ _ _ _ hchoice' => exact hchoice.unique hchoice'

variable {model : CommunicationModel} (htarget : target.Consistent model)
include htarget

theorem Desired.of_absent {d : Pos} (h : Desired target x p receive waiting (.send d)) (habsent : x d = none) :
    Wanted target waiting d ∧ p ≠ d ∧ ¬ target.Past p d := by
  cases h with
  | wanted _ _ hwanted hp =>
    have hpast : target.Past d p := .read ⟨_, hp, rfl⟩
    refine ⟨hwanted.past hpast, ?_, fun hback => htarget.acyclic p (hback.trans hpast)⟩
    rintro rfl
    exact htarget.acyclic p hpast
  | spare r q below _ hnot _ hchoice =>
    have hpast := hchoice.past_of_absent habsent
    refine ⟨hpast, ?_, fun hback => hnot (hback.trans hpast)⟩
    rintro rfl
    exact hnot hpast

theorem Desired.front {d : Pos} {source : PosSource} {waits : WaitStack}
    (h : Desired target x p receive waiting (.send d)) (hwaits : Waits target x p receive d source waits) :
    ∃ q rest, waits = (p, q) :: rest ∧ x q = none ∧ p ≠ q ∧ ¬ target.Past p q ∧ Wanted target waiting q ∧
      FirstChoice (target.overlay x q) p.1 receive source := by
  obtain ⟨q, rest, rfl, hq, hpast, hchoice⟩ := hwaits.front
  obtain ⟨hwanted, hne, hnot⟩ := h.of_absent htarget hwaits.absent
  refine ⟨q, rest, rfl, hq, ?_⟩
  rcases hpast with rfl | hpast
  · exact ⟨hne, hnot, hwanted, hchoice⟩
  · refine ⟨?_, fun hback => hnot (hback.trans hpast), hwanted.past hpast, hchoice⟩
    rintro rfl
    exact hnot hpast

omit htarget

/-- What has been read so far against the target: wanted events are as the target has them, nobody else reads
what a wanted receive is to read, and the send on top is still to come. -/
structure Aligned (target x : Execution V) (waiting : WaitStack) : Prop where
  agrees : ∀ a, x a ≠ none → Wanted target waiting a → x a = target a
  exclusive : ∀ s r a, x.Reads s r → Wanted target waiting a → target.Reads s a → a = r
  absent : ∀ r q below, waiting = (r, q) :: below → x q = none

theorem Aligned.start : Aligned target (fun _ => none) [] :=
  ⟨fun _ h => absurd rfl h, fun _ _ _ ⟨_, h, _⟩ => (nomatch h), nofun⟩

theorem reads_update {s r : Pos} (h : Execution.Reads (update x p (some n)) s r) :
    (r = p ∧ n.source = some (.send s)) ∨ x.Reads s r := by
  obtain ⟨m, hm, hsource⟩ := h
  by_cases hr : r = p
  · rw [hr, update_self] at hm
    cases hm
    exact .inl ⟨hr, hsource⟩
  · rw [update_of_ne hr] at hm
    exact .inr ⟨m, hm, hsource⟩

theorem Aligned.keep (h : Aligned target x waiting) (hagrees : Wanted target waiting p → target p = some n)
    (hexclusive : ∀ s a, n.source = some (.send s) → Wanted target waiting a → target.Reads s a → a = p)
    (hne : ∀ r q below, waiting = (r, q) :: below → p ≠ q) :
    Aligned target (update x p (some n)) waiting where
  agrees := by
    intro a ha hwanted
    by_cases hp : a = p
    · subst hp
      rw [update_self, hagrees hwanted]
    · rw [update_of_ne hp] at ha ⊢
      exact h.agrees a ha hwanted
  exclusive := by
    intro s r a hread hwanted htarget
    rcases reads_update hread with ⟨rfl, hsource⟩ | hread
    · exact hexclusive s a hsource hwanted htarget
    · exact h.exclusive s r a hread hwanted htarget
  absent := by
    intro r q below hwaiting
    rw [update_of_ne (hne r q below hwaiting).symm]
    exact h.absent r q below hwaiting

theorem FirstChoice.unread {s : Pos}
    (h : FirstChoice (target.overlay x q) thread receive (.send s)) (hpast : target.Past a q) :
    ¬ target.Reads s a := fun hread =>
  h.receivable.unread (hread.congr (Execution.overlay_past hpast).symm)

variable [LinearOrder V]
include htarget

theorem ApproachStep.aligned (hstep : ApproachStep target x p n waiting waiting')
    (h : Aligned target x waiting) : Aligned target (update x p (some n)) waiting' ∧
      ∀ a, Wanted target waiting' a → Wanted target waiting a := by
  cases hstep with
  | wanted _ _ _ hwanted hp =>
    refine ⟨h.keep (fun _ => hp) (fun s a hsource _ hread => ?_) ?_, fun _ => id⟩
    · exact htarget.exclusive s a p hread ⟨n, hp, hsource⟩
    · rintro r q below rfl rfl
      exact htarget.acyclic p hwanted
  | spare _ r q below _ hsource hnot hne _ =>
    refine ⟨h.keep (fun hwanted => absurd hwanted hnot) (fun s a hsome => ?_) ?_, fun _ => id⟩
    · rw [hsource] at hsome
      cases hsome
    · rintro _ _ _ hsame
      cases hsame
      exact hne
  | read receive source _ hdesired =>
    cases hdesired with
    | wanted _ _ hwanted hp =>
      refine ⟨h.keep (fun _ => hp) (fun s a hsource _ hread => ?_) ?_, fun _ => id⟩
      · exact htarget.exclusive s a p hread ⟨_, hp, hsource⟩
      · rintro r q below rfl rfl
        exact htarget.acyclic p hwanted
    | spare r q below _ hnot hne hchoice =>
      refine ⟨h.keep (fun hwanted => absurd hwanted hnot) (fun s a hsource hwanted hread => ?_) ?_, fun _ => id⟩
      · cases hsource
        exact absurd hread (hchoice.unread hwanted)
      · rintro _ _ _ hsame
        cases hsame
        exact hne
  | wait receive d source waits _ hdesired hwaits =>
    obtain ⟨q, rest, rfl, hq, hne, hnot, hwanted, hchoice⟩ := hdesired.front htarget hwaits
    have hshrinks (a : Pos) (ha : target.Past a q) : Wanted target waiting a := hwanted.past ha
    have hbelow : Aligned target x ((p, q) :: rest ++ waiting) :=
      ⟨fun a ha hpast => h.agrees a ha (hshrinks a hpast), fun s r a hread hpast => h.exclusive s r a hread (hshrinks a hpast),
        fun r q' below hsame => by cases hsame; exact hq⟩
    refine ⟨hbelow.keep (fun hpast => absurd hpast hnot) (fun s a hsource hpast hread => ?_) ?_, hshrinks⟩
    · cases hsource
      exact absurd hread (hchoice.unread hpast)
    · intro r q' below hsame
      cases hsame
      exact hne

theorem ApproachStep.stays (hstep : ApproachStep target x p n waiting waiting')
    (hwanted : Wanted target waiting' p) : waiting' = waiting := by
  cases hstep with
  | wanted | spare | read => rfl
  | wait receive d source waits _ hdesired hwaits =>
    obtain ⟨q, rest, rfl, -, -, hnot, -⟩ := hdesired.front htarget hwaits
    exact absurd hwanted hnot

theorem ApproachStep.unique
    (h : ApproachStep target x p n waiting waiting') (h' : ApproachStep target x p n waiting waiting'') :
    waiting' = waiting'' := by
  cases h with
  | wanted _ _ hlabel | spare _ _ _ _ hlabel =>
    cases h' with
    | wanted | spare | read => rfl
    | wait => cases hlabel
  | read receive source _ hdesired =>
    cases h' with
    | wanted | spare | read => rfl
    | wait _ d _ waits _ hdesired' hwaits =>
      exact absurd (hdesired.unique hdesired') (hwaits.source_ne htarget.acyclic)
  | wait receive d source waits _ hdesired hwaits =>
    cases h' with
    | wanted _ _ hlabel | spare _ _ _ _ hlabel => cases hlabel
    | read _ _ _ hdesired' => exact absurd (hdesired'.unique hdesired) (hwaits.source_ne htarget.acyclic)
    | wait _ d' _ waits' _ hdesired' hwaits' =>
      obtain rfl : d = d' := PosSource.send.inj (hdesired.unique hdesired')
      rw [hwaits.unique htarget.acyclic hwaits']

omit htarget

theorem ApproachStep.source_unique {source : PosSource}
    (h : ApproachStep target x p ⟨.receive receive, some source⟩ waiting waiting')
    (h' : ApproachStep target x p ⟨.receive receive, some source'⟩ waiting waiting'')
    (hsource : ∀ m, source = .send m → x m ≠ none) (hsource' : ∀ m, source' = .send m → x m ≠ none) :
    source = source' := by
  cases h with
  | wanted _ _ hlabel | spare _ _ _ _ hlabel => cases hlabel
  | read _ _ _ hdesired =>
    cases h' with
    | wanted _ _ hlabel | spare _ _ _ _ hlabel => cases hlabel
    | read _ _ _ hdesired' => exact hdesired.unique hdesired'
    | wait _ d _ _ _ hdesired' hwaits => exact absurd hwaits.absent (hsource d (hdesired.unique hdesired'))
  | wait _ d _ _ _ hdesired hwaits =>
    cases h' with
    | wanted _ _ hlabel | spare _ _ _ _ hlabel => cases hlabel
    | read _ _ _ hdesired' => exact absurd hwaits.absent (hsource' d (hdesired'.unique hdesired))
    | wait _ d' _ _ _ hdesired' hwaits' =>
      obtain rfl : d = d' := PosSource.send.inj (hdesired.unique hdesired')
      exact hwaits.source_unique hwaits' hsource hsource'

theorem ApproachStep.choice_unique {choices : List V} {value value' : V}
    (h : ApproachStep target x p ⟨.nondeterministicChoice ⟨value, choices⟩, none⟩ waiting waiting')
    (h' : ApproachStep target x p ⟨.nondeterministicChoice ⟨value', choices⟩, none⟩ waiting waiting'')
    (hchoices : choices ≠ []) : value = value' := by
  cases h with
  | wanted _ _ _ hwanted hp =>
    cases h' with
    | wanted _ _ _ _ hp' =>
      have hsame := hp.symm.trans hp'
      simp only [Option.some.injEq, Node.mk.injEq, EventLabel.nondeterministicChoice.injEq,
        NondeterministicChoiceLabel.mk.injEq, and_true] at hsame
      exact hsame
    | spare _ _ _ _ _ _ hnot => exact absurd hwanted hnot
  | spare _ _ _ _ _ _ hnot _ hspare =>
    cases h' with
    | wanted _ _ _ hwanted _ => exact absurd hwanted hnot
    | spare _ _ _ _ _ _ _ _ hspare' =>
      unfold Spare isMinimalChoice at hspare hspare'
      dsimp only at hspare hspare'
      cases hmin : choices.min? with
      | none => exact absurd (min?_eq_none_iff.mp hmin) hchoices
      | some least =>
        rw [hmin] at hspare hspare'
        exact (of_decide_eq_true hspare).trans (of_decide_eq_true hspare').symm

end Step

/-! ## All events -/

section On
variable {x y : Execution V}

variable {positions : List Pos}

theorem Execution.on_mem {p : Pos} (h : p ∈ positions) : x.on positions p = x p :=
  if_pos (any_eq_true.mpr ⟨p, h, decide_eq_true rfl⟩)

theorem Execution.on_not_mem {p : Pos} (h : p ∉ positions) : x.on positions p = none := by
  refine if_neg fun hany => h ?_
  obtain ⟨q, hq, hsame⟩ := any_eq_true.mp hany
  exact of_decide_eq_true hsame ▸ hq

theorem Execution.on_eq_some {p : Pos} : x.on positions p = some n ↔ p ∈ positions ∧ x p = some n := by
  by_cases hp : p ∈ positions
  · rw [Execution.on_mem hp, and_iff_right hp]
  · rw [Execution.on_not_mem hp]
    exact iff_of_false nofun fun h => hp h.1

theorem Execution.overlay_on_eq_some {p : Pos} :
    x.overlay (x.on positions) q p = some n ↔ x p = some n ∧ (p ∈ positions ∨ x.Past p q) := by
  by_cases hp : x.Past p q
  · rw [Execution.overlay_past hp]
    exact ⟨fun h => ⟨h, .inr hp⟩, fun h => h.1⟩
  · rw [Execution.overlay_other hp, Execution.on_eq_some, and_comm]
    exact and_congr_right fun _ => (or_iff_left hp).symm

theorem Execution.on_nil : x.on [] = fun _ => none := by
  funext p
  exact Execution.on_not_mem not_mem_nil

theorem Execution.on_concat {done : List Pos} {p : Pos} (hp : x p = some n) :
    x.on (done ++ [p]) = update (x.on done) p (some n) := by
  funext a
  by_cases ha : a = p
  · rw [ha, update_self, Execution.on_mem (mem_append_right _ mem_cons_self), hp]
  · rw [update_of_ne ha]
    by_cases hmem : a ∈ done
    · rw [Execution.on_mem hmem, Execution.on_mem (mem_append_left _ hmem)]
    · rw [Execution.on_not_mem hmem, Execution.on_not_mem]
      simpa [ha] using hmem

theorem Execution.on_congr (h : ∀ p ∈ positions, x p = y p) : x.on positions = y.on positions := by
  funext p
  by_cases hp : p ∈ positions
  · rw [Execution.on_mem hp, Execution.on_mem hp, h p hp]
  · rw [Execution.on_not_mem hp, Execution.on_not_mem hp]

end On

section Run
variable [LinearOrder V] {target x y : Execution V} {done rest : List Pos} {waiting waiting' : WaitStack}

theorem Approach.append {more : List Pos} (h : Approach target x done waiting rest waiting')
    (h' : Approach target x (done ++ rest) waiting' more waiting'') :
    Approach target x done waiting (rest ++ more) waiting'' := by
  induction h with
  | nil done waiting =>
    rw [append_nil] at h'
    exact h'
  | cons done waiting middle _ p n rest hp hstep _ ih =>
    rw [append_assoc, singleton_append] at ih
    exact .cons done waiting middle _ p n _ hp hstep (ih h')

theorem Approach.split {more : List Pos} (h : Approach target x done waiting (rest ++ more) waiting') :
    ∃ middle, Approach target x done waiting rest middle ∧ Approach target x (done ++ rest) middle more waiting' := by
  induction rest generalizing done waiting with
  | nil => exact ⟨waiting, .nil done waiting, by rwa [append_nil]⟩
  | cons p rest ih =>
    cases h with
    | cons _ _ next _ _ n _ hp hstep hrest =>
      obtain ⟨middle, hfirst, hmore⟩ := ih hrest
      rw [append_assoc, singleton_append] at hmore
      exact ⟨middle, .cons done waiting next middle p n rest hp hstep hfirst, hmore⟩

theorem Approach.single {p : Pos} (hp : x p = some n)
    (hstep : ApproachStep target (x.on done) p n waiting waiting') : Approach target x done waiting [p] waiting' :=
  .cons done waiting waiting' waiting' p n [] hp hstep (.nil _ _)

theorem Approach.step {p : Pos} (h : Approach target x done waiting [p] waiting') :
    ∃ n, x p = some n ∧ ApproachStep target (x.on done) p n waiting waiting' := by
  cases h with
  | cons _ _ _ _ _ n _ hp hstep hrest =>
    cases hrest
    exact ⟨n, hp, hstep⟩

theorem Approach.congr (h : Approach target x done waiting rest waiting') (hdone : ∀ p ∈ done, x p = y p)
    (hrest : ∀ p ∈ rest, x p = y p) : Approach target y done waiting rest waiting' := by
  induction h with
  | nil done waiting => exact .nil done waiting
  | cons done waiting middle _ p n rest hp hstep _ ih =>
    rw [Execution.on_congr hdone] at hstep
    have hsame := hrest p mem_cons_self
    refine .cons done waiting middle _ p n rest (hsame ▸ hp) hstep (ih (fun a ha => ?_) fun a ha =>
      hrest a (mem_cons_of_mem _ ha))
    rcases mem_append.mp ha with ha | ha
    · exact hdone a ha
    · rw [mem_singleton.mp ha, hsame]

theorem Approach.along (done rest : List Pos)
    (hassigned : ∀ p n receive, target p = some n → n.label = .receive receive → ∃ source, n.source = some source)
    (h : ∀ p ∈ rest, Wanted target waiting p ∧ x p = target p ∧ target p ≠ none) :
    Approach target x done waiting rest waiting := by
  induction rest generalizing done with
  | nil => exact .nil done waiting
  | cons p rest ih =>
    obtain ⟨hwanted, hsame, hne⟩ := h p mem_cons_self
    obtain ⟨n, hn⟩ := Option.ne_none_iff_exists'.mp hne
    refine .cons done waiting waiting waiting p n rest (hsame.trans hn) ?_
      (ih _ fun q hq => h q (mem_cons_of_mem _ hq))
    cases hlabel : n.label.isReceive with
    | false => exact .wanted n waiting hlabel hwanted hn
    | true =>
      obtain ⟨receive, hreceive⟩ := (EventLabel.isReceive_iff _).mp hlabel
      obtain ⟨source, hsource⟩ := hassigned p n receive hn hreceive
      obtain ⟨label, source'⟩ := n
      cases hreceive
      cases hsource
      exact .read receive source waiting (.wanted waiting source hwanted hn)

variable {model : CommunicationModel} (htarget : target.Consistent model)
include htarget

theorem Approach.aligned (h : Approach target x done waiting rest waiting')
    (haligned : Aligned target (x.on done) waiting) :
    Aligned target (x.on (done ++ rest)) waiting' ∧ ∀ a, Wanted target waiting' a → Wanted target waiting a := by
  induction h with
  | nil done waiting =>
    rw [append_nil]
    exact ⟨haligned, fun _ => id⟩
  | cons done waiting middle _ p n rest hp hstep _ ih =>
    obtain ⟨hnext, hshrinks⟩ := hstep.aligned htarget haligned
    rw [← Execution.on_concat hp] at hnext
    obtain ⟨hlast, hshrinks'⟩ := ih hnext
    rw [append_assoc, singleton_append] at hlast
    exact ⟨hlast, fun a ha => hshrinks a (hshrinks' a ha)⟩

theorem Approach.aligned_start (h : Approach target x [] [] rest waiting) : Aligned target (x.on rest) waiting := by
  have hstart : Aligned target (x.on []) [] := by
    rw [Execution.on_nil]
    exact Aligned.start
  exact (h.aligned htarget hstart).1

theorem Approach.unique (h : Approach target x done waiting rest waiting')
    (h' : Approach target x done waiting rest waiting'') : waiting' = waiting'' := by
  induction h with
  | nil done waiting =>
    cases h'
    rfl
  | cons done waiting middle _ p n rest hp hstep _ ih =>
    cases h' with
    | cons _ _ middle' _ _ n' _ hp' hstep' hrest' =>
      obtain rfl : n = n' := Option.some.inj (hp.symm.trans hp')
      obtain rfl := hstep.unique htarget hstep'
      exact ih hrest'

theorem Approach.stays (h : Approach target x done waiting rest waiting')
    (haligned : Aligned target (x.on done) waiting) (hwanted : ∀ p ∈ rest, Wanted target waiting' p) :
    waiting' = waiting := by
  induction h with
  | nil done waiting => rfl
  | cons done waiting middle _ p n rest hp hstep hrest ih =>
    obtain ⟨hnext, -⟩ := hstep.aligned htarget haligned
    rw [← Execution.on_concat hp] at hnext
    obtain ⟨-, hshrinks⟩ := hrest.aligned htarget hnext
    have hmiddle := hstep.stays htarget (hshrinks p (hwanted p mem_cons_self))
    rw [ih hnext fun a ha => hwanted a (mem_cons_of_mem _ ha), hmiddle]

omit [LinearOrder V] in
theorem Aligned.past_iff (h : Aligned target x waiting)
    (hdense : ∀ thread i, x (thread, i + 1) ≠ none → x (thread, i) ≠ none)
    (hsources : ∀ s r, x.Reads s r → x s ≠ none) {s : Pos} (hs : x s ≠ none) (hwanted : Wanted target waiting s) :
    (∀ a, x.Past a s ↔ target.Past a s) ∧ ∀ a, x.Past a s → x a = target a := by
  have hsame : x s = target s := h.agrees s hs hwanted
  have hback (a b : Pos) (hedge : x.Before a b) (hb : x b = target b) (hwantedb : Wanted target waiting b) :
      Wanted target waiting a ∧ x a = target a := by
    have hedge' := hedge.congr htarget.dense hb
    have hwanteda := hwantedb.past (.single hedge')
    refine ⟨hwanteda, h.agrees a ?_ hwanteda⟩
    cases hedge with
    | order _ _ _ _ hi _ => exact hi
    | read _ _ hread => exact hsources _ _ hread
  have hagree (a : Pos) (ha : x.Past a s) : Wanted target waiting a ∧ x a = target a := by
    induction ha using TransGen.head_induction_on with
    | single hedge => exact hback _ _ hedge hsame hwanted
    | head hedge _ ih => exact hback _ _ hedge ih.2 ih.1
  exact ⟨fun a => Execution.past_congr hdense htarget.dense hsame (fun p hp => (hagree p hp).2) a,
    fun a ha => (hagree a ha).2⟩

end Run

/-! ## A backward revisit -/

/-- When an event may be deleted on the arrival of `s`, in terms of the execution `y` with `s` in it and the part
`x` of it that was inserted before the event. -/
def Deletable [LinearOrder V] (y x : Execution V) (s p : Pos) (n : Node V) : Prop :=
  match n.label with
  | .receive receive => ∃ source, n.source = some source ∧ FirstChoice (y.overlay x s) p.1 receive source
  | label => n.source = none ∧ Spare x p label

/-- The revisit of `r` by `s` in an execution `y`, in which `before` was inserted before `r` and `after` after it:
the receive reads its first choice, and so does all that is deleted. -/
structure Revisited [LinearOrder V] (y : Execution V) (before after : List Pos) (s r : Pos) (child : Execution V) :
    Prop where
  receive : ∃ receive source, y r = some ⟨.receive receive, some source⟩ ∧
    child r = some ⟨.receive receive, some (.send s)⟩ ∧ FirstChoice (y.overlay (y.on before) s) r.1 receive source
  send : ∃ n send, y s = some n ∧ n.label = .send send
  independent : ¬ y.Past r s
  fresh : s ∉ before ∧ s ≠ r ∧ s ∉ after
  covered : ∀ p, y.Past p s → p ∈ before ∨ p ∈ after
  filled : ∀ p ∈ after, y p ≠ none
  same : ∀ p, p ∈ before ∨ y.Past p s ∨ p = s → child p = y p
  deleted : ∀ pre p post n, after = pre ++ p :: post → ¬ y.Past p s → y p = some n →
    Deletable y (y.on (before ++ r :: pre)) s p n

theorem overlay_congr {target y : Execution V} {s : Pos} (hpast : ∀ a, y.Past a s ↔ target.Past a s)
    (hagree : ∀ a, y.Past a s → y a = target a) (x : Execution V) : y.overlay x s = target.overlay x s := by
  funext a
  by_cases ha : y.Past a s
  · rw [Execution.overlay_past ha, Execution.overlay_past ((hpast a).mp ha), hagree a ha]
  · rw [Execution.overlay_other ha, Execution.overlay_other fun h => ha ((hpast a).mpr h)]

section Revisit
variable [LinearOrder V] {target y child : Execution V} {before after kept : List Pos} {s r : Pos}
  {model : CommunicationModel} (h : Revisited y before after s r child)
include h

theorem Revisited.rest (hpast : ∀ a, y.Past a s ↔ target.Past a s) (hagree : ∀ a, y.Past a s → y a = target a)
    (hassigned : ∀ p n receive, y p = some n → n.label = .receive receive → ∃ source, n.source = some source)
    (below : WaitStack) (pre post : List Pos) (hafter : after = pre ++ post) :
    Approach target y (before ++ r :: pre) ((r, s) :: below) post ((r, s) :: below) := by
  induction post generalizing pre with
  | nil => exact .nil _ _
  | cons p post ih =>
    have hmem : p ∈ after := by rw [hafter]; exact mem_append_right _ mem_cons_self
    have hne : p ≠ s := by
      rintro rfl
      exact h.fresh.2.2 hmem
    obtain ⟨n, hn⟩ := Option.ne_none_iff_exists'.mp (h.filled p hmem)
    have hrest := ih (pre ++ [p]) (by rw [hafter, append_assoc, singleton_append])
    rw [show before ++ r :: (pre ++ [p]) = (before ++ r :: pre) ++ [p] by simp] at hrest
    refine .cons _ _ _ _ p n post hn ?_ hrest
    by_cases hp : y.Past p s
    · have hwanted : Wanted target ((r, s) :: below) p := (hpast p).mp hp
      have htarget : target p = some n := (hagree p hp).symm.trans hn
      cases hlabel : n.label.isReceive with
      | false => exact .wanted n _ hlabel hwanted htarget
      | true =>
        obtain ⟨receive, hreceive⟩ := (EventLabel.isReceive_iff _).mp hlabel
        obtain ⟨source, hsource⟩ := hassigned p n receive hn hreceive
        obtain ⟨label, source'⟩ := n
        cases hreceive
        cases hsource
        exact .read receive source _ (.wanted _ source hwanted htarget)
    · have hnot : ¬ target.Past p s := fun hp' => hp ((hpast p).mpr hp')
      have hdeleted := h.deleted pre p post n hafter hp hn
      obtain ⟨label, source'⟩ := n
      cases label with
      | receive receive =>
        obtain ⟨source, hsource, hchoice⟩ := hdeleted
        cases hsource
        rw [overlay_congr hpast hagree] at hchoice
        exact .read receive source _ (.spare r s below source hnot hne hchoice)
      | send | nondeterministicChoice | block | error =>
        exact .spare _ r s below rfl hdeleted.1 hnot hne hdeleted.2

/-- Where the child of a backward revisit approaches the target, the graph it comes from does, with the receive
and the send on top of the stack. -/
theorem Revisited.approach (htarget : target.Consistent model)
    (hdense : ∀ thread i, y (thread, i + 1) ≠ none → y (thread, i) ≠ none)
    (hassigned : ∀ p n receive, y p = some n → n.label = .receive receive → ∃ source, n.source = some source)
    (hkept : ∀ p, p ∈ kept ↔ p ∈ after ∧ y.Past p s) {order : List Pos} (horder : order = before ++ r :: (kept ++ [s]))
    (hchild : ∀ thread i, child.on order (thread, i + 1) ≠ none → child.on order (thread, i) ≠ none)
    (hsources : ∀ a b, (child.on order).Reads a b → child.on order a ≠ none) {waiting : WaitStack}
    (happroach : Approach target child [] [] order waiting) :
    Approach target y [] [] (before ++ r :: after) ((r, s) :: waiting) := by
  obtain ⟨receive, source, hr, hrchild, hchoice⟩ := h.receive
  obtain ⟨ns, send, hs, hsend⟩ := h.send
  have hschild : child s = some ns := (h.same s (.inr (.inr rfl))).trans hs
  have hsmem : s ∈ order := by rw [horder]; simp
  -- the scan of the child, cut at the receive and at the send
  have hsplit := happroach
  rw [horder] at hsplit
  obtain ⟨waitingR, hbefore, hfrom⟩ := hsplit.split
  cases hfrom with
  | cons _ _ waiting₁ _ _ n _ hn hstep hrest =>
    obtain rfl : n = ⟨.receive receive, some (.send s)⟩ := Option.some.inj (hn.symm.trans hrchild)
    rw [nil_append] at hstep hrest
    obtain ⟨waiting₂, hmiddle, hlast⟩ := hrest.split
    obtain ⟨n, hn', hstepS⟩ := hlast.step
    obtain rfl : n = ns := Option.some.inj (hn'.symm.trans hschild)
    -- the send is read by the receive in front of it, so it is wanted
    obtain ⟨rfl, hwanted⟩ : waiting = waiting₂ ∧ Wanted target waiting₂ s := by
      cases hstepS with
      | wanted _ _ _ hwanted _ => exact ⟨rfl, hwanted⟩
      | spare _ _ _ _ _ _ _ _ hspare =>
        rw [hsend] at hspare
        refine absurd ⟨⟨.receive receive, some (.send s)⟩, ?_, rfl⟩ (hspare r)
        rw [Execution.on_mem (by simp), hrchild]
      | read | wait => cases hsend
    have haligned := happroach.aligned_start htarget
    have hson : child.on order s = y s := by rw [Execution.on_mem hsmem, hschild, hs]
    obtain ⟨hpastChild, hagreeChild⟩ := haligned.past_iff htarget hchild hsources
      (by rw [hson, hs]; exact Option.some_ne_none _) hwanted
    have hsame (p : Pos) (hp : y.Past p s) : y p = child.on order p := by
      have hmem : p ∈ order := by
        rw [horder]
        rcases h.covered p hp with hp' | hp'
        · exact mem_append_left _ hp'
        · exact mem_append_right _ (mem_cons_of_mem _ (mem_append_left _ ((hkept p).mpr ⟨hp', hp⟩)))
      rw [Execution.on_mem hmem, h.same p (.inr (.inl hp))]
    have hpast (a : Pos) : y.Past a s ↔ target.Past a s :=
      (Execution.past_congr hdense hchild hson.symm hsame a).trans (hpastChild a)
    have hagree (a : Pos) (ha : y.Past a s) : y a = target a :=
      (hsame a ha).trans (hagreeChild a ((hpastChild a).mpr ((hpast a).mp ha)))
    have halignedR := hbefore.aligned_start htarget
    have haligned₁ : Aligned target (child.on (before ++ [r])) waiting₁ := by
      rw [Execution.on_concat hrchild]
      exact (hstep.aligned htarget halignedR).1
    obtain rfl : waiting = waiting₁ := hmiddle.stays htarget haligned₁ fun p hp =>
      hwanted.past ((hpast p).mp ((hkept p).mp hp).2)
    -- the same events in front of the receive, which then waits for the send
    have hon : child.on before = y.on before := Execution.on_congr fun p hp => h.same p (.inl hp)
    have habsent : y.on before s = none := Execution.on_not_mem h.fresh.1
    rw [overlay_congr hpast hagree] at hchoice
    rw [hon] at hstep
    have hstepR : ApproachStep target (y.on before) r ⟨.receive receive, some source⟩ waitingR ((r, s) :: waiting) := by
      cases hstep with
      | wanted _ _ hlabel | spare _ _ _ _ hlabel => cases hlabel
      | read _ _ _ hdesired => exact .wait receive s source [(r, s)] waiting hdesired (.stop s source habsent hchoice)
      | wait _ d _ waits _ hdesired hwaits =>
        exact .wait receive d source ((r, s) :: waits) waitingR hdesired (hwaits.extend habsent hchoice)
    have hfront : Approach target y [] [] before waitingR :=
      hbefore.congr (fun p hp => absurd hp not_mem_nil) fun p hp => h.same p (.inl hp)
    refine hfront.append ?_
    rw [nil_append]
    refine .cons before waitingR _ _ r _ after hr hstepR ?_
    exact h.rest hpast hagree hassigned waiting [] after rfl

end Revisit
end MustDpor

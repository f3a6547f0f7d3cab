import Mathlib.Data.List.Induction
import Mathlib.Data.List.Nodup
import Mathlib.Logic.Function.Basic

/-! # Replaying messages against queues

One queue per channel. A push appends its message; a pop names the message it takes, which may stand
behind others as long as the popping side accepts none of those ahead of it. Where every popped message
was pushed before on its channel and is popped once, the queues hold what was pushed and not yet
popped, so a replay goes through exactly when no pop passes over a message it accepts. -/

namespace MustDpor.ChannelReplay
set_option autoImplicit false
open List Function

inductive Action (K M : Type) where
  | push (channel : K) (message : M)
  | pop (channel : K) (message : M) (accepts : M → Bool)
  | skip

variable {K M : Type} [DecidableEq K] [DecidableEq M]

def step (queues : K → List M) : Action K M → Option (K → List M)
  | .push channel message => some (Function.update queues channel (queues channel ++ [message]))
  | .pop channel message accepts =>
    if message ∈ queues channel ∧ ∀ ahead ∈ (queues channel).takeWhile (· ≠ message), accepts ahead = false then
      some (Function.update queues channel ((queues channel).erase message))
    else none
  | .skip => some queues

def replay : List (Action K M) → (K → List M) → Option (K → List M)
  | [], queues => some queues
  | action :: rest, queues => (step queues action).bind (replay rest)

theorem replay_concat (actions : List (Action K M)) (action : Action K M) (queues : K → List M) :
    replay (actions ++ [action]) queues = (replay actions queues).bind fun after => step after action := by
  induction actions generalizing queues with
  | nil =>
    show (step queues action).bind some = step queues action
    cases step queues action <;> rfl
  | cons first rest ih =>
    show (step queues first).bind (replay (rest ++ [action])) = ((step queues first).bind (replay rest)).bind _
    cases step queues first with
    | none => rfl
    | some after => exact ih after

/-! ## What the queues hold -/

def pushedOn (channel : K) : Action K M → Option M
  | .push c message => if c = channel then some message else none
  | _ => none

def poppedBy : Action K M → Option M
  | .pop _ message _ => some message
  | _ => none

def pushed (actions : List (Action K M)) (channel : K) : List M := actions.filterMap (pushedOn channel)

def popped (actions : List (Action K M)) : List M := actions.filterMap poppedBy

def queued (actions : List (Action K M)) (channel : K) : List M :=
  (pushed actions channel).filter (· ∉ popped actions)

/-- Messages are pushed once and popped after that, on the same channel and at most once. -/
structure Paired (actions : List (Action K M)) : Prop where
  once : ∀ channel, (pushed actions channel).Nodup
  own : ∀ channel channel' message, message ∈ pushed actions channel → message ∈ pushed actions channel' →
    channel = channel'
  fresh : ∀ before after channel message, actions = before ++ .push channel message :: after →
    message ∉ popped before
  sent : ∀ before after channel message accepts, actions = before ++ .pop channel message accepts :: after →
    message ∈ pushed before channel ∧ message ∉ popped before

/-- No pop passes over a message it accepts. -/
def Clean (actions : List (Action K M)) : Prop :=
  ∀ before after channel message accepts, actions = before ++ .pop channel message accepts :: after →
    ∀ ahead ∈ (pushed before channel).takeWhile (· ≠ message), ahead ∉ popped before → accepts ahead = false

omit [DecidableEq M] in
theorem pushed_concat (actions : List (Action K M)) (action : Action K M) (channel : K) :
    pushed (actions ++ [action]) channel = pushed actions channel ++ (pushedOn channel action).toList := by
  unfold pushed
  rw [filterMap_append]
  cases h : pushedOn channel action <;> simp [h]

omit [DecidableEq K] [DecidableEq M] in
theorem popped_concat (actions : List (Action K M)) (action : Action K M) :
    popped (actions ++ [action]) = popped actions ++ (poppedBy action).toList := by
  unfold popped
  rw [filterMap_append]
  cases h : poppedBy action <;> simp [h]

omit [DecidableEq K] in
theorem concat_split {α : Type} {l before after : List α} {a x : α} (h : l ++ [a] = before ++ x :: after) :
    (after = [] ∧ before = l ∧ x = a) ∨ ∃ rest, after = rest ++ [a] ∧ l = before ++ x :: rest := by
  rcases eq_nil_or_concat after with rfl | ⟨rest, last, rfl⟩
  · obtain ⟨hl, ha⟩ := append_inj' h rfl
    exact .inl ⟨rfl, hl.symm, (singleton_inj.mp ha).symm⟩
  · have h' : l ++ [a] = (before ++ x :: rest) ++ [last] := by
      rw [h, append_assoc, concat_eq_append, cons_append]
    obtain ⟨hl, ha⟩ := append_inj' h' rfl
    rw [singleton_inj.mp ha]
    exact .inr ⟨rest, concat_eq_append, hl⟩

variable {actions : List (Action K M)}

omit [DecidableEq M] in
theorem Paired.init {action : Action K M} (h : Paired (actions ++ [action])) : Paired actions := by
  have hpushed (channel : K) : (pushed actions channel).Sublist (pushed (actions ++ [action]) channel) := by
    rw [pushed_concat]
    exact sublist_append_left _ _
  refine ⟨fun channel => (h.once channel).sublist (hpushed channel), fun channel channel' message hm hm' =>
    h.own channel channel' message ((hpushed channel).mem hm) ((hpushed channel').mem hm'), ?_, ?_⟩
  · intro before after channel message hsplit
    refine h.fresh before (after ++ [action]) channel message ?_
    rw [hsplit, append_assoc, cons_append]
  · intro before after channel message accepts hsplit
    refine h.sent before (after ++ [action]) channel message accepts ?_
    rw [hsplit, append_assoc, cons_append]

theorem clean_concat (actions : List (Action K M)) (action : Action K M) :
    Clean (actions ++ [action]) ↔ Clean actions ∧ ∀ channel message accepts,
      action = .pop channel message accepts → ∀ ahead ∈ (pushed actions channel).takeWhile (· ≠ message),
        ahead ∉ popped actions → accepts ahead = false := by
  constructor
  · intro h
    refine ⟨fun before after channel message accepts hsplit => ?_, fun channel message accepts haction => ?_⟩
    · refine h before (after ++ [action]) channel message accepts ?_
      rw [hsplit, append_assoc, cons_append]
    · exact h actions [] channel message accepts (by rw [haction])
  · rintro ⟨hold, hlast⟩ before after channel message accepts hsplit
    rcases concat_split hsplit with ⟨rfl, rfl, haction⟩ | ⟨rest, rfl, hactions⟩
    · exact hlast channel message accepts haction.symm
    · exact hold before rest channel message accepts hactions

omit [DecidableEq K] in
theorem takeWhile_filter (l : List M) {p : M → Bool} {message : M} (hp : p message = true) :
    (l.filter p).takeWhile (· ≠ message) = (l.takeWhile (· ≠ message)).filter p := by
  induction l with
  | nil => rfl
  | cons a l ih =>
    by_cases ha : a = message
    · subst ha
      rw [filter_cons_of_pos hp, takeWhile_cons_of_neg (by simp), takeWhile_cons_of_neg (by simp)]
      rfl
    · rw [takeWhile_cons_of_pos (by simpa using ha)]
      by_cases hpa : p a = true
      · rw [filter_cons_of_pos hpa, filter_cons_of_pos hpa,
          takeWhile_cons_of_pos (by simpa using ha), ih]
      · rw [filter_cons_of_neg hpa, filter_cons_of_neg hpa, ih]

theorem queued_push (channel : K) {message : M} (hfresh : message ∉ popped actions) :
    queued (actions ++ [.push channel message])
      = update (queued actions) channel (queued actions channel ++ [message]) := by
  funext c
  unfold queued
  rw [pushed_concat, popped_concat]
  show (_ ++ (if channel = c then some message else none).toList).filter (· ∉ popped actions ++ []) = _
  rw [append_nil]
  by_cases hc : channel = c
  · subst hc
    rw [if_pos rfl, update_self, filter_append, Option.toList_some,
      filter_cons_of_pos (by simpa using hfresh), filter_nil]
  · rw [if_neg hc, update_of_ne (Ne.symm hc), Option.toList_none, append_nil]

theorem queued_pop {channel : K} {message : M} (accepts : M → Bool)
    (hpaired : Paired actions) (hmessage : message ∈ pushed actions channel) :
    queued (actions ++ [.pop channel message accepts])
      = update (queued actions) channel ((queued actions channel).erase message) := by
  funext c
  unfold queued
  rw [pushed_concat, popped_concat]
  show (_ ++ []).filter (· ∉ popped actions ++ [message]) = _
  rw [append_nil]
  have hsplit (m : M) : decide (m ∉ popped actions ++ [message])
      = (decide (m ∉ popped actions) && decide (m ≠ message)) := by
    simp [not_or]
  simp only [hsplit]
  by_cases hc : channel = c
  · subst hc
    rw [update_self, List.Nodup.erase_eq_filter ((hpaired.once channel).filter _), filter_filter]
    refine filter_congr fun m _ => ?_
    rw [Bool.and_comm]
    congr 1
    rw [Bool.eq_iff_iff, decide_eq_true_eq, bne_iff_ne]
  · rw [update_of_ne (Ne.symm hc)]
    refine filter_congr fun m hm => ?_
    have hne : m ≠ message := fun heq => hc (hpaired.own channel c message hmessage (heq ▸ hm))
    simp [hne]

theorem replay_paired (hpaired : Paired actions) :
    (Clean actions → replay actions (fun _ => []) = some (queued actions)) ∧
      (¬ Clean actions → replay actions (fun _ => []) = none) := by
  induction actions using reverseRecOn with
  | nil =>
    refine ⟨fun _ => rfl, fun hnot => (hnot fun before after channel message accepts hsplit => ?_).elim⟩
    simp at hsplit
  | append_singleton actions action ih =>
    obtain ⟨hclean, hdirty⟩ := ih (hpaired.init)
    rw [replay_concat, clean_concat]
    by_cases hactions : Clean actions
    · rw [hclean hactions]
      show (_ → step (queued actions) action = _) ∧ (_ → step (queued actions) action = _)
      cases action with
      | skip =>
        refine ⟨fun _ => ?_, fun hnot => (hnot ⟨hactions, nofun⟩).elim⟩
        show some (queued actions) = _
        unfold queued
        simp only [pushed_concat, popped_concat, pushedOn, poppedBy, Option.toList_none, append_nil]
      | push channel message =>
        refine ⟨fun _ => ?_, fun hnot => (hnot ⟨hactions, nofun⟩).elim⟩
        rw [queued_push channel (hpaired.fresh actions [] channel message rfl)]
        rfl
      | pop channel message accepts =>
        obtain ⟨hpushed, hnew⟩ := hpaired.sent actions [] channel message accepts rfl
        have hqueue : message ∈ queued actions channel := mem_filter.mpr ⟨hpushed, by simpa using hnew⟩
        have hahead : (∀ ahead ∈ (queued actions channel).takeWhile (· ≠ message), accepts ahead = false) ↔
            ∀ ahead ∈ (pushed actions channel).takeWhile (· ≠ message), ahead ∉ popped actions →
              accepts ahead = false := by
          unfold queued
          rw [takeWhile_filter _ (by simpa using hnew)]
          simp only [mem_filter, decide_eq_true_eq, and_imp]
        rw [queued_pop accepts (hpaired.init) hpushed]
        refine ⟨fun h => if_pos ⟨hqueue, hahead.mpr (h.2 channel message accepts rfl)⟩,
          fun h => if_neg fun hok => h ⟨hactions, ?_⟩⟩
        rintro _ _ _ ⟨⟩
        exact hahead.mp hok.2
    · rw [hdirty hactions]
      exact ⟨fun h => absurd h.1 hactions, fun _ => rfl⟩

theorem replay_isSome_iff (hpaired : Paired actions) :
    (replay actions fun _ => []).isSome = true ↔ Clean actions := by
  obtain ⟨hclean, hdirty⟩ := replay_paired hpaired
  constructor
  · intro h
    by_contra hnot
    rw [hdirty hnot] at h
    cases h
  · intro h
    rw [hclean h]
    rfl

end MustDpor.ChannelReplay

import MustDpor.Foundations.ChannelReplay
import MustDpor.Foundations.TopologicalOrder
import MustDpor.Model.Validation

/-! # What the FIFO checker decides

The two clauses of the FIFO check walk the sends of each channel. Together they say that a receive has
taken every earlier message of the channel it accepts, or left it to a receive before it. Replaying the
events against one queue per channel says the same, along whichever linear extension it goes. -/

namespace MustDpor
set_option autoImplicit false
open List Function

variable {V : Type}

/-! ## Channels -/

variable {key : ℕ × ℕ} {id : ℕ}

namespace FifoGroups

/-- The key order of the source's `std::map`. -/
def KeyLt (a b : ℕ × ℕ) : Prop := a.1 < b.1 ∨ (a.1 = b.1 ∧ a.2 < b.2)

def Sorted (groups : FifoGroups) : Prop := groups.Pairwise fun a b => KeyLt a.1 b.1

def lookup : FifoGroups → ℕ × ℕ → List ℕ
  | [], _ => []
  | (k, ids) :: rest, key => if key = k then ids else lookup rest key

theorem KeyLt.trans {a b c : ℕ × ℕ} (hab : KeyLt a b) (hbc : KeyLt b c) : KeyLt a c := by
  unfold KeyLt at *
  omega

theorem KeyLt.ne (a b : ℕ × ℕ) (h : KeyLt a b) : a ≠ b := by
  rintro rfl
  unfold KeyLt at h
  omega

theorem lookup_of_lt {groups : FifoGroups} {key : ℕ × ℕ} (h : ∀ group ∈ groups, KeyLt key group.1) :
    lookup groups key = [] := by
  induction groups with
  | nil => rfl
  | cons group rest ih =>
    unfold lookup
    rw [if_neg (h group mem_cons_self).ne, ih fun g hg => h g (mem_cons_of_mem _ hg)]

variable {groups : FifoGroups}

theorem mem_push {group : (ℕ × ℕ) × List ℕ}
    (h : group ∈ push key id groups) : group.1 = key ∨ ∃ old ∈ groups, old.1 = group.1 := by
  induction groups with
  | nil =>
    cases mem_singleton.mp h
    exact .inl rfl
  | cons first rest ih =>
    obtain ⟨k, ids⟩ := first
    unfold push at h
    split at h
    · rename_i heq
      rcases mem_cons.mp h with rfl | h
      · exact .inl heq.symm
      · exact .inr ⟨group, mem_cons_of_mem _ h, rfl⟩
    · split at h
      · rcases mem_cons.mp h with rfl | h
        · exact .inl rfl
        · exact .inr ⟨group, h, rfl⟩
      · rcases mem_cons.mp h with rfl | h
        · exact .inr ⟨(k, ids), mem_cons_self, rfl⟩
        · exact (ih h).imp (fun heq => heq) fun ⟨old, hold, heq⟩ => ⟨old, mem_cons_of_mem _ hold, heq⟩

theorem Sorted.push (key : ℕ × ℕ) (id : ℕ) (h : Sorted groups) : Sorted (push key id groups) := by
  induction groups with
  | nil => exact pairwise_singleton _ _
  | cons first rest ih =>
    obtain ⟨k, ids⟩ := first
    obtain ⟨hfirst, hrest⟩ := pairwise_cons.mp h
    unfold FifoGroups.push
    split
    · exact pairwise_cons.mpr ⟨hfirst, hrest⟩
    · rename_i hne
      split
      · rename_i hlt
        refine pairwise_cons.mpr ⟨fun group hgroup => ?_, h⟩
        rcases mem_cons.mp hgroup with rfl | hgroup
        · exact hlt
        · exact KeyLt.trans hlt (hfirst group hgroup)
      · rename_i hge
        refine pairwise_cons.mpr ⟨fun group hgroup => ?_, ih hrest⟩
        rcases mem_push hgroup with heq | ⟨old, hold, heq⟩
        · rw [heq]
          have hne : ¬ (key.1 = k.1 ∧ key.2 = k.2) := fun hk => hne (Prod.ext hk.1 hk.2)
          unfold KeyLt
          simp only
          omega
        · rw [← heq]
          exact hfirst old hold

theorem lookup_push (key : ℕ × ℕ) (id : ℕ) (h : Sorted groups) (k : ℕ × ℕ) :
    lookup (push key id groups) k = if k = key then lookup groups key ++ [id] else lookup groups k := by
  induction groups with
  | nil => rfl
  | cons first rest ih =>
    obtain ⟨k', ids⟩ := first
    obtain ⟨hfirst, hrest⟩ := pairwise_cons.mp h
    unfold push
    split
    · rename_i heq
      subst heq
      unfold lookup
      rw [if_pos rfl]
      split
      · rfl
      · rfl
    · rename_i hne
      split
      · rename_i hlt
        have hnone : lookup ((k', ids) :: rest) key = [] := by
          refine lookup_of_lt fun group hgroup => ?_
          rcases mem_cons.mp hgroup with rfl | hgroup
          · exact hlt
          · exact KeyLt.trans hlt (hfirst group hgroup)
        rw [hnone]
        conv_lhs => unfold lookup
        rfl
      · conv_lhs => unfold lookup
        rw [ih hrest]
        conv_rhs => unfold lookup
        rw [if_neg hne]
        by_cases hk : k = k'
        · subst hk
          rw [if_pos rfl, if_pos rfl, if_neg (Ne.symm hne)]
        · rw [if_neg hk, if_neg hk]

theorem lookup_of_mem (h : Sorted groups) {group : (ℕ × ℕ) × List ℕ}
    (hgroup : group ∈ groups) : lookup groups group.1 = group.2 := by
  induction groups with
  | nil => exact (nomatch hgroup)
  | cons first rest ih =>
    obtain ⟨hfirst, hrest⟩ := pairwise_cons.mp h
    unfold lookup
    rcases mem_cons.mp hgroup with rfl | hgroup
    · exact if_pos rfl
    · rw [if_neg (hfirst group hgroup).ne.symm]
      exact ih hrest hgroup

theorem mem_of_lookup {groups : FifoGroups} {key : ℕ × ℕ} (h : lookup groups key ≠ []) :
    (key, lookup groups key) ∈ groups := by
  induction groups with
  | nil => exact (h rfl).elim
  | cons first rest ih =>
    unfold lookup at h ⊢
    split
    · rename_i heq
      subst heq
      exact mem_cons_self
    · rename_i hne
      rw [if_neg hne] at h
      exact mem_cons_of_mem _ (ih h)

end FifoGroups

theorem consumerAccepts_iff (g : ExecutionGraph V) (r s : ℕ) :
    consumerAccepts g r s = true ↔ ∃ er es receive send, g.events[r]? = some er ∧ g.events[s]? = some es ∧
      er.label = .receive receive ∧ es.label = .send send ∧ receive.accepts send.value = true := by
  unfold consumerAccepts
  constructor
  · intro h
    split at h
    · rename_i er es her hes
      split at h
      · rename_i receive send hreceive hsend
        exact ⟨er, es, receive, send, her, hes, (EventLabel.asReceive_eq_some _ _).mp hreceive,
          (EventLabel.asSend_eq_some _ _).mp hsend, h⟩
      · cases h
    · cases h
  · rintro ⟨er, es, receive, send, her, hes, hreceive, hsend, haccepts⟩
    rw [her, hes]
    dsimp only
    rw [(EventLabel.asReceive_eq_some _ _).mpr hreceive, (EventLabel.asSend_eq_some _ _).mpr hsend]
    exact haccepts

namespace ExecutionGraph
variable {tolerance : ℕ → Bool}

/-- Sender and destination of a message. -/
def channel? (g : ExecutionGraph V) (id : ℕ) : Option (ℕ × ℕ) :=
  g.events[id]?.bind fun e => e.label.asSend.map fun send => (e.thread, send.destination)

theorem channel?_eq_some (g : ExecutionGraph V) (id : ℕ) (key : ℕ × ℕ) :
    g.channel? id = some key ↔ ∃ e send, g.events[id]? = some e ∧ e.label = .send send ∧
      key = (e.thread, send.destination) := by
  unfold channel?
  simp only [Option.bind_eq_some_iff, Option.map_eq_some_iff, EventLabel.asSend_eq_some]
  constructor
  · rintro ⟨e, he, send, hsend, hkey⟩
    exact ⟨e, send, he, hsend, hkey.symm⟩
  · rintro ⟨e, send, he, hsend, hkey⟩
    exact ⟨e, he, send, hsend, hkey.symm⟩

/-- The messages of a channel in insertion order. -/
def channelSends (g : ExecutionGraph V) (key : ℕ × ℕ) : List ℕ :=
  (List.range g.events.length).filter fun id => decide (g.channel? id = some key)

theorem mem_channelSends (g : ExecutionGraph V) (key : ℕ × ℕ) (id : ℕ) :
    id ∈ g.channelSends key ↔ g.channel? id = some key := by
  unfold channelSends
  rw [mem_filter, mem_range, decide_eq_true_eq]
  refine ⟨fun h => h.2, fun h => ⟨?_, h⟩⟩
  obtain ⟨e, -, he, -⟩ := (g.channel?_eq_some id key).mp h
  exact lt_of_getElem? he

/-- One round of `group_fifo_sends`. -/
def groupSend (g : ExecutionGraph V) (groups : FifoGroups) (id : ℕ) : FifoGroups :=
  match g.channel? id with
  | some key => FifoGroups.push key id groups
  | none => groups

theorem groupFifoSends_foldl (g : ExecutionGraph V) :
    groupFifoSends g = g.sendEventIds.foldl g.groupSend [] := by
  unfold groupFifoSends
  congr 1
  funext groups id
  unfold groupSend channel?
  cases g.events[id]? with
  | none => rfl
  | some e =>
    dsimp only [Option.bind_some]
    cases e.label.asSend <;> rfl

theorem foldl_groupSend (g : ExecutionGraph V) (ids : List ℕ) (groups : FifoGroups) (h : groups.Sorted) :
    (ids.foldl g.groupSend groups).Sorted ∧ ∀ key, (ids.foldl g.groupSend groups).lookup key
      = groups.lookup key ++ ids.filter fun id => decide (g.channel? id = some key) := by
  induction ids generalizing groups with
  | nil => exact ⟨h, fun key => (append_nil _).symm⟩
  | cons id rest ih =>
    rw [foldl_cons]
    cases hkey : g.channel? id with
    | none =>
      have hstep : g.groupSend groups id = groups := by
        unfold groupSend
        rw [hkey]
      rw [hstep]
      refine ⟨(ih groups h).1, fun key => ?_⟩
      rw [(ih groups h).2 key, filter_cons_of_neg (by simp [hkey])]
    | some own =>
      have hstep : g.groupSend groups id = FifoGroups.push own id groups := by
        unfold groupSend
        rw [hkey]
      rw [hstep]
      obtain ⟨hsorted, hlookup⟩ := ih _ (h.push own id)
      refine ⟨hsorted, fun key => ?_⟩
      rw [hlookup key, FifoGroups.lookup_push own id h key]
      by_cases heq : key = own
      · subst heq
        rw [if_pos rfl, filter_cons_of_pos (by simp [hkey]), append_assoc]
        rfl
      · rw [if_neg heq, filter_cons_of_neg (by simp [hkey, Ne.symm heq])]

theorem groupFifoSends_spec (g : ExecutionGraph V) :
    (groupFifoSends g).Sorted ∧ ∀ key, (groupFifoSends g).lookup key = g.channelSends key := by
  rw [groupFifoSends_foldl]
  obtain ⟨hsorted, hlookup⟩ := foldl_groupSend g g.sendEventIds [] List.Pairwise.nil
  refine ⟨hsorted, fun key => (hlookup key).trans ?_⟩
  -- an event with a channel is a send
  unfold sendEventIds channelSends
  rw [filter_filter]
  refine filter_congr fun id _ => ?_
  by_cases hkey : g.channel? id = some key
  · obtain ⟨e, send, he, hsend, -⟩ := (g.channel?_eq_some id key).mp hkey
    simp [hkey, he, hsend, EventLabel.isSend]
  · simp [hkey]

/-! ## Consumers -/

/-- One round of `compute_send_consumers`. -/
def consumeEntry (g : ExecutionGraph V) (consumers : ℕ → Option ℕ) : ℕ × ReadsFromSource → ℕ → Option ℕ
  | (_, .bottom) => consumers
  | (r, .send s) => if matchedRead g r s then Function.update consumers s (some r) else consumers

theorem computeSendConsumers_foldl (g : ExecutionGraph V) :
    computeSendConsumers g = g.readsFrom.entries.foldl g.consumeEntry fun _ => none := by
  unfold computeSendConsumers
  congr 1
  funext consumers entry
  obtain ⟨r, source⟩ := entry
  cases source <;> rfl

theorem foldl_consumeEntry (g : ExecutionGraph V) (s : ℕ) (entries : List (ℕ × ReadsFromSource))
    (consumers : ℕ → Option ℕ) :
    (∃ r, (r, .send s) ∈ entries ∧ matchedRead g r s = true ∧
      entries.foldl g.consumeEntry consumers s = some r) ∨
    ((∀ r, (r, .send s) ∈ entries → matchedRead g r s = false) ∧
      entries.foldl g.consumeEntry consumers s = consumers s) := by
  induction entries generalizing consumers with
  | nil => exact .inr ⟨nofun, rfl⟩
  | cons entry rest ih =>
    rw [foldl_cons]
    rcases ih (g.consumeEntry consumers entry) with ⟨r, hr, hmatched, hresult⟩ | ⟨hnone, hresult⟩
    · exact .inl ⟨r, mem_cons_of_mem _ hr, hmatched, hresult⟩
    · rw [hresult]
      obtain ⟨r, source⟩ := entry
      cases source with
      | bottom =>
        refine .inr ⟨fun r' hr' => ?_, rfl⟩
        rcases mem_cons.mp hr' with heq | hr'
        · cases heq
        · exact hnone r' hr'
      | send s' =>
        dsimp only [consumeEntry]
        by_cases hs : s' = s
        · subst hs
          by_cases hmatched : matchedRead g r s' = true
          · rw [if_pos hmatched, update_self]
            exact .inl ⟨r, mem_cons_self, hmatched, rfl⟩
          · rw [if_neg hmatched]
            refine .inr ⟨fun r' hr' => ?_, rfl⟩
            rcases mem_cons.mp hr' with heq | hr'
            · cases heq
              exact Bool.eq_false_iff.mpr hmatched
            · exact hnone r' hr'
        · refine .inr ⟨fun r' hr' => ?_, ?_⟩
          · rcases mem_cons.mp hr' with heq | hr'
            · cases heq
              exact (hs rfl).elim
            · exact hnone r' hr'
          · split
            · exact update_of_ne (Ne.symm hs) _ _
            · rfl

theorem AsyncConsistentExcept.consumers_iff {g : ExecutionGraph V} (h : g.AsyncConsistentExcept tolerance) (s r : ℕ) :
    computeSendConsumers g s = some r ↔ g.ReadsFrom s r := by
  have hmatched (r : ℕ) (hread : g.ReadsFrom s r) : matchedRead g r s = true := by
    obtain ⟨⟨er, receive, her, hreceive⟩, hsource⟩ := h.endpoints r (.send s) hread
    obtain ⟨es, send, hes, hsend⟩ := hsource s rfl
    obtain ⟨hdest, haccepts⟩ := h.delivered s r hread es er send receive hes hsend her hreceive
    exact (matchedRead_iff g r s).mpr ⟨er, es, receive, send, her, hes, hreceive, hsend, hdest, haccepts⟩
  rw [computeSendConsumers_foldl]
  rcases foldl_consumeEntry g s g.readsFrom.entries fun _ => none with ⟨r', hr', -, hresult⟩ | ⟨hnone, hresult⟩
  · have hread : g.ReadsFrom s r' := AscendingMap.mem_entries.mp hr'
    rw [hresult, Option.some.injEq]
    exact ⟨fun heq => heq ▸ hread, fun hr => h.exclusive s r' r hread hr⟩
  · rw [hresult]
    refine iff_of_false (nomatch ·) fun hread => ?_
    have := hnone r (AscendingMap.mem_entries.mpr hread)
    rw [hmatched r hread] at this
    cases this

/-! ## The clauses -/

theorem forall_split_cons {α : Type} (P : List α → α → Prop) (a : α) (l : List α) :
    (∀ before later after, a :: l = before ++ later :: after → P before later) ↔
      P [] a ∧ ∀ before later after, l = before ++ later :: after → P (a :: before) later := by
  constructor
  · exact fun h => ⟨h [] a l rfl, fun before later after hsplit => h (a :: before) later after (by rw [hsplit]; rfl)⟩
  · rintro ⟨hfirst, hrest⟩ before later after hsplit
    cases before with
    | nil =>
      cases hsplit
      exact hfirst
    | cons b before =>
      cases hsplit
      exact hrest before later after rfl

theorem channelIssues_eq_nil (issueAt : List ℕ → ℕ → Option ConsistencyIssue) (earlier sends : List ℕ) :
    channelIssues issueAt earlier sends = [] ↔
      ∀ before later after, sends = before ++ later :: after → issueAt (earlier ++ before) later = none := by
  induction sends generalizing earlier with
  | nil => simp [channelIssues]
  | cons first rest ih =>
    unfold channelIssues
    rw [append_eq_nil_iff, ih, Option.toList_eq_nil_iff,
      forall_split_cons fun before later => issueAt (earlier ++ before) later = none]
    simp only [append_nil, append_assoc, singleton_append]

/-- A receive finds every earlier message of the channel that it accepts taken by receives before it. -/
def FifoConsistent (g : ExecutionGraph V) : Prop :=
  ∀ s r, g.ReadsFrom s r → ∀ s', g.channel? s' = g.channel? s → s' < s → consumerAccepts g r s' = true →
    ∃ r', g.ReadsFrom s' r' ∧ g.ProgramOrder r' r

theorem channelSends_ascending (g : ExecutionGraph V) (key : ℕ × ℕ) :
    (g.channelSends key).Pairwise (· < ·) :=
  List.Pairwise.filter _ pairwise_lt_range

variable {s : ℕ}

theorem mem_before_iff (g : ExecutionGraph V) {before after : List ℕ}
    (hsplit : g.channelSends key = before ++ s :: after) (s' : ℕ) :
    s' ∈ before ↔ g.channel? s' = some key ∧ s' < s := by
  have hascending := g.channelSends_ascending key
  rw [hsplit, pairwise_append, pairwise_cons] at hascending
  obtain ⟨-, ⟨hafter, -⟩, hbefore⟩ := hascending
  rw [← mem_channelSends, hsplit, mem_append, mem_cons]
  constructor
  · exact fun h => ⟨.inl h, hbefore s' h s mem_cons_self⟩
  · rintro ⟨h | rfl | h, hlt⟩
    · exact h
    · exact absurd hlt (lt_irrefl _)
    · exact absurd (hafter s' h) (lt_asymm hlt)

theorem consumesLater_iff (g : ExecutionGraph V) (r r' : ℕ) :
    consumesLater g r r' = true ↔ g.ProgramOrder r r' := by
  unfold consumesLater ProgramOrder
  cases hr : g.events[r]? with
  | none => simp
  | some er =>
    cases hr' : g.events[r']? with
    | none => simp
    | some er' =>
      simp only [decide_eq_true_eq, Option.some.injEq]
      exact ⟨fun ⟨hthread, hindex⟩ => ⟨er, er', rfl, rfl, hthread.symm, hindex⟩,
        fun ⟨_, _, hr, hr', hthread, hindex⟩ => by subst hr hr'; exact ⟨hthread.symm, hindex⟩⟩

variable {r : ℕ}

theorem AsyncConsistentExcept.receives_ordered {g : ExecutionGraph V}
    (h : g.AsyncConsistentExcept tolerance) (hordered : g.IndexOrdered) {s' r' : ℕ} (hread : g.ReadsFrom s r) (hread' : g.ReadsFrom s' r')
    (hchannel : g.channel? s' = g.channel? s) (hne : r' ≠ r) :
    g.ProgramOrder r' r ↔ ¬ g.ProgramOrder r r' := by
  obtain ⟨⟨er, receive, her, hreceive⟩, hsource⟩ := h.endpoints r (.send s) hread
  obtain ⟨⟨er', receive', her', hreceive'⟩, hsource'⟩ := h.endpoints r' (.send s') hread'
  obtain ⟨es, send, hes, hsend⟩ := hsource s rfl
  obtain ⟨es', send', hes', hsend'⟩ := hsource' s' rfl
  have hdest := (h.delivered s r hread es er send receive hes hsend her hreceive).1
  have hdestination' := (h.delivered s' r' hread' es' er' send' receive' hes' hsend' her' hreceive').1
  have hkey : (es'.thread, send'.destination) = (es.thread, send.destination) := by
    rw [(g.channel?_eq_some s' _).mpr ⟨es', send', hes', hsend', rfl⟩,
      (g.channel?_eq_some s _).mpr ⟨es, send, hes, hsend, rfl⟩] at hchannel
    exact Option.some.inj hchannel
  have hthread : er'.thread = er.thread := by
    rw [← hdestination', ← hdest]
    exact congrArg Prod.snd hkey
  rw [hordered.programOrder_iff g, hordered.programOrder_iff g]
  constructor
  · rintro ⟨hlt, -⟩ ⟨hgt, -⟩
    exact absurd hlt (lt_asymm hgt)
  · intro hnot
    refine ⟨?_, er', er, her', her, hthread⟩
    rcases Nat.lt_or_gt_of_ne hne with hlt | hgt
    · exact hlt
    · exact (hnot ⟨hgt, er, er', her, her', hthread.symm⟩).elim

theorem clauseBWitness_none_iff (g : ExecutionGraph V) (consumers : ℕ → Option ℕ) (before : List ℕ) (y : ℕ) :
    (clauseBWitness g consumers before y).isSome = false ↔
      ∀ x ∈ before, ∀ r, consumers y = some r → consumerAccepts g r x = true → consumers x ≠ none := by
  unfold clauseBWitness
  cases hconsumer : consumers y with
  | none => exact iff_of_true rfl nofun
  | some r =>
    dsimp only
    rw [Option.isSome_map, Option.isSome_eq_false_iff, Option.isNone_iff_eq_none, find?_eq_none]
    refine forall_congr' fun x => forall_congr' fun _ => ?_
    rw [Bool.and_eq_true, Option.isNone_iff_eq_none]
    constructor
    · rintro hnot r' hr' haccepts hfree
      cases hr'
      exact hnot ⟨hfree, haccepts⟩
    · exact fun h ⟨hfree, haccepts⟩ => h r rfl haccepts hfree

theorem clauseCWitness_none_iff (g : ExecutionGraph V) (consumers : ℕ → Option ℕ) (before : List ℕ) (y : ℕ) :
    (clauseCWitness g consumers before y).isSome = false ↔
      ∀ x ∈ before, ∀ r, consumers y = some r → consumerAccepts g r x = true →
        ∀ r', consumers x = some r' → ¬ g.ProgramOrder r r' := by
  unfold clauseCWitness
  cases hconsumer : consumers y with
  | none => exact iff_of_true rfl nofun
  | some r =>
    dsimp only
    rw [Option.isSome_map, Option.isSome_eq_false_iff, Option.isNone_iff_eq_none, find?_eq_none]
    refine forall_congr' fun x => forall_congr' fun _ => ?_
    cases hx : consumers x with
    | none => exact iff_of_true Bool.false_ne_true nofun
    | some r₁ =>
      dsimp only
      rw [Bool.and_eq_true, g.consumesLater_iff]
      constructor
      · rintro hnot r' hr' haccepts r₂ hr₂ hpo
        cases hr'
        cases hr₂
        exact hnot ⟨hpo, haccepts⟩
      · exact fun h ⟨hpo, haccepts⟩ => h r rfl haccepts r₁ rfl hpo

section Clauses
variable (g : ExecutionGraph V) (h : g.AsyncConsistentExcept tolerance)
include h

theorem AsyncConsistentExcept.clauseB_iff (before : List ℕ) (s : ℕ) :
    clauseBIssue g (computeSendConsumers g) before s = none ↔
      ∀ r, g.ReadsFrom s r → ∀ s' ∈ before, consumerAccepts g r s' = true → ∃ r', g.ReadsFrom s' r' := by
  unfold clauseBIssue
  rw [Option.map_eq_none_iff, ← Option.isNone_iff_eq_none, ← Option.isSome_eq_false_iff, clauseBWitness_none_iff]
  simp only [h.consumers_iff, Option.ne_none_iff_exists']
  exact ⟨fun hall r hread s' hs' => hall s' hs' r hread, fun hall s' hs' r hread => hall r hread s' hs'⟩

theorem AsyncConsistentExcept.clauseC_iff (before : List ℕ) (s : ℕ) :
    clauseCIssue g (computeSendConsumers g) before s = none ↔
      ∀ r, g.ReadsFrom s r → ∀ s' ∈ before, consumerAccepts g r s' = true →
        ∀ r', g.ReadsFrom s' r' → ¬ g.ProgramOrder r r' := by
  unfold clauseCIssue
  rw [Option.map_eq_none_iff, ← Option.isNone_iff_eq_none, ← Option.isSome_eq_false_iff, clauseCWitness_none_iff]
  simp only [h.consumers_iff]
  exact ⟨fun hall r hread s' hs' => hall s' hs' r hread, fun hall s' hs' r hread => hall r hread s' hs'⟩

theorem AsyncConsistentExcept.fifoConsistent_iff (hordered : g.IndexOrdered) :
    g.FifoConsistent ↔ ∀ s r, g.ReadsFrom s r → ∀ s', g.channel? s' = g.channel? s → s' < s →
      consumerAccepts g r s' = true → ∃ r', g.ReadsFrom s' r' ∧ ¬ g.ProgramOrder r r' := by
  unfold FifoConsistent
  refine forall_congr' fun s => forall_congr' fun r => forall_congr' fun hread => forall_congr' fun s' =>
    forall_congr' fun hchannel => forall_congr' fun hlt => forall_congr' fun _ => exists_congr fun r' =>
    and_congr_right fun hread' => ?_
  refine h.receives_ordered hordered hread hread' hchannel ?_
  rintro rfl
  rw [ReadsFrom, hread, Option.some.injEq, ReadsFromSource.send.injEq] at hread'
  omega

theorem AsyncConsistentExcept.fifoIssues_nil_iff (hordered : g.IndexOrdered) (result : ConsistencyResult)
    (hresult : result.issues = []) : (addFifoP2PIssues g result).issues = [] ↔ g.FifoConsistent := by
  obtain ⟨hsorted, hlookup⟩ := g.groupFifoSends_spec
  have hgroups (issueAt : List ℕ → ℕ → Option ConsistencyIssue) :
      (groupFifoSends g).flatMap (fun group => channelIssues issueAt [] group.2) = [] ↔
        ∀ key before s after, g.channelSends key = before ++ s :: after → issueAt before s = none := by
    rw [flatMap_eq_nil_iff]
    constructor
    · intro hnil key before s after hsplit
      have hmem : (key, g.channelSends key) ∈ groupFifoSends g := by
        rw [← hlookup key]
        refine FifoGroups.mem_of_lookup ?_
        rw [hlookup key, hsplit]
        simp
      exact (channelIssues_eq_nil issueAt [] _).mp (hnil _ hmem) before s after hsplit
    · intro hall group hgroup
      refine (channelIssues_eq_nil issueAt [] _).mpr fun before s after hsplit => ?_
      refine hall group.1 before s after ?_
      rw [← hlookup group.1, FifoGroups.lookup_of_mem hsorted hgroup, hsplit]
  unfold addFifoP2PIssues
  rw [h.fifoConsistent_iff g hordered]
  simp only [hresult, nil_append, append_eq_nil_iff, hgroups, h.clauseB_iff, h.clauseC_iff]
  constructor
  · rintro ⟨hunread, hlater⟩ s r hread s' hchannel hlt haccepts
    obtain ⟨-, hsource⟩ := h.endpoints r (.send s) hread
    obtain ⟨es, send, hes, hsend⟩ := hsource s rfl
    have hkey := (g.channel?_eq_some s _).mpr ⟨es, send, hes, hsend, rfl⟩
    obtain ⟨before, after, hsplit⟩ := append_of_mem ((g.mem_channelSends _ s).mpr hkey)
    have hmem := (g.mem_before_iff hsplit s').mpr ⟨hchannel.trans hkey, hlt⟩
    obtain ⟨r', hread'⟩ := hunread _ before s after hsplit r hread s' hmem haccepts
    exact ⟨r', hread', hlater _ before s after hsplit r hread s' hmem haccepts r' hread'⟩
  · intro hfifo
    have htaken (key : ℕ × ℕ) (before : List ℕ) (s : ℕ) (after : List ℕ)
        (hsplit : g.channelSends key = before ++ s :: after) (r : ℕ) (hread : g.ReadsFrom s r) (s' : ℕ)
        (hs' : s' ∈ before) (haccepts : consumerAccepts g r s' = true) :
        ∃ r', g.ReadsFrom s' r' ∧ ¬ g.ProgramOrder r r' := by
      obtain ⟨hchannel', hlt⟩ := (g.mem_before_iff hsplit s').mp hs'
      have hchannel : g.channel? s = some key :=
        (g.mem_channelSends key s).mp (by rw [hsplit]; exact mem_append_right _ mem_cons_self)
      exact hfifo s r hread s' (hchannel'.trans hchannel.symm) hlt haccepts
    refine ⟨fun key before s after hsplit r hread s' hs' haccepts => ?_,
      fun key before s after hsplit r hread s' hs' haccepts r' hread' => ?_⟩
    · obtain ⟨r', hread', -⟩ := htaken key before s after hsplit r hread s' hs' haccepts
      exact ⟨r', hread'⟩
    · obtain ⟨r₁, hread₁, hnot⟩ := htaken key before s after hsplit r hread s' hs' haccepts
      exact h.exclusive s' r₁ r' hread₁ hread' ▸ hnot

end Clauses

/-! ## Replay -/

/-- The events in an order that respects program order and reads-from. -/
structure LinearExtension (g : ExecutionGraph V) (order : List ℕ) : Prop where
  perm : order.Perm (List.range g.events.length)
  respects : order.Pairwise fun a b => ¬ g.Porf b a

/-- Does the matcher accept the message? -/
def acceptsMessage (g : ExecutionGraph V) (receive : ReceiveLabel V) (id : ℕ) : Bool :=
  (g.events[id]?.bind fun e => e.label.asSend).any fun send => receive.accepts send.value

/-- What an event does to the queues: a send appends its message to the queue of its sender and
destination, a receive that reads a send takes that message out of its queue. -/
def action (g : ExecutionGraph V) (id : ℕ) : ChannelReplay.Action (ℕ × ℕ) ℕ :=
  match g.events[id]?.map Event.label with
  | some (.send _) =>
    match g.channel? id with
    | some key => .push key id
    | none => .skip
  | some (.receive receive) =>
    match g.readsFrom.find id with
    | some (.send s) =>
      match g.channel? s with
      | some key => .pop key s (g.acceptsMessage receive)
      | none => .skip
    | _ => .skip
  | _ => .skip

/-- Along the given order every receive that reads a send finds it in its queue, behind no message that
its matcher accepts. -/
def Replays (g : ExecutionGraph V) (order : List ℕ) : Prop :=
  (ChannelReplay.replay (order.map g.action) fun _ => []).isSome = true

theorem exists_linearExtension (g : ExecutionGraph V) (h : g.AsyncConsistentExcept tolerance) :
    ∃ order, g.LinearExtension order := by
  obtain ⟨order, hperm, hrespects⟩ :=
    TopologicalOrder.exists_linear_extension (h.endpoints.porf_lt) h.acyclic
  exact ⟨order, hperm, hrespects⟩

theorem action_push_iff (g : ExecutionGraph V) (id : ℕ) (key : ℕ × ℕ) (message : ℕ) :
    g.action id = .push key message ↔ g.channel? id = some key ∧ message = id := by
  unfold action
  constructor
  · intro h
    split at h
    · split at h
      · rename_i hkey
        cases h
        exact ⟨hkey, rfl⟩
      · cases h
    · split at h
      · split at h
        · cases h
        · cases h
      · cases h
    · cases h
  · rintro ⟨hkey, rfl⟩
    obtain ⟨e, send, he, hsend, -⟩ := (g.channel?_eq_some message key).mp hkey
    simp only [he, Option.map_some, hsend, hkey]

theorem action_pop (g : ExecutionGraph V) {accepts : ℕ → Bool} (haction : g.action r = .pop key s accepts) :
    g.ReadsFrom s r ∧ g.channel? s = some key ∧ accepts = consumerAccepts g r := by
  unfold action at haction
  split at haction
  · split at haction
    · cases haction
    · cases haction
  · rename_i receive hreceive
    obtain ⟨er, her, hlabel⟩ := Option.map_eq_some_iff.mp hreceive
    split at haction
    · rename_i s' hread
      split at haction
      · rename_i key' hkey
        cases haction
        refine ⟨hread, hkey, ?_⟩
        funext id
        unfold acceptsMessage consumerAccepts
        rw [her]
        cases g.events[id]? with
        | none => rfl
        | some es =>
          dsimp only [Option.bind_some]
          rw [hlabel]
          cases es.label.asSend <;> rfl
      · cases haction
    · cases haction
  · cases haction

theorem action_of_readsFrom (g : ExecutionGraph V) (h : g.ValidEndpoints) (hread : g.ReadsFrom s r) :
    ∃ key accepts, g.action r = .pop key s accepts := by
  obtain ⟨⟨er, receive, her, hreceive⟩, hsource⟩ := h r (.send s) hread
  obtain ⟨es, send, hes, hsend⟩ := hsource s rfl
  have hkey := (g.channel?_eq_some s _).mpr ⟨es, send, hes, hsend, rfl⟩
  refine ⟨(es.thread, send.destination), g.acceptsMessage receive, ?_⟩
  unfold action
  rw [ReadsFrom] at hread
  simp only [her, Option.map_some, hreceive, hread, hkey]

theorem pushed_map (g : ExecutionGraph V) (ids : List ℕ) (key : ℕ × ℕ) :
    ChannelReplay.pushed (ids.map g.action) key = ids.filter fun id => decide (g.channel? id = some key) := by
  unfold ChannelReplay.pushed
  rw [filterMap_map, ← filterMap_eq_filter]
  refine filterMap_congr fun id _ => ?_
  show ChannelReplay.pushedOn key (g.action id) = if decide (g.channel? id = some key) = true then some id else none
  cases haction : g.action id with
  | push key' message =>
    obtain ⟨hkey, rfl⟩ := (g.action_push_iff id key' message).mp haction
    rw [hkey]
    simp [ChannelReplay.pushedOn]
  | _ =>
    have hne : g.channel? id ≠ some key := fun hkey => by
      rw [(g.action_push_iff id key id).mpr ⟨hkey, rfl⟩] at haction
      cases haction
    simp [ChannelReplay.pushedOn, hne]

theorem mem_popped_map {g : ExecutionGraph V} (h : g.ValidEndpoints) (ids : List ℕ) (s : ℕ) :
    s ∈ ChannelReplay.popped (ids.map g.action) ↔ ∃ r ∈ ids, g.ReadsFrom s r := by
  unfold ChannelReplay.popped
  rw [filterMap_map, mem_filterMap]
  refine exists_congr fun r => and_congr_right fun _ => ?_
  constructor
  · intro hpopped
    cases haction : g.action r with
    | pop key s' accepts =>
      have hs : s' = s := by simpa [ChannelReplay.poppedBy, haction] using hpopped
      exact hs ▸ (g.action_pop haction).1
    | _ => simp [ChannelReplay.poppedBy, haction] at hpopped
  · intro hread
    obtain ⟨key, accepts, haction⟩ := g.action_of_readsFrom h hread
    simp [ChannelReplay.poppedBy, haction]

theorem action_split (g : ExecutionGraph V) {order : List ℕ} {before after : List (ChannelReplay.Action (ℕ × ℕ) ℕ)}
    {a : ChannelReplay.Action (ℕ × ℕ) ℕ} (hsplit : order.map g.action = before ++ a :: after) :
    ∃ earlier id later, order = earlier ++ id :: later ∧ before = earlier.map g.action ∧ g.action id = a := by
  obtain ⟨earlier, rest, rfl, rfl, hrest⟩ := map_eq_append_iff.mp hsplit
  obtain ⟨id, later, rfl, hid, -⟩ := map_eq_cons_iff.mp hrest
  exact ⟨earlier, id, later, rfl, rfl, hid⟩

section Replay
variable (g : ExecutionGraph V) (h : g.AsyncConsistentExcept tolerance) (order : List ℕ)
  (hlinear : g.LinearExtension order)
include h hlinear

theorem LinearExtension.mem_earlier {earlier later : List ℕ} {id other : ℕ}
    (hsplit : order = earlier ++ id :: later) (hporf : g.Porf other id) : other ∈ earlier := by
  have hmem : other ∈ order := hlinear.perm.mem_iff.mpr (mem_range.mpr (h.endpoints.porf_lt other id hporf).1)
  rw [hsplit] at hmem
  rcases mem_append.mp hmem with hearlier | hmem
  · exact hearlier
  · rcases mem_cons.mp hmem with rfl | hlater
    · exact (h.acyclic other (.single hporf)).elim
    · have hrespects := hlinear.respects
      rw [hsplit, pairwise_append, pairwise_cons] at hrespects
      exact (hrespects.2.1.1 other hlater hporf).elim

omit h in
theorem LinearExtension.not_mem_earlier {earlier later : List ℕ}
    (hsplit : order = earlier ++ id :: later) : id ∉ earlier := by
  have hnodup : order.Nodup := hlinear.perm.nodup_iff.mpr nodup_range
  rw [hsplit, nodup_append] at hnodup
  exact fun hmem => hnodup.2.2 id hmem id mem_cons_self rfl

theorem LinearExtension.paired : ChannelReplay.Paired (order.map g.action) := by
  have hnodup : order.Nodup := hlinear.perm.nodup_iff.mpr nodup_range
  refine ⟨fun key => ?_, fun key key' id hid hid' => ?_, fun before after key id hsplit => ?_,
    fun before after key s accepts hsplit => ?_⟩
  · rw [pushed_map]
    exact hnodup.filter _
  · rw [pushed_map, mem_filter, decide_eq_true_eq] at hid hid'
    exact Option.some.inj (hid.2.symm.trans hid'.2)
  · obtain ⟨earlier, id', later, horder, rfl, haction⟩ := g.action_split hsplit
    obtain ⟨-, rfl⟩ := (g.action_push_iff id' key id).mp haction
    rw [mem_popped_map h.endpoints]
    rintro ⟨r, hr, hread⟩
    have hrespects := hlinear.respects
    rw [horder, pairwise_append] at hrespects
    exact hrespects.2.2 r hr id mem_cons_self (.inr hread)
  · obtain ⟨earlier, r, later, horder, rfl, haction⟩ := g.action_split hsplit
    obtain ⟨hread, hkey, -⟩ := g.action_pop haction
    rw [pushed_map, mem_filter, decide_eq_true_eq, mem_popped_map h.endpoints]
    refine ⟨⟨hlinear.mem_earlier g h order horder (.inr hread), hkey⟩, ?_⟩
    rintro ⟨r', hr', hread'⟩
    cases h.exclusive s r r' hread hread'
    exact hlinear.not_mem_earlier g order horder hr'

theorem LinearExtension.mem_ahead_iff (hordered : g.IndexOrdered) {earlier later : List ℕ}
    (hsplit : order = earlier ++ id :: later) (hs : s ∈ earlier) (hkey : g.channel? s = some key) (s' : ℕ) :
    s' ∈ (ChannelReplay.pushed (earlier.map g.action) key).takeWhile (· ≠ s) ↔
      g.channel? s' = some key ∧ s' < s := by
  have hmem : s ∈ earlier.filter fun id => decide (g.channel? id = some key) :=
    mem_filter.mpr ⟨hs, decide_eq_true hkey⟩
  obtain ⟨ahead, behind, hsends⟩ := append_of_mem hmem
  have hrespects : (ahead ++ s :: behind).Pairwise fun a b => ¬ g.Porf b a := by
    rw [← hsends]
    have hall := hlinear.respects
    rw [hsplit, pairwise_append] at hall
    exact hall.1.filter _
  have hnodup : (ahead ++ s :: behind).Nodup := by
    rw [← hsends]
    have hall : order.Nodup := hlinear.perm.nodup_iff.mpr nodup_range
    rw [hsplit, nodup_append] at hall
    exact hall.1.filter _
  have hahead : (ahead ++ s :: behind).takeWhile (· ≠ s) = ahead := by
    rw [takeWhile_append_of_pos, takeWhile_cons_of_neg (by simp), append_nil]
    intro a ha
    rw [nodup_append] at hnodup
    exact decide_eq_true (hnodup.2.2 a ha s mem_cons_self)
  -- along a channel, the order of sending is the order of ids
  have hpo (a b : ℕ) (ha : g.channel? a = some key) (hb : g.channel? b = some key) (hlt : a < b) : g.Porf a b := by
    obtain ⟨ea, sa, hea, -, hka⟩ := (g.channel?_eq_some a key).mp ha
    obtain ⟨eb, sb, heb, -, hkb⟩ := (g.channel?_eq_some b key).mp hb
    exact .inl ((hordered.programOrder_iff g a b).mpr
      ⟨hlt, ea, eb, hea, heb, congrArg Prod.fst (hka.symm.trans hkb)⟩)
  rw [pushed_map, hsends, hahead]
  rw [pairwise_append, pairwise_cons] at hrespects
  constructor
  · intro hs'
    have hkey' : g.channel? s' = some key := by
      have hfiltered : s' ∈ earlier.filter fun id => decide (g.channel? id = some key) := by
        rw [hsends]
        exact mem_append_left _ hs'
      exact of_decide_eq_true (mem_filter.mp hfiltered).2
    refine ⟨hkey', ?_⟩
    rcases lt_trichotomy s' s with hlt | rfl | hgt
    · exact hlt
    · rw [nodup_append] at hnodup
      exact (hnodup.2.2 s' hs' s' mem_cons_self rfl).elim
    · exact (hrespects.2.2 s' hs' s mem_cons_self (hpo s s' hkey hkey' hgt)).elim
  · rintro ⟨hkey', hlt⟩
    have hporf := hpo s' s hkey' hkey hlt
    obtain ⟨pre, post, hpre⟩ := append_of_mem hs
    have hearlier : s' ∈ earlier := by
      rw [hpre]
      exact mem_append_left _ (hlinear.mem_earlier g h order
        (by rw [hsplit, hpre, append_assoc, cons_append]) hporf)
    have hfiltered : s' ∈ ahead ++ s :: behind := by
      rw [← hsends]
      exact mem_filter.mpr ⟨hearlier, decide_eq_true hkey'⟩
    rcases mem_append.mp hfiltered with hahead | hmem
    · exact hahead
    · rcases mem_cons.mp hmem with rfl | hbehind
      · exact absurd hlt (lt_irrefl _)
      · exact (hrespects.2.1.1 s' hbehind hporf).elim

/-- Whichever linear extension the replay follows, it goes through exactly when the graph is FIFO
consistent. -/
theorem LinearExtension.replays_iff (hordered : g.IndexOrdered) : g.Replays order ↔ g.FifoConsistent := by
  unfold Replays
  rw [ChannelReplay.replay_isSome_iff (hlinear.paired g h order)]
  constructor
  · intro hclean s r hread s' hchannel hlt haccepts
    obtain ⟨key, accepts, haction⟩ := g.action_of_readsFrom h.endpoints hread
    obtain ⟨-, hkey, rfl⟩ := g.action_pop haction
    have hr : r ∈ order :=
      hlinear.perm.mem_iff.mpr (mem_range.mpr (h.endpoints.porf_lt s r (.inr hread)).2)
    obtain ⟨earlier, later, hsplit⟩ := append_of_mem hr
    have hs := hlinear.mem_earlier g h order hsplit (.inr hread)
    have hahead := (hlinear.mem_ahead_iff g h order hordered hsplit hs hkey s').mpr
      ⟨hchannel.trans hkey, hlt⟩
    have hpopped : s' ∈ ChannelReplay.popped (earlier.map g.action) := by
      by_contra hnot
      have hrejects := hclean (earlier.map g.action) (later.map g.action) key s _
        (by rw [hsplit, map_append, map_cons, haction]) s' hahead hnot
      rw [haccepts] at hrejects
      cases hrejects
    obtain ⟨r', hr', hread'⟩ := (mem_popped_map h.endpoints earlier s').mp hpopped
    have hne : r' ≠ r := fun heq =>
      hlinear.not_mem_earlier g order hsplit (heq ▸ hr')
    refine ⟨r', hread', (h.receives_ordered hordered hread hread' hchannel hne).mpr fun horder => ?_⟩
    have hrespects := hlinear.respects
    rw [hsplit, pairwise_append] at hrespects
    exact hrespects.2.2 r' hr' r mem_cons_self (.inl horder)
  · intro hfifo before after key s accepts hsplit s' hahead hunpopped
    obtain ⟨earlier, r, later, horder, rfl, haction⟩ := g.action_split hsplit
    obtain ⟨hread, hkey, rfl⟩ := g.action_pop haction
    have hs := hlinear.mem_earlier g h order horder (.inr hread)
    obtain ⟨hkey', hlt⟩ :=
      (hlinear.mem_ahead_iff g h order hordered horder hs hkey s').mp hahead
    by_contra haccepts
    obtain ⟨r', hread', hbefore⟩ := hfifo s r hread s' (hkey'.trans hkey.symm) hlt (Bool.not_eq_false _ ▸ haccepts)
    exact hunpopped ((mem_popped_map h.endpoints earlier s').mpr
      ⟨r', hlinear.mem_earlier g h order horder (.inl hbefore), hread'⟩)

end Replay
/-! ## The verdict -/

theorem channelIssues_code (issueAt : List ℕ → ℕ → Option ConsistencyIssue) (code : ConsistencyIssueCode)
    (hcode : ∀ earlier later issue, issueAt earlier later = some issue → issue.code = code)
    (earlier sends : List ℕ) : ∀ issue ∈ channelIssues issueAt earlier sends, issue.code = code := by
  induction sends generalizing earlier with
  | nil => exact nofun
  | cons first rest ih =>
    intro issue hissue
    rcases mem_append.mp hissue with hfirst | hrest
    · exact hcode earlier first issue (Option.mem_toList.mp hfirst)
    · exact ih _ issue hrest

theorem fifoIssue_code (g : ExecutionGraph V) (result : ConsistencyResult) (hresult : result.issues = [])
    (issue : ConsistencyIssue) (hissue : issue ∈ (addFifoP2PIssues g result).issues) :
    issue.code = .fifoP2PUnreadEarlierMatchingSend ∨ issue.code = .fifoP2PReceiveOrderViolation := by
  unfold addFifoP2PIssues at hissue
  simp only [hresult, nil_append] at hissue
  refine (mem_append.mp hissue).imp ?_ ?_
  all_goals
    intro hissue
    obtain ⟨group, -, hissue⟩ := mem_flatMap.mp hissue
    refine channelIssues_code _ _ (fun earlier later issue h => ?_) [] group.2 issue hissue
    obtain ⟨witness, -, rfl⟩ := Option.map_eq_some_iff.mp h
    rfl

/-- On a graph that the asynchronous checker accepts there are linear extensions, and along each of them
the FIFO checker reports no issue exactly when the replay goes through; otherwise it reports one of the
two FIFO issues. -/
theorem fifo_check_decides (g : ExecutionGraph V) (hbuilt : g.Built) (accepted : ConsistencyResult)
    (hasync : AsyncConsistencyChecker.check g = .ok accepted) (haccepted : accepted.issues = []) :
    (∃ order, g.LinearExtension order) ∧
      ∃ result, FifoP2PConsistencyChecker.check g = .ok result ∧
        (∀ order, g.LinearExtension order → (result.issues = [] ↔ g.Replays order)) ∧
        (result.issues ≠ [] → ∃ issue ∈ result.issues,
          issue.code = .fifoP2PUnreadEarlierMatchingSend ∨ issue.code = .fifoP2PReceiveOrderViolation) := by
  have hordered := (hbuilt.indexed g).ordered
  have hcheck : checkAsyncExecutionGraph g noMissingReadsTolerance = .ok accepted :=
    (checkExecutionGraph_async g _).symm.trans hasync
  have hconsistent := (g.checkAsync_nil_iff hordered _ accepted hcheck).mp haccepted
  refine ⟨g.exists_linearExtension hconsistent, addFifoP2PIssues g accepted, ?_, fun order hlinear => ?_, fun hne => ?_⟩
  · unfold FifoP2PConsistencyChecker.check checkExecutionGraph
    rw [hcheck]
    have hok : accepted.isConsistent = true := by
      unfold ConsistencyResult.isConsistent
      rw [haccepted]
      rfl
    show (if _ then _ else _) = _
    rw [if_pos ⟨rfl, hok⟩]
    rfl
  · rw [hconsistent.fifoIssues_nil_iff g hordered accepted haccepted,
      hlinear.replays_iff g hconsistent order hordered]
  · obtain ⟨issue, hissue⟩ := List.exists_mem_of_ne_nil _ hne
    exact ⟨issue, hissue, fifoIssue_code g accepted haccepted issue hissue⟩

/-- Two messages on one channel, of which a receive takes the second: its matcher rejects the first. -/
theorem selective_receive_check_decides :
    ∃ (g : ExecutionGraph ℕ) (accepted : ConsistencyResult), g.Built ∧ g.ReadsFrom 1 2 ∧
      AsyncConsistencyChecker.check g = .ok accepted ∧ accepted.issues = [] ∧
      (∃ order, g.LinearExtension order) ∧
      ∃ result, FifoP2PConsistencyChecker.check g = .ok result ∧
        (∀ order, g.LinearExtension order → (result.issues = [] ↔ g.Replays order)) ∧
        (result.issues ≠ [] → ∃ issue ∈ result.issues,
          issue.code = .fifoP2PUnreadEarlierMatchingSend ∨ issue.code = .fifoP2PReceiveOrderViolation) := by
  have hfirst : Built _ := .addEvent _ _ 0 0 (.send ⟨1, 7⟩) (Built.empty (V := ℕ)) rfl
  have hsecond : Built _ := .addEvent _ _ 0 1 (.send ⟨1, 8⟩) hfirst rfl
  have hreceive : Built _ := .addEvent _ _ 1 2 (.receive ⟨.blocking, fun v => v == 8⟩) hsecond rfl
  have hread : Built _ := .setReadsFromSource _ _ 2 (.send 1) hreceive rfl
  exact ⟨_, ⟨[]⟩, hread, rfl, rfl, rfl, fifo_check_decides _ hread ⟨[]⟩ rfl rfl⟩

end ExecutionGraph
end MustDpor

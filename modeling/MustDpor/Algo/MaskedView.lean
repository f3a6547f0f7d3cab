import MustDpor.Foundations.PendingSearch
import MustDpor.Model.Acceptance
import MustDpor.Algo.Revisit

/-! # Masked views

The view that `MaskedPorfContext` gives of the events a keep mask marks: its tables, the channels of its
sends, its candidates for a receive. Its search finds what a receive leads to inside the view, and its FIFO
test decides whether some receive of the view leaves a message behind. -/

namespace MustDpor
set_option autoImplicit false
open List Function Relation ExecutionGraph

variable {V : Type}

/-! ## The masked view -/

variable {id : ℕ}

namespace MaskedPorfContext

variable (graph : ExplorationGraph V)

theorem mem_keptIds (mask : List Bool) (id : ℕ) :
    id ∈ keptIds graph mask ↔ id < graph.eventCount ∧ keeps mask id = true := by
  unfold keptIds
  rw [mem_filter, mem_range]

theorem keptIds_ascending (mask : List Bool) : (keptIds graph mask).Pairwise (· < ·) :=
  List.Pairwise.filter _ pairwise_lt_range

theorem mem_keptReads (mask : List Bool) (s r : ℕ) : (s, r) ∈ keptReads graph mask ↔
      graph.graph.ReadsFrom s r ∧ keeps mask r = true ∧ keeps mask s = true := by
  unfold keptReads
  rw [mem_filterMap]
  constructor
  · rintro ⟨⟨recv, source⟩, hentry, hsome⟩
    cases source with
    | bottom => cases hsome
    | send sendId =>
      dsimp only at hsome
      split at hsome
      · rename_i hkept
        cases hsome
        exact ⟨AscendingMap.mem_entries.mp hentry, (Bool.and_eq_true _ _).mp hkept⟩
      · cases hsome
  · rintro ⟨hread, hr, hs⟩
    refine ⟨(r, .send s), AscendingMap.mem_entries.mpr hread, ?_⟩
    dsimp only
    rw [if_pos (by rw [hr, hs]; rfl)]

/-- What `reset` leaves in a context. -/
structure Describes (ctx : MaskedPorfContext) (graph : ExplorationGraph V) (keepMask : List Bool)
    (buildFifo : Bool) : Prop where
  mask : ctx.keepMask = keepMask
  thread : ∀ tid, ctx.keptEventsByThread tid =
    (keptIds graph keepMask).filter (fun id => decide (graph.threadOf id = tid))
  consumed : ∀ s, ctx.consumedSendMask s = true ↔ ∃ r, (s, r) ∈ keptReads graph keepMask
  consumer : ∀ s r, ctx.rfConsumer s = some r → (s, r) ∈ keptReads graph keepMask
  extra : ∀ read ∈ ctx.extraRfConsumers, read ∈ keptReads graph keepMask
  fifo : buildFifo = true → ctx.fifoConsumer =
    ((keptReads graph keepMask).map fun read => (read.2, .send read.1)).foldl graph.graph.consumeEntry
      fun _ => none
  channels : buildFifo = true → ctx.channels = buildChannels graph keepMask

theorem reset_ok {graph : ExplorationGraph V} {mask : List Bool} (buildFifo : Bool)
    (h : mask.length = graph.eventCount) :
    ∃ ctx, reset graph mask buildFifo = .ok ctx ∧ ctx.Describes graph mask buildFifo := by
  unfold reset
  rw [if_neg (not_not.mpr h)]
  refine ⟨_, rfl, ?_⟩
  constructor
  · rfl
  · exact fun _ => rfl
  · intro s
    show (keptReads graph mask).any _ = true ↔ _
    rw [any_eq_true]
    constructor
    · rintro ⟨⟨s', r⟩, hmem, hs⟩
      obtain rfl := of_decide_eq_true hs
      exact ⟨r, hmem⟩
    · rintro ⟨r, hmem⟩
      exact ⟨(s, r), hmem, decide_eq_true rfl⟩
  · intro s r hr
    obtain ⟨⟨s', r'⟩, hfind, rfl⟩ := Option.map_eq_some_iff.mp hr
    have hs := find?_some hfind
    obtain rfl : s' = s := by simpa using hs
    exact mem_of_find?_eq_some hfind
  · exact fun read hread => (mem_filter.mp hread).1
  · rintro rfl
    rw [foldl_map]
    rfl
  · rintro rfl
    rfl

/-! ## Channels of the kept sends -/

/-- The sends of a channel list, in insertion order. -/
structure InOrder (graph : ExplorationGraph V) (keepMask : List Bool) (channel : (ℕ × ℕ) × List ℕ) : Prop where
  ascending : channel.2.Pairwise (· < ·)
  member : ∀ id ∈ channel.2, keeps keepMask id = true ∧ graph.graph.channel? id = some channel.1

theorem mem_pushChannel {key : ℕ × ℕ} {channels : List ((ℕ × ℕ) × List ℕ)}
    {channel : (ℕ × ℕ) × List ℕ} (h : channel ∈ pushChannel key id channels) :
    channel ∈ channels ∨ channel = (key, [id]) ∨ ∃ ids, (key, ids) ∈ channels ∧ channel = (key, ids ++ [id]) := by
  induction channels with
  | nil => exact .inr (.inl (mem_singleton.mp h))
  | cons first rest ih =>
    obtain ⟨k, ids⟩ := first
    unfold pushChannel at h
    split at h
    · rename_i hkey
      subst hkey
      rcases mem_cons.mp h with rfl | h
      · exact .inr (.inr ⟨ids, mem_cons_self, rfl⟩)
      · exact .inl (mem_cons_of_mem _ h)
    · rcases mem_cons.mp h with rfl | h
      · exact .inl mem_cons_self
      · rcases ih h with h | h | ⟨ids', hids, h⟩
        · exact .inl (mem_cons_of_mem _ h)
        · exact .inr (.inl h)
        · exact .inr (.inr ⟨ids', mem_cons_of_mem _ hids, h⟩)

/-- One round of the channel loop. -/
def channelRound (graph : ExplorationGraph V) (channels : List ((ℕ × ℕ) × List ℕ)) (id : ℕ) :
    List ((ℕ × ℕ) × List ℕ) :=
  match graph.asSendId id with
  | some send => pushChannel (graph.threadOf id, send.destination) id channels
  | none => channels

theorem channel?_of_asSendId {graph : ExplorationGraph V} {send : SendLabel V} (h : graph.asSendId id = some send) :
    graph.graph.channel? id = some (graph.threadOf id, send.destination) := by
  unfold ExplorationGraph.asSendId ExplorationGraph.label? at h
  unfold ExecutionGraph.channel? ExplorationGraph.threadOf
  cases he : graph.graph.events[id]? with
  | none =>
    rw [he] at h
    cases h
  | some e =>
    rw [he] at h
    change e.label.asSend = some send at h
    show e.label.asSend.map _ = _
    rw [h]
    rfl

theorem foldl_channelRound_inOrder (mask : List Bool) {ids : List ℕ}
    (hascending : ids.Pairwise (· < ·)) (hkept : ∀ id ∈ ids, keeps mask id = true)
    (channels : List ((ℕ × ℕ) × List ℕ)) (h : ∀ channel ∈ channels, InOrder graph mask channel)
    (hbelow : ∀ channel ∈ channels, ∀ old ∈ channel.2, ∀ id ∈ ids, old < id) :
    ∀ channel ∈ ids.foldl (channelRound graph) channels, InOrder graph mask channel := by
  induction ids generalizing channels with
  | nil => exact h
  | cons id rest ih =>
    obtain ⟨hhead, htail⟩ := pairwise_cons.mp hascending
    have hkeptRest : ∀ id ∈ rest, keeps mask id = true := fun id hid => hkept id (mem_cons_of_mem _ hid)
    have hbelowRest : ∀ channel ∈ channels, ∀ old ∈ channel.2, ∀ id ∈ rest, old < id :=
      fun channel hchannel old hold id hid => hbelow channel hchannel old hold id (mem_cons_of_mem _ hid)
    rw [foldl_cons]
    cases hsend : graph.asSendId id with
    | none =>
      rw [show channelRound graph channels id = channels by unfold channelRound; rw [hsend]]
      exact ih htail hkeptRest channels h hbelowRest
    | some send =>
      rw [show channelRound graph channels id = pushChannel (graph.threadOf id, send.destination) id channels by
        unfold channelRound; rw [hsend]]
      have hchannel := channel?_of_asSendId hsend
      refine ih htail hkeptRest _ (fun channel hmem => ?_) (fun channel hmem old hold next hnext => ?_)
      · rcases mem_pushChannel hmem with hmem | rfl | ⟨ids, hids, rfl⟩
        · exact h channel hmem
        · refine ⟨pairwise_singleton _ _, fun member hmember => ?_⟩
          obtain rfl := mem_singleton.mp hmember
          exact ⟨hkept member mem_cons_self, hchannel⟩
        · obtain ⟨hold, holdMember⟩ := h _ hids
          refine ⟨pairwise_append.mpr ⟨hold, pairwise_singleton _ _, fun a ha b hb => ?_⟩,
            fun member hmember => ?_⟩
          · obtain rfl := mem_singleton.mp hb
            exact hbelow _ hids a ha b mem_cons_self
          · rcases mem_append.mp hmember with hmember | hmember
            · exact holdMember member hmember
            · obtain rfl := mem_singleton.mp hmember
              exact ⟨hkept member mem_cons_self, hchannel⟩
      · rcases mem_pushChannel hmem with hmem | rfl | ⟨ids, hids, rfl⟩
        · exact hbelowRest channel hmem old hold next hnext
        · obtain rfl := mem_singleton.mp hold
          exact hhead next hnext
        · rcases mem_append.mp hold with hold | hold
          · exact hbelowRest _ hids old hold next hnext
          · obtain rfl := mem_singleton.mp hold
            exact hhead next hnext

theorem buildChannels_inOrder {graph : ExplorationGraph V} {mask : List Bool} :
    ∀ channel ∈ buildChannels graph mask, InOrder graph mask channel :=
  foldl_channelRound_inOrder graph mask (keptIds_ascending graph mask)
    (fun id hid => ((mem_keptIds graph mask id).mp hid).2) []
    nofun nofun

end MaskedPorfContext

/-! ## Candidates -/

open MaskedPorfContext

variable {a b : ℕ}

section Candidates
variable (g : ExplorationGraph V)

theorem candidateLe_refl (a : ℕ) : candidateLe g a a := Or.inr ⟨rfl, le_refl a⟩

theorem candidateLe_antisymm (hab : candidateLe g a b) (hba : candidateLe g b a) : a = b := by
  unfold candidateLe at hab hba
  omega

instance : Std.Total (candidateLe g) := ⟨fun a b => by unfold candidateLe; omega⟩

instance : IsTrans ℕ (candidateLe g) := ⟨fun a b c hab hbc => by unfold candidateLe at *; omega⟩

theorem exists_first {candidates : List ℕ} {passes : ℕ → Prop}
    (hsorted : candidates.Pairwise (candidateLe g)) (hsome : ∃ c ∈ candidates, passes c) :
    ∃ before c after, candidates = before ++ c :: after ∧ (∀ x ∈ before, ¬ passes x) ∧ passes c ∧
      ∀ other ∈ candidates, passes other → candidateLe g c other := by
  induction candidates with
  | nil =>
    obtain ⟨c, hc, -⟩ := hsome
    exact (nomatch hc)
  | cons first rest ih =>
    rw [pairwise_cons] at hsorted
    by_cases hfirst : passes first
    · refine ⟨[], first, rest, rfl, forall_mem_nil _, hfirst, fun other hother _ => ?_⟩
      rcases mem_cons.mp hother with rfl | hrest
      · exact candidateLe_refl g other
      · exact hsorted.1 other hrest
    · have hlater : ∃ c ∈ rest, passes c := by
        obtain ⟨c, hc, hpasses⟩ := hsome
        rcases mem_cons.mp hc with rfl | hrest
        · exact absurd hpasses hfirst
        · exact ⟨c, hrest, hpasses⟩
      obtain ⟨before, c, after, hsplit, hbefore, hpasses, hleast⟩ := ih hsorted.2 hlater
      refine ⟨first :: before, c, after, congrArg (first :: ·) hsplit, fun x hx => ?_, hpasses,
        fun other hother hpassesOther => ?_⟩
      · rcases mem_cons.mp hx with rfl | hx
        · exact hfirst
        · exact hbefore x hx
      · rcases mem_cons.mp hother with rfl | hrest
        · exact absurd hpassesOther hfirst
        · exact hleast other hrest hpassesOther

theorem exists_least {candidates : List ℕ} (h : candidates ≠ []) :
    ∃ c ∈ candidates, ∀ other ∈ candidates, candidateLe g c other := by
  induction candidates with
  | nil => exact absurd rfl h
  | cons first rest ih =>
    by_cases hrest : rest = []
    · subst hrest
      refine ⟨first, mem_cons_self, fun other hother => ?_⟩
      obtain rfl := mem_singleton.mp hother
      exact candidateLe_refl g other
    · obtain ⟨c, hc, hleast⟩ := ih hrest
      by_cases hle : candidateLe g first c
      · refine ⟨first, mem_cons_self, fun other hother => ?_⟩
        rcases mem_cons.mp hother with rfl | hother
        · exact candidateLe_refl g other
        · exact Trans.trans hle (hleast other hother)
      · refine ⟨c, mem_cons_of_mem _ hc, fun other hother => ?_⟩
        rcases mem_cons.mp hother with rfl | hother
        · exact (Std.Total.total c other).resolve_right hle
        · exact hleast other hother

/-- The send may be read by the receive `e`, going by destination and matcher. -/
def Deliverable (s e : ℕ) : Prop :=
  ∃ evt receive, g.graph.events[e]? = some evt ∧ evt.label = .receive receive ∧
    compatibleSend g evt.thread receive s = true

/-- The sources that the tiebreaker compares: what `e` reads, and what nobody in the view reads. -/
def AdmissibleSource (keepMask : List Bool) (e s : ℕ) : Prop :=
  Deliverable g s e ∧
    (g.graph.ReadsFrom s e ∨ (keeps keepMask s = true ∧ ∀ r, keeps keepMask r = true → ¬ g.graph.ReadsFrom s r))

end Candidates

theorem asSendId_eq_some (g : ExplorationGraph V) (s : ℕ) (send : SendLabel V) :
    g.asSendId s = some send ↔ ∃ es, g.graph.events[s]? = some es ∧ es.label = .send send := by
  unfold ExplorationGraph.asSendId ExplorationGraph.label?
  simp only [Option.bind_eq_some_iff, Option.map_eq_some_iff, EventLabel.asSend_eq_some]
  constructor
  · rintro ⟨label, ⟨es, hes, rfl⟩, hsend⟩
    exact ⟨es, hes, hsend⟩
  · rintro ⟨es, hes, hsend⟩
    exact ⟨es.label, ⟨es, hes, rfl⟩, hsend⟩

theorem compatibleSend_iff (g : ExplorationGraph V) (tid : ℕ) (receive : ReceiveLabel V) (s : ℕ) :
    compatibleSend g tid receive s = true ↔ ∃ es send, g.graph.events[s]? = some es ∧ es.label = .send send ∧
      send.destination = tid ∧ receive.accepts send.value = true := by
  unfold compatibleSend
  cases hsend : g.asSendId s with
  | none =>
    refine iff_of_false (nomatch ·) ?_
    rintro ⟨es, send, hes, hlabel, -⟩
    rw [(asSendId_eq_some g s send).mpr ⟨es, hes, hlabel⟩] at hsend
    cases hsend
  | some send =>
    rw [Bool.and_eq_true, decide_eq_true_eq]
    obtain ⟨es, hes, hlabel⟩ := (asSendId_eq_some g s send).mp hsend
    constructor
    · exact fun hmatch => ⟨es, send, hes, hlabel, hmatch⟩
    · rintro ⟨es', send', hes', hlabel', hmatch⟩
      rw [(asSendId_eq_some g s send').mpr ⟨es', hes', hlabel'⟩] at hsend
      cases hsend
      exact hmatch

theorem deliverable_iff {g : ExplorationGraph V} {recv : ℕ} {evt : Event V} {receive : ReceiveLabel V}
    (hevt : g.graph.events[recv]? = some evt) (hlabel : evt.label = .receive receive) (c : ℕ) :
    Deliverable g c recv ↔ compatibleSend g evt.thread receive c = true := by
  constructor
  · rintro ⟨evt', receive', hevt', hlabel', hcompat⟩
    rw [hevt] at hevt'
    cases hevt'
    rw [hlabel] at hlabel'
    cases hlabel'
    exact hcompat
  · exact fun hcompat => ⟨evt, receive, hevt, hlabel, hcompat⟩

theorem MaskedPorfContext.Describes.fifoConsumer_iff {g : ExplorationGraph V} {mask : List Bool}
    {ctx : MaskedPorfContext} (hd : ctx.Describes g mask true) (hc : g.graph.AsyncConsistent) (s r : ℕ) :
    ctx.fifoConsumer s = some r ↔
      g.graph.ReadsFrom s r ∧ keeps mask r = true ∧ keeps mask s = true := by
  rw [hd.fifo rfl, ← mem_keptReads]
  have hmem (r : ℕ) : (r, ReadsFromSource.send s) ∈ (keptReads g mask).map (fun read => (read.2, .send read.1))
      ↔ (s, r) ∈ keptReads g mask := by
    rw [mem_map]
    constructor
    · rintro ⟨⟨s', r'⟩, hread, heq⟩
      cases heq
      exact hread
    · exact fun hread => ⟨(s, r), hread, rfl⟩
  rcases foldl_consumeEntry g.graph s
      ((keptReads g mask).map fun read => (read.2, .send read.1)) fun _ => none with
    ⟨r', hr', -, hresult⟩ | ⟨hnone, hresult⟩
  · have hread' := (hmem r').mp hr'
    rw [hresult, Option.some.injEq]
    refine ⟨fun heq => heq ▸ hread', fun hread => ?_⟩
    exact hc.exclusive s r' r ((mem_keptReads g mask s r').mp hread').1
      ((mem_keptReads g mask s r).mp hread).1
  · rw [hresult]
    refine iff_of_false (nomatch ·) fun hread => ?_
    have hmatched := hnone r ((hmem r).mpr hread)
    have hreads := ((mem_keptReads g mask s r).mp hread).1
    obtain ⟨⟨er, receive, her, hreceive⟩, hsource⟩ := hc.endpoints r (.send s) hreads
    obtain ⟨es, send, hes, hsend⟩ := hsource s rfl
    obtain ⟨hdestination, haccepts⟩ := hc.delivered s r hreads es er send receive hes hsend her hreceive
    rw [(matchedRead_iff g.graph r s).mpr
      ⟨er, es, receive, send, her, hes, hreceive, hsend, hdestination, haccepts⟩] at hmatched
    cases hmatched

theorem rewrittenConsumers_eq (ctx : MaskedPorfContext) (e c src x : ℕ) :
    ctx.rewrittenConsumers e c src x =
      if x = c then some e else if x = src then none else ctx.fifoConsumer x := by
  unfold rewrittenConsumers
  by_cases hxc : x = c
  · subst hxc
    rw [if_pos rfl, update_self]
  · rw [if_neg hxc, update_of_ne hxc]
    by_cases hne : src = c
    · rw [if_neg (not_not.mpr hne), if_neg (fun hx => hxc (hx.trans hne))]
    · rw [if_pos hne]
      by_cases hx : x = src
      · subst hx
        rw [if_pos rfl, update_self]
      · rw [if_neg hx, update_of_ne hx]

theorem Deliverable.of_channel {g : ExplorationGraph V} {e c x : ℕ} (h : Deliverable g c e)
    (hchannel : g.graph.channel? x = g.graph.channel? c) (haccepts : consumerAccepts g.graph e x = true) :
    Deliverable g x e ∧ g.threadOf x = g.threadOf c := by
  obtain ⟨evt, receive, hevt, hreceive, hcompat⟩ := h
  obtain ⟨ec, send, hec, hsend, hdestination, -⟩ := (compatibleSend_iff g evt.thread receive c).mp hcompat
  obtain ⟨er, ex, receive', send', her, hex, hreceive', hsend', haccepts⟩ :=
    (consumerAccepts_iff g.graph e x).mp haccepts
  rw [hevt] at her
  cases her
  rw [hreceive] at hreceive'
  cases hreceive'
  rw [channel?_of_asSendId ((asSendId_eq_some g x send').mpr ⟨ex, hex, hsend'⟩),
    channel?_of_asSendId ((asSendId_eq_some g c send).mpr ⟨ec, hec, hsend⟩)] at hchannel
  obtain ⟨hthread, hdest⟩ := Prod.mk.inj (Option.some.inj hchannel)
  exact ⟨⟨evt, receive, hevt, hreceive, (compatibleSend_iff g evt.thread receive x).mpr
    ⟨ex, send', hex, hsend', hdest.trans hdestination, haccepts⟩⟩, hthread⟩

/-! ## Reachability in the view -/

/-- Program order and reads-from between kept events. -/
def MaskedPorf (g : ExplorationGraph V) (keepMask : List Bool) (a b : ℕ) : Prop :=
  keeps keepMask a = true ∧ keeps keepMask b = true ∧ g.graph.Porf a b

theorem MaskedPorfContext.reach_eq_search (successors : ℕ → List ℕ) (fuel : ℕ) (pending : List ℕ)
    (reachable : ℕ → Bool) :
    reach successors fuel pending reachable = PendingSearch.search successors fuel pending reachable := by
  induction fuel generalizing pending reachable with
  | zero => rfl
  | succ fuel ih =>
    cases pending with
    | nil => rfl
    | cons current pending =>
      unfold reach PendingSearch.search
      rw [ih, ih]

theorem MaskedPorfContext.reset_readers {g : ExplorationGraph V} {mask : List Bool} {buildFifo : Bool}
    {ctx : MaskedPorfContext} (hreset : reset g mask buildFifo = .ok ctx) {s r : ℕ}
    (hread : (s, r) ∈ keptReads g mask) : ctx.rfConsumer s = some r ∨ (s, r) ∈ ctx.extraRfConsumers := by
  unfold reset at hreset
  split at hreset
  · cases hreset
  · cases hreset
    by_cases hfirst : ((keptReads g mask).find? (fun read => decide (read.1 = s))).map Prod.snd = some r
    · exact .inl hfirst
    · exact .inr (mem_filter.mpr ⟨hread, decide_eq_true hfirst⟩)

theorem keeps_lt {mask : List Bool} (h : keeps mask id = true) : id < mask.length := by
  by_contra hge
  unfold keeps at h
  rw [getD_eq_default _ _ (not_lt.mp hge)] at h
  cases h

section Reachability
variable {g : ExplorationGraph V} {mask : List Bool} {buildFifo : Bool} {ctx : MaskedPorfContext}
  (hordered : g.graph.IndexOrdered) (hreset : reset g mask buildFifo = .ok ctx)
  (hd : ctx.Describes g mask buildFifo)

theorem threadOf_eq {e : Event V} (he : g.graph.events[id]? = some e) : g.threadOf id = e.thread := by
  unfold ExplorationGraph.threadOf
  rw [he]
  rfl

include hd in
theorem keptEventsByThread_ascending (tid : ℕ) : (ctx.keptEventsByThread tid).Pairwise (· < ·) := by
  rw [hd.thread]
  exact (keptIds_ascending g mask).filter _

include hd in
theorem mem_keptEventsByThread (tid id : ℕ) :
    id ∈ ctx.keptEventsByThread tid ↔ (id < g.eventCount ∧ keeps mask id = true) ∧ g.threadOf id = tid := by
  rw [hd.thread, mem_filter, mem_keptIds, decide_eq_true_eq]

include hordered in
theorem programOrder_of_threadOf (ha : a < g.eventCount) (hb : b < g.eventCount) (hlt : a < b)
    (hthread : g.threadOf a = g.threadOf b) : g.graph.ProgramOrder a b := by
  have hea : g.graph.events[a]? = some g.graph.events[a] := getElem?_eq_getElem ha
  have heb : g.graph.events[b]? = some g.graph.events[b] := getElem?_eq_getElem hb
  refine (hordered.programOrder_iff g.graph a b).mpr ⟨hlt, _, _, hea, heb, ?_⟩
  rwa [← threadOf_eq hea, ← threadOf_eq heb]

include hordered hd

theorem maskedPorf_of_successor {a b : ℕ} (h : b ∈ ctx.appendSuccessors g a) : MaskedPorf g mask a b := by
  unfold appendSuccessors at h
  simp only [mem_append, Option.mem_toList, mem_map, mem_filter] at h
  rcases h with (hpo | hread) | ⟨⟨s, r⟩, ⟨hread, hs⟩, rfl⟩
  · split at hpo
    · rename_i hmem
      rw [Option.mem_toList] at hpo
      have hlt : b ∈ ctx.keptEventsByThread (g.threadOf a) ∧ a < b := by
        refine (mem_drop_idxOf_succ (keptEventsByThread_ascending hd _) a b hmem).mp ?_
        refine mem_of_getElem? (i := 0) ?_
        rw [getElem?_drop, Nat.add_zero]
        exact hpo
      obtain ⟨⟨ha, hkeptA⟩, -⟩ := (mem_keptEventsByThread hd _ a).mp hmem
      obtain ⟨⟨hb, hkeptB⟩, hthread⟩ := (mem_keptEventsByThread hd _ b).mp hlt.1
      exact ⟨hkeptA, hkeptB, .inl (programOrder_of_threadOf hordered ha hb hlt.2 hthread.symm)⟩
    · exact absurd hpo not_mem_nil
  · obtain ⟨hreads, hr, hs⟩ := (mem_keptReads g mask a b).mp (hd.consumer a b hread)
    exact ⟨hs, hr, .inr hreads⟩
  · obtain rfl : s = a := of_decide_eq_true hs
    obtain ⟨hreads, hr, hs⟩ := (mem_keptReads g mask s r).mp (hd.extra _ hread)
    exact ⟨hs, hr, .inr hreads⟩

include hreset

theorem successors_of_maskedPorf (h : MaskedPorf g mask a b) :
    TransGen (fun x y => y ∈ ctx.appendSuccessors g x) a b := by
  obtain ⟨ha, hb, hpo | hread⟩ := h
  · obtain ⟨hlt, ea, eb, hea, heb, hthread⟩ := (hordered.programOrder_iff g.graph a b).mp hpo
    have hmem (id : ℕ) (e : Event V) (he : g.graph.events[id]? = some e) (hkept : keeps mask id = true)
        (hsame : e.thread = eb.thread) : id ∈ ctx.keptEventsByThread eb.thread :=
      (mem_keptEventsByThread hd _ id).mpr
        ⟨⟨lt_of_getElem? he, hkept⟩, (threadOf_eq he).trans hsame⟩
    have hpath := ExplorationGraph.transGen_neighbours_of_lt (keptEventsByThread_ascending hd eb.thread)
      (hmem a ea hea ha hthread) (hmem b eb heb hb rfl) hlt
    refine TransGen.mono (fun x y hxy => ?_) _ _ hpath
    obtain ⟨i, hx, hy⟩ := (ExplorationGraph.mem_neighbours _ x y).mp hxy
    have hxmem := List.mem_of_getElem? hx
    have hindex : (ctx.keptEventsByThread eb.thread).idxOf x = i := by
      obtain ⟨hi, hxi⟩ := List.getElem?_eq_some_iff.mp hx
      rw [← hxi]
      exact List.Nodup.idxOf_getElem (List.Pairwise.imp ne_of_lt (keptEventsByThread_ascending hd eb.thread)) i hi
    unfold appendSuccessors
    dsimp only
    rw [((mem_keptEventsByThread hd _ x).mp hxmem).2, if_pos hxmem, hindex, hy]
    exact List.mem_append_left _ (List.mem_append_left _ List.mem_cons_self)
  · refine .single ?_
    unfold appendSuccessors
    simp only [List.mem_append, Option.mem_toList, List.mem_map, List.mem_filter]
    rcases reset_readers hreset ((mem_keptReads g mask a b).mpr ⟨hread, hb, ha⟩)
      with hconsumer | hextra
    · exact .inl (.inr hconsumer)
    · exact .inr ⟨(a, b), ⟨hextra, decide_eq_true rfl⟩, rfl⟩

theorem reachableFrom_ok (hlen : mask.length = g.eventCount) (hkept : keeps mask id = true) :
    ∃ reachable, ctx.reachableFrom g id = .ok reachable ∧
      ∀ c, reachable c = true ↔ TransGen (MaskedPorf g mask) id c := by
  have hlt : id < g.eventCount := hlen ▸ keeps_lt hkept
  have hvalid : g.isValidEventId id = true :=
    ValidationPass.isValidEventId_of_some g.graph (getElem?_eq_getElem hlt)
  unfold reachableFrom
  rw [hvalid, hd.mask, hkept]
  refine ⟨_, rfl, fun c => ?_⟩
  rw [reach_eq_search, PendingSearch.search_from (ctx.appendSuccessors g) ?_
    (mem_range.mpr hlt) c]
  · constructor
    · exact TransGen.mono (fun a b => maskedPorf_of_successor hordered hd) _ _
    · intro hpath
      induction hpath with
      | single hstep => exact successors_of_maskedPorf hordered hreset hd hstep
      | tail _ hstep ih => exact ih.trans (successors_of_maskedPorf hordered hreset hd hstep)
  · intro y _ z hz
    exact mem_range.mpr (hlen ▸ keeps_lt (maskedPorf_of_successor hordered hd hz).2.1)

end Reachability

/-! ## The FIFO test of the view -/

theorem lookup_pushChannel (key : ℕ × ℕ) (id : ℕ) (channels : List ((ℕ × ℕ) × List ℕ)) (k : ℕ × ℕ) :
    FifoGroups.lookup (pushChannel key id channels) k =
      if k = key then FifoGroups.lookup channels key ++ [id] else FifoGroups.lookup channels k := by
  induction channels with
  | nil => rfl
  | cons first rest ih =>
    obtain ⟨k', ids⟩ := first
    unfold pushChannel
    by_cases heq : key = k'
    · subst heq
      rw [if_pos rfl]
      unfold FifoGroups.lookup
      rw [if_pos rfl]
      split <;> rfl
    · rw [if_neg heq]
      unfold FifoGroups.lookup
      rw [ih, if_neg heq]
      by_cases hk : k = k'
      · subst hk
        rw [if_pos rfl, if_pos rfl, if_neg (Ne.symm heq)]
      · rw [if_neg hk, if_neg hk]

theorem lookup_foldl_channelRound (g : ExplorationGraph V) (ids : List ℕ) (channels : List ((ℕ × ℕ) × List ℕ))
    (key : ℕ × ℕ) :
    FifoGroups.lookup (ids.foldl (channelRound g) channels) key =
      FifoGroups.lookup channels key ++ ids.filter fun id => decide (g.graph.channel? id = some key) := by
  induction ids generalizing channels with
  | nil => exact (append_nil _).symm
  | cons id rest ih =>
    rw [foldl_cons, ih]
    cases hsend : g.asSendId id with
    | none =>
      have hnone : g.graph.channel? id ≠ some key := by
        intro hkey
        obtain ⟨e, send, he, hlabel, -⟩ := (g.graph.channel?_eq_some id key).mp hkey
        rw [(asSendId_eq_some g id send).mpr ⟨e, he, hlabel⟩] at hsend
        cases hsend
      rw [filter_cons_of_neg (by simpa using hnone)]
      unfold channelRound
      rw [hsend]
    | some send =>
      have hchannel := channel?_of_asSendId hsend
      have hround : channelRound g channels id = pushChannel (g.threadOf id, send.destination) id channels := by
        unfold channelRound
        rw [hsend]
      rw [hround, lookup_pushChannel]
      by_cases heq : key = (g.threadOf id, send.destination)
      · subst heq
        rw [if_pos rfl, filter_cons_of_pos (by simp [hchannel]), append_assoc]
        rfl
      · rw [if_neg heq, filter_cons_of_neg (by simp [hchannel, Ne.symm heq])]

theorem buildChannels_holds {g : ExplorationGraph V} {mask : List Bool} (hlen : mask.length = g.eventCount)
    {key : ℕ × ℕ} {x : ℕ} (hkept : keeps mask x = true) (hkey : g.graph.channel? x = some key) :
    ∃ ids, (key, ids) ∈ buildChannels g mask ∧
      ∀ y, keeps mask y = true → g.graph.channel? y = some key → y ∈ ids := by
  have hlookup : FifoGroups.lookup (buildChannels g mask) key =
      (keptIds g mask).filter fun id => decide (g.graph.channel? id = some key) :=
    lookup_foldl_channelRound g (keptIds g mask) [] key
  have hmem (y : ℕ) (hy : keeps mask y = true) (hchannel : g.graph.channel? y = some key) :
      y ∈ FifoGroups.lookup (buildChannels g mask) key := by
    rw [hlookup, mem_filter, mem_keptIds]
    exact ⟨⟨hlen ▸ keeps_lt hy, hy⟩, decide_eq_true hchannel⟩
  exact ⟨_, FifoGroups.mem_of_lookup (ne_nil_of_mem (hmem x hkept hkey)), hmem⟩

theorem channelViolated_iff (violates : List ℕ → ℕ → Bool) (earlier sends : List ℕ) :
    channelViolated violates earlier sends = false ↔
      ∀ before later after, sends = before ++ later :: after → violates (earlier ++ before) later = false := by
  induction sends generalizing earlier with
  | nil => simp [channelViolated]
  | cons first rest ih =>
    unfold channelViolated
    rw [Bool.or_eq_false_iff, ih, forall_split_cons fun before later => violates (earlier ++ before) later = false]
    simp only [append_nil, append_assoc, singleton_append]

theorem anyViolated_iff {g : ExplorationGraph V} {mask : List Bool} (hlen : mask.length = g.eventCount)
    {violates : List ℕ → ℕ → Bool} {respects : ℕ → ℕ → Prop}
    (hviolates : ∀ before y, violates before y = false ↔ ∀ x ∈ before, respects x y) :
    ((buildChannels g mask).any fun channel => channelViolated violates [] channel.2) = false ↔
      ∀ key x y, keeps mask x = true → keeps mask y = true → g.graph.channel? x = some key →
        g.graph.channel? y = some key → x < y → respects x y := by
  simp only [any_eq_false, Bool.not_eq_true, channelViolated_iff, nil_append, hviolates]
  constructor
  · intro h key x y hx hy hxkey hykey hlt
    obtain ⟨ids, hids, hmem⟩ := buildChannels_holds hlen hy hykey
    obtain ⟨before, after, hsplit⟩ := append_of_mem (hmem y hy hykey)
    refine h _ hids before y after hsplit x ?_
    have hascending := (buildChannels_inOrder _ hids).ascending
    dsimp only at hascending
    have hxmem := hmem x hx hxkey
    rw [hsplit] at hascending hxmem
    obtain ⟨-, hafter, -⟩ := pairwise_append.mp hascending
    rcases mem_append.mp hxmem with hbefore | hrest
    · exact hbefore
    · rcases mem_cons.mp hrest with rfl | hrest
      · exact absurd hlt (lt_irrefl _)
      · exact absurd hlt (lt_asymm ((pairwise_cons.mp hafter).1 x hrest))
  · intro h channel hchannel before y after hsplit x hx
    have horder := buildChannels_inOrder channel hchannel
    have hascending := horder.ascending
    rw [hsplit] at hascending
    obtain ⟨hxkept, hxkey⟩ := horder.member x (by rw [hsplit]; exact mem_append_left _ hx)
    obtain ⟨hykept, hykey⟩ := horder.member y (by rw [hsplit]; exact mem_append_right _ mem_cons_self)
    exact h channel.1 x y hxkept hykept hxkey hykey
      ((pairwise_append.mp hascending).2.2 x hx y mem_cons_self)

/-- The two clauses together: what a receive of the view accepts and finds earlier in the channel has been
taken, and not by a receive after it. -/
theorem fifoRewriteViolates_iff {g : ExplorationGraph V} {mask : List Bool}
    (hlen : mask.length = g.eventCount) {ctx : MaskedPorfContext} (hd : ctx.Describes g mask true)
    (e c src : ℕ) :
    ctx.fifoRewriteViolates g e c src = false ↔
      ∀ x y r, keeps mask x = true → keeps mask y = true → g.graph.channel? x = g.graph.channel? y →
        x < y → ctx.rewrittenConsumers e c src y = some r → consumerAccepts g.graph r x = true →
        ∃ r', ctx.rewrittenConsumers e c src x = some r' ∧ ¬ g.graph.ProgramOrder r r' := by
  unfold fifoRewriteViolates fifoClauseBViolated fifoClauseCViolated
  rw [hd.channels rfl, Bool.or_eq_false_iff,
    anyViolated_iff hlen (clauseBWitness_none_iff g.graph _),
    anyViolated_iff hlen (clauseCWitness_none_iff g.graph _)]
  constructor
  · rintro ⟨hb, hc⟩ x y r hx hy hchannel hlt hconsumer haccepts
    obtain ⟨-, es, -, send, -, hes, -, hsend, -⟩ := (consumerAccepts_iff g.graph r x).mp haccepts
    have hxkey := (g.graph.channel?_eq_some x _).mpr ⟨es, send, hes, hsend, rfl⟩
    have hykey := hchannel.symm.trans hxkey
    obtain ⟨r', hr'⟩ := Option.ne_none_iff_exists'.mp (hb _ x y hx hy hxkey hykey hlt r hconsumer haccepts)
    exact ⟨r', hr', hc _ x y hx hy hxkey hykey hlt r hconsumer haccepts r' hr'⟩
  · intro h
    refine ⟨fun key x y hx hy hxkey hykey hlt r hconsumer haccepts => ?_,
      fun key x y hx hy hxkey hykey hlt r hconsumer haccepts r' hr' => ?_⟩
    · obtain ⟨r', hr', -⟩ := h x y r hx hy (hxkey.trans hykey.symm) hlt hconsumer haccepts
      rw [hr']
      exact Option.some_ne_none _
    · obtain ⟨r₁, hr₁, hnot⟩ := h x y r hx hy (hxkey.trans hykey.symm) hlt hconsumer haccepts
      rw [hr'] at hr₁
      cases hr₁
      exact hnot

/-! ## The masked tiebreaker -/

theorem mem_tiebreakerCandidates {g : ExplorationGraph V} {mask : List Bool} {buildFifo : Bool}
    {ctx : MaskedPorfContext} (hd : ctx.Describes g mask buildFifo) {e src : ℕ}
    (hread : g.graph.ReadsFrom src e) {evt : Event V} {receive : ReceiveLabel V}
    (hevt : g.graph.events[e]? = some evt) (hlabel : evt.label = .receive receive) (c : ℕ) :
    c ∈ tiebreakerCandidates g ctx evt.thread receive src ↔ AdmissibleSource g mask e c := by
  have hunread : ctx.sendIsUnread c = true ↔
      keeps mask c = true ∧ ∀ r, keeps mask r = true → ¬ g.graph.ReadsFrom c r := by
    unfold sendIsUnread
    rw [hd.mask, Bool.and_eq_true, Bool.not_eq_true', ← Bool.not_eq_true, hd.consumed]
    refine and_congr_right fun hkept => ?_
    constructor
    · exact fun hnone r hr hread => hnone ⟨r, (mem_keptReads g mask c r).mpr ⟨hread, hr, hkept⟩⟩
    · rintro hnone ⟨r, hr⟩
      obtain ⟨hread, hr, -⟩ := (mem_keptReads g mask c r).mp hr
      exact hnone r hr hread
  have hreads : g.graph.ReadsFrom c e ↔ c = src := by
    constructor
    · intro hread'
      have := hread'.symm.trans hread
      cases this
      rfl
    · rintro rfl
      exact hread
  unfold tiebreakerCandidates AdmissibleSource
  rw [mem_insertionSort, mem_append, mem_filter, mem_range, Bool.and_eq_true, hunread,
    deliverable_iff hevt hlabel, hreads]
  have hcurrent : c ∈ (if compatibleSend g evt.thread receive src then [src] else []) ↔
      c = src ∧ compatibleSend g evt.thread receive c = true := by
    split
    · rename_i hsrc
      rw [mem_singleton]
      exact ⟨fun heq => ⟨heq, heq ▸ hsrc⟩, And.left⟩
    · rename_i hsrc
      refine iff_of_false (nomatch ·) ?_
      rintro ⟨rfl, hcompat⟩
      exact hsrc hcompat
  rw [hcurrent]
  constructor
  · rintro (⟨-, hfree, hcompat⟩ | ⟨heq, hcompat⟩)
    · exact ⟨hcompat, .inr hfree⟩
    · exact ⟨hcompat, .inl heq⟩
  · rintro ⟨hcompat, heq | hfree⟩
    · exact .inr ⟨heq, hcompat⟩
    · obtain ⟨es, -, hes, -⟩ := (compatibleSend_iff g evt.thread receive c).mp hcompat
      exact .inl ⟨lt_of_getElem? hes, hfree, hcompat⟩

/-- What makes the masked tiebreaker return a candidate. -/
def PassesInView (g : ExplorationGraph V) (keepMask : List Bool) (communicationModel : CommunicationModel)
    (ctx : MaskedPorfContext) (recv src c : ℕ) : Prop :=
  ¬ Relation.TransGen (MaskedPorf g keepMask) recv c ∧
    (communicationModel = .fifoP2P → ctx.fifoRewriteViolates g recv c src = false)

/-- A blocking receive that a mask of the right size keeps with its source. -/
structure KeptReceive (g : ExplorationGraph V) (keepMask : List Bool) (recv src : ℕ) : Prop where
  size : keepMask.length = g.eventCount
  receive : keeps keepMask recv = true
  source : keeps keepMask src = true
  reads : g.graph.ReadsFrom src recv
  blocking : ∃ evt receive, g.graph.events[recv]? = some evt ∧ evt.label = .receive receive ∧
    receive.isBlocking = true

theorem KeptReceive.tiebreaker_cases (g : ExplorationGraph V) (mask : List Bool) (recv src : ℕ)
    (h : KeptReceive g mask recv src) (hordered : g.graph.IndexOrdered) (model : CommunicationModel) :
    ∃ ctx : MaskedPorfContext, ctx.Describes g mask (decide (model = .fifoP2P)) ∧
      ((∃ c, getConsTiebreakerMasked g mask recv model = .ok c ∧
          AdmissibleSource g mask recv c ∧ PassesInView g mask model ctx recv src c ∧
          ∀ other, AdmissibleSource g mask recv other →
            PassesInView g mask model ctx recv src other → candidateLe g c other) ∨
        ((∀ c, AdmissibleSource g mask recv c → ¬ PassesInView g mask model ctx recv src c) ∧
          getConsTiebreakerMasked g mask recv model =
            .error (tiebreakerError "no consistent source found"))) := by
  obtain ⟨evt, receive, hevt, hlabel, hblocking⟩ := h.blocking
  obtain ⟨ctx, hreset, hd⟩ := reset_ok (decide (model = .fifoP2P)) h.size
  obtain ⟨reachable, hreach, hreachable⟩ := reachableFrom_ok hordered hreset hd h.size h.receive
  have hmem := mem_tiebreakerCandidates hd h.reads hevt hlabel
  have hpasses (c : ℕ) : (!reachable c && !(decide (model = .fifoP2P) &&
      ctx.fifoRewriteViolates g recv c src)) = true ↔ PassesInView g mask model ctx recv src c := by
    unfold PassesInView
    rw [← hreachable]
    by_cases hmodel : model = .fifoP2P <;> simp [hmodel]
  have hevent : g.event recv = .ok evt := by
    unfold ExplorationGraph.event ExecutionGraph.event
    rw [hevt]
  have hfind : g.readsFrom.find recv = some (.send src) := h.reads
  obtain ⟨passes, hiff, hfound, hexhausted⟩ : ∃ passes : ℕ → Bool,
      (∀ c, passes c = true ↔ PassesInView g mask model ctx recv src c) ∧
      (∀ c, (tiebreakerCandidates g ctx evt.thread receive src).find? passes = some c →
        getConsTiebreakerMasked g mask recv model = .ok c) ∧
      ((tiebreakerCandidates g ctx evt.thread receive src).find? passes = none →
        getConsTiebreakerMasked g mask recv model =
          .error (tiebreakerError "no consistent source found")) := by
    unfold getConsTiebreakerMasked
    simp only [hreset, hevent, hlabel, hfind, hreach, h.receive, h.source, ReceiveLabel.isNonblocking_eq, hblocking,
      bind, Except.bind, pure, Except.pure, Bool.not_true, Bool.false_eq_true, if_false]
    refine ⟨_, hpasses, fun c hc => ?_, fun hc => ?_⟩
    · erw [hc]
    · erw [hc]
      rfl
  have hsorted : (tiebreakerCandidates g ctx evt.thread receive src).Pairwise (candidateLe g) :=
    pairwise_insertionSort (candidateLe g) _
  generalize tiebreakerCandidates g ctx evt.thread receive src = candidates at hmem hfound hexhausted hsorted
  refine ⟨ctx, hd, ?_⟩
  by_cases hsome : ∃ c ∈ candidates, PassesInView g mask model ctx recv src c
  · obtain ⟨before, c, after, rfl, hbefore, hc, hleast⟩ := exists_first g hsorted hsome
    have hfirst : (before ++ c :: after).find? passes = some c := by
      refine find?_eq_some_iff_append.mpr ⟨(hiff c).mpr hc, before, after, rfl, fun x hx => ?_⟩
      rw [Bool.not_eq_true', ← Bool.not_eq_true, hiff]
      exact hbefore x hx
    exact .inl ⟨c, hfound c hfirst, (hmem c).mp (mem_append_right _ mem_cons_self), hc,
      fun other hother => hleast other ((hmem other).mpr hother)⟩
  · refine .inr ⟨fun c hc hpass => hsome ⟨c, (hmem c).mpr hc, hpass⟩, hexhausted ?_⟩
    exact find?_eq_none.mpr fun c hc hpass => hsome ⟨c, hc, (hiff c).mp hpass⟩

end MustDpor

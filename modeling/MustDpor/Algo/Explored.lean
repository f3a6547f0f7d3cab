import MustDpor.Algo.BackwardRevisit
import MustDpor.Algo.Replay
import MustDpor.Algo.Visit

/-! # What holds of every explored graph

VISIT is entered without a check after a send, a choice, a Block and a reschedule. That the graph is
consistent there, and replays the program, is an invariant of the recursion: each kind of child keeps
it, so every call, every published terminal and every exception of the whole forest is accounted for. -/

namespace MustDpor
set_option autoImplicit false
open List ExplorationGraph ExecutionGraph

variable {V : Type}

/-! ## Continuations that are consistent without a check -/

namespace ExecutionGraph

/-- What a receive that is added at the end may read. -/
structure MayRead (g : ExecutionGraph V) (model : CommunicationModel) (thread : ℕ) (receive : ReceiveLabel V)
    (source : ReadsFromSource) : Prop where
  bottom : source = .bottom → receive.isBlocking = false
  send : ∀ s, source = .send s → (∃ es send, g.events[s]? = some es ∧ es.label = .send send ∧
    send.destination = thread ∧ receive.accepts send.value = true) ∧ ∀ r, ¬ g.ReadsFrom s r
  fifo : model = .fifoP2P → ∀ s, source = .send s → ∀ s' es' send', g.channel? s' = g.channel? s → s' < s →
    g.events[s']? = some es' → es'.label = .send send' → receive.accepts send'.value = true → ∃ r', g.ReadsFrom s' r'

/-- A consistent graph and one event more. A receive reads what it may, any other event nothing. -/
structure Appends (g : ExecutionGraph V) (model : CommunicationModel) (e : Event V) (source : Option ReadsFromSource)
    (g' : ExecutionGraph V) : Prop where
  old : g.ConsistentUnder model
  events : g'.events = g.events ++ [e]
  reads : ∀ id, g'.readsFrom.find id = if id = g.events.length then source else g.readsFrom.find id
  ordered : g'.IndexOrdered
  assigned : e.label.isReceive = true → source ≠ none
  mayRead : ∀ src, source = some src → ∃ receive, e.label = .receive receive ∧ g.MayRead model e.thread receive src

section Appends
variable {g g' : ExecutionGraph V} {model : CommunicationModel} {e : Event V} {source : Option ReadsFromSource}
  (h : g.Appends model e source g') {s r : ℕ}
include h

theorem Appends.event {id : ℕ} (hid : id < g.events.length) : g'.events[id]? = g.events[id]? := by
  rw [h.events, getElem?_append_left hid]

theorem Appends.event_last : g'.events[g.events.length]? = some e := by
  rw [h.events, getElem?_concat_length]

theorem Appends.source_lt (hs : source = some (.send s)) : s < g.events.length := by
  obtain ⟨receive, -, hmay⟩ := h.mayRead _ hs
  obtain ⟨⟨es, -, hes, -⟩, -⟩ := hmay.send s rfl
  exact lt_of_getElem? hes

theorem Appends.unread (hs : source = some (.send s)) (r : ℕ) : ¬ g.ReadsFrom s r := by
  obtain ⟨receive, -, hmay⟩ := h.mayRead _ hs
  exact (hmay.send s rfl).2 r

theorem Appends.lt_of_read (hread : g.ReadsFrom s r) : s < g.events.length ∧ r < g.events.length :=
  h.old.async.endpoints.porf_lt s r (.inr hread)

theorem Appends.readsFrom_cases (hread : g'.ReadsFrom s r) :
    (r = g.events.length ∧ source = some (.send s)) ∨ g.ReadsFrom s r := by
  unfold ReadsFrom at hread ⊢
  rw [h.reads] at hread
  split at hread
  · rename_i hr
    exact .inl ⟨hr, hread⟩
  · exact .inr hread

theorem Appends.readsFrom_of (hread : g.ReadsFrom s r) : g'.ReadsFrom s r := by
  unfold ReadsFrom
  rw [h.reads, if_neg (ne_of_lt (h.lt_of_read hread).2)]
  exact hread

theorem Appends.validEndpoints : g'.ValidEndpoints := by
  intro id other hfind
  rw [h.reads] at hfind
  split at hfind
  · rename_i hid
    subst hid
    obtain ⟨receive, hlabel, hmay⟩ := h.mayRead other hfind
    refine ⟨⟨e, receive, h.event_last, hlabel⟩, fun s hs => ?_⟩
    obtain ⟨⟨es, send, hes, hsend, -⟩, -⟩ := hmay.send s hs
    exact ⟨es, send, (h.event (lt_of_getElem? hes)).trans hes, hsend⟩
  · obtain ⟨⟨er, receive, her, hreceive⟩, hsender⟩ := h.old.async.endpoints id other hfind
    refine ⟨⟨er, receive, (h.event (lt_of_getElem? her)).trans her, hreceive⟩, fun s hs => ?_⟩
    obtain ⟨es, send, hes, hsend⟩ := hsender s hs
    exact ⟨es, send, (h.event (lt_of_getElem? hes)).trans hes, hsend⟩

theorem Appends.receives_assigned (id : ℕ) (a : Event V) (receive : ReceiveLabel V) (ha : g'.events[id]? = some a)
    (hreceive : a.label = .receive receive) : g'.readsFrom.find id ≠ none ∧
      (receive.isBlocking = true → g'.readsFrom.find id ≠ some .bottom) := by
  rw [h.reads]
  split
  · rename_i hid
    rw [hid, h.event_last] at ha
    cases ha
    refine ⟨h.assigned (by rw [hreceive]; rfl), fun hblocking hsome => ?_⟩
    obtain ⟨receive, hlabel, hmay⟩ := h.mayRead _ hsome
    rw [hlabel] at hreceive
    cases hreceive
    rw [hmay.bottom rfl] at hblocking
    cases hblocking
  · rename_i hid
    have hlt := lt_of_getElem? ha
    rw [h.events, length_append, length_singleton] at hlt
    rw [h.event (by omega)] at ha
    exact h.old.async.assigned id a receive ha hreceive

theorem Appends.exclusive {r' : ℕ} (hread : g'.ReadsFrom s r) (hread' : g'.ReadsFrom s r') : r = r' := by
  rcases h.readsFrom_cases hread with ⟨hr, hs⟩ | hold
  · rcases h.readsFrom_cases hread' with ⟨hr', -⟩ | hold'
    · exact hr.trans hr'.symm
    · exact absurd hold' (h.unread hs r')
  · rcases h.readsFrom_cases hread' with ⟨-, hs⟩ | hold'
    · exact absurd hold (h.unread hs r)
    · exact h.old.async.exclusive s r r' hold hold'

theorem Appends.delivered (hread : g'.ReadsFrom s r) (es er : Event V) (send : SendLabel V) (receive : ReceiveLabel V)
    (hes : g'.events[s]? = some es) (hsend : es.label = .send send) (her : g'.events[r]? = some er)
    (hreceive : er.label = .receive receive) :
    send.destination = er.thread ∧ receive.accepts send.value = true := by
  rcases h.readsFrom_cases hread with ⟨rfl, hs⟩ | hold
  · obtain ⟨receive, hlabel, hmay⟩ := h.mayRead _ hs
    obtain ⟨⟨es', send', hes', hsend', hmatch⟩, -⟩ := hmay.send s rfl
    rw [h.event (h.source_lt hs), hes'] at hes
    cases hes
    rw [h.event_last] at her
    cases her
    rw [hsend'] at hsend
    cases hsend
    rw [hlabel] at hreceive
    cases hreceive
    exact hmatch
  · obtain ⟨hs, hr⟩ := h.lt_of_read hold
    rw [h.event hs] at hes
    rw [h.event hr] at her
    exact h.old.async.delivered s r hold es er send receive hes hsend her hreceive

theorem Appends.acyclic : g'.Acyclic := by
  refine acyclic_concat h.events h.ordered (fun s r hread => ?_) h.old.async.acyclic
  rcases h.readsFrom_cases hread with ⟨hr, hs⟩ | hold
  · exact ⟨h.source_lt hs, fun hlt => absurd hr (ne_of_lt hlt)⟩
  · exact ⟨(h.lt_of_read hold).1, fun _ => hold⟩

/-- The readers of the earlier messages on the channel sit before the new receive, in its thread. -/
theorem Appends.fifo_last (hmodel : model = .fifoP2P) (hs : source = some (.send s)) {s' : ℕ}
    (hchannel : g.channel? s' = g.channel? s) (hbefore : s' < s)
    (haccepts : consumerAccepts g' g.events.length s' = true) :
    ∃ r', g'.ReadsFrom s' r' ∧ g'.ProgramOrder r' g.events.length := by
  obtain ⟨receive, hlabel, hmay⟩ := h.mayRead _ hs
  obtain ⟨er, es', _, send', her, hes', hreceive, hsend', haccepts⟩ := (consumerAccepts_iff g' _ s').mp haccepts
  rw [h.event_last] at her
  cases her
  rw [hlabel] at hreceive
  cases hreceive
  rw [h.event (lt_trans hbefore (h.source_lt hs))] at hes'
  obtain ⟨r', hread'⟩ := hmay.fifo hmodel s rfl s' es' send' hchannel hbefore hes' hsend' haccepts
  obtain ⟨⟨er', receive', her', hreceive'⟩, -⟩ := h.old.async.endpoints r' _ hread'
  obtain ⟨⟨es, send, hes, hsend, hdest, -⟩, -⟩ := hmay.send s rfl
  have hdest' := (h.old.async.delivered s' r' hread' es' er' send' receive' hes' hsend' her' hreceive').1
  unfold channel? at hchannel
  rw [hes, hes', Option.bind_some, Option.bind_some, hsend', hsend] at hchannel
  have hkey : (es'.thread, send'.destination) = (es.thread, send.destination) := Option.some.inj hchannel
  have hr' := (h.lt_of_read hread').2
  refine ⟨r', h.readsFrom_of hread', (h.ordered.programOrder_iff g' r' _).mpr
    ⟨hr', er', e, (h.event hr').trans her', h.event_last, ?_⟩⟩
  rw [← hdest', ← hdest]
  exact (Prod.mk.inj hkey).2

theorem Appends.fifo (hmodel : model = .fifoP2P) : g'.FifoConsistent := by
  intro s r hread s' hchannel hbefore haccepts
  have hs : s < g.events.length :=
    (h.readsFrom_cases hread).elim (fun hlast => h.source_lt hlast.2) fun hold => (h.lt_of_read hold).1
  unfold channel? at hchannel
  rw [h.event hs, h.event (lt_trans hbefore hs)] at hchannel
  rcases h.readsFrom_cases hread with ⟨rfl, hsource⟩ | hold
  · exact h.fifo_last hmodel hsource hchannel hbefore haccepts
  · have hr := (h.lt_of_read hold).2
    unfold consumerAccepts at haccepts
    rw [h.event hr, h.event (lt_trans hbefore hs)] at haccepts
    obtain ⟨r', hread', ea, eb, hea, heb, hbetween⟩ := h.old.fifo hmodel s r hold s' hchannel hbefore haccepts
    exact ⟨r', h.readsFrom_of hread', ea, eb, (h.event (h.lt_of_read hread').2).trans hea,
      (h.event hr).trans heb, hbetween⟩

theorem Appends.consistentUnder : g'.ConsistentUnder model where
  async :=
    { endpoints := h.validEndpoints
      assigned := h.receives_assigned
      exclusive := fun _ _ _ => h.exclusive
      delivered := fun _ _ => h.delivered
      acyclic := h.acyclic }
  fifo := h.fifo

end Appends

theorem ConsistentUnder.read {g g' : ExecutionGraph V} {model : CommunicationModel} {e : Event V}
    {receive : ReceiveLabel V} {source : ReadsFromSource} (hevents : g'.events = g.events ++ [e])
    (hlabel : e.label = .receive receive)
    (hrf : ∀ id, g'.readsFrom.find id = if id = g.events.length then some source else g.readsFrom.find id)
    (hordered : g'.IndexOrdered) (h : g.ConsistentUnder model) (hmay : g.MayRead model e.thread receive source) :
    g'.ConsistentUnder model :=
  Appends.consistentUnder ⟨h, hevents, hrf, hordered, fun _ => nofun, fun _ hsource =>
    ⟨receive, hlabel, Option.some.inj hsource ▸ hmay⟩⟩

end ExecutionGraph

variable {child : ExplorationGraph V}

namespace ExplorationGraph

theorem RestrictsTo.consistentUnder {g : ExplorationGraph V} {mask : List Bool}
    (hto : g.RestrictsTo mask child) (hordered : g.graph.IndexOrdered) {model : CommunicationModel}
    (hkept : ∀ id e, g.graph.events[id]? = some e → e.label.isReceive = true ∨ e.label.isSend = true →
      mask.getD id false = true) (h : g.graph.ConsistentUnder model) : child.graph.ConsistentUnder model := by
  constructor
  · refine (asyncConsistent_iff _).mpr (hto.induces.async hordered h.async fun r newR s _ hread _ => ?_)
    obtain ⟨es, send, hes, hsend⟩ := (h.async.endpoints r _ hread).2 s rfl
    exact exists_place mask s (hkept s es hes (.inr (by rw [hsend]; rfl)))
  · refine fun hmodel => hto.induces.fifo hordered (fun s r' r hread _ _ => ?_) (h.fifo hmodel)
    obtain ⟨er, receive, her, hreceive⟩ := (h.async.endpoints r' _ hread).1
    exact hkept r' er her (.inl (by rw [hreceive]; rfl))

end ExplorationGraph

/-! ## The invariant -/

/-- A consistent graph whose tables, reader counts and known-acyclic flag say what its events and its
reads-from relation say. -/
structure Legal (communicationModel : CommunicationModel) (g : ExplorationGraph V) : Prop where
  tabulated : g.Tabulated
  counted : g.Counted
  truthful : g.Truthful
  consistent : g.graph.ConsistentUnder communicationModel

/-- A graph that VISITIFCONSISTENT may be called with. -/
structure Prepared [LinearOrder V] (config : DporConfig V) (g : ExplorationGraph V) (depth : ℕ) : Prop where
  tabulated : g.Tabulated
  counted : g.Counted
  truthful : g.Truthful
  replays : Replays config.program g.graph.execution
  errorless : ∀ e ∈ g.graph.events, e.label.isError = false
  size : g.eventCount ≤ depth
  bounded : config.maxThreadEvents ≠ 0 → ∀ tid, threadCount g.graph.events tid ≤ config.maxThreadEvents

/-- A graph that VISIT may be called with. -/
structure Explored [LinearOrder V] (config : DporConfig V) (g : ExplorationGraph V) (depth : ℕ) : Prop
    extends Prepared config g depth where
  consistent : g.graph.ConsistentUnder config.communicationModel

theorem Explored.legal [LinearOrder V] {config : DporConfig V} {g : ExplorationGraph V} {depth : ℕ}
    (h : Explored config g depth) : Legal config.communicationModel g :=
  ⟨h.tabulated, h.counted, h.truthful, h.consistent⟩

/-- A graph with one more event, which may have a source. -/
structure Grows (g : ExplorationGraph V) (tid : ℕ) (label : EventLabel V) (source : Option ReadsFromSource)
    (child : ExplorationGraph V) : Prop where
  tabulated : child.Tabulated
  counted : child.Counted
  truthful : child.Truthful
  events : child.graph.events = g.graph.events ++ [⟨tid, threadCount g.graph.events tid, label⟩]
  reads : ∀ id, child.graph.readsFrom.find id = if id = g.eventCount then source else g.graph.readsFrom.find id

/-- Where `add_event` finds no index to hand out. -/
def IndexExhausted (g : ExplorationGraph V) (tid : ℕ) : Prop :=
  kMaxThreadId < tid ∨ maxEventIndex < threadCount g.graph.events tid

section Grown
variable {g : ExplorationGraph V} (ht : g.Tabulated)
include ht

theorem addEvent_cases (tid : ℕ) (label : EventLabel V) :
    (∃ e, g.addEvent tid label = .error e ∧ IndexExhausted g tid) ∨
    (¬ IndexExhausted g tid ∧
      g.addEvent tid label = .ok (g.eventCount, g.appended tid (threadCount g.graph.events tid) label) ∧
      g.graph.nextEventIndex tid = .ok (threadCount g.graph.events tid)) := by
  by_cases hexhausted : IndexExhausted g tid
  · refine .inl ?_
    rw [addEvent_eq, ht.tables,
      nextEventIndex_tabulate _ _ _ _ (ht.numbered.threadCount_le tid), ← ht.tables]
    rcases hexhausted with hthread | hindex
    · rw [if_pos hthread]
      exact ⟨_, rfl, .inl hthread⟩
    · by_cases hthread : kMaxThreadId < tid
      · rw [if_pos hthread]
        exact ⟨_, rfl, .inl hthread⟩
      · rw [if_neg hthread, if_neg (not_le.mpr hindex)]
        exact ⟨_, rfl, .inr hindex⟩
  · obtain ⟨hthread, hindex⟩ := not_or.mp hexhausted
    have hadd := ht.addEvent_ok label (not_lt.mp hthread) (not_lt.mp hindex)
    obtain ⟨index, hnext, -, -⟩ := addEvent_inv hadd
    refine .inr ⟨hexhausted, hadd, ?_⟩
    rw [hnext, (ht.nextEventIndex hnext).1]

omit ht in
theorem find_eventCount (hends : g.graph.ValidEndpoints) : g.graph.readsFrom.find g.eventCount = none := by
  by_contra hne
  obtain ⟨source, hfind⟩ := Option.ne_none_iff_exists'.mp hne
  obtain ⟨er, -, her, -⟩ := (hends g.eventCount source hfind).1
  exact absurd (lt_of_getElem? her) (lt_irrefl _)

theorem withReceive_cases (hends : g.graph.ValidEndpoints) (tid : ℕ) (receive : ReceiveLabel V)
    (source : ReadsFromSource) :
    (∃ e, g.withReceive tid (.receive receive) source = .error e ∧ IndexExhausted g tid) ∨
    ∃ child, ¬ IndexExhausted g tid ∧ g.withReceive tid (.receive receive) source = .ok child ∧
      (g.appended tid (threadCount g.graph.events tid) (.receive receive)).assignReadsFrom g.eventCount source =
        .ok child ∧ child.Tabulated ∧
      child.graph.events = g.graph.events ++ [⟨tid, threadCount g.graph.events tid, .receive receive⟩] ∧
      ∀ id, child.graph.readsFrom.find id = if id = g.eventCount then some source else g.graph.readsFrom.find id := by
  unfold withReceive
  rcases addEvent_cases ht tid (.receive receive) with ⟨e, hadd, hexhausted⟩ | ⟨hindex, hadd, hnext⟩
  · rw [hadd]
    exact .inl ⟨e, rfl, hexhausted⟩
  · rw [hadd]
    have htabulated := ht.appended (.receive receive) hnext
    have hnone := find_eventCount hends
    generalize hadded : g.appended tid (threadCount g.graph.events tid) (.receive receive) = added at htabulated ⊢
    have hevents : added.graph.events =
        g.graph.events ++ [⟨tid, threadCount g.graph.events tid, .receive receive⟩] := by
      rw [← hadded]
      rfl
    have hreads : added.graph.readsFrom = g.graph.readsFrom := by
      rw [← hadded]
      rfl
    have hsmall : added.eventCount < ReadsFromRelation.maxEntries := htabulated.numbered.length_lt
    have hcount : added.eventCount = g.eventCount + 1 := by
      unfold eventCount
      rw [hevents, length_append]
      rfl
    have hrelease : added.Releasable g.eventCount := by
      intro id hfind
      change added.graph.readsFrom.find g.eventCount = _ at hfind
      rw [hreads, hnone] at hfind
      cases hfind
    obtain ⟨child, hchild⟩ := hrelease.assignReadsFrom_ok added source (by omega)
    refine .inr ⟨child, hindex, hchild, hchild, htabulated.assignReadsFrom added child _ source hchild, ?_, fun id => ?_⟩
    · rw [assignReadsFrom_events hchild, hevents]
    · rw [assignReadsFrom_readsFrom hchild, AscendingMap.find_set, hreads]

end Grown

variable {tid id : ℕ} {label : EventLabel V} {source : Option ReadsFromSource}

section Legal
variable {model : CommunicationModel} {g : ExplorationGraph V}

theorem Legal.appended (h : Legal model g) (label : EventLabel V)
    (hnext : g.graph.nextEventIndex tid = .ok (threadCount g.graph.events tid)) :
    Grows g tid label none (g.appended tid (threadCount g.graph.events tid) label) where
  tabulated := h.tabulated.appended label hnext
  counted := by
    refine h.counted.appended (h.tabulated.sound) tid _ fun _ recv hfind => ?_
    obtain ⟨es, -, hes, -⟩ := (h.consistent.async.endpoints recv _ hfind).2 g.eventCount rfl
    exact absurd (lt_of_getElem? hes) (lt_irrefl _)
  truthful := h.truthful.appended h.tabulated label hnext
  events := rfl
  reads := fun id => by
    split
    · rename_i hid
      rw [hid]
      exact find_eventCount h.consistent.async.endpoints
    · rfl

theorem Legal.addEvent_cases (h : Legal model g) (tid : ℕ) (label : EventLabel V) :
    (∃ e, g.addEvent tid label = .error e ∧ IndexExhausted g tid) ∨
    ∃ child, g.addEvent tid label = .ok (g.eventCount, child) ∧ Grows g tid label none child := by
  rcases MustDpor.addEvent_cases h.tabulated tid label with herror | ⟨-, hadd, hnext⟩
  · exact .inl herror
  · exact .inr ⟨_, hadd, h.appended label hnext⟩

theorem Legal.withReceive_cases (h : Legal model g) (tid : ℕ) (receive : ReceiveLabel V) (source : ReadsFromSource) :
    (∃ e, g.withReceive tid (.receive receive) source = .error e ∧ IndexExhausted g tid) ∨
    ∃ child, g.withReceive tid (.receive receive) source = .ok child ∧
      Grows g tid (.receive receive) (some source) child := by
  rcases MustDpor.withReceive_cases h.tabulated h.consistent.async.endpoints tid receive source with
    herror | ⟨child, -, hok, hassign, htabulated, hevents, hreads⟩
  · exact .inl herror
  · rcases MustDpor.addEvent_cases h.tabulated tid (.receive receive) with ⟨e, hadd, -⟩ | ⟨-, -, hnext⟩
    · unfold withReceive at hok
      rw [hadd] at hok
      cases hok
    · have hgrows := h.appended (.receive receive) hnext
      exact .inr ⟨child, hok, htabulated,
        hgrows.counted.assignReadsFrom (hgrows.tabulated.sound) hassign,
        hgrows.truthful.assignReadsFrom hgrows.tabulated hassign, hevents, hreads⟩

theorem Grows.readsFrom_eq (h : Legal model g) (hgrows : Grows g tid label none child) :
    child.graph.readsFrom = g.graph.readsFrom := by
  refine AscendingMap.ext_find fun id => ?_
  rw [hgrows.reads id]
  split
  · rename_i hid
    rw [hid]
    exact (find_eventCount h.consistent.async.endpoints).symm
  · rfl

theorem Legal.consistent_grown (h : Legal model g) (hgrows : Grows g tid label none child)
    (hlabel : label.isReceive = false) :
    child.graph.ConsistentUnder model :=
  Appends.consistentUnder ⟨h.consistent, hgrows.events, hgrows.reads, hgrows.tabulated.indexOrdered child,
    fun hreceive => (nomatch hlabel.symm.trans hreceive), nofun⟩

theorem Grows.getElem?_last (hgrows : Grows g tid label source child) :
    child.graph.events[g.eventCount]? = some ⟨tid, threadCount g.graph.events tid, label⟩ := by
  rw [hgrows.events]
  exact getElem?_concat_length

theorem Grows.freshSend (h : Legal model g) {send : SendLabel V} (hgrows : Grows g tid (.send send) none child) :
    FreshSend child model g.eventCount where
  tabulated := hgrows.tabulated
  consistent := h.consistent_grown hgrows rfl
  last := by
    unfold eventCount
    rw [hgrows.events, length_append]
    rfl
  send := ⟨_, send, hgrows.getElem?_last, rfl⟩
  unread := by
    intro r hread
    unfold ExecutionGraph.ReadsFrom at hread
    rw [hgrows.readsFrom_eq h] at hread
    obtain ⟨es, -, hes, -⟩ := (h.consistent.async.endpoints r _ hread).2 g.eventCount rfl
    exact absurd (lt_of_getElem? hes) (lt_irrefl _)

theorem dropMask_communicates (hblock : g.isBlockId id = true) (other : ℕ) (e : Event V)
    (he : g.graph.events[other]? = some e) (hcommunicates : e.label.isReceive = true ∨ e.label.isSend = true) :
    (dropMask g.eventCount id).getD other false = true := by
  obtain ⟨eb, heb, hlabel⟩ := (isBlockId_iff id).mp hblock
  refine dropMask_getD.mpr ⟨lt_of_getElem? he, ?_⟩
  rintro rfl
  rw [heb] at he
  cases he
  rw [hlabel] at hcommunicates
  rcases hcommunicates with hc | hc <;> cases hc

theorem Legal.unblocked (h : Legal model g)
    (hblock : g.isBlockId id = true) (hchild : g.restrictMasked (dropMask g.eventCount id) = .ok child)
    (hto : g.RestrictsTo (dropMask g.eventCount id) child) : Legal model child := by
  have hconsistent := hto.consistentUnder (h.tabulated.indexOrdered g) (dropMask_communicates hblock) h.consistent
  have hpending : child.pendingFreshReceiveId = none := by
    obtain ⟨-, built, remapped, -, -, rfl⟩ := restrictMasked_inv hchild
    rfl
  refine ⟨hto.tabulated, hto.counted, ⟨fun _ => ⟨hconsistent.async.endpoints, hconsistent.async.acyclic⟩,
    fun other hother => ?_⟩, hconsistent⟩
  rw [hpending] at hother
  cases hother

theorem Legal.marked (h : Legal model g) (marks : Bool) :
    Legal model (if marks then g.markKnownAcyclic else g) := by
  cases marks with
  | false => exact h
  | true =>
    exact ⟨h.tabulated.withMetadata true none, h.counted,
      ⟨fun _ => ⟨h.consistent.async.endpoints, h.consistent.async.acyclic⟩, nofun⟩, h.consistent⟩

end Legal

section Grow
variable [LinearOrder V] {config : DporConfig V} {g : ExplorationGraph V} {depth : ℕ}

theorem explored_empty (config : DporConfig V) : Explored config empty 0 where
  tabulated := empty_tabulated
  counted := empty_counted
  truthful := empty_truthful
  replays := by
    have hnone (p : Pos) : (empty : ExplorationGraph V).graph.execution p = none := rfl
    refine ⟨fun thread i n hn => ?_, fun thread i hne => absurd (hnone _) hne, fun thread i n hn => ?_⟩
    · rw [hnone] at hn
      cases hn
    · rw [hnone] at hn
      cases hn
  errorless := nofun
  size := le_refl 0
  bounded := fun _ _ => Nat.zero_le _
  consistent := by
    have hread (a b : ℕ) : ¬ (empty : ExplorationGraph V).graph.ReadsFrom a b := nofun
    exact
      { async :=
          { endpoints := nofun
            assigned := nofun
            exclusive := fun s r _ hr => absurd hr (hread s r)
            delivered := fun s r hr => absurd hr (hread s r)
            acyclic := (empty_truthful.sane rfl).acyclic }
        fifo := fun _ s r hr => absurd hr (hread s r) }

theorem Explored.open_of_not_terminated (h : Explored config g depth) {j : ℕ} {m : Node V}
    (hopen : g.threadIsTerminated tid = false) (hlast : j + 1 = threadCount g.graph.events tid)
    (hm : g.graph.execution (tid, j) = some m) : m.label ≠ .block := by
  intro hblock
  obtain ⟨id, hid, hnode⟩ := ((h.tabulated.indexOrdered g).execution_eq_some _ m).mp hm
  obtain ⟨e, he, hpos⟩ := (g.graph.posAt_eq_some id _).mp hid
  obtain ⟨rfl, rfl⟩ := Prod.mk.inj hpos
  have hlastId := lastEventId_of_index h.tabulated he hlast
  have hlabel : e.label = .block := by
    rw [ExecutionGraph.nodeAt, he] at hnode
    rw [← hblock, ← Option.some.inj hnode]
  unfold threadIsTerminated at hopen
  rw [hlastId] at hopen
  dsimp only at hopen
  rw [(isBlockId_iff id).mpr ⟨e, he, hlabel⟩, Bool.true_or] at hopen
  cases hopen

theorem Explored.source_ne_none (h : Explored config g depth) (p : Pos) (m : Node V) (q : Pos)
    (hm : g.graph.execution p = some m) (hq : m.source = some (.send q)) : g.graph.execution q ≠ none := by
  obtain ⟨id, -, hnode⟩ := ((h.tabulated.indexOrdered g).execution_eq_some p m).mp hm
  obtain ⟨e, -, rfl⟩ := Option.map_eq_some_iff.mp hnode
  obtain ⟨read, hread, hposSource⟩ := Option.bind_eq_some_iff.mp hq
  cases read with
  | bottom => cases hposSource
  | send s =>
    obtain ⟨p', hp', heq⟩ := Option.map_eq_some_iff.mp hposSource
    cases heq
    rw [Ne, (h.tabulated.indexOrdered g).execution_eq_none, not_forall]
    exact ⟨s, not_not.mpr hp'⟩

theorem Explored.replays_grown (h : Explored config g depth)
    {returned : EventLabel V} (hgrows : Grows g tid label source child)
    (hsource : ∀ id, source = some (.send id) → id < g.eventCount) (hopen : g.threadIsTerminated tid = false)
    (hanswers : Answers config.program g tid (some returned)) (hbecomes : Becomes returned label) :
    Replays config.program child.graph.execution := by
  rw [execution_concat hgrows.events hgrows.reads hsource
    (h.tabulated.indexOrdered g) (hgrows.tabulated.indexOrdered child) h.consistent.async.endpoints]
  obtain ⟨threadFn, trace, hthread, htrace, hreturned⟩ := hanswers
  rw [h.tabulated.threadTrace_ok h.consistent.async.endpoints tid] at htrace
  cases htrace
  rw [threadEventCount_eq h.tabulated] at hreturned
  exact h.replays.grow (h.tabulated.execution_ne_none_iff tid) h.source_ne_none
    (fun j m hj hm => h.open_of_not_terminated hopen hj hm) hthread hreturned hbecomes

theorem Explored.prepared_grown (h : Explored config g depth)
    {returned : EventLabel V} (hgrows : Grows g tid label source child)
    (hsource : ∀ id, source = some (.send id) → id < g.eventCount) (hopen : g.threadIsTerminated tid = false)
    (hlimit : ¬ AtLimit config.maxThreadEvents g tid)
    (hanswers : Answers config.program g tid (some returned)) (hbecomes : Becomes returned label)
    (herror : label.isError = false) : Prepared config child (depth + 1) where
  tabulated := hgrows.tabulated
  counted := hgrows.counted
  truthful := hgrows.truthful
  replays := h.replays_grown hgrows hsource hopen hanswers hbecomes
  errorless := by
    intro e he
    rw [hgrows.events] at he
    rcases mem_append.mp he with he | he
    · exact h.errorless e he
    · rw [mem_singleton.mp he]
      exact herror
  size := by
    unfold eventCount
    rw [hgrows.events, length_append]
    exact Nat.succ_le_succ h.size
  bounded := by
    intro hne other
    rw [hgrows.events, threadCount_concat]
    have hle := h.bounded hne other
    split
    · rename_i hsame
      subst hsame
      unfold AtLimit at hlimit
      rw [threadEventCount_eq h.tabulated] at hlimit
      dsimp only at hle ⊢
      omega
    · exact hle

theorem Prepared.marked (h : Prepared config g depth) (marks : Bool)
    (hconsistent : g.graph.ConsistentUnder config.communicationModel) :
    Explored config (if marks then g.markKnownAcyclic else g) depth := by
  have hlegal := Legal.marked ⟨h.tabulated, h.counted, h.truthful, hconsistent⟩ marks
  cases marks with
  | false => exact ⟨h, hconsistent⟩
  | true =>
    exact
      { tabulated := hlegal.tabulated
        counted := hlegal.counted
        truthful := hlegal.truthful
        replays := h.replays
        errorless := h.errorless
        size := h.size
        bounded := h.bounded
        consistent := hconsistent }

/-! ## Restricted children -/

theorem Prepared.of_selects (h : Prepared config g depth) {mask : List Bool}
    (hto : g.Selects mask child) (htruthful : child.Truthful)
    (hreplays : Replays config.program child.graph.execution) : Prepared config child depth := by
  have hsub : child.graph.events.Sublist g.graph.events := by
    rw [hto.events]
    exact select_sublist g.graph.events mask
  exact
    { tabulated := hto.tabulated
      counted := hto.counted
      truthful := htruthful
      replays := hreplays
      errorless := fun e he => h.errorless e (hsub.subset he)
      size := le_trans hsub.length_le h.size
      bounded := fun hne tid => le_trans hsub.countP_le (h.bounded hne tid) }

theorem Explored.rescheduled (h : Explored config g depth)
    (hlast : g.lastEventId tid = some id) (hblock : g.isBlockId id = true)
    (hchild : g.restrictMasked (dropMask g.eventCount id) = .ok child)
    (hto : g.RestrictsTo (dropMask g.eventCount id) child) : Explored config child depth := by
  have hlegal := h.legal.unblocked hblock hchild hto
  have hreplays := hto.replays h.tabulated h.consistent.async.endpoints (threadClosed_dropMask h.tabulated hlast)
    (fun other newId hid _ => ⟨hto.reads other newId hid, fun src hread => by
      obtain ⟨es, send, hes, hsend⟩ := (h.consistent.async.endpoints other _ hread).2 src rfl
      exact dropMask_communicates hblock src es hes (.inr (by rw [hsend]; rfl))⟩) h.replays
  exact ⟨h.toPrepared.of_selects hto.toSelects hlegal.truthful hreplays, hlegal.consistent⟩

/-- The graph of a backward revisit: what the revisited receive observes changes, and nothing after it is
left. -/
theorem Explored.revisited (h : Explored config g depth) {s r : ℕ}
    {mask : List Bool} (hfresh : FreshSend g config.communicationModel s)
    (hrevisits : Revisits g config.communicationModel s r) (hto : ReboundTo g s r mask child)
    (hdest : ∀ er es send, g.graph.events[r]? = some er → g.graph.events[s]? = some es →
      es.label = .send send → send.destination = er.thread) : Prepared config child depth := by
  have hconsistent := hto.asyncConsistent hfresh hrevisits hdest
  have htruthful : child.Truthful :=
    ⟨fun _ => ⟨hconsistent.endpoints, hconsistent.acyclic⟩, fun id hid => by
      rw [hto.pending] at hid
      cases hid⟩
  refine h.toPrepared.of_selects hto.toSelects htruthful ?_
  refine hto.replays h.tabulated h.consistent.async.endpoints (hfresh.threadClosed hto.kept) ?_ h.replays
  rintro id newId hid ⟨b, hpo⟩
  have hne : id ≠ r := by
    rintro rfl
    exact hto.receive_last hfresh hrevisits newId hid b hpo
  refine ⟨?_, fun src hread => hto.source_kept hfresh hrevisits (marked_of_place mask id newId hid) hread⟩
  rw [hto.reads id newId hid, if_neg hne]

end Grow
end MustDpor

import Mathlib.Order.WellFoundedSet
import MustDpor.Model.Execution

/-! # What comes before what in an execution

The program order and the reads-from relation between positions, consistency as a property of an execution, and
the past of a position: two executions that agree on the past of a position in one of them have the same past
there. -/

namespace MustDpor
set_option autoImplicit false
open List Relation

variable {V : Type}

namespace Execution

section Edges
variable (x : Execution V)

def Reads (s r : Pos) : Prop := ∃ n, x r = some n ∧ n.source = some (.send s)

/-- An edge of the program order or of the reads-from relation. -/
inductive Before : Pos → Pos → Prop where
  | order (thread i j : ℕ) : i < j → x (thread, i) ≠ none → x (thread, j) ≠ none → Before (thread, i) (thread, j)
  | read (s r : Pos) : x.Reads s r → Before s r

def Past (p q : Pos) : Prop := Relation.TransGen x.Before p q

/-- What the checkers accept, whatever the order of insertion. -/
structure Consistent (communicationModel : CommunicationModel) : Prop where
  dense : ∀ thread i, x (thread, i + 1) ≠ none → x (thread, i) ≠ none
  assigned : ∀ p n receive, x p = some n → n.label = .receive receive →
    ∃ source, n.source = some source ∧ (receive.isBlocking = true → source ≠ .bottom)
  delivered : ∀ s r, x.Reads s r → ∃ n send receive m, x s = some n ∧ n.label = .send send ∧
    x r = some m ∧ m.label = .receive receive ∧ send.destination = r.1 ∧ receive.accepts send.value = true
  exclusive : ∀ s r r', x.Reads s r → x.Reads s r' → r = r'
  acyclic : ∀ p, ¬ x.Past p p
  fifo : communicationModel = .fifoP2P → ∀ s r m receive, x.Reads s r → x r = some m → m.label = .receive receive →
    ∀ j n send, j < s.2 → x (s.1, j) = some n → n.label = .send send → send.destination = r.1 →
      receive.accepts send.value = true → ∃ k, k < r.2 ∧ x.Reads (s.1, j) (r.1, k)

end Edges

variable {p q : Pos}

theorem Before.target_ne_none {x : Execution V} (h : x.Before p q) : x q ≠ none := by
  cases h with
  | order thread i j _ _ hj => exact hj
  | read s r hread =>
    obtain ⟨n, hn, -⟩ := hread
    rw [hn]
    exact Option.some_ne_none n

theorem Past.target_ne_none {x : Execution V} (h : x.Past p q) : x q ≠ none := by
  obtain ⟨_, -, hedge⟩ := TransGen.tail'_iff.mp h
  exact hedge.target_ne_none

variable {r : Pos}

theorem Past.trans {x : Execution V} (h : x.Past p q) (h' : x.Past q r) : x.Past p r :=
  TransGen.trans h h'

variable {s : Pos}

theorem Past.read {x : Execution V} (h : x.Reads s r) : x.Past s r := .single (.read s r h)

section Closed
variable {x : Execution V}

theorem dense_le (hdense : ∀ thread i, x (thread, i + 1) ≠ none → x (thread, i) ≠ none) {thread i j : ℕ}
    (hj : x (thread, j) ≠ none) (hle : i ≤ j) : x (thread, i) ≠ none := by
  induction j with
  | zero =>
    obtain rfl := Nat.le_zero.mp hle
    exact hj
  | succ j ih =>
    rcases Nat.le_succ_iff.mp hle with hle | rfl
    · exact ih (hdense thread j hj) hle
    · exact hj

variable {model : CommunicationModel} (h : x.Consistent model)
include h

theorem Consistent.source_ne_none (hread : x.Reads s r) : x s ≠ none := by
  obtain ⟨n, -, -, -, hn, -⟩ := h.delivered s r hread
  rw [hn]
  exact Option.some_ne_none n

theorem Consistent.past_ne_none (hpast : x.Past p q) : x p ≠ none := by
  obtain ⟨_, hedge, -⟩ := TransGen.head'_iff.mp hpast
  cases hedge with
  | order _ _ _ _ hi _ => exact hi
  | read _ _ hread => exact h.source_ne_none hread

theorem Consistent.past_below {thread i j : ℕ} (hpast : x.Past (thread, j) q) (hle : i ≤ j) :
    x.Past (thread, i) q := by
  rcases Nat.eq_or_lt_of_le hle with rfl | hlt
  · exact hpast
  · have hj := h.past_ne_none hpast
    exact .head (.order thread i j hlt (dense_le h.dense hj hle) hj) hpast

theorem Consistent.past_order {thread i j : ℕ} (hj : x (thread, j) ≠ none) (hlt : i < j) :
    x.Past (thread, i) (thread, j) :=
  .single (.order thread i j hlt (dense_le h.dense hj (le_of_lt hlt)) hj)

theorem Consistent.past_open
    (hlast : ∀ thread i n, x (thread, i) = some n → n.label = .block → x (thread, i + 1) = none)
    (hpast : x.Past p q) : ∃ n, x p = some n ∧ n.label.isBlock = false := by
  obtain ⟨c, hedge, -⟩ := TransGen.head'_iff.mp hpast
  cases hedge with
  | order thread i j hlt hi hj =>
    obtain ⟨n, hn⟩ := Option.ne_none_iff_exists'.mp hi
    refine ⟨n, hn, ?_⟩
    rw [← Bool.not_eq_true, EventLabel.isBlock_iff]
    intro hblock
    exact dense_le h.dense hj hlt (hlast thread i n hn hblock)
  | read _ _ hread =>
    obtain ⟨m, send, -, -, hm, hsend, -⟩ := h.delivered p _ hread
    exact ⟨m, hm, by rw [hsend]; rfl⟩

end Closed

/-! ## Executions with the same past -/

section Agreement
variable {x y : Execution V}

theorem Reads.congr (hr : x r = y r) (h : x.Reads s r) : y.Reads s r := by
  obtain ⟨n, hn, hsource⟩ := h
  exact ⟨n, hr ▸ hn, hsource⟩

theorem Before.congr (hdense : ∀ thread i, y (thread, i + 1) ≠ none → y (thread, i) ≠ none)
    (hq : x q = y q) (h : x.Before p q) : y.Before p q := by
  cases h with
  | order thread i j hlt _ hj =>
    have hj' : y (thread, j) ≠ none := hq ▸ hj
    exact .order thread i j hlt (dense_le hdense hj' (le_of_lt hlt)) hj'
  | read s r hread => exact .read _ _ (hread.congr hq)

theorem past_congr (hx : ∀ thread i, x (thread, i + 1) ≠ none → x (thread, i) ≠ none)
    (hy : ∀ thread i, y (thread, i + 1) ≠ none → y (thread, i) ≠ none) (hs : x s = y s)
    (hagree : ∀ p, x.Past p s → x p = y p) (p : Pos) : x.Past p s ↔ y.Past p s := by
  constructor
  · intro h
    induction h using TransGen.head_induction_on with
    | single hedge => exact .single (hedge.congr hy hs)
    | head hedge hpast ih => exact .head (hedge.congr hy (hagree _ hpast)) ih
  · intro h
    induction h using TransGen.head_induction_on with
    | single hedge => exact .single (hedge.congr hx hs.symm)
    | head hedge _ ih => exact .head (hedge.congr hx (hagree _ ih).symm) ih

end Agreement
end Execution

/-! ## The edges of a graph -/

namespace ExecutionGraph

section Edges
variable (g : ExecutionGraph V) (hordered : g.IndexOrdered)
include hordered

theorem IndexOrdered.reads_iff (hends : g.ValidEndpoints) (p q : Pos) :
    g.execution.Reads p q ↔ ∃ a b, g.posAt a = some p ∧ g.posAt b = some q ∧ g.ReadsFrom a b := by
  constructor
  · rintro ⟨n, hn, hsource⟩
    obtain ⟨b, hb, hnode⟩ := (hordered.execution_eq_some q n).mp hn
    obtain ⟨e, he, rfl⟩ := Option.map_eq_some_iff.mp hnode
    obtain ⟨source, hfind, hplace⟩ := Option.bind_eq_some_iff.mp hsource
    cases source with
    | bottom => cases hplace
    | send a =>
      obtain ⟨p', hp', hsame⟩ := Option.map_eq_some_iff.mp hplace
      cases hsame
      exact ⟨a, b, hp', hb, hfind⟩
  · rintro ⟨a, b, ha, hb, hread⟩
    obtain ⟨⟨e, receive, he, -⟩, -⟩ := hends b _ hread
    refine ⟨_, (hordered.execution_of_posAt hb).trans (by rw [nodeAt, he]; rfl), ?_⟩
    show (g.readsFrom.find b).bind g.posSource = _
    rw [show g.readsFrom.find b = some (.send a) from hread, Option.bind_some, posSource, ha]
    rfl

theorem IndexOrdered.source_eq_none (hends : g.ValidEndpoints) (p : Pos) (n : Node V)
    (hn : g.execution p = some n) (hlabel : n.label.isReceive = false) : n.source = none := by
  obtain ⟨id, -, hnode⟩ := (hordered.execution_eq_some p n).mp hn
  obtain ⟨e, he, rfl⟩ := Option.map_eq_some_iff.mp hnode
  show (g.readsFrom.find id).bind g.posSource = none
  cases hfind : g.readsFrom.find id with
  | none => rfl
  | some source =>
    obtain ⟨⟨er, receive, her, hreceive⟩, -⟩ := hends id _ hfind
    obtain rfl : e = er := Option.some.inj (he.symm.trans her)
    rw [show e.label = _ from hreceive] at hlabel
    cases hlabel

theorem IndexOrdered.execution_ne_none_iff (p : Pos) : g.execution p ≠ none ↔ ∃ a, g.posAt a = some p := by
  rw [Ne, hordered.execution_eq_none, not_forall]
  simp only [not_not]

theorem IndexOrdered.before_iff (hends : g.ValidEndpoints) (p q : Pos) :
    g.execution.Before p q ↔ ∃ a b, g.posAt a = some p ∧ g.posAt b = some q ∧ g.Porf a b := by
  constructor
  · intro h
    cases h with
    | order thread i j hlt hi hj =>
      obtain ⟨a, ha⟩ := (hordered.execution_ne_none_iff g _).mp hi
      obtain ⟨b, hb⟩ := (hordered.execution_ne_none_iff g _).mp hj
      obtain ⟨ea, hea, hpa⟩ := (g.posAt_eq_some a _).mp ha
      obtain ⟨eb, heb, hpb⟩ := (g.posAt_eq_some b _).mp hb
      obtain ⟨hta, hia⟩ := Prod.mk.inj hpa
      obtain ⟨htb, hib⟩ := Prod.mk.inj hpb
      exact ⟨a, b, ha, hb, .inl ⟨ea, eb, hea, heb, hta.trans htb.symm, by rw [hia, hib]; exact hlt⟩⟩
    | read s r hread =>
      obtain ⟨a, b, ha, hb, hread⟩ := (hordered.reads_iff g hends _ _).mp hread
      exact ⟨a, b, ha, hb, .inr hread⟩
  · rintro ⟨a, b, ha, hb, horder | hread⟩
    · obtain ⟨ea, eb, hea, heb, hthread, hindex⟩ := horder
      obtain ⟨ea', hea', rfl⟩ := (g.posAt_eq_some a _).mp ha
      obtain ⟨eb', heb', rfl⟩ := (g.posAt_eq_some b _).mp hb
      obtain rfl : ea' = ea := Option.some.inj (hea'.symm.trans hea)
      obtain rfl : eb' = eb := Option.some.inj (heb'.symm.trans heb)
      have hb' := (hordered.execution_ne_none_iff g _).mpr ⟨b, hb⟩
      rw [← hthread] at hb' ⊢
      exact .order _ _ _ hindex ((hordered.execution_ne_none_iff g _).mpr ⟨a, ha⟩) hb'
    · exact .read _ _ ((hordered.reads_iff g hends _ _).mpr ⟨a, b, ha, hb, hread⟩)

theorem IndexOrdered.past_iff (hends : g.ValidEndpoints) (p q : Pos) :
    g.execution.Past p q ↔
      ∃ a b, g.posAt a = some p ∧ g.posAt b = some q ∧ TransGen g.Porf a b := by
  constructor
  · intro h
    induction h with
    | single hedge =>
      obtain ⟨a, b, ha, hb, hporf⟩ := (hordered.before_iff g hends _ _).mp hedge
      exact ⟨a, b, ha, hb, .single hporf⟩
    | tail _ hedge ih =>
      obtain ⟨a, b, ha, hb, hpath⟩ := ih
      obtain ⟨b', c, hb', hc, hporf⟩ := (hordered.before_iff g hends _ _).mp hedge
      obtain rfl := hordered.posAt_injective hb' hb
      exact ⟨a, c, ha, hc, .tail hpath hporf⟩
  · rintro ⟨a, b, ha, hb, hpath⟩
    induction hpath generalizing q with
    | single hporf => exact .single ((hordered.before_iff g hends _ _).mpr ⟨a, _, ha, hb, hporf⟩)
    | @tail b c _ hporf ih =>
      obtain ⟨e, he⟩ : ∃ e, g.events[b]? = some e :=
        ⟨_, getElem?_eq_getElem (hends.porf_lt b c hporf).1⟩
      have hpos : g.posAt b = some (e.thread, e.index) := (g.posAt_eq_some b _).mpr ⟨e, he, rfl⟩
      exact .tail (ih _ hpos) ((hordered.before_iff g hends _ _).mpr ⟨b, c, hpos, hb, hporf⟩)

theorem IndexOrdered.past_wellFounded {model : CommunicationModel}
    (h : g.execution.Consistent model) : WellFounded g.execution.Past := by
  have hfinite : {p | g.execution p ≠ none}.Finite := by
    refine (g.events.map fun e => (e.thread, e.index)).finite_toSet.subset fun p hp => ?_
    obtain ⟨id, hid⟩ := (hordered.execution_ne_none_iff g p).mp hp
    obtain ⟨e, he, hpos⟩ := (g.posAt_eq_some id p).mp hid
    exact mem_map.mpr ⟨e, mem_of_getElem? he, hpos⟩
  have : IsStrictOrder Pos g.execution.Past := { irrefl := h.acyclic, trans := fun _ _ _ => Execution.Past.trans }
  have hfounded : {p | g.execution p ≠ none}.WellFoundedOn g.execution.Past := hfinite.wellFoundedOn
  refine Subrelation.wf ?_ (Set.wellFoundedOn_iff.mp hfounded)
  exact fun hpast => ⟨hpast, h.past_ne_none hpast, hpast.target_ne_none⟩

end Edges

theorem ConsistentUnder.execution {g : ExecutionGraph V} {model : CommunicationModel}
    (h : g.ConsistentUnder model) (hordered : g.IndexOrdered)
    (hdense : ∀ thread i, g.execution (thread, i + 1) ≠ none → g.execution (thread, i) ≠ none) :
    g.execution.Consistent model where
  dense := hdense
  assigned := by
    intro p n receive hn hlabel
    obtain ⟨id, -, hnode⟩ := (hordered.execution_eq_some p n).mp hn
    obtain ⟨e, he, rfl⟩ := Option.map_eq_some_iff.mp hnode
    obtain ⟨hassigned, hbottom⟩ := h.async.assigned id e receive he hlabel
    obtain ⟨source, hsource⟩ := Option.ne_none_iff_exists'.mp hassigned
    obtain ⟨q, hq⟩ := g.posSource_ne_none h.async.endpoints hsource
    refine ⟨q, by rw [hsource]; exact hq, fun hblocking hq' => hbottom hblocking ?_⟩
    rw [hsource]
    cases source with
    | bottom => rfl
    | send s =>
      obtain ⟨_, -, rfl⟩ := Option.map_eq_some_iff.mp hq
      cases hq'
  delivered := by
    intro s r hread
    obtain ⟨a, b, ha, hb, hread⟩ := (hordered.reads_iff g h.async.endpoints s r).mp hread
    obtain ⟨⟨er, receive, her, hreceive⟩, hsource⟩ := h.async.endpoints b _ hread
    obtain ⟨es, send, hes, hsend⟩ := hsource a rfl
    obtain ⟨hdest, haccepts⟩ := h.async.delivered a b hread es er send receive hes hsend her hreceive
    refine ⟨_, send, receive, _, (hordered.execution_of_posAt ha).trans (by rw [nodeAt, hes]; rfl), hsend,
      (hordered.execution_of_posAt hb).trans (by rw [nodeAt, her]; rfl), hreceive, ?_, haccepts⟩
    obtain ⟨er', her', rfl⟩ := (g.posAt_eq_some b _).mp hb
    rw [her] at her'
    cases her'
    exact hdest
  exclusive := by
    intro s r r' hread hread'
    obtain ⟨a, b, ha, hb, hread⟩ := (hordered.reads_iff g h.async.endpoints s r).mp hread
    obtain ⟨a', b', ha', hb', hread'⟩ := (hordered.reads_iff g h.async.endpoints s r').mp hread'
    obtain rfl := hordered.posAt_injective ha ha'
    obtain rfl := h.async.exclusive a b b' hread hread'
    exact Option.some.inj (hb.symm.trans hb')
  acyclic := by
    intro p hpast
    obtain ⟨a, b, ha, hb, hpath⟩ := (hordered.past_iff g h.async.endpoints p p).mp hpast
    obtain rfl := hordered.posAt_injective ha hb
    exact h.async.acyclic a hpath
  fifo := by
    intro hmodel s r m receive hread hm hreceive j n send hlt hn hsend hdest haccepts
    obtain ⟨a, b, ha, hb, hedge⟩ := (hordered.reads_iff g h.async.endpoints s r).mp hread
    obtain ⟨a', ha', hnode⟩ := (hordered.execution_eq_some _ n).mp hn
    obtain ⟨es', hes', rfl⟩ := Option.map_eq_some_iff.mp hnode
    obtain ⟨⟨er, receive', her, hreceive'⟩, hsource⟩ := h.async.endpoints b _ hedge
    obtain ⟨es, send', hes, hsend'⟩ := hsource a rfl
    obtain ⟨hdestination', -⟩ := h.async.delivered a b hedge es er send' receive' hes hsend' her hreceive'
    obtain ⟨es'', hes'', hpos'⟩ := (g.posAt_eq_some a' _).mp ha'
    obtain rfl : es'' = es' := Option.some.inj (hes''.symm.trans hes')
    obtain ⟨esₐ, hesₐ, rfl⟩ := (g.posAt_eq_some a _).mp ha
    obtain rfl : esₐ = es := Option.some.inj (hesₐ.symm.trans hes)
    obtain ⟨erb, herb, rfl⟩ := (g.posAt_eq_some b _).mp hb
    obtain rfl : erb = er := Option.some.inj (herb.symm.trans her)
    obtain ⟨hthread', hindex'⟩ := Prod.mk.inj hpos'
    have hreceive : receive' = receive := by
      rw [hordered.execution_event her] at hm
      cases hm
      exact EventLabel.receive.inj (hreceive'.symm.trans hreceive)
    subst hreceive
    have hchannel : g.channel? a' = g.channel? a := by
      rw [(g.channel?_eq_some a' _).mpr ⟨es'', send, hes', hsend, rfl⟩,
        (g.channel?_eq_some a _).mpr ⟨esₐ, send', hes, hsend', rfl⟩]
      exact congrArg some (Prod.ext hthread' (hdest.trans hdestination'.symm))
    have hbefore : a' < a :=
      ((hordered.programOrder_iff g a' a).mp ⟨es'', esₐ, hes', hes, hthread', by rw [hindex']; exact hlt⟩).1
    have hlabel : es''.label = .send send := hsend
    obtain ⟨b', hread', hpo⟩ := h.fifo hmodel a b hedge a' hchannel hbefore (by
      unfold consumerAccepts
      simp [her, hreceive', hes', hlabel, haccepts, EventLabel.asReceive, EventLabel.asSend])
    obtain ⟨er', erb', her', herb', hthread, hindex⟩ := hpo
    obtain rfl : erb' = erb := Option.some.inj (herb'.symm.trans her)
    refine ⟨er'.index, hindex, (hordered.reads_iff g h.async.endpoints _ _).mpr ⟨a', b', ?_, ?_, hread'⟩⟩
    · exact ha'
    · exact (g.posAt_eq_some b' _).mpr ⟨er', her', by rw [hthread]⟩

theorem AsyncConsistent.fifoConsistent {g : ExecutionGraph V} (h : g.AsyncConsistent) (hordered : g.IndexOrdered)
    (hfifo : ∀ s r m receive, g.execution.Reads s r → g.execution r = some m → m.label = .receive receive →
      ∀ j n send, j < s.2 → g.execution (s.1, j) = some n → n.label = .send send → send.destination = r.1 →
        receive.accepts send.value = true → ∃ k, k < r.2 ∧ g.execution.Reads (s.1, j) (r.1, k)) :
    g.FifoConsistent := by
  intro s r hread s' hchannel hlt haccepts
  obtain ⟨er, es', receive, send', her, hes', hreceive, hsend', haccepts⟩ := (consumerAccepts_iff g r s').mp haccepts
  obtain ⟨es, send, hes, hsend⟩ := (h.endpoints r _ hread).2 s rfl
  have hdest := (h.delivered s r hread es er send receive hes hsend her hreceive).1
  rw [(g.channel?_eq_some s' _).mpr ⟨es', send', hes', hsend', rfl⟩,
    (g.channel?_eq_some s _).mpr ⟨es, send, hes, hsend, rfl⟩] at hchannel
  obtain ⟨hthread, hsame⟩ := Prod.mk.inj (Option.some.inj hchannel)
  have hpos (id : ℕ) (e : Event V) (he : g.events[id]? = some e) : g.posAt id = some (e.thread, e.index) :=
    (g.posAt_eq_some id _).mpr ⟨e, he, rfl⟩
  obtain ⟨k, hk, hread'⟩ := hfifo (es.thread, es.index) (er.thread, er.index) _ receive
    ((hordered.reads_iff g h.endpoints _ _).mpr ⟨s, r, hpos s es hes, hpos r er her, hread⟩)
    (hordered.execution_event her) hreceive es'.index _ send' (hordered s' s es' es hlt hes' hes hthread)
    (hthread ▸ hordered.execution_event hes') hsend' (hsame.trans hdest) haccepts
  obtain ⟨a, b, ha, hb, hedge⟩ := (hordered.reads_iff g h.endpoints _ _).mp hread'
  obtain rfl := hordered.posAt_injective ha (hthread ▸ hpos s' es' hes')
  obtain ⟨eb, heb, hplace⟩ := (g.posAt_eq_some b _).mp hb
  obtain ⟨hthread', rfl⟩ := Prod.mk.inj hplace
  exact ⟨b, hedge, eb, er, heb, her, hthread', hk⟩

end ExecutionGraph
end MustDpor

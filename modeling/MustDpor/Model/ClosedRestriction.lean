import MustDpor.Model.InducedSubgraph

/-! # Restriction to a closed set of events

Where a keep mask keeps, with an event, the earlier events of its thread, `restrict_from_keep_mask` gives
the kept events back as they were: index by index, with the reads-from relation carried along the new
ids. -/

namespace MustDpor
set_option autoImplicit false
open List

variable {V : Type}

/-- With an event, the earlier events of its thread are kept. -/
def ThreadClosed (events : List (Event V)) (keepMask : List Bool) : Prop :=
  ∀ a b ea eb, a < b → events[a]? = some ea → events[b]? = some eb → ea.thread = eb.thread →
    keepMask.getD b false = true → keepMask.getD a false = true

theorem getD_concat_left {mask : List Bool} (b : Bool) {i : ℕ} (hi : i < mask.length) :
    (mask ++ [b]).getD i false = mask.getD i false := by
  rw [getD_eq_getElem?_getD, getD_eq_getElem?_getD, getElem?_append_left hi]

theorem ThreadClosed.of_concat {events : List (Event V)} {e : Event V} {mask : List Bool} {b : Bool}
    (hlen : events.length = mask.length) (h : ThreadClosed (events ++ [e]) (mask ++ [b])) :
    ThreadClosed events mask := by
  intro i j ei ej hlt hi hj hthread hkept
  have hjlt := lt_of_getElem? hj
  have hilt := lt_of_getElem? hi
  have := h i j ei ej hlt (by rw [getElem?_append_left hilt]; exact hi)
    (by rw [getElem?_append_left hjlt]; exact hj) hthread
    (by rw [getD_concat_left _ (hlen ▸ hjlt)]; exact hkept)
  rwa [getD_concat_left _ (hlen ▸ hilt)] at this

theorem Numbered.select (events : List (Event V)) (mask : List Bool) (hlen : events.length = mask.length)
    (h : Numbered events) (hclosed : ThreadClosed events mask) : Numbered (select events mask) := by
  induction events using reverseRecOn generalizing mask with
  | nil => exact Numbered.nil
  | append_singleton events e ih =>
    obtain ⟨hevents, hindex, hbounds⟩ := (numbered_concat events e).mp h
    obtain ⟨mask, b, rfl⟩ : ∃ mask' b, mask = mask' ++ [b] := by
      cases mask using reverseRecOn with
      | nil => simp at hlen
      | append_singleton mask b => exact ⟨mask, b, rfl⟩
    have hlen' : events.length = mask.length := by simpa using hlen
    have hrest := ih mask hlen' hevents (hclosed.of_concat hlen')
    rw [select_concat e b hlen']
    cases b with
    | false => simpa using hrest
    | true =>
      refine (numbered_concat _ e).mpr ⟨hrest, ?_, hbounds⟩
      -- the event itself is kept, so the earlier events of its thread are
      have hcount : (MustDpor.select events mask).countP (inThread e.thread) =
          events.countP (inThread e.thread) := by
        refine countP_select fun i a ha hin => ?_
        have hilt := lt_of_getElem? ha
        have := hclosed i events.length a e hilt (by rw [getElem?_append_left hilt]; exact ha)
          getElem?_concat_length (by simpa [inThread] using hin)
          (by rw [hlen', getD_eq_getElem?_getD, getElem?_concat_length]; rfl)
        rwa [getD_concat_left _ (hlen' ▸ hilt)] at this
      rw [hindex]
      exact hcount.symm

namespace ExplorationGraph

theorem threadCount_shape (events : List (Event V)) (tid : ℕ) :
    threadCount events tid = (events.map shape).countP fun s => decide (s.1 = tid) := by
  rw [countP_map]
  rfl

theorem numbered_ext {events others : List (Event V)} (h : Numbered events) (hothers : Numbered others)
    (hshape : events.map shape = others.map shape) : events = others := by
  apply ext_getElem?
  intro id
  have hat : (events[id]?).map shape = (others[id]?).map shape := by
    rw [← getElem?_map, hshape, getElem?_map]
  cases he : events[id]? with
  | none =>
    rw [he, Option.map_none] at hat
    exact (Option.map_eq_none_iff.mp hat.symm).symm
  | some e =>
    rw [he] at hat
    obtain ⟨e', he', hsame⟩ := Option.map_eq_some_iff.mp hat.symm
    have hthread : e'.thread = e.thread := congrArg Prod.fst hsame
    have hlabel : e'.label = e.label := congrArg Prod.snd hsame
    have hindex : e'.index = e.index := by
      rw [(h id e he).1, (hothers id e' he').1, hthread, threadCount_shape, threadCount_shape, map_take,
        map_take, hshape]
    rw [he']
    cases e
    cases e'
    simp only at hthread hlabel hindex
    rw [hthread, hlabel, hindex]

/-! ## The restriction -/

/-- A rebuilt graph with the kept events as they were. -/
structure Selects (g : ExplorationGraph V) (keepMask : List Bool) (g' : ExplorationGraph V) : Prop where
  size : keepMask.length = g.eventCount
  tabulated : g'.Tabulated
  counted : g'.Counted
  events : g'.graph.events = select g.graph.events keepMask

/-- A restriction to a closed set of events, under the new ids. -/
structure RestrictsTo (g : ExplorationGraph V) (keepMask : List Bool) (g' : ExplorationGraph V) : Prop
    extends Selects g keepMask g' where
  reads : ∀ id newId, remapId keepMask id = some newId →
    g'.graph.readsFrom.find newId = (g.graph.readsFrom.find id).bind (remapSource keepMask)
  no_reads : ∀ newId, (∀ id, remapId keepMask id ≠ some newId) → g'.graph.readsFrom.find newId = none
  flag : g'.knownAcyclic = g.knownAcyclic

theorem RestrictsTo.induces {g g' : ExplorationGraph V} {mask : List Bool} (h : g.RestrictsTo mask g') :
    g.Induces mask g' :=
  ⟨h.size, h.tabulated, h.counted, congrArg _ h.events, h.reads, h.no_reads, h.flag⟩

theorem Induces.restrictsTo (g g' : ExplorationGraph V) (mask : List Bool) (ht : g.Tabulated)
    (h : g.Induces mask g') (hclosed : ThreadClosed g.graph.events mask) : g.RestrictsTo mask g' where
  size := h.size
  tabulated := h.tabulated
  counted := h.counted
  events := numbered_ext h.tabulated.numbered (ht.numbered.select g.graph.events mask h.size.symm hclosed)
    h.shapes
  reads := h.reads
  no_reads := h.no_reads
  flag := h.flag

theorem Tabulated.restrictMasked_ok {g : ExplorationGraph V} (h : g.Tabulated)
    (hends : g.graph.ValidEndpoints) {mask : List Bool} (hlen : mask.length = g.eventCount)
    (hclosed : ThreadClosed g.graph.events mask) :
    ∃ g', g.restrictMasked mask = .ok g' ∧ g.RestrictsTo mask g' := by
  obtain ⟨g', hrestrict, hinduces⟩ := h.restrictMasked_induces g (readsExist_of_validEndpoints g hends)
    mask hlen
  exact ⟨g', hrestrict, hinduces.restrictsTo g g' mask h hclosed⟩

section Selected
variable {g g' : ExplorationGraph V} {mask : List Bool} (h : g.Selects mask g')
include h

theorem Selects.event (id newId : ℕ) (hid : remapId mask id = some newId) :
    g'.graph.events[newId]? = g.graph.events[id]? := by
  rw [h.events]
  exact getElem?_select g.graph.events mask id newId hid

theorem Selects.exists_old {newId : ℕ} (hnew : newId < g'.eventCount) :
    ∃ id, id < g.eventCount ∧ remapId mask id = some newId :=
  exists_of_lt_select g.graph.events mask newId (by rw [← h.events]; exact hnew)

theorem Selects.lt_eventCount {id newId : ℕ} (hid : remapId mask id = some newId) :
    newId < g'.eventCount := by
  have hkept := marked_of_place mask id newId hid
  have hlt : id < mask.length := by
    by_contra hge
    rw [getD_eq_getElem?_getD, getElem?_eq_none (not_lt.mp hge)] at hkept
    cases hkept
  have := place_lt_length g.graph.events mask id newId (hlt.trans_eq h.size) hid
  rwa [← h.events] at this

theorem Selects.programOrder_iff {a b newA newB : ℕ} (ha : remapId mask a = some newA)
    (hb : remapId mask b = some newB) :
    g'.graph.ProgramOrder newA newB ↔ g.graph.ProgramOrder a b := by
  unfold ExecutionGraph.ProgramOrder
  rw [h.event a newA ha, h.event b newB hb]

end Selected

end ExplorationGraph
end MustDpor

import MustDpor.Model.Rollback

/-! # What a restriction keeps

`restrict_from_keep_mask` rebuilds the kept events in order: threads and labels stay, event ids and
indices are handed out afresh. -/

namespace MustDpor
set_option autoImplicit false
open List WorkerGraph

namespace ExplorationGraph
variable {V : Type}

/-- Thread and label of an event, which a rebuild does not change. -/
def shape (e : Event V) : ℕ × EventLabel V := (e.thread, e.label)

variable {g g' : ExplorationGraph V}

theorem assignReadsFrom_events {recv : ℕ} {source : ReadsFromSource}
    (h : g.assignReadsFrom recv source = .ok g') : g'.graph.events = g.graph.events := by
  obtain ⟨a, b, known, pending, ha, hb, rfl⟩ := assignReadsFrom_inv h
  have hag := (adjust_same ha).1
  have hbg := (adjust_same hb).1
  show b.graph.events = g.graph.events
  rw [hbg, hag]

variable {mask : List Bool}

theorem remapReadsFrom_events {entries : List (ℕ × ReadsFromSource)} (h : remapReadsFrom mask entries g = .ok g') :
    g'.graph.events = g.graph.events :=
  remapReadsFrom_keeps (fun a => a.graph.events = g.graph.events)
    (fun _ _ _ _ ha hb => (assignReadsFrom_events hb).trans ha)
    mask entries g g' rfl h

variable (events : List (Event V))

theorem bulkBuild_shape (g g' : ExplorationGraph V) (h : bulkBuild events g = .ok g') :
    g'.graph.events.map shape = g.graph.events.map shape ++ events.map shape := by
  induction events generalizing g with
  | nil =>
    cases h
    simp
  | cons e rest ih =>
    rw [bulkBuild_cons] at h
    obtain ⟨⟨id, a⟩, ha, h⟩ := Except.bind_ok_iff.mp h
    obtain ⟨index, _, _, rfl⟩ := addEvent_inv ha
    rw [ih _ h, appended_events]
    simp [shape]

theorem restrictMasked_shape (h : g.restrictMasked mask = .ok g') :
    g'.graph.events.map shape = (keptEvents g.events mask).map shape := by
  obtain ⟨_, built, remapped, hb, hr, rfl⟩ := restrictMasked_inv h
  have hshape := bulkBuild_shape _ _ built hb
  have hevents := remapReadsFrom_events hr
  show remapped.graph.events.map shape = _
  rw [hevents, hshape]
  rfl

/-! ## Block events -/

def blockCount (g : ExplorationGraph V) : ℕ := g.graph.events.countP (fun e => e.label.isBlock)

theorem blockCount_eq (g : ExplorationGraph V) :
    g.blockCount = (g.graph.events.map shape).countP (fun s => s.2.isBlock) := by
  unfold blockCount
  rw [countP_map]
  rfl

theorem countP_keptEvents_le (mask : List Bool) (p : Event V → Bool) :
    (keptEvents events mask).countP p ≤ events.countP p := by
  induction events generalizing mask with
  | nil => simp [keptEvents]
  | cons e events ih =>
    cases mask with
    | nil => simp [keptEvents]
    | cons b mask =>
      have hrest := ih mask
      unfold keptEvents at hrest ⊢
      cases b with
      | true =>
        simp only [zip_cons_cons, filter_cons_of_pos, map_cons, countP_cons]
        omega
      | false =>
        simp only [zip_cons_cons, Bool.false_eq_true, not_false_eq_true, filter_cons_of_neg,
          countP_cons]
        omega

theorem countP_keptEvents_lt (mask : List Bool) (p : Event V → Bool)
    (id : ℕ) (e : Event V) (he : events[id]? = some e) (hp : p e = true) (hmask : mask[id]? = some false) :
    (keptEvents events mask).countP p < events.countP p := by
  induction events generalizing mask id with
  | nil => simp at he
  | cons a events ih =>
    cases mask with
    | nil => simp at hmask
    | cons b mask =>
      cases id with
      | zero =>
        obtain rfl : a = e := by simpa using he
        obtain rfl : b = false := by simpa using hmask
        have hle := countP_keptEvents_le events mask p
        unfold keptEvents at hle ⊢
        simp only [zip_cons_cons, Bool.false_eq_true, not_false_eq_true, filter_cons_of_neg,
          countP_cons, hp, if_true]
        omega
      | succ id =>
        have hrest := ih mask id (by simpa using he) (by simpa using hmask)
        unfold keptEvents at hrest ⊢
        cases b with
        | true =>
          simp only [zip_cons_cons, filter_cons_of_pos, map_cons, countP_cons]
          omega
        | false =>
          simp only [zip_cons_cons, Bool.false_eq_true, not_false_eq_true,
            filter_cons_of_neg, countP_cons]
          omega

theorem restrictMasked_blockCount_le (h : g.restrictMasked mask = .ok g') : g'.blockCount ≤ g.blockCount := by
  rw [blockCount_eq, restrictMasked_shape h, countP_map]
  exact countP_keptEvents_le g.events mask _

theorem restrictMasked_blockCount_lt {id : ℕ} (hblock : g.isBlockId id = true) (hmask : mask[id]? = some false)
    (h : g.restrictMasked mask = .ok g') : g'.blockCount < g.blockCount := by
  rw [blockCount_eq, restrictMasked_shape h, countP_map]
  unfold isBlockId label? at hblock
  cases he : g.graph.events[id]? with
  | none =>
    rw [he] at hblock
    cases hblock
  | some e =>
    rw [he] at hblock
    exact countP_keptEvents_lt g.events mask _ id e he hblock hmask

theorem appended_blockCount_le (g : ExplorationGraph V) (thread index : ℕ) (label : EventLabel V) :
    (g.appended thread index label).blockCount ≤ g.blockCount + 1 := by
  unfold blockCount
  rw [appended_events, countP_append]
  have : [(⟨thread, index, label⟩ : Event V)].countP (fun e => e.label.isBlock) ≤ 1 :=
    countP_le_length
  omega

end ExplorationGraph

theorem WorkerGraph.rebindRf_events {V : Type} {w w' : WorkerGraph V} {recv send : ℕ}
    {preserve : Bool} (h : w.rebindRf recv send preserve = .ok w') :
    w'.graph.graph.events = w.graph.graph.events := by
  obtain ⟨_, _, a, b, ha, hb, rfl⟩ := rebindRf_inv h
  show b.graph.events = w.graph.graph.events
  rw [(adjust_same hb).1, (adjust_same ha).1]

end MustDpor

import MustDpor.Algo.Tiebreaker

/-! # The revisit condition

On a consistent graph whose last event is an unread send `s`, every query behind a backward revisit
returns, and decides a property of the graph: membership in Previous(e, s), and for an event that does not
reach `s` the condition under which it may be deleted or revisited. -/

namespace MustDpor
set_option autoImplicit false
open List

variable {V : Type}

/-- The graphs on which backward revisits are looked for. -/
structure FreshSend (g : ExplorationGraph V) (communicationModel : CommunicationModel) (s : ℕ) : Prop where
  tabulated : g.Tabulated
  consistent : g.graph.ConsistentUnder communicationModel
  last : s + 1 = g.eventCount
  send : ∃ es send, g.graph.events[s]? = some es ∧ es.label = .send send
  unread : ∀ r, ¬ g.graph.ReadsFrom s r

def Previous (g : ExplorationGraph V) (e s ep : ℕ) : Prop :=
  ep ≤ e ∨ Relation.TransGen g.graph.Porf ep s

theorem Except.mapM_ok {α β ε : Type} {f : α → Except ε β} {P : α → β → Prop} {l : List α}
    (h : ∀ a ∈ l, ∃ b, f a = .ok b ∧ P a b) : ∃ bs, l.mapM f = .ok bs ∧ List.Forall₂ P l bs := by
  induction l with
  | nil => exact ⟨[], rfl, .nil⟩
  | cons a rest ih =>
    obtain ⟨b, hb, hP⟩ := h a mem_cons_self
    obtain ⟨bs, hbs, hrest⟩ := ih fun a' ha' => h a' (mem_cons_of_mem _ ha')
    refine ⟨b :: bs, ?_, .cons hP hrest⟩
    rw [mapM_cons, hb]
    show (rest.mapM f >>= _) = _
    rw [hbs]
    rfl

variable {mask : List Bool}

theorem keeps_of_forall₂ {P : ℕ → Prop} {n : ℕ} (h : List.Forall₂ (fun id b => b = true ↔ P id) (range n) mask) :
    mask.length = n ∧ ∀ id, MaskedPorfContext.keeps mask id = true ↔ id < n ∧ P id := by
  have hlength : mask.length = n := by rw [← h.length_eq, length_range]
  refine ⟨hlength, fun id => ?_⟩
  unfold MaskedPorfContext.keeps
  rw [getD_eq_getElem?_getD]
  by_cases hid : id < n
  · have hmask : id < mask.length := hlength ▸ hid
    have := (forall₂_iff_get.mp h).2 id (by rw [length_range]; exact hid) hmask
    rw [getElem?_eq_getElem hmask, Option.getD_some]
    simp only [get_eq_getElem, getElem_range] at this
    rw [this]
    exact (and_iff_right hid).symm
  · rw [getElem?_eq_none (hlength ▸ not_lt.mp hid)]
    exact iff_of_false (nomatch ·) fun hP => hid hP.1

theorem insertedBeforeOrEqual_ok {g : ExplorationGraph V} {a b : ℕ} (ha : a < g.eventCount)
    (hb : b < g.eventCount) : g.insertedBeforeOrEqual a b = .ok (decide (a ≤ b)) := by
  unfold ExplorationGraph.insertedBeforeOrEqual
  rw [if_neg (by omega)]

section Previous
variable {g : ExplorationGraph V} (ht : g.Tabulated)
include ht

theorem Previous.closed (e s a b : ℕ) (hpo : g.graph.ProgramOrder a b) (hb : Previous g e s b) :
    Previous g e s a := by
  have hlt := (((ht.indexOrdered g).programOrder_iff g.graph a b).mp hpo).1
  rcases hb with hle | hpath
  · exact .inl (le_of_lt (lt_of_lt_of_le hlt hle))
  · exact .inr (.head (.inl hpo) hpath)

variable (hsane : g.Sane) {e s : ℕ} (he : e < g.eventCount) (hs : s < g.eventCount)
include hsane he hs

theorem previous_ok {ep : ℕ} (hep : ep < g.eventCount) :
    ∃ found, (do
      if ← g.insertedBeforeOrEqual ep e then return true
      else g.porfContains ep s) = Except.ok found ∧ (found = true ↔ Previous g e s ep) := by
  rw [insertedBeforeOrEqual_ok hep he]
  by_cases hle : ep ≤ e
  · refine ⟨true, ?_, iff_of_true rfl (.inl hle)⟩
    simp [hle, bind, Except.bind, pure, Except.pure]
  · obtain ⟨found, hfound, hiff⟩ := ht.porfContains_ok g hsane.endpoints hsane.acyclic ep s hep hs
    refine ⟨found, ?_, ?_⟩
    · simp [hle, bind, Except.bind, hfound]
    · rw [hiff]
      exact ⟨.inr, fun hprevious => hprevious.resolve_left hle⟩

theorem computePreviousSet_ok :
    ∃ mask, computePreviousSet g e s = .ok mask ∧ mask.length = g.eventCount ∧
      ∀ ep, MaskedPorfContext.keeps mask ep = true ↔ ep < g.eventCount ∧ Previous g e s ep := by
  obtain ⟨mask, hmask, hall⟩ := Except.mapM_ok
    (fun ep hep => previous_ok ht hsane he hs (mem_range.mp hep))
  exact ⟨mask, hmask, keeps_of_forall₂ hall⟩

end Previous

section Fresh
variable {g : ExplorationGraph V} {model : CommunicationModel} {s : ℕ} (h : FreshSend g model s)
include h

theorem FreshSend.indexOrdered : g.graph.IndexOrdered := h.tabulated.indexOrdered g

theorem FreshSend.sane : g.Sane := ⟨h.consistent.async.endpoints, h.consistent.async.acyclic⟩

theorem FreshSend.lt_eventCount : s < g.eventCount := by
  rw [← h.last]
  exact Nat.lt_succ_self s

theorem FreshSend.reaches_ok {a : ℕ} (ha : a < g.eventCount) :
    ∃ found, g.porfContains a s = .ok found ∧ (found = true ↔ Relation.TransGen g.graph.Porf a s) :=
  h.tabulated.porfContains_ok g h.sane.endpoints h.sane.acyclic a s ha h.lt_eventCount

theorem FreshSend.inPrevious_ok (e ep : ℕ) (he : e < g.eventCount) :
    ∃ found, inPrevious g e s ep = .ok found ∧ (found = true ↔ ep < g.eventCount ∧ Previous g e s ep) := by
  unfold inPrevious
  by_cases hep : g.eventCount ≤ ep
  · rw [if_pos hep]
    exact ⟨false, rfl, iff_of_false Bool.false_ne_true fun hlt => absurd hlt.1 (not_lt.mpr hep)⟩
  · rw [if_neg hep]
    obtain ⟨found, hfound, hiff⟩ := previous_ok h.tabulated h.sane he h.lt_eventCount (not_le.mp hep)
    exact ⟨found, hfound, hiff.trans (and_iff_right (not_le.mp hep)).symm⟩

theorem FreshSend.readInPrevious_ok {e : ℕ} (he : e < g.eventCount) {entries : List (ℕ × ReadsFromSource)}
    (hentries : ∀ entry ∈ entries, g.graph.readsFrom.find entry.1 = some entry.2) :
    ∃ found, readInPrevious g e s entries = .ok found ∧
      (found = true ↔ ∃ r, (r, .send e) ∈ entries ∧ Previous g e s r) := by
  induction entries with
  | nil => exact ⟨false, rfl, iff_of_false Bool.false_ne_true (by rintro ⟨r, hr, -⟩; cases hr)⟩
  | cons entry rest ih =>
    obtain ⟨r, source⟩ := entry
    obtain ⟨found, hfound, hiff⟩ := ih fun entry hentry => hentries entry (mem_cons_of_mem _ hentry)
    have hfind := hentries (r, source) mem_cons_self
    unfold readInPrevious
    by_cases hsource : source = .send e
    · subst hsource
      rw [if_pos rfl]
      obtain ⟨er, receive, her, hreceive⟩ := (h.consistent.async.endpoints r _ hfind).1
      have hevent : g.event r = .ok er := by
        unfold ExplorationGraph.event ExecutionGraph.event
        rw [her]
      have hlt : r < g.eventCount := lt_of_getElem? her
      obtain ⟨inside, hinside, hprevious⟩ := h.inPrevious_ok e r he
      have hlabel : er.label.isReceive = true := (EventLabel.isReceive_iff _).mpr ⟨receive, hreceive⟩
      rw [and_iff_right hlt] at hprevious
      by_cases htrue : inside = true
      · refine ⟨true, ?_, iff_of_true rfl ⟨r, mem_cons_self, hprevious.mp htrue⟩⟩
        simp [hevent, hlabel, hinside, htrue, bind, Except.bind, pure, Except.pure]
      · refine ⟨found, ?_, hiff.trans ?_⟩
        · simp [hevent, hlabel, hinside, htrue, bind, Except.bind, hfound]
        · constructor
          · exact fun ⟨r', hr', hp⟩ => ⟨r', mem_cons_of_mem _ hr', hp⟩
          · rintro ⟨r', hr', hp⟩
            rcases mem_cons.mp hr' with heq | hr'
            · cases heq
              exact absurd (hprevious.mpr hp) htrue
            · exact ⟨r', hr', hp⟩
    · rw [if_neg hsource]
      refine ⟨found, hfound, hiff.trans ?_⟩
      constructor
      · exact fun ⟨r', hr', hp⟩ => ⟨r', mem_cons_of_mem _ hr', hp⟩
      · rintro ⟨r', hr', hp⟩
        rcases mem_cons.mp hr' with heq | hr'
        · cases heq
          exact absurd rfl hsource
        · exact ⟨r', hr', hp⟩

theorem FreshSend.endsAt {e src : ℕ} (he : ¬ Relation.TransGen g.graph.Porf e s)
    (hread : g.graph.ReadsFrom src e) (hsource : Previous g e s src) (hlength : mask.length = g.eventCount)
    (hmask : ∀ ep, MaskedPorfContext.keeps mask ep = true ↔ ep < g.eventCount ∧ Previous g e s ep) :
    EndsAt g mask e src where
  size := hlength
  closed := by
    intro a b hpo hb
    exact (hmask a).mpr ⟨(hpo.lt_length g.graph).1, Previous.closed h.tabulated e s a b hpo ((hmask b).mp hb).2⟩
  receive := by
    have hlt := (h.consistent.async.endpoints.porf_lt src e (.inr hread)).2
    exact (hmask e).mpr ⟨hlt, .inl (le_refl e)⟩
  source := (hmask src).mpr ⟨(h.consistent.async.endpoints.porf_lt src e (.inr hread)).1, hsource⟩
  reads := hread
  last := by
    intro b hpo
    by_contra hkept
    obtain ⟨-, hprevious⟩ := (hmask b).mp (Bool.not_eq_false _ ▸ hkept)
    have hlt := ((h.indexOrdered.programOrder_iff g.graph e b).mp hpo).1
    rcases hprevious with hle | hpath
    · exact absurd hlt (not_lt.mpr hle)
    · exact he (.head (.inl hpo) hpath)

end Fresh

/-! ## What the condition says -/

/-- The sources that `e` may read in G restricted to Previous(e, s). -/
def PreviousSource (g : ExplorationGraph V) (e s c : ℕ) : Prop :=
  Deliverable g c e ∧
    (g.graph.ReadsFrom c e ∨ (Previous g e s c ∧ ∀ r, Previous g e s r → ¬ g.graph.ReadsFrom c r))

/-- A receive has the source it would get first, a choice its least value, and nothing in Previous(e, s)
reads any other event. -/
def MeetsRevisitCondition [LinearOrder V] (g : ExplorationGraph V) (e s : ℕ) : EventLabel V → Prop
  | .receive receive =>
    if receive.isNonblocking then g.graph.readsFrom.find e = some .bottom
    else ∃ src, g.graph.ReadsFrom src e ∧ Previous g e s src ∧
      ∀ other, PreviousSource g e s other → candidateLe g src other
  | .nondeterministicChoice nd => isMinimalChoice nd = true
  | _ => ∀ r, Previous g e s r → ¬ g.graph.ReadsFrom e r

theorem FreshSend.admissibleSource_iff {g : ExplorationGraph V} {model : CommunicationModel} {s : ℕ}
    (h : FreshSend g model s) {e : ℕ}
    (hmask : ∀ ep, MaskedPorfContext.keeps mask ep = true ↔ ep < g.eventCount ∧ Previous g e s ep) (c : ℕ) :
    AdmissibleSource g mask e c ↔ PreviousSource g e s c := by
  unfold AdmissibleSource PreviousSource
  refine and_congr_right fun hdeliver => or_congr_right ?_
  obtain ⟨_, _, _, _, hcompat⟩ := hdeliver
  obtain ⟨es, -, hes, -⟩ := (compatibleSend_iff g _ _ c).mp hcompat
  have hlt : c < g.eventCount := lt_of_getElem? hes
  rw [hmask c, and_iff_right hlt]
  refine and_congr_right fun _ => forall_congr' fun r => ?_
  constructor
  · intro hnone hprevious hread
    have hr := (h.consistent.async.endpoints.porf_lt c r (.inr hread)).2
    exact hnone ((hmask r).mpr ⟨hr, hprevious⟩) hread
  · exact fun hnone hkept => hnone ((hmask r).mp hkept).2

theorem FreshSend.revisitCondition_ok [LinearOrder V] {g : ExplorationGraph V}
    {model : CommunicationModel} {s : ℕ} (h : FreshSend g model s) {e : ℕ}
    (evt : Event V) (hevt : g.graph.events[e]? = some evt) (he : ¬ Relation.TransGen g.graph.Porf e s) :
    ∃ passes, revisitCondition g e s model = .ok passes ∧
      (passes = true ↔ MeetsRevisitCondition g e s evt.label) := by
  have hlt : e < g.eventCount := lt_of_getElem? hevt
  have hevent : g.event e = .ok evt := by
    unfold ExplorationGraph.event ExecutionGraph.event
    rw [hevt]
  have hother : ∃ found, readInPrevious g e s g.readsFrom.entries = .ok found ∧
      ((!found) = true ↔ ∀ r, Previous g e s r → ¬ g.graph.ReadsFrom e r) := by
    obtain ⟨found, hfound, hiff⟩ := h.readInPrevious_ok hlt
      fun entry hentry => AscendingMap.mem_entries.mp hentry
    refine ⟨found, hfound, ?_⟩
    rw [Bool.not_eq_true', ← Bool.not_eq_true, hiff]
    constructor
    · exact fun hnone r hprevious hread => hnone ⟨r, AscendingMap.mem_entries.mpr hread, hprevious⟩
    · rintro hnone ⟨r, hr, hprevious⟩
      exact hnone r hprevious (AscendingMap.mem_entries.mp hr)
  unfold revisitCondition
  simp only [hevent, bind, Except.bind, pure, Except.pure]
  cases hlabel : evt.label with
  | receive receive =>
    obtain ⟨hassigned, hbottom⟩ := h.consistent.async.assigned e evt receive hevt hlabel
    obtain ⟨source, hsource⟩ := Option.ne_none_iff_exists'.mp hassigned
    have hfind : g.readsFrom.find e = some source := hsource
    unfold MeetsRevisitCondition
    dsimp only
    by_cases hmode : receive.isNonblocking = true
    · refine ⟨decide (source = .bottom), by simp only [hmode, if_true, hfind], ?_⟩
      rw [if_pos hmode, hsource, Option.some.injEq, decide_eq_true_eq]
    · have hblocking : receive.isBlocking = true := by
        rw [ReceiveLabel.isNonblocking_eq, Bool.not_eq_true, Bool.not_eq_false'] at hmode
        exact hmode
      simp only [hmode, hfind]
      obtain ⟨inside, hinside, hself⟩ := h.inPrevious_ok e e hlt
      obtain rfl : inside = true := hself.mpr ⟨hlt, .inl (le_refl e)⟩
      simp only [hinside, Bool.not_true, Bool.false_eq_true, if_false]
      cases source with
      | bottom => exact absurd hsource (hbottom hblocking)
      | send src =>
        have hread : g.graph.ReadsFrom src e := hsource
        have hunique (other : ℕ) (hother : g.graph.ReadsFrom other e) : other = src := by
          have := hother.symm.trans hread
          cases this
          rfl
        have hsrc : src < g.eventCount := (h.consistent.async.endpoints.porf_lt src e (.inr hread)).1
        obtain ⟨kept, hkept, hiff⟩ := h.inPrevious_ok e src hlt
        rw [and_iff_right hsrc] at hiff
        dsimp only
        simp only [hkept]
        by_cases hin : kept = true
        · obtain ⟨mask, hprevious, hlength, hmask⟩ := computePreviousSet_ok h.tabulated h.sane hlt h.lt_eventCount
          obtain ⟨c, htiebreaker, hc, hleast⟩ := (h.endsAt he hread (hiff.mp hin) hlength hmask).tiebreaker_ok h.consistent h.indexOrdered hevt hlabel hblocking
          refine ⟨decide (src = c), by simp only [hin, hprevious, htiebreaker, Bool.not_true, Bool.false_eq_true,
            if_false], ?_⟩
          rw [decide_eq_true_eq]
          constructor
          · rintro rfl
            exact ⟨src, hread, hiff.mp hin, fun other hother =>
              hleast other ((h.admissibleSource_iff hmask other).mpr hother)⟩
          · rintro ⟨src', hread', -, hleast'⟩
            obtain rfl := hunique src' hread'
            refine candidateLe_antisymm g (hleast' c ?_) (hleast src' ⟨?_, .inl hread'⟩)
            · exact (h.admissibleSource_iff hmask c).mp hc
            · exact (h.endsAt he hread' (hiff.mp hin) hlength hmask).deliverable_source h.consistent.async
        · refine ⟨false, by simp only [hin, Bool.not_false, if_true], ?_⟩
          refine iff_of_false Bool.false_ne_true ?_
          rintro ⟨src', hread', hprevious, -⟩
          obtain rfl := hunique src' hread'
          exact hin (hiff.mpr hprevious)
  | nondeterministicChoice nd => exact ⟨_, rfl, Iff.rfl⟩
  | send | block | error =>
    obtain ⟨found, hfound, hiff⟩ := hother
    exact ⟨!found, by simp only [hfound], hiff⟩

end MustDpor

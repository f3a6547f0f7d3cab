import MustDpor.Model.Causality
import MustDpor.Model.Readers

/-! # What the asynchronous checker decides

The validation pass folds over the reads-from entries and then over the events. One entry adds issues
exactly when it is not in order by itself or names a send that was read before; the eight-bit counter
saturates long after the answer to "read before?" is settled. -/

namespace MustDpor
set_option autoImplicit false
open List Function

variable {V : Type}

variable (g : ExecutionGraph V)

namespace ExecutionGraph

/-! ## Asynchronous consistency -/

/-- Every entry maps an existing receive to bottom or to an existing send. -/
def ValidEndpoints (g : ExecutionGraph V) : Prop :=
  ∀ receiveId source, g.readsFrom.find receiveId = some source →
    (∃ e receive, g.events[receiveId]? = some e ∧ e.label = .receive receive) ∧
      ∀ sourceId, source = .send sourceId →
        ∃ e send, g.events[sourceId]? = some e ∧ e.label = .send send

structure AsyncConsistent (g : ExecutionGraph V) : Prop where
  endpoints : g.ValidEndpoints
  assigned : ∀ id e receive, g.events[id]? = some e → e.label = .receive receive →
    g.readsFrom.find id ≠ none ∧ (receive.isBlocking = true → g.readsFrom.find id ≠ some .bottom)
  exclusive : ∀ send r r', g.ReadsFrom send r → g.ReadsFrom send r' → r = r'
  delivered : ∀ s r, g.ReadsFrom s r → ∀ es er send receive,
    g.events[s]? = some es → es.label = .send send → g.events[r]? = some er → er.label = .receive receive →
      send.destination = er.thread ∧ receive.accepts send.value = true
  acyclic : g.Acyclic

/-- Asynchronous consistency, where receives that the tolerance names may be without an entry. -/
structure AsyncConsistentExcept (g : ExecutionGraph V) (missingReadsTolerance : ℕ → Bool) : Prop where
  endpoints : g.ValidEndpoints
  assigned : ∀ id e receive, g.events[id]? = some e → e.label = .receive receive →
    (missingReadsTolerance id = false → g.readsFrom.find id ≠ none) ∧
      (receive.isBlocking = true → g.readsFrom.find id ≠ some .bottom)
  exclusive : ∀ send r r', g.ReadsFrom send r → g.ReadsFrom send r' → r = r'
  delivered : ∀ s r, g.ReadsFrom s r → ∀ es er send receive,
    g.events[s]? = some es → es.label = .send send → g.events[r]? = some er → er.label = .receive receive →
      send.destination = er.thread ∧ receive.accepts send.value = true
  acyclic : g.Acyclic

theorem AsyncConsistent.except {g : ExecutionGraph V} (h : g.AsyncConsistent) (tolerance : ℕ → Bool) :
    g.AsyncConsistentExcept tolerance where
  endpoints := h.endpoints
  assigned := fun id e receive he hlabel =>
    ⟨fun _ => (h.assigned id e receive he hlabel).1, (h.assigned id e receive he hlabel).2⟩
  exclusive := h.exclusive
  delivered := h.delivered
  acyclic := h.acyclic

theorem asyncConsistent_iff : g.AsyncConsistent ↔ g.AsyncConsistentExcept noMissingReadsTolerance := by
  refine ⟨fun h => h.except _, fun h => ⟨h.endpoints, fun id e receive he hlabel => ?_, h.exclusive, h.delivered, h.acyclic⟩⟩
  exact ⟨(h.assigned id e receive he hlabel).1 rfl, (h.assigned id e receive he hlabel).2⟩

def isReceiveAt (g : ExecutionGraph V) (id : ℕ) : Bool := g.events[id]?.any (fun e => e.label.isReceive)
def isSendAt (g : ExecutionGraph V) (id : ℕ) : Bool := g.events[id]?.any (fun e => e.label.isSend)

def endpointsOk (g : ExecutionGraph V) : ℕ × ReadsFromSource → Bool
  | (receiveId, .bottom) => g.isReceiveAt receiveId
  | (receiveId, .send sourceId) => g.isReceiveAt receiveId && g.isSendAt sourceId

def validRead (g : ExecutionGraph V) : ℕ × ReadsFromSource → Option (ℕ × ℕ)
  | (_, .bottom) => none
  | (receiveId, .send sourceId) =>
    if g.isReceiveAt receiveId && g.isSendAt sourceId then some (sourceId, receiveId) else none

/-- What an entry with valid endpoints has to satisfy by itself. -/
def agrees (g : ExecutionGraph V) : ℕ × ReadsFromSource → Bool
  | (receiveId, .bottom) =>
    g.events[receiveId]?.all (fun e => e.label.asReceive.all (fun receive => !receive.isBlocking))
  | (receiveId, .send sourceId) => matchedRead g receiveId sourceId

/-- The valid reads of a send among some entries. -/
def validReads (g : ExecutionGraph V) (entries : List (ℕ × ReadsFromSource)) (send : ℕ) : ℕ :=
  (entries.filterMap g.validRead).countP (fun edge => decide (edge.1 = send))

end ExecutionGraph

/-! ## Steps of the pass -/

namespace ValidationPass
open ExecutionGraph

section Fields
variable (p : ValidationPass) (condition : Bool) (code : ConsistencyIssueCode) (message : String)

@[simp] theorem issueIf_issues : (p.issueIf condition code message).result.issues
    = p.result.issues ++ if condition then [⟨code, message⟩] else [] := by
  cases condition
  · exact (append_nil _).symm
  · rfl

@[simp] theorem issueIf_validRfEdges :
    (p.issueIf condition code message).validRfEdges = p.validRfEdges := by
  cases condition <;> rfl

@[simp] theorem issueIf_cycleQuerySafe :
    (p.issueIf condition code message).cycleQuerySafe = p.cycleQuerySafe := by
  cases condition <;> rfl

@[simp] theorem issueIf_receiveHasSource :
    (p.issueIf condition code message).receiveHasSource = p.receiveHasSource := by
  cases condition <;> rfl

@[simp] theorem issueIf_sendReadCount :
    (p.issueIf condition code message).sendReadCount = p.sendReadCount := by
  cases condition <;> rfl

@[simp] theorem endpointIssueIf_issues : (p.endpointIssueIf condition code message).result.issues
    = p.result.issues ++ if condition then [⟨code, message⟩] else [] := by
  cases condition
  · exact (append_nil _).symm
  · rfl

@[simp] theorem endpointIssueIf_validRfEdges :
    (p.endpointIssueIf condition code message).validRfEdges = p.validRfEdges := by
  cases condition <;> rfl

@[simp] theorem endpointIssueIf_cycleQuerySafe :
    (p.endpointIssueIf condition code message).cycleQuerySafe = (p.cycleQuerySafe && !condition) := by
  cases condition
  · exact (Bool.and_true _).symm
  · exact (Bool.and_false _).symm

@[simp] theorem endpointIssueIf_receiveHasSource :
    (p.endpointIssueIf condition code message).receiveHasSource = p.receiveHasSource := by
  cases condition <;> rfl

@[simp] theorem endpointIssueIf_sendReadCount :
    (p.endpointIssueIf condition code message).sendReadCount = p.sendReadCount := by
  cases condition <;> rfl

end Fields

def consumedAgain (send : ℕ) : ConsistencyIssue :=
  ⟨.sendConsumedMultipleTimes, "send event " ++ toString send ++ " is consumed by more than one receive"⟩

def isConsumedAgain (i : ConsistencyIssue) : Bool := decide (i.code = .sendConsumedMultipleTimes)

/-- What checking one entry does to the pass. -/
structure Checked (g : ExecutionGraph V) (p : ValidationPass) (entry : ℕ × ReadsFromSource)
    (q : ValidationPass) : Prop where
  issues : ∃ added, q.result.issues = p.result.issues ++ added ∧
    (added = [] ↔ g.endpointsOk entry = true ∧ g.agrees entry = true ∧
      ∀ s r, g.validRead entry = some (s, r) → p.sendReadCount s = 0) ∧
    (∀ i ∈ added, i.code ≠ .causalCycle) ∧
    added.filter isConsumedAgain =
      ((g.validRead entry).toList.filter (fun edge => decide (p.sendReadCount edge.1 ≠ 0))).map
        (fun edge => consumedAgain edge.1)
  edges : q.validRfEdges = p.validRfEdges ++ (g.validRead entry).toList
  safe : q.cycleQuerySafe = (p.cycleQuerySafe && g.endpointsOk entry)
  sourced : g.endpointsOk entry = true →
    q.receiveHasSource = Function.update p.receiveHasSource entry.1 true
  counts : ∀ s, q.sendReadCount s =
    if (g.validRead entry).any (fun edge => decide (edge.1 = s)) then min 255 (p.sendReadCount s + 1)
    else p.sendReadCount s

/-- The pass with its issues set aside. -/
abbrev fresh (p : ValidationPass) : ValidationPass := { p with result := ⟨[]⟩ }

theorem isValidEventId_of_some {id : ℕ} {e : Event V} (h : g.events[id]? = some e) : g.isValidEventId id = true :=
  decide_eq_true (lt_of_getElem? h)

theorem isValidEventId_of_none {g : ExecutionGraph V} {id : ℕ} (h : g.events[id]? = none) :
    g.isValidEventId id = false :=
  decide_eq_false (not_lt.mpr (getElem?_eq_none_iff.mp h))

theorem checkEntry_bottom (p : ValidationPass) (recv : ℕ) :
    Checked g p (recv, .bottom) (checkEntry g p (recv, .bottom)) := by
  refine ⟨⟨(checkEntry g p.fresh (recv, .bottom)).result.issues, ?_⟩, ?_, ?_, ?_, ?_⟩
  all_goals cases hreceive : g.events[recv]? with
  | none =>
    have hvalid := isValidEventId_of_none hreceive
    simp [fresh, checkEntry, hreceive, hvalid, endpointsOk, validRead, isReceiveAt, isConsumedAgain]
  | some receiveEvent =>
    have hvalid := isValidEventId_of_some g hreceive
    cases hlabel : receiveEvent.label with
    | receive receive =>
      cases hblocking : receive.isBlocking
      all_goals simp [fresh, checkEntry, checkEndpoints, hreceive, hvalid, hlabel, hblocking, endpointsOk,
        validRead, agrees, isReceiveAt, isConsumedAgain, EventLabel.isReceive, EventLabel.asReceive]
    | _ =>
      simp [fresh, checkEntry, checkEndpoints, hreceive, hvalid, hlabel, endpointsOk, validRead,
        isReceiveAt, isConsumedAgain, EventLabel.isReceive, EventLabel.asReceive]

theorem counted_eq {count : ℕ} (h : count ≤ 255) :
    (if count < 255 then count + 1 else count) = min 255 (count + 1) := by
  split <;> omega

theorem checkEntry_send_dangling (p : ValidationPass) {recv sourceId : ℕ}
    (hdangling : g.events[recv]? = none ∨ g.events[sourceId]? = none) :
    Checked g p (recv, .send sourceId) (checkEntry g p (recv, .send sourceId)) := by
  refine ⟨⟨(checkEntry g p.fresh (recv, .send sourceId)).result.issues, ?_⟩, ?_, ?_, ?_, ?_⟩
  all_goals cases hreceive : g.events[recv]? with
  | none =>
    have hvalid := isValidEventId_of_none hreceive
    cases hsource : g.isValidEventId sourceId
    all_goals simp [fresh, checkEntry, hreceive, hsource, hvalid, endpointsOk, validRead, isReceiveAt,
      isConsumedAgain]
  | some receiveEvent =>
    have hvalid := isValidEventId_of_some g hreceive
    have hsource : g.events[sourceId]? = none := hdangling.resolve_left (by simp [hreceive])
    have hsourceValid := isValidEventId_of_none hsource
    simp [fresh, checkEntry, hreceive, hsource, hvalid, hsourceValid, endpointsOk, validRead, isSendAt,
      isConsumedAgain]

theorem checkEntry_read {g : ExecutionGraph V} {p : ValidationPass} {recv sourceId : ℕ}
    {receiveEvent sourceEvent : Event V} (hreceive : g.events[recv]? = some receiveEvent)
    (hsource : g.events[sourceId]? = some sourceEvent) {receive : ReceiveLabel V} {send : SendLabel V}
    (hlabel : receiveEvent.label = .receive receive) (hsend : sourceEvent.label = .send send)
    (hsaturated : p.sendReadCount sourceId ≤ 255) :
    Checked g p (recv, .send sourceId) (checkEntry g p (recv, .send sourceId)) := by
  have hvalid := isValidEventId_of_some g hreceive
  have hsourceValid := isValidEventId_of_some g hsource
  have hread : g.validRead (recv, .send sourceId) = some (sourceId, recv) := by
    simp [validRead, isReceiveAt, isSendAt, hreceive, hsource, hlabel, hsend, EventLabel.isReceive,
      EventLabel.isSend]
  have hok : g.endpointsOk (recv, .send sourceId) = true := by
    simp [endpointsOk, isReceiveAt, isSendAt, hreceive, hsource, hlabel, hsend, EventLabel.isReceive,
      EventLabel.isSend]
  have hconsume : ∀ q : ValidationPass, checkEntry g q (recv, .send sourceId) =
      consume { q with receiveHasSource := update q.receiveHasSource recv true } recv
        sourceId receiveEvent.thread receive send := by
    intro q
    simp only [checkEntry, checkEndpoints, hvalid, hsourceValid, hreceive, hsource, hlabel, hsend,
      EventLabel.asReceive, EventLabel.asSend, EventLabel.isReceive, EventLabel.isSend, endpointIssueIf,
      Bool.not_true, Bool.false_eq_true, if_false]
  have hcounted := counted_eq hsaturated
  have hagain : (1 < if p.sendReadCount sourceId < 255 then p.sendReadCount sourceId + 1
      else p.sendReadCount sourceId) ↔ p.sendReadCount sourceId ≠ 0 := by
    split <;> omega
  refine ⟨⟨(checkEntry g p.fresh (recv, .send sourceId)).result.issues, ?_⟩, ?_, ?_, ?_, ?_⟩
  · rw [hconsume, hconsume, hread, hok]
    by_cases hcount : p.sendReadCount sourceId = 0
    all_goals by_cases hdest : send.destination = receiveEvent.thread
    all_goals cases haccepts : receive.accepts send.value
    all_goals simp [consume, hagain, hcount, hdest, haccepts, agrees, matchedRead,
      hreceive, hsource, hlabel, hsend, EventLabel.asReceive, EventLabel.asSend, isConsumedAgain,
      consumedAgain]
  · rw [hconsume, hread]
    simp [consume]
  · rw [hconsume, hok]
    simp [consume]
  · intro _
    rw [hconsume]
    simp [consume]
  · intro s
    rw [hconsume, hread]
    by_cases hs : sourceId = s
    · subst hs
      simp [consume, hcounted]
    · simp [consume, hs, update_of_ne (Ne.symm hs)]

theorem checkEntry_send {g : ExecutionGraph V} {p : ValidationPass} {recv sourceId : ℕ}
    {receiveEvent sourceEvent : Event V} (hreceive : g.events[recv]? = some receiveEvent)
    (hsource : g.events[sourceId]? = some sourceEvent) (hsaturated : p.sendReadCount sourceId ≤ 255) :
    Checked g p (recv, .send sourceId) (checkEntry g p (recv, .send sourceId)) := by
  have hvalid := isValidEventId_of_some g hreceive
  have hsourceValid := isValidEventId_of_some g hsource
  cases hlabel : receiveEvent.label with
  | receive receive =>
    cases hsend : sourceEvent.label with
    | send send =>
      exact checkEntry_read hreceive hsource
        hlabel hsend hsaturated
    | _ =>
      refine ⟨⟨(checkEntry g p.fresh (recv, .send sourceId)).result.issues, ?_⟩, ?_, ?_, ?_, ?_⟩
      all_goals simp [fresh, checkEntry, checkEndpoints, hreceive, hsource, hvalid, hsourceValid, hlabel,
        hsend, endpointsOk, validRead, isReceiveAt, isSendAt, isConsumedAgain, EventLabel.isReceive,
        EventLabel.asReceive, EventLabel.isSend, EventLabel.asSend]
  | _ =>
    refine ⟨⟨(checkEntry g p.fresh (recv, .send sourceId)).result.issues, ?_⟩, ?_, ?_, ?_, ?_⟩
    all_goals cases hsend : sourceEvent.label.isSend
    all_goals simp [fresh, checkEntry, checkEndpoints, hreceive, hsource, hvalid, hsourceValid, hlabel,
      hsend, endpointsOk, validRead, isReceiveAt, isSendAt, isConsumedAgain, EventLabel.isReceive,
      EventLabel.asReceive]

theorem checkEntry_checked {p : ValidationPass} (entry : ℕ × ReadsFromSource)
    (hsaturated : ∀ s, p.sendReadCount s ≤ 255) : Checked g p entry (checkEntry g p entry) := by
  obtain ⟨recv, source⟩ := entry
  cases source with
  | bottom => exact checkEntry_bottom g p recv
  | send sourceId =>
    cases hreceive : g.events[recv]? with
    | none => exact checkEntry_send_dangling g p (.inl hreceive)
    | some receiveEvent =>
      cases hsource : g.events[sourceId]? with
      | none => exact checkEntry_send_dangling g p (.inr hsource)
      | some sourceEvent =>
        exact checkEntry_send hreceive hsource
          (hsaturated sourceId)

/-! ## The pass over the entries -/

/-- The state of the pass behind some entries. -/
structure Scanned (g : ExecutionGraph V) (entries : List (ℕ × ReadsFromSource)) (p : ValidationPass) :
    Prop where
  issues_nil : p.result.issues = [] ↔
    (∀ entry ∈ entries, g.endpointsOk entry = true ∧ g.agrees entry = true) ∧
      ∀ s, g.validReads entries s ≤ 1
  noCycle : ∀ i ∈ p.result.issues, i.code ≠ .causalCycle
  again : ∃ ids : List ℕ, p.result.issues.filter isConsumedAgain = ids.map consumedAgain ∧
    ∀ s, ids.count s = g.validReads entries s - 1
  edges : p.validRfEdges = entries.filterMap g.validRead
  safe : p.cycleQuerySafe = entries.all g.endpointsOk
  sourced : p.cycleQuerySafe = true → ∀ id, p.receiveHasSource id = true ↔ ∃ entry ∈ entries, entry.1 = id
  counts : ∀ s, p.sendReadCount s = min 255 (g.validReads entries s)

theorem validReads_concat (entries : List (ℕ × ReadsFromSource)) (entry : ℕ × ReadsFromSource) (s : ℕ) :
    g.validReads (entries ++ [entry]) s =
      g.validReads entries s + if (g.validRead entry).any (fun edge => decide (edge.1 = s)) then 1 else 0 := by
  unfold validReads
  rw [filterMap_append, countP_append]
  cases hread : g.validRead entry <;> simp [hread, countP_cons]

theorem validReads_concat_le_one (entries : List (ℕ × ReadsFromSource)) (entry : ℕ × ReadsFromSource) :
    (∀ s, g.validReads (entries ++ [entry]) s ≤ 1) ↔
      (∀ s, g.validReads entries s ≤ 1) ∧
        ∀ s r, g.validRead entry = some (s, r) → g.validReads entries s = 0 := by
  simp only [validReads_concat]
  constructor
  · intro h
    refine ⟨fun s => le_trans (Nat.le_add_right _ _) (h s), fun s r hread => ?_⟩
    have hs := h s
    simp only [hread, Option.any_some, decide_true, if_true] at hs
    omega
  · rintro ⟨hle, hzero⟩ s
    split
    · rename_i hany
      obtain ⟨⟨s', r⟩, hread, hs⟩ := (Option.any_eq_true _ _).mp hany
      have hs' : s' = s := of_decide_eq_true hs
      subst hs'
      rw [hzero s' r hread]
    · exact hle s

theorem initial_scanned : Scanned g [] initial where
  issues_nil := by simp [initial, validReads]
  noCycle := by simp [initial]
  again := ⟨[], by simp [initial, validReads]⟩
  edges := rfl
  safe := rfl
  sourced := by simp [initial]
  counts := by simp [initial, validReads]

theorem Scanned.checkEntry {g : ExecutionGraph V} {entries : List (ℕ × ReadsFromSource)}
    {p : ValidationPass} (h : Scanned g entries p) (entry : ℕ × ReadsFromSource) :
    Scanned g (entries ++ [entry]) (checkEntry g p entry) := by
  have hchecked := checkEntry_checked g entry fun s => by
    rw [h.counts s]
    exact Nat.min_le_left _ _
  obtain ⟨added, happend, hnil, hcode, hagain⟩ := hchecked.issues
  have hcount : ∀ s, p.sendReadCount s = 0 ↔ g.validReads entries s = 0 := by
    intro s
    rw [h.counts s]
    omega
  refine ⟨?_, ?_, ?_, ?_, ?_, ?_, ?_⟩
  · rw [happend, append_eq_nil_iff, h.issues_nil, hnil]
    simp only [forall_mem_append, forall_mem_singleton, validReads_concat_le_one, hcount]
    tauto
  · intro i hi
    rw [happend, mem_append] at hi
    exact hi.elim (h.noCycle i) (hcode i)
  · obtain ⟨ids, hids, hreads⟩ := h.again
    cases hread : g.validRead entry with
    | none =>
      refine ⟨ids, ?_, fun s => ?_⟩
      · rw [happend, filter_append, hids, hagain, hread]
        simp
      · rw [hreads s, validReads_concat, hread]
        simp
    | some edge =>
      by_cases hzero : g.validReads entries edge.1 = 0
      · refine ⟨ids, ?_, fun s => ?_⟩
        · rw [happend, filter_append, hids, hagain, hread]
          simp [(hcount edge.1).mpr hzero]
        · rw [hreads s, validReads_concat, hread]
          by_cases hs : edge.1 = s
          · simp [← hs, hzero]
          · simp [hs]
      · refine ⟨ids ++ [edge.1], ?_, fun s => ?_⟩
        · rw [happend, filter_append, hids, hagain, hread]
          simp [(hcount edge.1).not.mpr hzero]
        · rw [count_append, hreads s, validReads_concat, hread]
          by_cases hs : edge.1 = s
          · subst hs
            simp
            omega
          · simp [hs]
  · rw [hchecked.edges, h.edges, filterMap_append]
    cases hread : g.validRead entry <;> simp [hread]
  · rw [hchecked.safe, h.safe, all_append, all_cons, all_nil, Bool.and_true]
  · intro hsafe id
    rw [hchecked.safe, Bool.and_eq_true] at hsafe
    rw [hchecked.sourced hsafe.2]
    by_cases hid : id = entry.1
    · subst hid
      simp
    · rw [update_of_ne hid, h.sourced hsafe.1 id]
      simp [Ne.symm hid]
  · intro s
    rw [hchecked.counts s, validReads_concat, h.counts s]
    split <;> omega

theorem entries_scanned (entries : List (ℕ × ReadsFromSource)) :
    Scanned g entries (entries.foldl (ValidationPass.checkEntry g) initial) := by
  induction entries using reverseRecOn with
  | nil => exact initial_scanned g
  | append_singleton entries entry ih =>
    rw [foldl_concat]
    exact ih.checkEntry entry

/-! ## The pass over the events -/

/-- A receive event without an entry, and without leave to be so. -/
def lacksSource (g : ExecutionGraph V) (missingReadsTolerance : ℕ → Bool) (p : ValidationPass) (id : ℕ) :
    Bool :=
  g.isReceiveAt id && !p.receiveHasSource id && !missingReadsTolerance id

def missingIssue (id : ℕ) : ConsistencyIssue :=
  ⟨.missingReadsFromForReceive, "receive event " ++ toString id ++ " has no reads-from assignment"⟩

theorem missing_scanned (tolerance : ℕ → Bool) (ids : List ℕ) (p : ValidationPass) :
    ∃ added, ids.foldl (checkMissing g tolerance) p =
        { p with result := ⟨p.result.issues ++ added⟩ } ∧
      (added = [] ↔ ∀ id ∈ ids, lacksSource g tolerance p id = false) ∧
      ∀ i ∈ added, ∃ id, lacksSource g tolerance p id = true ∧ i = missingIssue id := by
  induction ids generalizing p with
  | nil => exact ⟨[], by simp⟩
  | cons id rest ih =>
    obtain ⟨added, hrun, hnil, hmissing⟩ := ih (checkMissing g tolerance p id)
    rw [foldl_cons, hrun]
    cases hlacks : lacksSource g tolerance p id with
    | false =>
      have hstep : checkMissing g tolerance p id = p := if_neg (by
        show ¬ lacksSource g tolerance p id = true
        simp [hlacks])
      rw [hstep] at hnil hmissing ⊢
      exact ⟨added, rfl, by simp [hnil, hlacks], hmissing⟩
    | true =>
      have hstep : checkMissing g tolerance p id = p.issue .missingReadsFromForReceive _ :=
        if_pos hlacks
      rw [hstep] at hmissing ⊢
      refine ⟨_ :: added, by simp [issue, ConsistencyResult.addIssue]; rfl, by simp [hlacks], ?_⟩
      intro i hi
      rcases mem_cons.mp hi with rfl | hi
      · exact ⟨id, hlacks, rfl⟩
      · exact hmissing i hi

end ValidationPass

/-! ## The validated graph -/

open ExecutionGraph ValidationPass in
structure Validated (g : ExecutionGraph V) (missingReadsTolerance : ℕ → Bool) (p : ValidationPass) :
    Prop where
  issues_nil : p.result.issues = [] ↔
    (∀ entry ∈ g.readsFrom.entries, g.endpointsOk entry = true ∧ g.agrees entry = true) ∧
      (∀ s, g.validReads g.readsFrom.entries s ≤ 1) ∧
      ∀ id, g.isReceiveAt id = true → missingReadsTolerance id = false → g.readsFrom.find id ≠ none
  noCycle : ∀ i ∈ p.result.issues, i.code ≠ .causalCycle
  again : ∃ ids : List ℕ, p.result.issues.filter isConsumedAgain = ids.map consumedAgain ∧
    ∀ s, ids.count s = g.validReads g.readsFrom.entries s - 1
  edges : p.validRfEdges = g.readsFrom.entries.filterMap g.validRead
  safe : p.cycleQuerySafe = g.readsFrom.entries.all g.endpointsOk

theorem exists_entry_iff (rf : ReadsFromRelation) (id : ℕ) :
    (∃ entry ∈ rf.entries, entry.1 = id) ↔ rf.find id ≠ none := by
  constructor
  · rintro ⟨⟨_, source⟩, hmem, rfl⟩
    rw [AscendingMap.mem_entries.mp hmem]
    exact Option.some_ne_none source
  · intro hfind
    obtain ⟨source, hsource⟩ := Option.ne_none_iff_exists'.mp hfind
    exact ⟨(id, source), AscendingMap.mem_entries.mpr hsource, rfl⟩

open ExecutionGraph ValidationPass in
theorem validateGraph_validated (tolerance : ℕ → Bool) :
    Validated g tolerance (validateGraph g tolerance) := by
  have hscanned := entries_scanned g g.readsFrom.entries
  obtain ⟨added, hrun, hnil, hmissing⟩ := missing_scanned g tolerance
    (range g.events.length) (g.readsFrom.entries.foldl (checkEntry g) initial)
  have hcode (i : ConsistencyIssue) (hi : i ∈ added) : i.code = .missingReadsFromForReceive := by
    obtain ⟨id, -, rfl⟩ := hmissing i hi
    rfl
  unfold validateGraph
  rw [hrun]
  refine ⟨?_, ?_, ?_, hscanned.edges, hscanned.safe⟩
  · show _ ++ added = [] ↔ _
    rw [append_eq_nil_iff, hscanned.issues_nil, hnil, and_assoc]
    refine and_congr_right fun hall => and_congr_right fun _ => ?_
    have hsafe : (g.readsFrom.entries.foldl (checkEntry g) initial).cycleQuerySafe = true := by
      rw [hscanned.safe, all_eq_true]
      exact fun entry hentry => (hall entry hentry).1
    have hsourced := fun id => (hscanned.sourced hsafe id).trans (exists_entry_iff g.readsFrom id)
    constructor
    · intro hlacks id hreceive htolerance
      by_contra hnone
      have hid : id < g.events.length := by
        obtain ⟨e, he, -⟩ := (Option.any_eq_true _ _).mp hreceive
        exact lt_of_getElem? he
      have hnot := hlacks id (mem_range.mpr hid)
      have hunsourced := (Bool.eq_false_iff.mpr ((hsourced id).not.mpr (not_not.mpr hnone)))
      simp [lacksSource, hreceive, htolerance, hunsourced] at hnot
    · intro hfind id _
      by_contra hlacks
      have hlacks := Bool.eq_true_of_not_eq_false hlacks
      simp only [lacksSource, Bool.and_eq_true, Bool.not_eq_true'] at hlacks
      obtain ⟨⟨hreceive, hunsourced⟩, htolerance⟩ := hlacks
      rw [(hsourced id).mpr (hfind id hreceive htolerance)] at hunsourced
      cases hunsourced
  · intro i hi
    rcases mem_append.mp hi with hi | hi
    · exact hscanned.noCycle i hi
    · rw [hcode i hi]
      exact (nomatch ·)
  · obtain ⟨ids, hids, hreads⟩ := hscanned.again
    refine ⟨ids, ?_, hreads⟩
    have hadded : added.filter isConsumedAgain = [] := by
      rw [filter_eq_nil_iff]
      intro i hi
      simp [isConsumedAgain, hcode i hi]
    show (_ ++ added).filter isConsumedAgain = _
    rw [filter_append, hadded, hids, append_nil]

open ExecutionGraph ValidationPass in
theorem validateGraph_missing {g : ExecutionGraph V} {tolerance : ℕ → Bool}
    (hentries : ∀ entry ∈ g.readsFrom.entries, g.endpointsOk entry = true ∧ g.agrees entry = true)
    (hreads : ∀ s, g.validReads g.readsFrom.entries s ≤ 1) :
    ∀ i ∈ (validateGraph g tolerance).result.issues,
      ∃ id, g.isReceiveAt id = true ∧ g.readsFrom.find id = none ∧ i = missingIssue id := by
  have hscanned := entries_scanned g g.readsFrom.entries
  obtain ⟨added, hrun, -, hmissing⟩ := missing_scanned g tolerance
    (range g.events.length) (g.readsFrom.entries.foldl (checkEntry g) initial)
  have hsafe : (g.readsFrom.entries.foldl (checkEntry g) initial).cycleQuerySafe = true := by
    rw [hscanned.safe, all_eq_true]
    exact fun entry hentry => (hentries entry hentry).1
  unfold validateGraph
  rw [hrun]
  intro i hi
  change i ∈ _ ++ added at hi
  rw [hscanned.issues_nil.mpr ⟨hentries, hreads⟩, nil_append] at hi
  obtain ⟨id, hlacks, rfl⟩ := hmissing i hi
  simp only [lacksSource, Bool.and_eq_true, Bool.not_eq_true'] at hlacks
  refine ⟨id, hlacks.1.1, ?_, rfl⟩
  by_contra hfind
  rw [(hscanned.sourced hsafe id).mpr ((exists_entry_iff g.readsFrom id).mpr hfind)] at hlacks
  exact absurd hlacks.1.2 Bool.true_eq_false_eq_False

/-! ## The meaning of the conditions -/

namespace ExecutionGraph

theorem isReceiveAt_iff (id : ℕ) :
    g.isReceiveAt id = true ↔ ∃ e receive, g.events[id]? = some e ∧ e.label = .receive receive := by
  unfold isReceiveAt
  rw [Option.any_eq_true]
  simp only [EventLabel.isReceive_iff, exists_and_left]

theorem isSendAt_iff (id : ℕ) : g.isSendAt id = true ↔ ∃ e send, g.events[id]? = some e ∧ e.label = .send send := by
  unfold isSendAt
  rw [Option.any_eq_true]
  simp only [EventLabel.isSend_iff, exists_and_left]

theorem validEndpoints_iff : (∀ entry ∈ g.readsFrom.entries, g.endpointsOk entry = true) ↔ g.ValidEndpoints := by
  constructor
  · intro h recv source hfind
    have hok := h (recv, source) (AscendingMap.mem_entries.mpr hfind)
    cases source with
    | bottom => exact ⟨(isReceiveAt_iff g recv).mp hok, nofun⟩
    | send sourceId =>
      obtain ⟨hreceive, hsend⟩ := (Bool.and_eq_true _ _).mp hok
      refine ⟨(isReceiveAt_iff g recv).mp hreceive, fun id hsource => ?_⟩
      cases hsource
      exact (isSendAt_iff g sourceId).mp hsend
  · rintro h ⟨recv, source⟩ hmem
    obtain ⟨hreceive, hsend⟩ := h recv source (AscendingMap.mem_entries.mp hmem)
    cases source with
    | bottom => exact (isReceiveAt_iff g recv).mpr hreceive
    | send sourceId =>
      exact (Bool.and_eq_true _ _).mpr
        ⟨(isReceiveAt_iff g recv).mpr hreceive, (isSendAt_iff g sourceId).mpr (hsend sourceId rfl)⟩

theorem matchedRead_iff (recv sourceId : ℕ) : matchedRead g recv sourceId = true ↔ ∃ er es receive send,
      g.events[recv]? = some er ∧ g.events[sourceId]? = some es ∧ er.label = .receive receive ∧
        es.label = .send send ∧ send.destination = er.thread ∧ receive.accepts send.value = true := by
  unfold matchedRead
  constructor
  · intro h
    split at h
    · rename_i er es hr hs
      split at h
      · rename_i receive send hreceive hsend
        rw [EventLabel.asReceive_eq_some] at hreceive
        rw [EventLabel.asSend_eq_some] at hsend
        obtain ⟨hdest, haccepts⟩ := (Bool.and_eq_true _ _).mp h
        exact ⟨er, es, receive, send, hr, hs, hreceive, hsend, of_decide_eq_true hdest, haccepts⟩
      · cases h
    · cases h
  · rintro ⟨er, es, receive, send, hr, hs, hreceive, hsend, hdest, haccepts⟩
    simp [hr, hs, hreceive, hsend, EventLabel.asReceive, EventLabel.asSend, hdest, haccepts]

theorem ValidEndpoints.porf_lt {g : ExecutionGraph V} (h : g.ValidEndpoints) (a b : ℕ) (hporf : g.Porf a b) :
    a < g.events.length ∧ b < g.events.length := by
  rcases hporf with horder | hread
  · exact horder.lt_length g a b
  · obtain ⟨⟨er, -, her, -⟩, hsource⟩ := h b (.send a) hread
    obtain ⟨es, -, hes, -⟩ := hsource a rfl
    exact ⟨lt_of_getElem? hes, lt_of_getElem? her⟩

theorem agrees_iff {g : ExecutionGraph V} (h : g.ValidEndpoints) :
    (∀ entry ∈ g.readsFrom.entries, g.agrees entry = true) ↔
      (∀ id e receive, g.events[id]? = some e → e.label = .receive receive →
        receive.isBlocking = true → g.readsFrom.find id ≠ some .bottom) ∧
      ∀ s r, g.ReadsFrom s r → ∀ es er send receive, g.events[s]? = some es → es.label = .send send →
        g.events[r]? = some er → er.label = .receive receive →
          send.destination = er.thread ∧ receive.accepts send.value = true := by
  constructor
  · intro hagrees
    constructor
    · intro id e receive he hlabel hblocking hfind
      have hbottom := hagrees (id, .bottom) (AscendingMap.mem_entries.mpr hfind)
      simp [agrees, he, hlabel, EventLabel.asReceive, hblocking] at hbottom
    · intro s r hread es er send receive hes hsend her hreceive
      obtain ⟨er', es', receive', send', her', hes', hreceive', hsend', hok⟩ :=
        (matchedRead_iff g r s).mp (hagrees (r, .send s) (AscendingMap.mem_entries.mpr hread))
      rw [hes] at hes'
      rw [her] at her'
      cases hes'
      cases her'
      rw [hsend] at hsend'
      rw [hreceive] at hreceive'
      cases hsend'
      cases hreceive'
      exact hok
  · rintro ⟨hbottom, hdelivered⟩ ⟨recv, source⟩ hmem
    have hfind := AscendingMap.mem_entries.mp hmem
    obtain ⟨⟨er, receive, her, hreceive⟩, hsource⟩ := h recv source hfind
    cases source with
    | bottom =>
      cases hblocking : receive.isBlocking with
      | true => exact absurd hfind (hbottom recv er receive her hreceive hblocking)
      | false => simp [agrees, her, hreceive, EventLabel.asReceive, hblocking]
    | send sourceId =>
      obtain ⟨es, send, hes, hsend⟩ := hsource sourceId rfl
      exact (matchedRead_iff g recv sourceId).mpr ⟨er, es, receive, send, her, hes, hreceive, hsend,
        hdelivered sourceId recv hfind es er send receive hes hsend her hreceive⟩

theorem mem_validRead {g : ExecutionGraph V} (h : g.ValidEndpoints) (s r : ℕ) :
    (s, r) ∈ g.readsFrom.entries.filterMap g.validRead ↔ g.ReadsFrom s r := by
  rw [mem_filterMap]
  constructor
  · rintro ⟨⟨recv, source⟩, hmem, hread⟩
    cases source with
    | bottom => cases hread
    | send sourceId =>
      unfold validRead at hread
      simp only at hread
      split at hread
      · cases hread
        exact AscendingMap.mem_entries.mp hmem
      · cases hread
  · intro hread
    have hmem := AscendingMap.mem_entries.mpr hread
    exact ⟨(r, .send s), hmem, if_pos ((validEndpoints_iff g).mpr h _ hmem)⟩

theorem validReads_eq_readerCount (h : g.ValidEndpoints) (s : ℕ) :
    g.validReads g.readsFrom.entries s = g.readsFrom.readerCount s := by
  have hcount : ∀ entries : List (ℕ × ReadsFromSource), (∀ entry ∈ entries, g.endpointsOk entry = true) →
      g.validReads entries s = entries.countP (fun entry => decide (entry.2 = .send s)) := by
    intro entries
    induction entries with
    | nil => exact fun _ => rfl
    | cons entry rest ih =>
      intro hall
      have hrest := ih fun other hother => hall other (mem_cons_of_mem _ hother)
      have hok := hall entry mem_cons_self
      obtain ⟨recv, source⟩ := entry
      unfold validReads at hrest ⊢
      rw [countP_cons]
      cases source with
      | bottom =>
        rw [filterMap_cons_none rfl, hrest]
        rfl
      | send sourceId =>
        have hread : g.validRead (recv, .send sourceId) = some (sourceId, recv) := if_pos hok
        rw [filterMap_cons_some hread, countP_cons, hrest]
        simp
  exact hcount _ ((validEndpoints_iff g).mpr h)

theorem readerCount_le_one_iff (rf : ReadsFromRelation) (s : ℕ) :
    rf.readerCount s ≤ 1 ↔ ∀ r r', rf.find r = some (.send s) → rf.find r' = some (.send s) → r = r' := by
  have hmem : ∀ r, (r, ReadsFromSource.send s) ∈ rf.entries.filter (fun entry => decide (entry.2 = .send s)) ↔
      rf.find r = some (.send s) := by
    intro r
    rw [mem_filter, AscendingMap.mem_entries]
    simp
  have hascending := rf.ascending.filter (fun entry => decide (entry.2 = .send s))
  unfold ReadsFromRelation.readerCount
  rw [countP_eq_length_filter]
  generalize hreaders : rf.entries.filter (fun entry => decide (entry.2 = .send s)) = readers at hmem hascending
  have hsource : ∀ entry ∈ readers, entry = (entry.1, ReadsFromSource.send s) := by
    rintro ⟨r, source⟩ hentry
    rw [← hreaders] at hentry
    have hs : source = .send s := of_decide_eq_true (mem_filter.mp hentry).2
    rw [hs]
  constructor
  · intro hle r r' hr hr'
    rw [← hmem] at hr hr'
    rcases readers with _ | ⟨entry, _ | ⟨other, rest⟩⟩
    · cases hr
    · rw [mem_singleton] at hr hr'
      exact congrArg Prod.fst (hr.trans hr'.symm)
    · simp at hle
  · intro hsame
    rcases readers with _ | ⟨a, _ | ⟨b, rest⟩⟩
    · exact Nat.zero_le _
    · exact le_refl _
    · have hb : b ∈ a :: b :: rest := mem_cons_of_mem _ mem_cons_self
      have hlt : a.1 < b.1 := rel_of_pairwise_cons hascending mem_cons_self
      have hreadA := (hmem a.1).mp (by rw [← hsource a mem_cons_self]; exact mem_cons_self)
      have hreadB := (hmem b.1).mp (by rw [← hsource b hb]; exact hb)
      exact absurd (hsame a.1 b.1 hreadA hreadB) (ne_of_lt hlt)

/-! ## The verdict -/

theorem hasCausalCycle_validated (hordered : g.IndexOrdered) (h : g.ValidEndpoints) :
    hasCausalCycle ⟨g.events.length, g.threadSequences⟩ (g.readsFrom.entries.filterMap g.validRead)
      g.events.length = true ↔ ¬ g.Acyclic := by
  rw [hasCausalCycle_iff hordered]
  · unfold Acyclic
    rw [not_forall]
    simp only [not_not]
    refine exists_congr fun id => ?_
    have hrel : (fun a b => g.ProgramOrder a b ∨ (a, b) ∈ g.readsFrom.entries.filterMap g.validRead) = g.Porf := by
      funext a b
      exact propext (or_congr Iff.rfl (mem_validRead h a b))
    rw [hrel]
  · rintro ⟨s, r⟩ hmem
    obtain ⟨⟨er, -, her, -⟩, hsource⟩ := h r _ ((mem_validRead h s r).mp hmem)
    obtain ⟨es, -, hes, -⟩ := hsource s rfl
    exact ⟨lt_of_getElem? hes, lt_of_getElem? her⟩

theorem validated_nil_iff {g : ExecutionGraph V} {tolerance : ℕ → Bool} {p : ValidationPass}
    (h : Validated g tolerance p) (hacyclic : g.ValidEndpoints → g.Acyclic) :
    p.result.issues = [] ↔ g.AsyncConsistentExcept tolerance := by
  rw [h.issues_nil]
  constructor
  · rintro ⟨hentries, hle, hassigned⟩
    have hends := (validEndpoints_iff g).mp fun entry hentry => (hentries entry hentry).1
    obtain ⟨hbottom, hdelivered⟩ := (agrees_iff hends).mp fun entry hentry => (hentries entry hentry).2
    refine ⟨hends, fun id e receive he hlabel => ⟨?_, hbottom id e receive he hlabel⟩, ?_, hdelivered,
      hacyclic hends⟩
    · exact hassigned id ((isReceiveAt_iff g id).mpr ⟨e, receive, he, hlabel⟩)
    · intro send
      have hone := hle send
      rw [validReads_eq_readerCount g hends] at hone
      exact (readerCount_le_one_iff g.readsFrom send).mp hone
  · intro hconsistent
    have hends := hconsistent.endpoints
    have hagrees := (agrees_iff hends).mpr
      ⟨fun id e receive he hlabel => (hconsistent.assigned id e receive he hlabel).2, hconsistent.delivered⟩
    refine ⟨fun entry hentry => ⟨(validEndpoints_iff g).mpr hends entry hentry, hagrees entry hentry⟩, ?_, ?_⟩
    · intro s
      rw [validReads_eq_readerCount g hends]
      exact (readerCount_le_one_iff g.readsFrom s).mpr (hconsistent.exclusive s)
    · intro id hreceive htolerance
      obtain ⟨e, receive, he, hlabel⟩ := (isReceiveAt_iff g id).mp hreceive
      exact (hconsistent.assigned id e receive he hlabel).1 htolerance

theorem checkAsyncExecutionGraph_eq (h : g.IndexOrdered) (tolerance : ℕ → Bool) :
    checkAsyncExecutionGraph g tolerance = .ok
      (if hasCausalCycle ⟨g.events.length, g.threadSequences⟩
          (validateGraph g tolerance).validRfEdges g.events.length then
        (validateGraph g tolerance).result.addCausalCycleIssue
      else (validateGraph g tolerance).result) := by
  unfold checkAsyncExecutionGraph
  rw [poRelation_ok g h]
  exact (apply_ite Except.ok _ _ _).symm

theorem checkExecutionGraph_async (tolerance : ℕ → Bool) :
    checkExecutionGraph g .async tolerance = checkAsyncExecutionGraph g tolerance := by
  unfold checkExecutionGraph
  cases checkAsyncExecutionGraph g tolerance <;> rfl

theorem checkAsync_nil_iff (h : g.IndexOrdered) (tolerance : ℕ → Bool)
    (result : ConsistencyResult) (hcheck : checkAsyncExecutionGraph g tolerance = .ok result) :
    result.issues = [] ↔ g.AsyncConsistentExcept tolerance := by
  have hvalidated := validateGraph_validated g tolerance
  have hcycle := hasCausalCycle_validated g h
  rw [← hvalidated.edges] at hcycle
  rw [checkAsyncExecutionGraph_eq g h] at hcheck
  cases hcheck
  cases hfound : hasCausalCycle ⟨g.events.length, g.threadSequences⟩
      (validateGraph g tolerance).validRfEdges g.events.length with
  | true =>
    simp only [if_true, ConsistencyResult.addCausalCycleIssue, ConsistencyResult.addIssue]
    constructor
    · simp
    · exact fun hconsistent => absurd hconsistent.acyclic ((hcycle hconsistent.endpoints).mp hfound)
  | false =>
    refine validated_nil_iff hvalidated fun hends => ?_
    by_contra hnot
    rw [(hcycle hends).mpr hnot] at hfound
    cases hfound

/-- Without tolerance, a graph that is consistent but for receives without an entry has these as its only
issues. -/
theorem AsyncConsistentExcept.missing {g : ExecutionGraph V} {tolerance : ℕ → Bool}
    (h : g.AsyncConsistentExcept tolerance) (hordered : g.IndexOrdered) {result : ConsistencyResult}
    (hcheck : checkAsyncExecutionGraph g noMissingReadsTolerance = .ok result) :
    ∀ i ∈ result.issues, ∃ id, g.isReceiveAt id = true ∧ g.readsFrom.find id = none ∧
      i = ValidationPass.missingIssue id := by
  have hvalidated := validateGraph_validated g tolerance
  obtain ⟨hentries, hreads, -⟩ :=
    hvalidated.issues_nil.mp ((validated_nil_iff hvalidated fun _ => h.acyclic).mpr h)
  have hcycle := hasCausalCycle_validated g hordered h.endpoints
  rw [checkAsyncExecutionGraph_eq g hordered, (validateGraph_validated g noMissingReadsTolerance).edges,
    if_neg (hcycle.not.mpr (not_not.mpr h.acyclic))] at hcheck
  cases hcheck
  exact validateGraph_missing hentries hreads

open ValidationPass in
/-- The asynchronous check returns, and its issue list decides asynchronous consistency. -/
theorem async_check_decides (g : ExecutionGraph V) (h : g.Built) :
    ∃ result, AsyncConsistencyChecker.check g = .ok result ∧
      (result.issues = [] ↔ g.AsyncConsistent) ∧
      (g.ValidEndpoints →
        (∃ ids : List ℕ, result.issues.filter isConsumedAgain = ids.map consumedAgain ∧
          ∀ s, ids.count s = g.readsFrom.readerCount s - 1) ∧
        ((∃ i ∈ result.issues, i.code = .causalCycle) ↔ ¬ g.Acyclic)) := by
  have hordered := (h.indexed g).ordered
  have hvalidated := validateGraph_validated g noMissingReadsTolerance
  have hcycle := hasCausalCycle_validated g hordered
  rw [← hvalidated.edges] at hcycle
  obtain ⟨ids, hids, hreads⟩ := hvalidated.again
  have hasync := checkAsyncExecutionGraph_eq g hordered noMissingReadsTolerance
  refine ⟨_, (checkExecutionGraph_async g _).trans hasync, (checkAsync_nil_iff g hordered _ _ hasync).trans (asyncConsistent_iff g).symm,
    fun hendpoints => ⟨⟨ids, ?_, fun s => ?_⟩, ?_⟩⟩
  · rw [← hids]
    split
    · simp [ConsistencyResult.addCausalCycleIssue, ConsistencyResult.addIssue, isConsumedAgain]
    · rfl
  · rw [hreads s, validReads_eq_readerCount g hendpoints]
  · rw [← hcycle hendpoints]
    split
    · rename_i hfound
      refine iff_of_true ?_ hfound
      simp [ConsistencyResult.addCausalCycleIssue, ConsistencyResult.addIssue]
    · rename_i hfound
      refine iff_of_false ?_ hfound
      rintro ⟨i, hi, hcode⟩
      exact hvalidated.noCycle i hi hcode

open ValidationPass in
/-- One send, read by two receives of its destination. -/
theorem shared_send_check_decides :
    ∃ g : ExecutionGraph ℕ, g.Built ∧ g.readsFrom.readerCount 0 = 2 ∧
      ∃ result, AsyncConsistencyChecker.check g = .ok result ∧
        (result.issues = [] ↔ g.AsyncConsistent) ∧
        (g.ValidEndpoints →
          (∃ ids : List ℕ, result.issues.filter isConsumedAgain = ids.map consumedAgain ∧
            ∀ s, ids.count s = g.readsFrom.readerCount s - 1) ∧
          ((∃ i ∈ result.issues, i.code = .causalCycle) ↔ ¬ g.Acyclic)) := by
  have hsend : Built _ := .addEvent _ _ 0 0 (.send ⟨1, 7⟩) (Built.empty (V := ℕ)) rfl
  have hfirst : Built _ := .addEvent _ _ 1 1 (.receive ⟨.blocking, fun _ => true⟩) hsend rfl
  have hsecond : Built _ :=
    .addEventWithIndex _ _ 1 2 5 (.receive ⟨.blocking, fun _ => true⟩) hfirst rfl
  have hread : Built _ := .setReadsFromSource _ _ 1 (.send 0) hsecond rfl
  have hshared : Built _ := .setReadsFromSource _ _ 2 (.send 0) hread rfl
  exact ⟨_, hshared, rfl, async_check_decides _ hshared⟩

end ExecutionGraph
end MustDpor

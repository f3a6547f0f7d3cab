import MustDpor.Model.Event

/-! # Programs

`include/dpor/algo/program.hpp`. A thread function maps the values a thread has observed and the
number of its events to its next label. `ThreadMap` is the vector of optional entries of
`ThreadMapT`; its `size_` is the number of assigned entries. -/

namespace MustDpor
set_option autoImplicit false
open List

abbrev ThreadTrace (V : Type) := List (ObservedValue V)
abbrev ThreadFunction (V : Type) := ThreadTrace V → ℕ → Option (EventLabel V)

structure ThreadMap (T : Type) where
  entries : List (Option T)

namespace ThreadMap
variable {T : Type}

def size (m : ThreadMap T) : ℕ := m.entries.countP Option.isSome

/-- The assigned thread ids, ascending: the order of `for_each_assigned`. -/
def assigned (m : ThreadMap T) : List ℕ :=
  (List.range m.entries.length).filter (fun tid => (m.entries[tid]?.join).isSome)

def atThread (m : ThreadMap T) (tid : ℕ) : Except DporError T :=
  match m.entries[tid]?.join with
  | some t => .ok t
  | none => .error (.preconditionError "thread id not found")

def validateCompactThreadIds (m : ThreadMap T) : Except DporError Unit :=
  match m.assigned.head?, m.assigned.getLast? with
  | some first, some last =>
    if (first = 0 ∧ last + 1 = m.size) ∨ (first = 1 ∧ last = m.size) then .ok ()
    else .error (.preconditionError
      ("thread ids must form a compact contiguous 0-based or 1-based range; "
        ++ "observed thread ids span [" ++ toString first ++ ", " ++ toString last ++ "] across "
        ++ toString m.size ++ " assigned threads"))
  | _, _ => .ok ()

theorem mem_assigned (m : ThreadMap T) (tid : ℕ) :
    tid ∈ m.assigned ↔ ∃ t, m.atThread tid = .ok t := by
  unfold assigned atThread
  simp only [List.mem_filter, List.mem_range]
  cases h : m.entries[tid]? with
  | none => simp
  | some e =>
    have hlt : tid < m.entries.length := (List.getElem?_eq_some_iff.mp h).1
    cases e <;> simp [hlt]

end ThreadMap

structure Program (V : Type) where
  threads : ThreadMap (ThreadFunction V)

/-- `sorted_thread_ids`. -/
def sortedThreadIds {V : Type} (program : Program V) : Except DporError (List ℕ) := do
  program.threads.validateCompactThreadIds
  return program.threads.assigned

theorem sortedThreadIds_eq {V : Type} {program : Program V} {ids : List ℕ}
    (h : sortedThreadIds program = .ok ids) : ids = program.threads.assigned := by
  unfold sortedThreadIds at h
  cases hv : program.threads.validateCompactThreadIds with
  | error e =>
    rw [hv] at h
    cases h
  | ok u =>
    rw [hv] at h
    cases h
    rfl

/-- The program with every thread function replaced. -/
def Program.map {V : Type} (program : Program V) (u : ThreadFunction V → ThreadFunction V) : Program V :=
  ⟨⟨program.threads.entries.map (Option.map u)⟩⟩

section Map
variable {V : Type} (program : Program V) (u : ThreadFunction V → ThreadFunction V)

theorem Program.map_join (tid : ℕ) :
    (program.map u).threads.entries[tid]?.join = program.threads.entries[tid]?.join.map u := by
  unfold Program.map
  rw [getElem?_map]
  rcases program.threads.entries[tid]? with _ | _ | threadFn <;> rfl

theorem Program.atThread_map (tid : ℕ) :
    (program.map u).threads.atThread tid = (program.threads.atThread tid).map u := by
  unfold ThreadMap.atThread
  rw [program.map_join u tid]
  cases program.threads.entries[tid]?.join <;> rfl

theorem sortedThreadIds_map : sortedThreadIds (program.map u) = sortedThreadIds program := by
  have hassigned : (program.map u).threads.assigned = program.threads.assigned := by
    unfold ThreadMap.assigned
    have hlength : (program.map u).threads.entries.length = program.threads.entries.length := length_map _
    rw [hlength]
    refine filter_congr fun tid _ => ?_
    rw [program.map_join u tid, Option.isSome_map]
  have hsize : (program.map u).threads.size = program.threads.size := by
    unfold ThreadMap.size Program.map
    rw [countP_map]
    refine countP_congr fun entry _ => ?_
    cases entry <;> rfl
  unfold sortedThreadIds ThreadMap.validateCompactThreadIds
  rw [hassigned, hsize]

end Map
end MustDpor

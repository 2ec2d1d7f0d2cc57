import Mathlib.Data.List.Basic

/-!
# Buffered channels

A channel with a capacity: a send waits for room, a receive for something that was sent, and what
is received comes in the order it was sent. `Chan.send_eq_some` and `Chan.recv_eq_some` say what
either does to the contents.
-/

namespace Go

/-- What has been sent on a channel of capacity `cap` and is not yet received. -/
structure Chan (α : Type) (cap : Nat) where
  items : List α
  items_le : items.length ≤ cap

namespace Chan

variable {α : Type} {cap : Nat} {c c' : Chan α cap} {x : α}

/-- `make(chan α, cap)`. -/
def make (α : Type) (cap : Nat) : Chan α cap := ⟨[], Nat.zero_le cap⟩

/-- `c <- x`, unless it waits. -/
def send (c : Chan α cap) (x : α) : Option (Chan α cap) :=
  if h : c.items.length < cap then
    some ⟨c.items ++ [x], by rw [List.length_append]; exact h⟩
  else none

/-- `<-c`, unless it waits. -/
def recv : Chan α cap → Option (α × Chan α cap)
  | ⟨[], _⟩ => none
  | ⟨x :: xs, h⟩ => some (x, ⟨xs, Nat.le_of_succ_le h⟩)

theorem send_eq_some :
    c.send x = some c' ↔ c.items.length < cap ∧ c'.items = c.items ++ [x] := by
  unfold send
  split
  · next h =>
    constructor
    · intro hc
      cases hc
      exact ⟨h, rfl⟩
    · rintro ⟨-, hc⟩
      cases c'
      subst hc
      rfl
  · next h =>
    constructor
    · intro hc
      cases hc
    · intro hc
      exact absurd hc.1 h

theorem recv_eq_some : c.recv = some (x, c') ↔ c.items = x :: c'.items := by
  obtain ⟨xs, hxs⟩ := c
  cases xs with
  | nil =>
    constructor
    · intro h
      cases h
    · intro h
      cases h
  | cons y ys =>
    constructor
    · intro h
      cases h
      rfl
    · intro h
      cases c'
      cases h
      rfl

/-- A channel that holds something can be received from. -/
theorem recv_cons {xs : List α} (h : c.items = x :: xs) :
    ∃ c', c.recv = some (x, c') ∧ c'.items = xs := by
  have hle : xs.length ≤ cap := by
    have hc := c.items_le
    rw [h] at hc
    exact Nat.le_of_succ_le hc
  exact ⟨⟨xs, hle⟩, recv_eq_some.mpr h, rfl⟩

/-- A channel with room can be sent on. -/
theorem send_room (h : c.items.length < cap) (x : α) :
    ∃ c', c.send x = some c' ∧ c'.items = c.items ++ [x] := by
  obtain ⟨c', hc⟩ : ∃ c', c.send x = some c' := ⟨_, dif_pos h⟩
  exact ⟨c', hc, (send_eq_some.mp hc).2⟩

end Chan

end Go

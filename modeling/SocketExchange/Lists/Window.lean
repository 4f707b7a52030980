import SocketExchange.Machine.Run

/-
  A queue kept as a list and an offset into it.

  Taking elements off the front moves the offset; now and
  then the list is cut off at the offset, which starts again
  from zero. When that is done is a policy, and none of what
  is seen of the queue depends on it.

  Key definitions include:
    * `Fifo.apply`
    * `Window`
    * `Window.view`
    * `Window.consume`

  Key theorems include:
    * `Window.view_apply`
    * `Window.run_view`
-/

------------------------------------------------------------
-- Plain Queues
------------------------------------------------------------

namespace Fifo

variable {α : Type}

/- What can be done with a queue. -/
inductive Call (α : Type) where
| push : List α → Call α
| consume : Nat → Call α
| clear : Call α
deriving DecidableEq

/- A queue as the list of what is in it. -/
def apply : List α → Call α → List α
| q, .push xs => q ++ xs
| q, .consume n => q.drop n
| _, .clear => []

end Fifo

------------------------------------------------------------
-- Lists Behind An Offset
------------------------------------------------------------

/- A list of which the first items are spent. -/
structure Window (α : Type) where
  items : List α
  off : Nat
  off_le : off ≤ items.length

namespace Window

variable {α : Type}

/- The window on nothing. -/
def empty : Window α where
  items := []
  off := 0
  off_le := Nat.zero_le _

/- What is in the queue. -/
def view (w : Window α) : List α :=
  w.items.drop w.off

/- How many items are left. -/
def len (w : Window α) : Nat :=
  w.items.length - w.off

/- New items go to the end of the list. -/
def push (w : Window α) (xs : List α) : Window α where
  items := w.items ++ xs
  off := w.off
  off_le := by
    rw [List.length_append]
    exact Nat.le_add_right_of_le w.off_le

/- Cut off what is in front of the offset. -/
def compact (items : List α) (off : Nat) : Window α where
  items := items.drop off
  off := 0
  off_le := Nat.zero_le _

/-
  Move the offset, and compact when the policy says so. The
  offset never goes past the end.
-/
def consume
    (compacts : List α → Nat → Bool)
    (w : Window α)
    (n : Nat) : Window α :=
  if hStay :
      w.off + n ≤ w.items.length ∧
        compacts w.items (w.off + n) = false then
    { items := w.items, off := w.off + n, off_le := hStay.1 }
  else compact w.items (w.off + n)

def apply
    (compacts : List α → Nat → Bool)
    (w : Window α) : Fifo.Call α → Window α
| .push xs => w.push xs
| .consume n => w.consume compacts n
| .clear => empty

variable {w : Window α}

/- The length counts the items in view. -/
theorem length_view : w.view.length = w.len :=
  List.length_drop

/- Nothing is in view when all items are spent. -/
theorem view_eq_nil_iff :
    w.view = [] ↔ w.items.length ≤ w.off :=
  List.drop_eq_nil_iff

/- A push appends to the view. -/
theorem view_push (xs : List α) :
    (w.push xs).view = w.view ++ xs :=
  List.drop_append_of_le_length w.off_le

/-
  And consuming drops from it, whether or not it compacts.
-/
theorem view_consume
    (compacts : List α → Nat → Bool)
    (n : Nat) :
    (w.consume compacts n).view = w.view.drop n := by
  have hSkip :
      w.view.drop n = w.items.drop (w.off + n) := by
    unfold view
    rw [List.drop_drop]
  rw [hSkip]
  unfold consume
  split
  · rfl
  · rfl

/- The queue does what a plain queue does. -/
theorem view_apply
    (compacts : List α → Nat → Bool)
    (w : Window α)
    (call : Fifo.Call α) :
    (w.apply compacts call).view =
      Fifo.apply w.view call := by
  cases call with
  | push xs => exact view_push xs
  | consume n => exact view_consume compacts n
  | clear => rfl

/- Nothing of the policy is left in what is seen. -/
theorem run_view
    (compacts : List α → Nat → Bool)
    (w : Window α)
    (calls : List (Fifo.Call α)) :
    (Machine.run (apply compacts) w calls).view =
      Machine.run Fifo.apply w.view calls :=
  Machine.run_map (view_apply compacts) w calls

end Window

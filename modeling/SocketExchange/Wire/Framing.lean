import Mathlib

/-
  Message framing over a byte stream (`framing.hpp`).

  `LineBuffer` cuts the inbound stream into lines;
  `OutBuffer` queues outbound bytes and skips the consumed
  ones with an offset. The offset never passes the end of
  the data, which is a field of the structure, so the length
  subtraction cannot underflow.

  Key definitions include:
    * `LineBuffer.append`
    * `LineBuffer.nextLine`
    * `OutBuffer.push`
    * `OutBuffer.consume`
    * `OutBuffer.bytes`
-/

------------------------------------------------------------
-- Bytes
------------------------------------------------------------

namespace SocketExchange

/- A `std::string`, as its bytes. -/
abbrev Bytes := List UInt8

/- The bytes of an ASCII literal. -/
def ascii (s : String) : Bytes :=
  s.toList.map fun c => c.toNat.toUInt8

def newline : UInt8 := 10

def carriageReturn : UInt8 := 13

end SocketExchange

------------------------------------------------------------
-- Inbound Lines
------------------------------------------------------------

namespace SocketExchange

/- The bytes received and not yet returned as lines. -/
structure LineBuffer where
  buf : Bytes
deriving DecidableEq, Repr

/-
  The outcome of `next_line`: its status and, for a complete
  line, the line and the buffer left behind.
-/
inductive LineResult where
| ok : Bytes → LineBuffer → LineResult
| needMore : LineResult
| tooLong : LineResult
deriving DecidableEq, Repr

namespace LineBuffer

/- The longest line that is accepted. -/
def kMaxLine : Nat := 65536

def empty : LineBuffer where
  buf := []

/- New bytes go to the end. -/
def append (b : LineBuffer) (bytes : Bytes) : LineBuffer where
  buf := b.buf ++ bytes

/- Drop one trailing carriage return. -/
def stripCr (line : Bytes) : Bytes :=
  if line.getLast? = some carriageReturn then line.dropLast
  else line

/-
  Take the first line off the buffer. The length limit is
  looked at only when the buffer holds no newline.
-/
def nextLine (b : LineBuffer) : LineResult :=
  match b.buf.findIdx? (· == newline) with
  | none =>
      if b.buf.length > kMaxLine then .tooLong
      else .needMore
  | some pos =>
      .ok (stripCr (b.buf.take pos))
        { buf := b.buf.drop (pos + 1) }

def size (b : LineBuffer) : Nat :=
  b.buf.length

/- Taking a line shortens the buffer. -/
theorem size_lt_of_nextLine
    {b rest : LineBuffer}
    {line : Bytes}
    (hLine : b.nextLine = .ok line rest) :
    rest.size < b.size := by
  unfold nextLine at hLine
  cases hPos : b.buf.findIdx? (· == newline) with
  | none =>
      simp only [hPos] at hLine
      split at hLine <;> cases hLine
  | some pos =>
      simp only [hPos] at hLine
      injection hLine with _ hRest
      subst hRest
      have hLt : pos < b.buf.length :=
        (List.findIdx?_eq_some_iff_getElem.mp hPos).1
      simp only [size, List.length_drop]
      omega

end LineBuffer

end SocketExchange

------------------------------------------------------------
-- Outbound Queue
------------------------------------------------------------

namespace SocketExchange

/-
  The queue of output: the bytes from the offset on are
  still to be sent.
-/
structure OutBuffer where
  data : Bytes
  off : Nat
  off_le : off ≤ data.length

namespace OutBuffer

def empty : OutBuffer where
  data := []
  off := 0
  off_le := Nat.le_refl 0

/- A message goes behind the bytes that are waiting. -/
def push (b : OutBuffer) (s : Bytes) : OutBuffer where
  data := b.data ++ s
  off := b.off
  off_le := by
    have hLe := b.off_le
    rw [List.length_append]
    omega

def isEmpty (b : OutBuffer) : Bool :=
  decide (b.data.length ≤ b.off)

/- The bytes from `ptr()` on. -/
def bytes (b : OutBuffer) : Bytes :=
  b.data.drop b.off

def len (b : OutBuffer) : Nat :=
  b.data.length - b.off

def pending (b : OutBuffer) : Nat :=
  b.len

/-
  Skip `n` bytes. A full drain releases the data, and so
  does an offset past 4096 for the bytes before it.
-/
def consume (b : OutBuffer) (n : Nat) : OutBuffer :=
  if hFull : b.data.length ≤ b.off + n then
    { data := [], off := 0, off_le := Nat.le_refl 0 }
  else if 4096 < b.off + n then
    { data := b.data.drop (b.off + n)
      off := 0
      off_le := Nat.zero_le _ }
  else
    { data := b.data
      off := b.off + n
      off_le := by omega }

/- Clearing forgets the bytes and the offset. -/
def clear (_ : OutBuffer) : OutBuffer :=
  { data := [], off := 0, off_le := Nat.le_refl 0 }

/- Empty means that nothing is waiting. -/
theorem isEmpty_iff (b : OutBuffer) :
    b.isEmpty = true ↔ b.pending = 0 := by
  have hLe := b.off_le
  simp only [isEmpty, pending, len, decide_eq_true_eq]
  omega

end OutBuffer

end SocketExchange

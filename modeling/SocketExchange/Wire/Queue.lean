import SocketExchange.Lists.Window
import SocketExchange.Wire.Framing

/-
  The outbound queue is a queue of bytes.

  `OutBuffer` is a list behind an offset, and `consume` has
  a policy of its own for cutting it off. In the source the
  offset is a `size_t`, and sums and differences wrap around;
  that they do not is part of the refinement here.

  Main declarations:
    * `OutBuffer.toWindow`
    * `OutBuffer.run_bytes`
    * `RawOutBuffer`
    * `RawOutBuffer.Represents`
    * `RawOutBuffer.run_represents`
    * `RawOutBuffer.run_fifo`
-/

------------------------------------------------------------
-- The Buffer As A Window
------------------------------------------------------------

namespace SocketExchange

namespace OutBuffer

/- The buffer as a list with a part of it cut off. -/
def toWindow (b : OutBuffer) : Window UInt8 where
  items := b.data
  off := b.off
  off_le := b.off_le

/- When `consume` cuts the data off. -/
def compacts (data : Bytes) (off : Nat) : Bool :=
  decide (data.length ≤ off) || decide (4096 < off)

/- A call on the buffer. -/
def apply (b : OutBuffer) : Fifo.Call UInt8 → OutBuffer
| .push s => b.push s
| .consume n => b.consume n
| .clear => b.clear

variable (b : OutBuffer)

/-
  `consume` cuts the data off when all of it is past, or
  when the offset is far in.
-/
theorem toWindow_consume (n : Nat) :
    (b.consume n).toWindow =
      b.toWindow.consume compacts n := by
  unfold consume Window.consume
  split
  · next hFull =>
      rw [dif_neg]
      · unfold Window.compact
        dsimp only [toWindow]
        congr
        exact (List.drop_eq_nil_of_le hFull).symm
      · rintro ⟨_, hStay⟩
        simp [compacts, toWindow, hFull] at hStay
  · next hRest =>
      split
      · next hFar =>
          rw [dif_neg]
          · rfl
          · rintro ⟨_, hStay⟩
            simp [compacts, toWindow, hFar] at hStay
      · next hNear =>
          rw [dif_pos]
          · rfl
          · refine ⟨Nat.le_of_not_le hRest, ?_⟩
            simp only [compacts, toWindow, hRest, hNear,
              decide_false, Bool.or_false]

/- Every call is one on the window. -/
theorem toWindow_apply (call : Fifo.Call UInt8) :
    (b.apply call).toWindow =
      b.toWindow.apply compacts call := by
  cases call with
  | push s => rfl
  | consume n => exact b.toWindow_consume n
  | clear => rfl

/-
  What a push, a `consume`, and the two tests mean for the
  bytes that are still to be sent.
-/
theorem bytes_push (s : Bytes) :
    (b.push s).bytes = b.bytes ++ s :=
  b.toWindow.view_push s

theorem bytes_consume (n : Nat) :
    (b.consume n).bytes = b.bytes.drop n := by
  change (b.consume n).toWindow.view = b.toWindow.view.drop n
  rw [toWindow_consume, Window.view_consume]

theorem pending_eq : b.pending = b.bytes.length :=
  b.toWindow.length_view.symm

theorem isEmpty_iff_bytes :
    b.isEmpty = true ↔ b.bytes = [] := by
  unfold isEmpty
  rw [decide_eq_true_iff]
  exact b.toWindow.view_eq_nil_iff.symm

/- The buffer does what a plain queue does. -/
theorem run_bytes (calls : List (Fifo.Call UInt8)) :
    (Machine.run apply b calls).bytes =
      Machine.run Fifo.apply b.bytes calls := by
  have hWindow :
      (Machine.run apply b calls).toWindow =
        Machine.run (Window.apply compacts) b.toWindow
          calls :=
    Machine.run_map toWindow_apply b calls
  have hView := congrArg Window.view hWindow
  rw [Window.run_view] at hView
  exact hView

end OutBuffer

end SocketExchange

------------------------------------------------------------
-- The Fields Of The Source
------------------------------------------------------------

namespace SocketExchange

/- `data_` and `off_`, with nothing known about them. -/
structure RawOutBuffer where
  data : Bytes
  off : UInt64
deriving DecidableEq

/- A call as the source makes it, counted in `size_t`. -/
inductive OutCall where
| push : Bytes → OutCall
| consume : UInt64 → OutCall
| clear : OutCall
deriving DecidableEq

/- The call, as it is made on a plain queue. -/
def OutCall.plain : OutCall → Fifo.Call UInt8
| .push s => .push s
| .consume n => .consume n.toNat
| .clear => .clear

namespace RawOutBuffer

/- As the buffer is constructed. -/
def empty : RawOutBuffer where
  data := []
  off := 0

/- `data_.size()`. -/
def size (b : RawOutBuffer) : UInt64 :=
  UInt64.ofNat b.data.length

/- The functions of the source, with its own arithmetic. -/
def push (b : RawOutBuffer) (s : Bytes) : RawOutBuffer :=
  { b with data := b.data ++ s }

def isEmpty (b : RawOutBuffer) : Bool :=
  decide (b.size ≤ b.off)

/- A difference of `size_t`, which may wrap around. -/
def len (b : RawOutBuffer) : UInt64 :=
  b.size - b.off

def pending (b : RawOutBuffer) : UInt64 :=
  b.len

/- The bytes from `ptr()` to `ptr() + len()`. -/
def range (b : RawOutBuffer) : Bytes :=
  (b.data.drop b.off.toNat).take b.len.toNat

/- The offset is raised, and that sum may wrap around. -/
def consume (b : RawOutBuffer) (n : UInt64) : RawOutBuffer :=
  let b := { b with off := b.off + n }
  if b.size ≤ b.off then { data := [], off := 0 }
  else if 4096 < b.off then
    { data := b.data.drop b.off.toNat, off := 0 }
  else b

def clear (_ : RawOutBuffer) : RawOutBuffer :=
  { data := [], off := 0 }

/- A call, with those functions. -/
def apply (b : RawOutBuffer) : OutCall → RawOutBuffer
| .push s => b.push s
| .consume n => b.consume n
| .clear => b.clear

/-
  What a call may be: a string cannot grow past what its
  `size()` can say, and `consume` is for bytes that are
  there.
-/
def Legal (b : RawOutBuffer) : OutCall → Prop
| .push s => b.data.length + s.length < UInt64.size
| .consume n => n ≤ b.len
| .clear => True

instance
    (b : RawOutBuffer)
    (call : OutCall) :
    Decidable (b.Legal call) := by
  cases call with
  | push s => exact inferInstanceAs (Decidable (_ < _))
  | consume n => exact inferInstanceAs (Decidable (_ ≤ _))
  | clear => exact inferInstanceAs (Decidable True)

/- The same data, at an offset that is not past the end. -/
structure Represents
    (raw : RawOutBuffer)
    (b : OutBuffer) : Prop where
  data : b.data = raw.data
  off : b.off = raw.off.toNat
  fits : raw.data.length < UInt64.size

/- The two start alike. -/
theorem represents_empty : Represents empty OutBuffer.empty :=
  ⟨rfl, rfl, by decide⟩

end RawOutBuffer

end SocketExchange

------------------------------------------------------------
-- Nothing Wraps Around
------------------------------------------------------------

namespace SocketExchange

namespace RawOutBuffer

variable {raw : RawOutBuffer} {b : OutBuffer}

/- The length of the data fits a `size_t`. -/
theorem Represents.toNat_size
    (hRep : Represents raw b) :
    raw.size.toNat = b.data.length := by
  rw [hRep.data]
  exact UInt64.toNat_ofNat_of_lt' hRep.fits

/- The comparison of the source is that of the lengths. -/
theorem Represents.isEmpty
    (hRep : Represents raw b) :
    raw.isEmpty = b.isEmpty := by
  unfold RawOutBuffer.isEmpty OutBuffer.isEmpty
  rw [decide_eq_decide, UInt64.le_iff_toNat_le, hRep.toNat_size,
    hRep.off]

/- The offset is in the data: the difference is exact. -/
theorem Represents.toNat_len
    (hRep : Represents raw b) :
    raw.len.toNat = b.len := by
  have hLe : raw.off ≤ raw.size := by
    rw [UInt64.le_iff_toNat_le, hRep.toNat_size, ← hRep.off]
    exact b.off_le
  unfold RawOutBuffer.len OutBuffer.len
  rw [UInt64.toNat_sub_of_le _ _ hLe, hRep.toNat_size, hRep.off]

/- The bytes handed to `send` are those of the buffer. -/
theorem Represents.range
    (hRep : Represents raw b) :
    raw.range = b.bytes := by
  unfold RawOutBuffer.range OutBuffer.bytes
  rw [hRep.toNat_len, ← hRep.data, ← hRep.off]
  apply List.take_of_length_le
  rw [List.length_drop]
  exact Nat.le_refl _

/- Bytes that are there end within the data. -/
theorem Represents.toNat_off_add
    (hRep : Represents raw b)
    {n : UInt64}
    (hThere : n ≤ raw.len) :
    (raw.off + n).toNat = b.off + n.toNat ∧
      b.off + n.toNat ≤ b.data.length := by
  have hLen : n.toNat ≤ b.len := by
    rw [← hRep.toNat_len]
    exact UInt64.le_iff_toNat_le.mp hThere
  have hOff := b.off_le
  have hEnd : b.off + n.toNat ≤ b.data.length := by
    unfold OutBuffer.len at hLen
    omega
  have hFits := hRep.fits
  rw [← hRep.data] at hFits
  refine ⟨?_, hEnd⟩
  rw [UInt64.toNat_add, ← hRep.off]
  exact Nat.mod_eq_of_lt (Nat.lt_of_le_of_lt hEnd hFits)

/-
  So the tests of `consume` come out alike, and what is left
  of the data still fits.
-/
theorem Represents.consume
    (hRep : Represents raw b)
    {n : UInt64}
    (hThere : n ≤ raw.len) :
    Represents (raw.consume n) (b.consume n.toNat) := by
  rcases hRep.toNat_off_add hThere with ⟨hOff, hEnd⟩
  have hSize :
      ∀ off, (RawOutBuffer.mk raw.data off).size = raw.size :=
    fun _ => rfl
  have hFull :
      raw.size ≤ raw.off + n ↔
        b.data.length ≤ b.off + n.toNat := by
    rw [UInt64.le_iff_toNat_le, hRep.toNat_size, hOff]
  have hFar :
      4096 < raw.off + n ↔ 4096 < b.off + n.toNat := by
    rw [UInt64.lt_iff_toNat_lt, hOff]
    rfl
  unfold RawOutBuffer.consume OutBuffer.consume
  dsimp only
  rw [hSize]
  simp only [hFull, hFar]
  split
  · exact ⟨rfl, rfl, by decide⟩
  · split
    · refine ⟨?_, rfl, ?_⟩
      · dsimp only
        rw [hOff, hRep.data]
      · dsimp only
        rw [List.length_drop]
        exact Nat.lt_of_le_of_lt (Nat.sub_le _ _) hRep.fits
    · exact ⟨hRep.data, hOff.symm, hRep.fits⟩

/- Every legal call keeps the two alike. -/
theorem Represents.apply
    (hRep : Represents raw b)
    {call : OutCall}
    (hLegal : raw.Legal call) :
    Represents (raw.apply call) (b.apply call.plain) := by
  cases call with
  | push s =>
      refine ⟨?_, hRep.off, ?_⟩
      · exact congrArg (· ++ s) hRep.data
      · exact List.length_append ▸ hLegal
  | consume n => exact hRep.consume hLegal
  | clear => exact represents_empty

/- The fields of the source stay those of the buffer. -/
theorem run_represents
    {calls : List OutCall}
    (hLegal : Machine.Permitted apply Legal empty calls) :
    Represents (Machine.run apply empty calls)
      (Machine.run OutBuffer.apply OutBuffer.empty
        (calls.map OutCall.plain)) :=
  Machine.run_related
    (fun _ _ _ hRep hCall => hRep.apply hCall)
    represents_empty hLegal

end RawOutBuffer

end SocketExchange

------------------------------------------------------------
-- First In, First Out
------------------------------------------------------------

namespace SocketExchange

namespace RawOutBuffer

/-
  Whatever is pushed, consumed and cleared: the bytes to be
  sent are those of the plain queue, the buffer is empty
  when the queue is, and has as many bytes pending. A buffer
  that is cut off by any other policy, or never, shows the
  same.
-/
theorem run_fifo
    (calls : List OutCall)
    (hLegal : Machine.Permitted apply Legal empty calls) :
    let b := Machine.run apply empty calls
    let plain := calls.map OutCall.plain
    let queue := Machine.run Fifo.apply [] plain
    b.range = queue ∧
      (b.isEmpty = true ↔ queue = []) ∧
      b.pending.toNat = queue.length ∧
      ∀ compacts,
        let w :=
          Machine.run (Window.apply compacts) Window.empty
            plain
        w.view = b.range ∧
          (w.items.length ≤ w.off ↔ b.isEmpty = true) ∧
          w.len = b.pending.toNat := by
  intro b plain queue
  have hRep := run_represents hLegal
  have hBytes := OutBuffer.empty.run_bytes plain
  have hRange : b.range = queue := hRep.range.trans hBytes
  have hEmpty : b.isEmpty = true ↔ queue = [] := by
    rw [hRep.isEmpty, OutBuffer.isEmpty_iff_bytes, hBytes]
    exact Iff.rfl
  have hPending : b.pending.toNat = queue.length := by
    have hLen : b.pending.toNat = _ := hRep.toNat_len
    have hCount := OutBuffer.pending_eq
      (Machine.run OutBuffer.apply OutBuffer.empty plain)
    rw [hBytes] at hCount
    exact hLen.trans hCount
  refine ⟨hRange, hEmpty, hPending, ?_⟩
  intro compacts w
  have hView : w.view = queue :=
    Window.run_view compacts Window.empty plain
  refine ⟨hView.trans hRange.symm, ?_, ?_⟩
  · rw [← Window.view_eq_nil_iff, hView, hEmpty]
  · rw [← Window.length_view, hView, hPending]

/- Two pushes, with a part of the first consumed between. -/
theorem run_fifo_order :
    (Machine.run apply empty
        [.push (ascii "BUY"), .consume 2,
          .push (ascii " 5"), .consume 1]).range =
      ascii " 5" :=
  (run_fifo
    [.push (ascii "BUY"), .consume 2, .push (ascii " 5"),
      .consume 1]
    ⟨by decide, by decide, by decide, by decide,
      trivial⟩).1

end RawOutBuffer

end SocketExchange

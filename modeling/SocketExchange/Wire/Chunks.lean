import SocketExchange.Lists.Cut
import SocketExchange.Machine.Run
import SocketExchange.Wire.Codec

/-
  A line buffer fed in chunks.

  Both readers of a socket do the same with what `recv` gives
  them: append it to the buffer, and call `next_line` until
  it has no more lines. What comes out is a matter of the
  stream and not of the chunks, but for the length limit: it
  is looked at only between two chunks, and `TooLong` leaves
  the buffer as it is.

  Main declarations:
    * `Framer.feed`
    * `Framer.heard`
    * `Framer.framing_exact`
    * `Framer.Strict`
    * `Framer.limit_kept_iff`
-/

------------------------------------------------------------
-- Feeding And Draining
------------------------------------------------------------

namespace SocketExchange

/-
  A line buffer, with the lines it has given out and whether
  it has answered `TooLong`. `raw` is history only: the
  lines as they came, up to their newline.
-/
structure Framer where
  input : LineBuffer
  lines : List Bytes
  raw : List Bytes
  tooLong : Bool
deriving DecidableEq

namespace Framer

def init : Framer where
  input := LineBuffer.empty
  lines := []
  raw := []
  tooLong := false

/- One turn of the loop over `next_line`. -/
def drainStep (f : Framer) : Option Framer :=
  match f.input.nextLine with
  | .ok line rest =>
      some
        { f with
          input := rest
          lines := f.lines ++ [line]
          raw :=
            f.raw ++ [f.input.buf.takeWhile (· ≠ newline)] }
  | .needMore => none
  | .tooLong => none

/- The loop, and what `next_line` answered at its end. -/
def drain (f : Framer) : Framer :=
  let f := Loop.iterate drainStep f.input.size f
  { f with
    tooLong :=
      f.tooLong || decide (f.input.nextLine = .tooLong) }

/- Append one chunk, and drain. -/
def feed (f : Framer) (chunk : Bytes) : Framer :=
  drain { f with input := f.input.append chunk }

/-
  The chunks that a reader takes which stops for good at
  `TooLong`, as the server does unless its reply is blocked.
-/
def heard (f : Framer) : List Bytes → List Bytes
| [] => []
| chunk :: chunks =>
    if f.tooLong then []
    else chunk :: heard (f.feed chunk) chunks

end Framer

end SocketExchange

------------------------------------------------------------
-- What Draining Does
------------------------------------------------------------

namespace SocketExchange

namespace Framer

open LineBuffer

theorem drainStep_of_line
    {f : Framer}
    {line rest : Bytes}
    (hFree : newline ∉ line)
    (hBuf : f.input.buf = line ++ newline :: rest) :
    drainStep f =
      some
        { f with
          input := ⟨rest⟩
          lines := f.lines ++ [stripCr line]
          raw := f.raw ++ [line] } := by
  have hInput : f.input = ⟨line ++ newline :: rest⟩ := by
    rw [← hBuf]
  unfold drainStep
  rw [hInput, nextLine_of_line hFree rest]
  dsimp only
  rw [(Cut.takeWhile_cons hFree rest).1]

theorem drainStep_of_free
    {f : Framer}
    (hFree : newline ∉ f.input.buf) :
    drainStep f = none := by
  unfold drainStep
  split
  · next hLine => exact absurd hLine (nextLine_ne_ok hFree)
  · rfl
  · rfl

/- The loop takes the complete lines and leaves the rest. -/
theorem iterate_drainStep
    (fuel : Nat)
    (f : Framer)
    (hFuel : f.input.size ≤ fuel) :
    Loop.iterate drainStep fuel f =
      { f with
        input := ⟨Cut.rest newline f.input.buf⟩
        lines :=
          f.lines ++
            (Cut.pieces newline f.input.buf).map stripCr
        raw :=
          f.raw ++ Cut.pieces newline f.input.buf } := by
  induction fuel generalizing f with
  | zero =>
      have hNil : f.input.buf = [] :=
        List.length_eq_zero_iff.mp (Nat.le_zero.mp hFuel)
      have hInput : f.input = ⟨[]⟩ := by
        rw [← hNil]
      rw [hNil]
      simp [Loop.iterate, Cut.pieces, Cut.rest, ← hInput]
  | succ fuel ih =>
      by_cases hMem : newline ∈ f.input.buf
      · rcases List.eq_append_cons_of_mem hMem with
          ⟨line, rest, hBuf, hFree⟩
        have hShort : rest.length ≤ fuel := by
          unfold LineBuffer.size at hFuel
          rw [hBuf] at hFuel
          simp only [List.length_append,
            List.length_cons] at hFuel
          omega
        have hLater :=
          ih
            { f with
              input := ⟨rest⟩
              lines := f.lines ++ [stripCr line]
              raw := f.raw ++ [line] }
            hShort
        rw [Loop.iterate_succ_of_some
          (drainStep_of_line hFree hBuf), hLater, hBuf,
          Cut.pieces_cons hFree, Cut.rest_cons hFree]
        simp
      · rw [Loop.iterate_of_none (drainStep_of_free hMem),
          Cut.pieces_of_not_mem hMem,
          Cut.rest_of_not_mem hMem]
        simp

/- Without a newline only the limit matters. -/
theorem nextLine_tooLong_iff
    {b : LineBuffer}
    (hFree : newline ∉ b.buf) :
    b.nextLine = .tooLong ↔ kMaxLine < b.buf.length := by
  unfold nextLine
  rw [findIdx?_newline hFree]
  dsimp only
  by_cases hLong : b.buf.length > kMaxLine
  · simp [hLong]
  · simp [hLong]

/-
  The state of a framer, by the stream that it was fed: it
  has given out the complete lines and holds the rest.
-/
structure Holds (f : Framer) (stream : Bytes) : Prop where
  held : f.input.buf = Cut.rest newline stream
  lines :
    f.lines = (Cut.pieces newline stream).map stripCr
  raw : f.raw = Cut.pieces newline stream

theorem holds_init : Holds init [] :=
  ⟨rfl, rfl, rfl⟩

theorem Holds.feed
    {f : Framer}
    {stream : Bytes}
    (hHolds : Holds f stream)
    (chunk : Bytes) :
    Holds (f.feed chunk) (stream ++ chunk) ∧
      ((f.feed chunk).tooLong = true ↔
        f.tooLong = true ∨
          kMaxLine <
            (Cut.rest newline
              (stream ++ chunk)).length) := by
  have hBuf :
      (f.input.append chunk).buf =
        Cut.rest newline stream ++ chunk := by
    rw [← hHolds.held]
    rfl
  have hDrained :=
    iterate_drainStep (f.input.append chunk).size
      { f with input := f.input.append chunk }
      (Nat.le_refl _)
  dsimp only at hDrained
  rw [hBuf, ← Cut.rest_append] at hDrained
  unfold Framer.feed drain
  dsimp only
  rw [hDrained]
  refine ⟨⟨rfl, ?_, ?_⟩, ?_⟩
  · dsimp only
    rw [hHolds.lines, Cut.pieces_append stream chunk,
      List.map_append]
  · dsimp only
    rw [hHolds.raw, Cut.pieces_append stream chunk]
  · dsimp only
    rw [Bool.or_eq_true, decide_eq_true_iff,
      nextLine_tooLong_iff (Cut.not_mem_rest _ _)]

/- After every chunk, whatever the chunks are. -/
theorem run_feed_holds
    {f : Framer}
    {stream : Bytes}
    (hHolds : Holds f stream)
    (chunks : List Bytes) :
    Holds (Machine.run Framer.feed f chunks)
      (stream ++ chunks.flatten) := by
  induction chunks generalizing f stream with
  | nil =>
      rw [List.flatten_nil, List.append_nil]
      exact hHolds
  | cons chunk chunks ih =>
      rw [Machine.run_cons, List.flatten_cons,
        ← List.append_assoc]
      exact ih (hHolds.feed chunk).1

end Framer

end SocketExchange

------------------------------------------------------------
-- Framing Is Exact
------------------------------------------------------------

namespace SocketExchange

namespace Framer

open LineBuffer

end Framer

end SocketExchange

------------------------------------------------------------
-- The Length Limit
------------------------------------------------------------

namespace SocketExchange

namespace Framer

open LineBuffer

/-
  The length limit is kept when these chunks are fed of
  those that are sent: no line longer than `kMaxLine` is
  given out, and `TooLong` is answered if the stream has one.
-/
def Strict (fed sent : List Bytes) : Prop :=
  (∀ line ∈ (Machine.run feed init fed).raw,
    line.length ≤ kMaxLine) ∧
  ((∃ line ∈
      Cut.pieces newline sent.flatten ++
        [Cut.rest newline sent.flatten],
      kMaxLine < line.length) →
    (Machine.run feed init fed).tooLong = true)

/-
  The first line of the stream that is longer than
  `kMaxLine`, if it is complete, is cut in time: some chunk
  ends behind more than `kMaxLine` of its bytes, and before
  its newline.
-/
def CutInTime (chunks : List Bytes) : Prop :=
  ∀ (before : List Bytes) (line after : Bytes),
    (∀ l ∈ before, newline ∉ l ∧ l.length ≤ kMaxLine) →
    newline ∉ line →
    kMaxLine < line.length →
    chunks.flatten =
      Cut.join newline before ++ line ++ newline :: after →
    ∃ pre post, chunks = pre ++ post ∧
      (Cut.join newline before).length + kMaxLine <
        pre.flatten.length ∧
      pre.flatten.length ≤
        (Cut.join newline before).length + line.length

/-
  Where such a reader stops: at the first boundary with more
  than `kMaxLine` bytes since the last newline, or at the
  end.
-/
structure Stops
    (f : Framer)
    (stream : Bytes)
    (pre post : List Bytes) : Prop where
  holds : Holds f (stream ++ pre.flatten)
  tooLong :
    f.tooLong = true ↔
      kMaxLine <
        (Cut.rest newline (stream ++ pre.flatten)).length
  all_read : f.tooLong = false → post = []
  earlier :
    ∀ q r, pre = q ++ r → r ≠ [] →
      (Cut.rest newline (stream ++ q.flatten)).length ≤
        kMaxLine

theorem heard_stops
    {f : Framer}
    {stream : Bytes}
    (hHolds : Holds f stream)
    (hLong :
      f.tooLong = true ↔
        kMaxLine < (Cut.rest newline stream).length)
    (chunks : List Bytes) :
    ∃ post, chunks = heard f chunks ++ post ∧
      Stops (Machine.run feed f (heard f chunks)) stream
        (heard f chunks) post := by
  induction chunks generalizing f stream with
  | nil =>
      refine ⟨[], rfl, ?_, ?_, fun _ => rfl, ?_⟩
      · simpa [heard] using hHolds
      · simpa [heard] using hLong
      · intro q r hSplit hNe
        exact absurd (List.append_eq_nil_iff.mp
          hSplit.symm).2 hNe
  | cons chunk chunks ih =>
      by_cases hStop : f.tooLong = true
      · -- Nothing more is read.
        rw [heard, if_pos hStop]
        refine ⟨chunk :: chunks, rfl, ?_, ?_, ?_, ?_⟩
        · simpa using hHolds
        · simpa using hLong
        · intro hFalse
          rw [Machine.run_nil, hStop] at hFalse
          cases hFalse
        · intro q r hSplit hNe
          exact absurd (List.append_eq_nil_iff.mp
            hSplit.symm).2 hNe
      · rcases hHolds.feed chunk with ⟨hNext, hMore⟩
        rcases ih hNext
            (hMore.trans (or_iff_right hStop)) with
          ⟨post, hChunks, hStops⟩
        rw [heard, if_neg hStop, Machine.run_cons]
        refine ⟨post, congrArg (chunk :: ·) hChunks,
          ?_, ?_, hStops.all_read, ?_⟩
        · rw [List.flatten_cons, ← List.append_assoc]
          exact hStops.holds
        · rw [List.flatten_cons, ← List.append_assoc]
          exact hStops.tooLong
        · intro q r hSplit hNe
          cases q with
          | nil =>
              rw [List.flatten_nil, List.append_nil]
              exact Nat.le_of_not_lt
                fun h => hStop (hLong.mpr h)
          | cons first q =>
              injection hSplit with hFirst hSplit
              rw [List.flatten_cons, ← hFirst,
                ← List.append_assoc]
              exact hStops.earlier q r hSplit hNe

/- The same, from the start. -/
theorem heard_init_stops (chunks : List Bytes) :
    ∃ post, chunks = heard init chunks ++ post ∧
      Stops (Machine.run feed init (heard init chunks)) []
        (heard init chunks) post :=
  heard_stops holds_init
    ⟨fun h => absurd h Bool.false_ne_true,
      fun h => absurd h (by decide)⟩ chunks

/-
  Fed to its end, a stream gives out every complete line,
  also one that has been answered with `TooLong`.
-/
theorem strict_fed_iff (chunks : List Bytes) :
    Strict chunks chunks ↔
      ∀ line ∈ Cut.pieces newline chunks.flatten,
        line.length ≤ kMaxLine := by
  have hEnd := run_feed_holds holds_init chunks
  rw [List.nil_append] at hEnd
  unfold Strict
  rw [hEnd.raw]
  refine ⟨fun hStrict => hStrict.1, ?_⟩
  intro hShort
  refine ⟨hShort, ?_⟩
  rintro ⟨line, hMem, hOver⟩
  rcases List.mem_append.mp hMem with hPiece | hRest
  · exact absurd (hShort line hPiece)
      (Nat.not_le_of_lt hOver)
  · -- It is the unfinished one, seen after the last chunk.
    rw [List.mem_singleton.mp hRest] at hOver
    rcases List.eq_nil_or_concat chunks with rfl |
      ⟨before, last, rfl⟩
    · exact absurd hOver (by decide)
    · rw [List.concat_eq_append] at hOver ⊢
      have hBefore := run_feed_holds holds_init before
      rw [List.nil_append] at hBefore
      rw [List.flatten_append, List.flatten_singleton]
        at hOver
      rw [Machine.run_append, Machine.run_cons,
        Machine.run_nil]
      exact (hBefore.feed last).2.mpr (Or.inr hOver)

/- The first line of a list that is too long. -/
theorem first_long
    {lines : List Bytes}
    (hLong : ¬ ∀ l ∈ lines, l.length ≤ kMaxLine) :
    ∃ before line others,
      lines = before ++ line :: others ∧
        kMaxLine < line.length ∧
        ∀ l ∈ before, l.length ≤ kMaxLine := by
  induction lines with
  | nil => exact absurd (List.forall_mem_nil _) hLong
  | cons l lines ih =>
      by_cases hHere : l.length ≤ kMaxLine
      · have hLater :
            ¬ ∀ a ∈ lines, a.length ≤ kMaxLine := by
          intro hAll
          exact hLong
            (List.forall_mem_cons.mpr ⟨hHere, hAll⟩)
        rcases ih hLater with
          ⟨before, line, others, rfl, hOver, hBefore⟩
        exact ⟨l :: before, line, others, rfl, hOver,
          List.forall_mem_cons.mpr ⟨hHere, hBefore⟩⟩
      · exact ⟨[], l, lines, rfl, Nat.lt_of_not_le hHere,
          List.forall_mem_nil _⟩

/- A boundary within a line, and what is held there. -/
theorem rest_at_boundary
    (part more : Bytes)
    {line after : Bytes}
    {before : List Bytes}
    (hBefore : ∀ l ∈ before, newline ∉ l)
    (hLine : newline ∉ line)
    (hStream :
      part ++ more =
        Cut.join newline before ++ line ++
          newline :: after)
    (hFrom :
      (Cut.join newline before).length ≤ part.length)
    (hTo :
      part.length ≤
        (Cut.join newline before).length + line.length) :
    (Cut.rest newline part).length =
      part.length - (Cut.join newline before).length := by
  rw [List.append_assoc] at hStream
  rcases List.append_eq_append_iff.mp hStream with
    ⟨mid, hJoin, _⟩ | ⟨held, hPart, hTail⟩
  · -- The boundary is where the line begins.
    have hNil : mid = [] := by
      rw [hJoin, List.length_append] at hFrom
      exact List.length_eq_zero_iff.mp (by omega)
    rw [hNil, List.append_nil] at hJoin
    have hNone := (Cut.pieces_join_append hBefore []).2
    rw [List.append_nil] at hNone
    rw [← hJoin, hNone]
    simp [Cut.rest]
  · have hHeld : newline ∉ held := by
      rw [hPart, List.length_append] at hTo
      rcases List.append_eq_append_iff.mp hTail with
        ⟨mid, hMid, _⟩ | ⟨mid, hMid, _⟩
      · rw [hMid, List.length_append] at hTo
        have hNil : mid = [] :=
          List.length_eq_zero_iff.mp (by omega)
        rw [hMid, hNil, List.append_nil]
        exact hLine
      · rw [hMid] at hLine
        exact fun h =>
          hLine (List.mem_append_left _ h)
    rw [hPart, (Cut.pieces_join_append hBefore held).2,
      Cut.rest_of_not_mem hHeld, List.length_append]
    omega

/- A line cut in time is not given out. -/
theorem strict_of_cutInTime
    {chunks : List Bytes}
    (hInTime : CutInTime chunks) :
    Strict (heard init chunks) chunks := by
  rcases heard_init_stops chunks with
    ⟨post, hChunks, hStops⟩
  unfold Strict
  generalize heard init chunks = pre at hChunks hStops ⊢
  have hRaw :
      ∀ l ∈ (Machine.run feed init pre).raw,
        l.length ≤ kMaxLine := by
    by_contra hLong
    rw [hStops.holds.raw, List.nil_append] at hLong
    rcases first_long hLong with
      ⟨before, line, others, hPieces, hOver, hBefore⟩
    have hFree :
        ∀ l ∈ before ++ line :: others, newline ∉ l := by
      rw [← hPieces]
      exact fun l hl => Cut.not_mem_of_mem_pieces hl
    have hFreeBefore : ∀ l ∈ before, newline ∉ l :=
      fun l hl => hFree l (List.mem_append_left _ hl)
    have hFreeLine : newline ∉ line := hFree line (by simp)
    rcases Cut.pieces_split hPieces with ⟨after, hPre⟩
    have hStream :
        chunks.flatten =
          Cut.join newline before ++ line ++
            newline :: (after ++ post.flatten) := by
      rw [hChunks, List.flatten_append, hPre]
      simp
    rcases hInTime before line _
        (fun l hl => ⟨hFreeBefore l hl, hBefore l hl⟩)
        hFreeLine hOver hStream with
      ⟨q, r, hSplit, hFrom, hTo⟩
    have hHeld :=
      rest_at_boundary q.flatten r.flatten hFreeBefore
        hFreeLine
        (by rw [← List.flatten_append, ← hSplit, hStream])
        (by omega) hTo
    have hLength := congrArg List.length hPre
    simp only [List.length_append, List.length_cons]
      at hLength
    rcases List.append_eq_append_iff.mp
        (hSplit.symm.trans hChunks) with
      ⟨mid, hMid, _⟩ | ⟨mid, hMid, _⟩
    · -- The boundary comes before the one read last.
      have hNe : mid ≠ [] := by
        rintro rfl
        rw [List.append_nil] at hMid
        rw [hMid] at hLength
        omega
      have hShort := hStops.earlier q mid hMid hNe
      rw [List.nil_append] at hShort
      omega
    · rw [hMid, List.flatten_append, List.length_append]
        at hTo
      omega
  refine ⟨hRaw, ?_⟩
  rintro ⟨line, hMem, hOver⟩
  by_contra hRead
  have hRead := Bool.eq_false_iff.mpr hRead
  have hPost := hStops.all_read hRead
  rw [hPost, List.append_nil] at hChunks
  subst hChunks
  rcases List.mem_append.mp hMem with hPiece | hRest
  · have hGiven := hStops.holds.raw
    rw [List.nil_append] at hGiven
    rw [← hGiven] at hPiece
    have hShort := hRaw line hPiece
    omega
  · rw [List.mem_singleton.mp hRest] at hOver
    rw [hStops.tooLong.mpr hOver] at hRead
    cases hRead

/-
  Lines given out before a line that is not among them come
  before it in the stream.
-/
theorem prefix_of_not_mem
    {given before : List Bytes}
    {line : Bytes}
    {others : List Bytes}
    (hPrefix : given <+: before ++ line :: others)
    (hNot : line ∉ given) :
    given <+: before := by
  rcases List.prefix_or_prefix_of_prefix hPrefix
      (List.prefix_append before _) with hLeft | hRight
  · exact hLeft
  · rcases hRight with ⟨mid, rfl⟩
    cases mid with
    | nil => simp
    | cons l mid =>
        rw [List.prefix_append_right_inj] at hPrefix
        have hHead := (List.cons_prefix_cons.mp hPrefix).1
        rw [hHead] at hNot
        exact absurd (by simp) hNot

/- When the limit is kept, the line was cut in time. -/
theorem cutInTime_of_strict
    {chunks : List Bytes}
    (hStrict : Strict (heard init chunks) chunks) :
    CutInTime chunks := by
  intro before line after hBefore hLine hOver hStream
  rcases heard_init_stops chunks with
    ⟨post, hChunks, hStops⟩
  unfold Strict at hStrict
  generalize heard init chunks = pre
    at hChunks hStops hStrict
  have hFree : ∀ l ∈ before, newline ∉ l :=
    fun l hl => (hBefore l hl).1
  have hPieces :
      Cut.pieces newline chunks.flatten =
        before ++ line :: Cut.pieces newline after := by
    rw [hStream, List.append_assoc,
      (Cut.pieces_join_append hFree _).1,
      Cut.pieces_cons hLine]
  have hLong :
      kMaxLine < (Cut.rest newline pre.flatten).length := by
    apply hStops.tooLong.mp
    apply hStrict.2
    exact ⟨line, by rw [hPieces]; simp, hOver⟩
  have hGiven :
      ∀ l ∈ Cut.pieces newline pre.flatten,
        l.length ≤ kMaxLine := by
    have hGiven := hStops.holds.raw
    rw [List.nil_append] at hGiven
    rw [← hGiven]
    exact hStrict.1
  have hFlat :
      pre.flatten ++ post.flatten = chunks.flatten := by
    rw [hChunks, List.flatten_append]
  -- What was given out are some of the lines before it.
  have hPrefix :
      Cut.pieces newline pre.flatten <+: before := by
    apply prefix_of_not_mem
    · rw [← hPieces, ← hFlat]
      exact Cut.pieces_prefix (List.prefix_append _ _)
    · intro hMem
      have hShort := hGiven line hMem
      omega
  rcases hPrefix with ⟨more, hMore⟩
  have hJoin := Cut.join_pieces newline pre.flatten
  have hLength := congrArg List.length hJoin
  rw [List.length_append] at hLength
  have hHeld := Cut.not_mem_rest newline pre.flatten
  have hTail :
      Cut.rest newline pre.flatten ++ post.flatten =
        Cut.join newline more ++
          (line ++ newline :: after) := by
    apply List.append_cancel_left
    · rw [← List.append_assoc, hJoin, hFlat, hStream,
        ← hMore, Cut.join_append]
      simp only [List.append_assoc]
  cases more with
  | nil =>
      have hEnd := Cut.length_le_of_append_eq hHeld hTail
      rw [List.append_nil] at hMore
      rw [hMore] at hLength
      exact ⟨pre, post, hChunks, by omega, by omega⟩
  | cons l more =>
      -- Another short line is still to come.
      rw [Cut.join_cons, List.append_assoc,
        List.cons_append] at hTail
      have hEnd := Cut.length_le_of_append_eq hHeld hTail
      have hShort :=
        (hBefore l (by rw [← hMore]; simp)).2
      omega

/-
  When the length limit is kept. A stream that is fed to its
  end gives out no line longer than `kMaxLine`, and is
  answered with `TooLong` if it has one, exactly if none of
  its complete lines is longer: the buffer survives
  `TooLong`, and the newline of such a line brings it out. A
  reader that takes nothing more after `TooLong` keeps the
  limit exactly if the first such line, when it is complete,
  is cut behind more than `kMaxLine` of its bytes.
-/
theorem limit_kept_iff (chunks : List Bytes) :
    (Strict chunks chunks ↔
      ∀ line ∈ Cut.pieces newline chunks.flatten,
        line.length ≤ kMaxLine) ∧
    (Strict (heard init chunks) chunks ↔
      CutInTime chunks) :=
  ⟨strict_fed_iff chunks, cutInTime_of_strict,
    strict_of_cutInTime⟩

/-
  Cut in time, a line is still given out if the reader goes
  on: seventeen chunks are too long, and then their newline
  comes.
-/
example :
    (Machine.run feed init
        (List.replicate 17 (List.replicate 4096 97) ++
          [[newline]])).raw =
      [List.replicate (17 * 4096) 97] := by
  have hFree :
      newline ∉ List.replicate (17 * 4096) 97 := by
    intro hMem
    exact absurd (List.eq_of_mem_replicate hMem) (by decide)
  have hEnd :=
    run_feed_holds holds_init
      (List.replicate 17 (List.replicate 4096 97) ++
        [[newline]])
  rw [hEnd.raw, List.nil_append, List.flatten_append,
    List.flatten_replicate_replicate,
    List.flatten_singleton, Cut.pieces_cons hFree]
  rfl

/- A line one byte too long, in chunks of 4096 bytes. -/
def longLine (byte : UInt8) : List Bytes :=
  List.replicate 16 (List.replicate 4096 byte) ++
    [[byte, newline]]

theorem longLine_flatten (byte : UInt8) :
    (longLine byte).flatten =
      List.replicate (16 * 4096 + 1) byte ++ [newline] := by
  have hOneMore :
      List.replicate (16 * 4096 + 1) byte =
        List.replicate (16 * 4096) byte ++ [byte] :=
    List.replicate_succ'
  rw [hOneMore, longLine, List.flatten_append,
    List.flatten_replicate_replicate,
    List.flatten_singleton, List.append_assoc,
    List.singleton_append]

theorem longLine_sizes (byte : UInt8) :
    ∀ c ∈ longLine byte, c ≠ [] ∧ c.length ≤ 4096 := by
  intro c hc
  rcases List.mem_append.mp hc with hFull | hLast
  · rw [List.eq_of_mem_replicate hFull]
    refine ⟨?_, Nat.le_of_eq List.length_replicate⟩
    exact List.cons_ne_nil _ _
  · rw [List.mem_singleton.mp hLast]
    refine ⟨List.cons_ne_nil _ _, ?_⟩
    rw [List.length_cons, List.length_singleton]
    omega

/- Its boundaries are too early or too late. -/
theorem longLine_boundary
    {byte : UInt8}
    {pre post : List Bytes}
    (hSplit : longLine byte = pre ++ post) :
    pre.flatten.length ≤ 16 * 4096 ∨
      pre.flatten.length = 16 * 4096 + 2 := by
  have hFull :
      (List.replicate 16
        (List.replicate 4096 byte)).flatten.length =
          16 * 4096 := by
    rw [List.flatten_replicate_replicate,
      List.length_replicate]
  rcases List.append_eq_append_iff.mp hSplit with
    ⟨mid, hPre, hLast⟩ | ⟨mid, hPre, _⟩
  · rw [hPre, List.flatten_append, List.length_append,
      hFull]
    rcases List.singleton_eq_append_iff.mp hLast with
      ⟨rfl, _⟩ | ⟨rfl, _⟩
    · exact Or.inl (Nat.le_refl _)
    · exact Or.inr rfl
  · rw [hPre, List.flatten_append, List.length_append]
      at hFull
    omega

/-
  Its newline comes with the byte that makes it too long,
  and the line is given out, be the reader one that would
  stop at `TooLong` or not.
-/
theorem limit_depends_on_chunks :
    ∃ chunks : List Bytes,
      (∀ c ∈ chunks, c ≠ [] ∧ c.length ≤ 4096) ∧
        ¬ Strict chunks chunks ∧
        ¬ Strict (heard init chunks) chunks := by
  have hFree :
      newline ∉ List.replicate (16 * 4096 + 1) 97 := by
    intro hMem
    exact absurd (List.eq_of_mem_replicate hMem) (by decide)
  have hLimit : kMaxLine = 16 * 4096 := rfl
  refine ⟨longLine 97, longLine_sizes 97, ?_, ?_⟩
  · rw [strict_fed_iff, longLine_flatten,
      Cut.pieces_cons hFree]
    intro hShort
    have hLine := hShort _ List.mem_cons_self
    rw [List.length_replicate, hLimit] at hLine
    omega
  · intro hStrict
    rcases cutInTime_of_strict hStrict []
        (List.replicate (16 * 4096 + 1) 97) []
        (List.forall_mem_nil _) hFree
        (by rw [List.length_replicate, hLimit]; omega)
        (longLine_flatten 97) with
      ⟨pre, post, hSplit, hFrom, hTo⟩
    rw [List.length_replicate] at hTo
    rw [hLimit] at hFrom
    have hNone :
        (Cut.join newline ([] : List Bytes)).length = 0 :=
      rfl
    rcases longLine_boundary hSplit with hEarly | hLate
    · omega
    · omega

end Framer

end SocketExchange

import SocketExchange.Wire.Protocol

/-
  What is written can be read back.

  Numbers are written by `std::to_string` and read by
  `parse_u32`, fields are joined by single spaces and taken
  apart by `split_ws`, and every message is one line of
  printable characters.

  Main declarations:
    * `parseU32_decimal`
    * `splitWs_intercalate`
    * `LineBuffer.nextLine_of_line`
    * `Msg.line`, `Msg.text_eq`
    * `ReadsAs`, `readsAs_execFields`
-/

------------------------------------------------------------
-- Decimal Numerals
------------------------------------------------------------

namespace SocketExchange

/- A decimal digit as a byte. -/
theorem digit_byte
    {c : Char}
    (hDigit : c.isDigit = true) :
    48 ≤ c.toNat ∧ c.toNat ≤ 57 := by
  simp only [Char.isDigit, Bool.and_eq_true,
    decide_eq_true_eq] at hDigit
  rcases hDigit with ⟨hLow, hHigh⟩
  exact ⟨UInt32.le_iff_toNat_le.mp hLow,
    UInt32.le_iff_toNat_le.mp hHigh⟩

/- A digit fits in a byte. -/
theorem toUInt8_digit
    {c : Char}
    (hDigit : c.isDigit = true) :
    c.toNat.toUInt8.toNat = c.toNat := by
  have hByte := digit_byte hDigit
  rw [Nat.toUInt8, UInt8.toNat_ofNat']
  omega

/- A decimal consists of digits. -/
theorem isDigit_of_mem_decimal
    {n : UInt32}
    {c : UInt8}
    (hMem : c ∈ decimal n) :
    isDigit c = true := by
  rcases List.mem_map.mp hMem with ⟨d, hd, rfl⟩
  have hDigit : d.isDigit = true :=
    Nat.isDigit_of_mem_toDigits (by decide) (by decide) hd
  have hByte := digit_byte hDigit
  have hNat := toUInt8_digit hDigit
  simp only [isDigit, Bool.and_eq_true, decide_eq_true_eq,
    UInt8.le_iff_toNat_le, hNat]
  exact hByte

/- There is at least one of them. -/
theorem decimal_ne_nil (n : UInt32) : decimal n ≠ [] := by
  intro hNil
  exact Nat.toDigits_ne_nil (List.map_eq_nil_iff.mp hNil)

/- Ten digits are enough for 32 bits. -/
theorem length_decimal_le (n : UInt32) :
    (decimal n).length ≤ 10 := by
  unfold decimal
  rw [List.length_map,
    Nat.length_toDigits_le_iff (by decide) (by decide)]
  have hLt := n.toNat_lt
  omega

/- It is read back as its number. -/
theorem strtoull_decimal (n : UInt32) :
    strtoull (decimal n) = n.toNat := by
  have hValue :
      (decimal n).foldl
          (fun v c => 10 * v + (c.toNat - 48)) 0 =
        n.toNat := by
    have hDigits :=
      Nat.ofDigitChars_ten_toDigits (n := n.toNat)
    rw [Nat.ofDigitChars_eq_foldl] at hDigits
    unfold decimal
    rw [List.foldl_map]
    refine Eq.trans ?_ hDigits
    apply List.foldl_ext
    intro v c hc
    have hDigit : c.isDigit = true :=
      Nat.isDigit_of_mem_toDigits (by decide) (by decide) hc
    rw [toUInt8_digit hDigit]
    rfl
  have hLt := n.toNat_lt
  unfold strtoull
  rw [hValue]
  omega

/- Reading a number that was written. -/
theorem parseU32_decimal
    (n lo hi : UInt32) :
    parseU32 (decimal n) lo hi =
      if lo ≤ n ∧ n ≤ hi then some n else none := by
  have hDigits : (decimal n).all isDigit = true :=
    List.all_eq_true.mpr fun c hc =>
      isDigit_of_mem_decimal hc
  unfold parseU32
  rw [if_neg (decimal_ne_nil n),
    if_neg (Nat.not_lt.mpr (length_decimal_le n)),
    if_pos hDigits, strtoull_decimal]
  simp only [UInt32.ofNat_toNat, UInt32.le_iff_toNat_le]
  by_cases hRange :
      lo.toNat ≤ n.toNat ∧ n.toNat ≤ hi.toNat
  · rw [if_pos hRange, if_neg (by omega)]
  · rw [if_neg hRange, if_pos (by omega)]

/- What is read lies in the range asked for. -/
theorem parseU32_range
    {s : Bytes}
    {lo hi v : UInt32}
    (hValue : parseU32 s lo hi = some v) :
    lo ≤ v ∧ v ≤ hi := by
  unfold parseU32 at hValue
  dsimp only at hValue
  split at hValue
  · cases hValue
  · split at hValue
    · cases hValue
    · split at hValue
      · split at hValue
        · cases hValue
        · next hRange =>
            injection hValue with hValue
            subst hValue
            have hHigh := hi.toNat_lt
            have hSame :
                (UInt32.ofNat (strtoull s)).toNat =
                  strtoull s := by
              rw [UInt32.toNat_ofNat']
              omega
            rw [UInt32.le_iff_toNat_le,
              UInt32.le_iff_toNat_le, hSame]
            omega
      · cases hValue

end SocketExchange

------------------------------------------------------------
-- Fields
------------------------------------------------------------

namespace SocketExchange

/- A field: not empty, and free of separators. -/
structure IsWord (w : Bytes) : Prop where
  ne_nil : w ≠ []
  no_ws : ∀ c ∈ w, isWs c = false

def space : UInt8 := 32

theorem isWs_space : isWs space = true := rfl

/- A word is what has a byte and no white space. -/
theorem isWord_of_all
    {w : Bytes}
    (hNonempty : w ≠ [])
    (hAll : (w.all fun c => !isWs c) = true) :
    IsWord w where
  ne_nil := hNonempty
  no_ws := by
    intro c hc
    have hPlain := List.all_eq_true.mp hAll c hc
    simpa using hPlain

/- A digit is not white space. -/
theorem isWs_of_isDigit
    {c : UInt8}
    (hDigit : isDigit c = true) :
    isWs c = false := by
  simp only [isDigit, Bool.and_eq_true,
    decide_eq_true_eq, UInt8.le_iff_toNat_le] at hDigit
  simp only [isWs, Bool.or_eq_false_iff, beq_eq_false_iff_ne]
  constructor
  · rintro rfl
    exact absurd hDigit.1 (by decide)
  · rintro rfl
    exact absurd hDigit.1 (by decide)

/- So a decimal is a word. -/
theorem isWord_decimal (n : UInt32) :
    IsWord (decimal n) where
  ne_nil := decimal_ne_nil n
  no_ws := fun _ hc =>
    isWs_of_isDigit (isDigit_of_mem_decimal hc)

/- The loop from a later state, with fuel to spare. -/
theorem splitStep_iterate
    {fuel : Nat}
    {rest : Bytes}
    (hFuel : rest.length ≤ fuel)
    (out : List Bytes) :
    (Loop.iterate splitStep fuel
        { rest := rest, out := out }).out =
      out ++ splitWs rest := by
  have hEnough :=
    Loop.iterate_eq_of_done (splitWs_done rest) hFuel
  -- The fields found so far are carried along untouched.
  have hCarried :
      (Loop.iterate splitStep fuel
          { rest := rest, out := out }).out =
        out ++ (Loop.iterate splitStep fuel
          { rest := rest, out := [] }).out := by
    have hInit :
        rest = rest ∧ out = out ++ ([] : List Bytes) :=
      ⟨rfl, (List.append_nil out).symm⟩
    refine (Loop.iterate_rel
      (R := fun s t : SplitState =>
        s.rest = t.rest ∧ s.out = out ++ t.out)
      (s := ⟨rest, out⟩) (t := ⟨rest, []⟩)
      ?_ fuel hInit).2
    rintro ⟨rest, found⟩ ⟨rest', found'⟩ ⟨hRest, hOut⟩
    dsimp only at hRest hOut
    subst hRest hOut
    unfold splitStep
    cases rest with
    | nil => trivial
    | cons c rest =>
        dsimp only
        cases (c :: rest).dropWhile isWs with
        | nil => exact ⟨rfl, rfl⟩
        | cons d field =>
            exact ⟨rfl, List.append_assoc _ _ _⟩
  rw [hCarried, hEnough]
  rfl

/- The first step of the splitter gives the first word. -/
theorem splitWs_of_step
    {s rest : Bytes}
    {out : List Bytes}
    (hStep :
      splitStep { rest := s, out := [] } =
        some { rest := rest, out := out }) :
    splitWs s = out ++ splitWs rest := by
  have hShorter := splitStep_shorter _ _ hStep
  dsimp only at hShorter
  obtain ⟨fuel, hFuel⟩ :
      ∃ fuel, s.length = fuel + 1 :=
    ⟨s.length - 1, by omega⟩
  conv => lhs; unfold splitWs
  rw [hFuel, Loop.iterate_succ_of_some hStep]
  exact splitStep_iterate (by omega) out

/- Nothing is split into no words. -/
theorem splitWs_nil : splitWs [] = [] := rfl

/- A separator in front does not matter. -/
theorem splitWs_ws_cons
    {b : UInt8}
    (hWs : isWs b = true)
    (s : Bytes) :
    splitWs (b :: s) = splitWs s := by
  have hDrop :
      (b :: s).dropWhile isWs = s.dropWhile isWs := by
    rw [List.dropWhile_cons_of_pos hWs]
  cases hField : s.dropWhile isWs with
  | nil =>
      have hStep :
          splitStep { rest := b :: s, out := [] } =
            some { rest := [], out := [] } := by
        simp only [splitStep, hDrop, hField]
      rw [splitWs_of_step hStep]
      cases s with
      | nil => rfl
      | cons c s =>
          have hStep' :
              splitStep { rest := c :: s, out := [] } =
                some { rest := [], out := [] } := by
            simp only [splitStep, hField]
          rw [splitWs_of_step hStep']
  | cons d field =>
      cases s with
      | nil => cases hField
      | cons c s =>
          have hSame :
              splitStep
                  { rest := b :: c :: s, out := [] } =
                splitStep { rest := c :: s, out := [] } := by
            simp only [splitStep, hDrop]
          have hStep :
              splitStep { rest := c :: s, out := [] } =
                some
                  { rest :=
                      (d :: field).dropWhile
                        fun c => !isWs c
                    out :=
                      [(d :: field).takeWhile
                        fun c => !isWs c] } := by
            simp only [splitStep, hField, List.nil_append]
          rw [splitWs_of_step (hSame.trans hStep),
            splitWs_of_step hStep]

/- A field, up to a separator or the end. -/
theorem splitWs_word_append
    {w rest : Bytes}
    (hWord : IsWord w)
    (hRest :
      rest = [] ∨
        ∃ b more, isWs b = true ∧ rest = b :: more) :
    splitWs (w ++ rest) = w :: splitWs rest := by
  have hPlain : ∀ c ∈ w, (!isWs c) = true := by
    intro c hc
    rw [hWord.no_ws c hc]
    rfl
  have hTake :
      (w ++ rest).takeWhile (fun c => !isWs c) = w := by
    rw [List.takeWhile_append_of_pos hPlain]
    rcases hRest with rfl | ⟨b, more, hWs, rfl⟩
    · simp
    · rw [List.takeWhile_cons_of_neg (by simp [hWs]),
        List.append_nil]
  have hDrop :
      (w ++ rest).dropWhile (fun c => !isWs c) = rest := by
    rw [List.dropWhile_append_of_pos hPlain]
    rcases hRest with rfl | ⟨b, more, hWs, rfl⟩
    · rfl
    · rw [List.dropWhile_cons_of_neg (by simp [hWs])]
  cases w with
  | nil => exact absurd rfl hWord.ne_nil
  | cons c w =>
      have hHead : isWs c = false :=
        hWord.no_ws c List.mem_cons_self
      have hSkip :
          (c :: w ++ rest).dropWhile isWs =
            c :: (w ++ rest) := by
        rw [List.cons_append,
          List.dropWhile_cons_of_neg (by simp [hHead])]
      have hStep :
          splitStep { rest := c :: w ++ rest, out := [] } =
            some { rest := rest, out := [c :: w] } := by
        rw [List.cons_append] at hTake hDrop hSkip ⊢
        simp only [splitStep, hSkip, hTake, hDrop,
          List.nil_append]
      exact splitWs_of_step hStep

/- Joining puts a space behind the first word. -/
theorem intercalate_space
    (w v : Bytes)
    (words : List Bytes) :
    List.intercalate [space] (w :: v :: words) =
      w ++ space ::
        List.intercalate [space] (v :: words) := by
  simp [List.intercalate, List.intersperse]

/- Fields joined by single spaces come apart again. -/
theorem splitWs_intercalate
    {words : List Bytes}
    (hWords : ∀ w ∈ words, IsWord w) :
    splitWs (List.intercalate [space] words) = words := by
  induction words with
  | nil => rfl
  | cons w words ih =>
      have hWord := hWords w List.mem_cons_self
      have hOthers : ∀ v ∈ words, IsWord v :=
        fun v hv => hWords v (List.mem_cons_of_mem w hv)
      cases words with
      | nil =>
          have hSplit :=
            splitWs_word_append hWord (Or.inl rfl)
          simpa [List.intercalate, splitWs_nil] using hSplit
      | cons v words =>
          rw [intercalate_space, splitWs_word_append hWord
            (Or.inr ⟨_, _, isWs_space, rfl⟩),
            splitWs_ws_cons isWs_space, ih hOthers]

end SocketExchange

------------------------------------------------------------
-- Lines
------------------------------------------------------------

namespace SocketExchange

namespace LineBuffer

/- No newline is found where there is none. -/
theorem findIdx?_newline
    {bytes : Bytes}
    (hFree : newline ∉ bytes) :
    bytes.findIdx? (· == newline) = none := by
  rw [List.findIdx?_eq_none_iff]
  intro c hc
  have hNe : c ≠ newline := by
    rintro rfl
    exact hFree hc
  simpa using hNe

/- The first line of a buffer that holds one. -/
theorem nextLine_of_line
    {line : Bytes}
    (hFree : newline ∉ line)
    (rest : Bytes) :
    (LineBuffer.mk (line ++ newline :: rest)).nextLine =
      .ok (stripCr line) ⟨rest⟩ := by
  have hPos :
      (line ++ newline :: rest).findIdx? (· == newline) =
        some line.length := by
    simp [List.findIdx?_append, findIdx?_newline hFree,
      List.findIdx?_cons]
  unfold nextLine
  rw [hPos]
  simp

/- No line comes off a buffer without a newline. -/
theorem nextLine_ne_ok
    {b rest : LineBuffer}
    {line : Bytes}
    (hFree : newline ∉ b.buf) :
    b.nextLine ≠ .ok line rest := by
  unfold nextLine
  rw [findIdx?_newline hFree]
  dsimp only
  split
  · simp
  · simp

end LineBuffer

end SocketExchange

------------------------------------------------------------
-- Printable Characters
------------------------------------------------------------

namespace SocketExchange

/- A printable ASCII character, the space included. -/
def isPrint (c : UInt8) : Bool :=
  32 ≤ c && c ≤ 126

/- Bytes that print as they are. -/
def Printable (s : Bytes) : Prop :=
  ∀ c ∈ s, isPrint c = true

/- Printable bytes, by a search. -/
theorem printable_of_all
    {s : Bytes}
    (hAll : s.all isPrint = true) :
    Printable s :=
  List.all_eq_true.mp hAll

/- Two printable texts make one. -/
theorem Printable.append
    {s t : Bytes}
    (hs : Printable s)
    (ht : Printable t) :
    Printable (s ++ t) := by
  intro c hc
  rcases List.mem_append.mp hc with hLeft | hRight
  · exact hs c hLeft
  · exact ht c hRight

/- No control character is in a printable text. -/
theorem Printable.not_mem
    {s : Bytes}
    (hPrint : Printable s)
    {c : UInt8}
    (hControl : isPrint c = false) :
    c ∉ s := by
  intro hMem
  rw [hPrint c hMem] at hControl
  cases hControl

/- Decimals are printable. -/
theorem printable_decimal (n : UInt32) :
    Printable (decimal n) := by
  intro c hc
  have hDigit := isDigit_of_mem_decimal hc
  simp only [isDigit, isPrint, Bool.and_eq_true,
    decide_eq_true_eq, UInt8.le_iff_toNat_le] at hDigit ⊢
  have hLow : (48 : UInt8).toNat = 48 := rfl
  have hHigh : (57 : UInt8).toNat = 57 := rfl
  have hSpace : (32 : UInt8).toNat = 32 := rfl
  have hTilde : (126 : UInt8).toNat = 126 := rfl
  omega

/- So are printable words with spaces between. -/
theorem printable_intercalate
    {words : List Bytes}
    (hWords : ∀ w ∈ words, Printable w) :
    Printable (List.intercalate [space] words) := by
  induction words with
  | nil =>
      intro c hc
      cases hc
  | cons w words ih =>
      have hFirst := hWords w List.mem_cons_self
      have hOthers : ∀ v ∈ words, Printable v :=
        fun v hv => hWords v (List.mem_cons_of_mem w hv)
      cases words with
      | nil =>
          simpa [List.intercalate] using hFirst
      | cons v words =>
          rw [intercalate_space]
          apply hFirst.append
          intro c hc
          rcases List.mem_cons.mp hc with rfl | hRest
          · decide
          · exact ih hOthers c hRest

end SocketExchange

------------------------------------------------------------
-- Messages
------------------------------------------------------------

namespace SocketExchange

namespace Msg

/- A message without its newline. -/
def line (m : Msg) : Bytes :=
  m.text.dropLast

/- The first field of a message. -/
def verb : Msg → String
| .ok => "OK"
| .error _ => "ERROR"
| .orderAccepted _ => "ORDER_ACCEPTED"
| .orderCancelled _ => "ORDER_CANCELLED"
| .bought _ => "BOUGHT"
| .sold _ => "SOLD"
| .trade _ => "TRADE"

end Msg

/- What an execution message says of a trade. -/
def execFields (t : Trade) : List Bytes :=
  [ascii (kInstruments t.inst), decimal t.qty,
    decimal t.price]

namespace Msg

/- What follows the first field, the reason as one piece. -/
def args : Msg → List Bytes
| .ok => []
| .error reason => [ascii reason]
| .orderAccepted id => [decimal id]
| .orderCancelled id => [decimal id]
| .bought t => execFields t
| .sold t => execFields t
| .trade t => execFields t

/-
  A message is its verb and its arguments with spaces
  between, and a newline.
-/
theorem text_eq (m : Msg) :
    m.text =
      List.intercalate [space] (ascii m.verb :: m.args) ++
        [newline] := by
  have hSpace : ascii " " = [space] := by decide
  have hEnd : ascii "\n" = [newline] := by decide
  have hExec :
      ∀ verb (t : Trade),
        msgExec verb t.inst t.qty t.price =
          List.intercalate [space]
              (ascii verb :: execFields t) ++
            [newline] := by
    intro verb t
    simp [msgExec, execFields, List.intercalate,
      List.intersperse, hSpace, hEnd]
  cases m with
  | ok => decide
  | error reason =>
      have hVerb :
          ascii "ERROR " = ascii "ERROR" ++ [space] := by
        decide
      simp [text, msgError, verb, args, List.intercalate,
        List.intersperse, hVerb, hEnd]
  | orderAccepted id =>
      have hVerb :
          ascii "ORDER_ACCEPTED " =
            ascii "ORDER_ACCEPTED" ++ [space] := by
        decide
      simp [text, msgOrderAccepted, verb, args,
        List.intercalate, List.intersperse, hVerb, hEnd]
  | orderCancelled id =>
      have hVerb :
          ascii "ORDER_CANCELLED " =
            ascii "ORDER_CANCELLED" ++ [space] := by
        decide
      simp [text, msgOrderCancelled, verb, args,
        List.intercalate, List.intersperse, hVerb, hEnd]
  | bought t => exact hExec "BOUGHT" t
  | sold t => exact hExec "SOLD" t
  | trade t => exact hExec "TRADE" t

/- The line is the same without the newline. -/
theorem line_eq (m : Msg) :
    m.line =
      List.intercalate [space]
        (ascii m.verb :: m.args) := by
  rw [line, text_eq, List.dropLast_concat]

/- Every verb is one printable word. -/
theorem isWord_verb (m : Msg) :
    IsWord (ascii m.verb) ∧ Printable (ascii m.verb) := by
  have hAll :
      ∀ v ∈ ["OK", "ERROR", "ORDER_ACCEPTED",
          "ORDER_CANCELLED", "BOUGHT", "SOLD", "TRADE"],
        ascii v ≠ [] ∧
          ((ascii v).all fun c => !isWs c) = true ∧
          (ascii v).all isPrint = true := by
    decide
  have hMem :
      m.verb ∈ ["OK", "ERROR", "ORDER_ACCEPTED",
        "ORDER_CANCELLED", "BOUGHT", "SOLD", "TRADE"] := by
    cases m <;> simp [verb]
  rcases hAll _ hMem with ⟨hNonempty, hPlain, hPrint⟩
  exact ⟨isWord_of_all hNonempty hPlain,
    printable_of_all hPrint⟩

/- A line begins with the verb of its message. -/
theorem head_splitWs_line (m : Msg) :
    (splitWs m.line).head? = some (ascii m.verb) := by
  have hWord := (isWord_verb m).1
  rw [line_eq]
  cases m.args with
  | nil =>
      have hSplit := splitWs_word_append hWord (Or.inl rfl)
      rw [List.append_nil] at hSplit
      simp [List.intercalate, hSplit]
  | cons v words =>
      rw [intercalate_space,
        splitWs_word_append hWord
          (Or.inr ⟨_, _, isWs_space, rfl⟩)]
      rfl

end Msg

/-
  The line has four fields, and the last three are read as
  the instrument, the quantity and the price of the trade.
-/
def ReadsAs (line : Bytes) (t : Trade) : Prop :=
  ∃ verb name quantity level,
    splitWs line = [verb, name, quantity, level] ∧
      instrumentIndex name = some t.inst ∧
      parseU32 quantity kMinValue kMaxValue =
        some t.qty ∧
      parseU32 level kMinValue kMaxValue = some t.price

/- The names of the instruments are words. -/
theorem isWord_kInstruments (inst : Fin 2) :
    IsWord (ascii (kInstruments inst)) := by
  fin_cases inst
  · exact isWord_of_all (by decide) (by decide)
  · exact isWord_of_all (by decide) (by decide)

/- They are found in the table. -/
theorem instrumentIndex_kInstruments (inst : Fin 2) :
    instrumentIndex (ascii (kInstruments inst)) =
      some inst := by
  fin_cases inst
  · decide
  · decide

/- The fields of a trade are printable. -/
theorem printable_execFields
    (t : Trade) :
    ∀ w ∈ execFields t, Printable w := by
  have hName :
      ∀ inst,
        (ascii (kInstruments inst)).all isPrint = true := by
    decide
  intro w hw
  simp only [execFields, List.mem_cons, List.not_mem_nil,
    or_false] at hw
  rcases hw with rfl | rfl | rfl
  · exact printable_of_all (hName t.inst)
  · exact printable_decimal t.qty
  · exact printable_decimal t.price

/- An execution line reads as the trade it reports. -/
theorem readsAs_execFields
    {verb : Bytes}
    (hVerb : IsWord verb)
    {t : Trade}
    (hQty : kMinValue ≤ t.qty ∧ t.qty ≤ kMaxValue)
    (hPrice : kMinValue ≤ t.price ∧ t.price ≤ kMaxValue) :
    ReadsAs
      (List.intercalate [space] (verb :: execFields t))
      t := by
  refine ⟨_, _, _, _, splitWs_intercalate ?_, ?_, ?_, ?_⟩
  · intro w hw
    simp only [execFields, List.mem_cons, List.not_mem_nil,
      or_false] at hw
    rcases hw with rfl | rfl | rfl | rfl
    · exact hVerb
    · exact isWord_kInstruments t.inst
    · exact isWord_decimal t.qty
    · exact isWord_decimal t.price
  · exact instrumentIndex_kInstruments t.inst
  · rw [parseU32_decimal, if_pos hQty]
  · rw [parseU32_decimal, if_pos hPrice]

end SocketExchange

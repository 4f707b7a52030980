import SocketExchange.Wire.Codec

/-
  Which strings `parse_u32` takes for a number.

  A string of digits denotes a number, however many zeros it
  begins with. The parser refuses every string of more than
  ten bytes before it looks at the digits, and so refuses
  numbers in range that are padded beyond that length; on
  all other strings it is exact.

  Main declarations:
    * `numeral`
    * `parseU32Into`
    * `ParsesExactly`
    * `parses_exactly_iff`
-/

------------------------------------------------------------
-- The Number A String Denotes
------------------------------------------------------------

namespace SocketExchange

/- The number that a string of digits denotes. -/
def numeral (s : Bytes) : Nat :=
  Nat.ofDigits 10 (s.reverse.map fun c => c.toNat - 48)

theorem foldl_digits (s : Bytes) :
    s.foldl (fun v c => 10 * v + (c.toNat - 48)) 0 =
      numeral s := by
  rw [numeral, Nat.ofDigits_eq_foldr, List.foldr_map,
    List.foldr_reverse]
  apply List.foldl_ext
  intro v c _
  exact Nat.add_comm _ _

/- Zeros in front do not count. -/
theorem numeral_zero_cons (s : Bytes) :
    numeral (48 :: s) = numeral s := by
  rw [numeral, List.reverse_cons, List.map_append]
  exact Nat.ofDigits_append_zero _

theorem numeral_lt
    {s : Bytes}
    (hDigits : s.all isDigit = true) :
    numeral s < 10 ^ s.length := by
  have hBound :
      ∀ d ∈ s.reverse.map (fun c => c.toNat - 48),
        d < 10 := by
    intro d hd
    rcases List.mem_map.mp hd with ⟨c, hc, rfl⟩
    have hDigit :=
      List.all_eq_true.mp hDigits c (List.mem_reverse.mp hc)
    simp only [isDigit, Bool.and_eq_true,
      decide_eq_true_eq, UInt8.le_iff_toNat_le] at hDigit
    have hHigh : c.toNat ≤ 57 := hDigit.2
    omega
  have hLt :=
    Nat.ofDigits_lt_base_pow_length (by decide) hBound
  rw [List.length_map, List.length_reverse] at hLt
  exact hLt

/- Ten digits do not saturate. -/
theorem strtoull_eq_numeral
    {s : Bytes}
    (hDigits : s.all isDigit = true)
    (hShort : s.length ≤ 10) :
    strtoull s = numeral s := by
  have hLt := numeral_lt hDigits
  have hPow : 10 ^ s.length ≤ 10 ^ 10 :=
    Nat.pow_le_pow_right (by decide) hShort
  unfold strtoull
  rw [foldl_digits]
  omega

end SocketExchange

------------------------------------------------------------
-- The Parser With Its Out-Parameter
------------------------------------------------------------

namespace SocketExchange

/-
  `parse_u32` as it is called: its result, and what is in
  `out` afterwards.
-/
def parseU32Into
    (s : Bytes)
    (lo hi out : UInt32) : Bool × UInt32 :=
  if s = [] then (false, out)
  else if s.length > 10 then (false, out)
  else if s.all isDigit then
    let v := strtoull s
    if v < lo.toNat ∨ v > hi.toNat then (false, out)
    else (true, UInt32.ofNat v)
  else (false, out)

/- The same parser as the handlers call. -/
theorem parseU32Into_eq
    (s : Bytes)
    (lo hi out : UInt32) :
    parseU32Into s lo hi out =
      ((parseU32 s lo hi).isSome,
        (parseU32 s lo hi).getD out) := by
  unfold parseU32Into parseU32
  dsimp only
  split
  · rfl
  · split
    · rfl
    · split
      · split
        · rfl
        · rfl
      · rfl

/- A string of digits that denotes a number in range. -/
def InNumerals (s : Bytes) (lo hi : UInt32) : Prop :=
  s ≠ [] ∧ s.all isDigit = true ∧
    lo.toNat ≤ numeral s ∧ numeral s ≤ hi.toNat

/- What the parser does with a string of at most ten bytes. -/
theorem parseU32Into_of_short
    {s : Bytes}
    (hShort : s.length ≤ 10)
    (lo hi out : UInt32) :
    (InNumerals s lo hi →
        parseU32Into s lo hi out =
          (true, UInt32.ofNat (numeral s))) ∧
      (¬ InNumerals s lo hi →
        parseU32Into s lo hi out = (false, out)) := by
  unfold parseU32Into InNumerals
  rw [if_neg (Nat.not_lt.mpr hShort)]
  by_cases hEmpty : s = []
  · rw [if_pos hEmpty]
    exact ⟨fun h => absurd hEmpty h.1, fun _ => rfl⟩
  rw [if_neg hEmpty]
  by_cases hDigits : s.all isDigit = true
  · rw [if_pos hDigits, strtoull_eq_numeral hDigits hShort]
    dsimp only
    by_cases hRange :
        lo.toNat ≤ numeral s ∧ numeral s ≤ hi.toNat
    · rw [if_neg (by omega)]
      exact ⟨fun _ => rfl,
        fun h => absurd ⟨hEmpty, hDigits, hRange⟩ h⟩
    · rw [if_pos (by omega)]
      exact ⟨fun h => absurd h.2.2 hRange, fun _ => rfl⟩
  · rw [if_neg hDigits]
    exact ⟨fun h => absurd h.2.1 hDigits, fun _ => rfl⟩

theorem parseU32Into_of_long
    {s : Bytes}
    (hLong : 10 < s.length)
    (lo hi out : UInt32) :
    parseU32Into s lo hi out = (false, out) := by
  unfold parseU32Into
  rw [if_pos hLong]
  exact ite_self _

/- What is accepted is short, and a numeral in range. -/
theorem parseU32Into_accepts_iff
    (s : Bytes)
    (lo hi out : UInt32) :
    (parseU32Into s lo hi out).1 = true ↔
      s.length ≤ 10 ∧ InNumerals s lo hi := by
  by_cases hShort : s.length ≤ 10
  · have hParse := parseU32Into_of_short hShort lo hi out
    by_cases hIn : InNumerals s lo hi
    · rw [hParse.1 hIn]
      exact ⟨fun _ => ⟨hShort, hIn⟩, fun _ => rfl⟩
    · rw [hParse.2 hIn]
      exact ⟨fun h => absurd h Bool.false_ne_true,
        fun h => absurd h.2 hIn⟩
  · rw [parseU32Into_of_long (Nat.lt_of_not_le hShort)]
    exact ⟨fun h => absurd h Bool.false_ne_true,
      fun h => absurd h.1 hShort⟩

end SocketExchange

------------------------------------------------------------
-- Where The Parser Is Exact
------------------------------------------------------------

namespace SocketExchange

/-
  The parser accepts a string exactly if it is a numeral in
  range, writes the number then, and leaves `out` alone
  otherwise.
-/
def ParsesExactly (s : Bytes) (lo hi out : UInt32) : Prop :=
  ((parseU32Into s lo hi out).1 = true ↔
      InNumerals s lo hi) ∧
    ((parseU32Into s lo hi out).1 = true →
      (parseU32Into s lo hi out).2.toNat = numeral s) ∧
    ((parseU32Into s lo hi out).1 = false →
      (parseU32Into s lo hi out).2 = out)

theorem parsesExactly_of_short
    {s : Bytes}
    (hShort : s.length ≤ 10)
    (lo hi out : UInt32) :
    ParsesExactly s lo hi out := by
  have hParse := parseU32Into_of_short hShort lo hi out
  have hAccepts := parseU32Into_accepts_iff s lo hi out
  refine ⟨?_, ?_, ?_⟩
  · rw [hAccepts]
    exact and_iff_right hShort
  · intro hOk
    have hIn := (hAccepts.mp hOk).2
    rw [hParse.1 hIn]
    apply UInt32.toNat_ofNat_of_lt'
    exact Nat.lt_of_le_of_lt hIn.2.2.2 hi.toNat_lt
  · intro hNo
    have hOut : ¬ InNumerals s lo hi := by
      intro hIn
      rw [hAccepts.mpr ⟨hShort, hIn⟩] at hNo
      cases hNo
    rw [hParse.2 hOut]

/- A long string is refused, which is right for some. -/
theorem parsesExactly_of_long_iff
    {s : Bytes}
    (hLong : 10 < s.length)
    (lo hi out : UInt32) :
    ParsesExactly s lo hi out ↔ ¬ InNumerals s lo hi := by
  unfold ParsesExactly
  rw [parseU32Into_of_long hLong]
  constructor
  · intro hExact hIn
    exact Bool.false_ne_true (hExact.1.mpr hIn)
  · intro hOut
    exact ⟨⟨fun h => absurd h Bool.false_ne_true,
        fun h => absurd h hOut⟩,
      fun h => absurd h Bool.false_ne_true, fun _ => rfl⟩

/- One more zero in front of an accepted numeral. -/
theorem parseU32Into_zero_cons
    {s : Bytes}
    {lo hi out : UInt32}
    (hOk : (parseU32Into s lo hi out).1 = true) :
    parseU32Into (48 :: s) lo hi out =
        parseU32Into s lo hi out ↔
      s.length < 10 := by
  rcases (parseU32Into_accepts_iff s lo hi out).mp hOk with
    ⟨hShort, hIn⟩
  constructor
  · intro hSame
    rw [← hSame, parseU32Into_accepts_iff] at hOk
    exact hOk.1
  · intro hLess
    have hIn' : InNumerals (48 :: s) lo hi := by
      refine ⟨List.cons_ne_nil _ _, ?_, ?_⟩
      · rw [List.all_cons, hIn.2.1]
        rfl
      · rw [numeral_zero_cons]
        exact hIn.2.2
    have hShort' : (48 :: s).length ≤ 10 := hLess
    rw [(parseU32Into_of_short hShort lo hi out).1 hIn,
      (parseU32Into_of_short hShort' lo hi out).1 hIn',
      numeral_zero_cons]

/-
  Where the parser is exact: on every string of at most ten
  bytes, and on a longer one unless it consists of digits
  and denotes a number in range. So an accepted numeral may
  be given one more zero exactly while it has fewer than ten
  digits. What `std::to_string` writes is always read back.
-/
theorem parses_exactly_iff
    (s : Bytes)
    (lo hi out v : UInt32) :
    (ParsesExactly s lo hi out ↔
      s.length ≤ 10 ∨ s.all isDigit = false ∨
        numeral s < lo.toNat ∨ hi.toNat < numeral s) ∧
    ((parseU32Into s lo hi out).1 = true →
      (parseU32Into (48 :: s) lo hi out =
          parseU32Into s lo hi out ↔
        s.length < 10)) ∧
    (lo ≤ v → v ≤ hi →
      parseU32Into (decimal v) lo hi out = (true, v)) := by
  refine ⟨?_, parseU32Into_zero_cons, ?_⟩
  · by_cases hShort : s.length ≤ 10
    · exact ⟨fun _ => Or.inl hShort,
        fun _ => parsesExactly_of_short hShort lo hi out⟩
    · have hNe : s ≠ [] := by
        rintro rfl
        exact hShort (Nat.zero_le _)
      rw [parsesExactly_of_long_iff
        (Nat.lt_of_not_le hShort), InNumerals,
        ← Bool.not_eq_true]
      simp only [hShort, hNe, ne_eq, not_false_iff,
        true_and, false_or, not_and_or, Nat.not_le]
  · intro hLo hHi
    rw [parseU32Into_eq, parseU32_decimal,
      if_pos ⟨hLo, hHi⟩]
    rfl

/- A padded hundred is read like a plain one. -/
theorem parses_exactly_hundred :
    parseU32Into (ascii "0100") kMinValue kMaxValue 0 =
      parseU32Into (ascii "100") kMinValue kMaxValue 0 :=
  ((parses_exactly_iff (ascii "100") kMinValue kMaxValue 0
    100).2.1 (by decide)).mpr (by decide)

/- A padded one is in range, and refused. -/
theorem padded_one_refused :
    ¬ ∀ (s : Bytes) (lo hi out : UInt32), lo ≤ hi →
      ParsesExactly s lo hi out := by
  intro hAlways
  have hExact :=
    hAlways (ascii "00000000001") kMinValue kMaxValue 0
      (by decide)
  have hIn :
      InNumerals (ascii "00000000001") kMinValue
        kMaxValue := by
    refine ⟨by decide, by decide, ?_⟩
    have hOne : numeral (ascii "00000000001") = 1 := by
      decide
    rw [hOne]
    decide
  have hOk := hExact.1.mpr hIn
  rw [parseU32Into_of_long (by decide)] at hOk
  cases hOk

end SocketExchange

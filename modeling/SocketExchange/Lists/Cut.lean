import Mathlib

/-
  Streams cut into pieces at a separator.

  Where a stream is cut does not depend on how much of it
  has been seen: more of it leaves the complete pieces alone
  and goes on from what is behind the last separator.

  Key definitions include:
    * `Cut.pieces`
    * `Cut.rest`

  Key theorems include:
    * `Cut.pieces_append`
    * `Cut.pieces_prefix`
    * `Cut.pieces_flatMap`
    * `Cut.join_pieces`
    * `Cut.length_pieces`
-/

------------------------------------------------------------
-- Pieces
------------------------------------------------------------

namespace Cut

variable {α β : Type} [DecidableEq α] {sep : α}

/- The complete pieces, without their separators. -/
def pieces (sep : α) : List α → List (List α)
| [] => []
| x :: xs =>
    if x = sep then [] :: pieces sep xs
    else
      match pieces sep xs with
      | [] => []
      | p :: ps => (x :: p) :: ps

/- What is behind the last separator. -/
def rest (sep : α) : List α → List α
| [] => []
| x :: xs =>
    if x = sep then rest sep xs
    else
      match pieces sep xs with
      | [] => x :: xs
      | _ :: _ => rest sep xs

/- Without a separator there is no complete piece. -/
theorem pieces_of_not_mem
    {xs : List α}
    (hFree : sep ∉ xs) :
    pieces sep xs = [] := by
  induction xs with
  | nil => rfl
  | cons x xs ih =>
      rw [List.mem_cons, not_or] at hFree
      rw [pieces, if_neg (Ne.symm hFree.1), ih hFree.2]

theorem rest_of_not_mem
    {xs : List α}
    (hFree : sep ∉ xs) :
    rest sep xs = xs := by
  cases xs with
  | nil => rfl
  | cons x xs =>
      rw [List.mem_cons, not_or] at hFree
      rw [rest, if_neg (Ne.symm hFree.1),
        pieces_of_not_mem hFree.2]

/- The first piece of a stream that has one. -/
theorem pieces_cons
    {p : List α}
    (hFree : sep ∉ p)
    (xs : List α) :
    pieces sep (p ++ sep :: xs) = p :: pieces sep xs := by
  induction p with
  | nil => rw [List.nil_append, pieces, if_pos rfl]
  | cons x p ih =>
      rw [List.mem_cons, not_or] at hFree
      rw [List.cons_append, pieces,
        if_neg (Ne.symm hFree.1), ih hFree.2]

theorem rest_cons
    {p : List α}
    (hFree : sep ∉ p)
    (xs : List α) :
    rest sep (p ++ sep :: xs) = rest sep xs := by
  induction p with
  | nil => rw [List.nil_append, rest, if_pos rfl]
  | cons x p ih =>
      rw [List.mem_cons, not_or] at hFree
      rw [List.cons_append, rest, if_neg (Ne.symm hFree.1),
        pieces_cons hFree.2]
      exact ih hFree.2

/- The first piece, as the part before the separator. -/
theorem takeWhile_cons
    {p : List α}
    (hFree : sep ∉ p)
    (xs : List α) :
    (p ++ sep :: xs).takeWhile (· ≠ sep) = p ∧
      (p ++ sep :: xs).dropWhile (· ≠ sep) = sep :: xs := by
  have hPiece : ∀ x ∈ p, decide (x ≠ sep) = true := by
    intro x hMem
    apply decide_eq_true
    rintro rfl
    exact hFree hMem
  constructor
  · rw [List.takeWhile_append_of_pos hPiece]
    simp
  · rw [List.dropWhile_append_of_pos hPiece]
    simp

/- What holds of a stream, by taking its pieces off. -/
theorem stream_induction
    (sep : α)
    {motive : List α → Prop}
    (free : ∀ xs, sep ∉ xs → motive xs)
    (piece :
      ∀ p xs, sep ∉ p → motive xs →
        motive (p ++ sep :: xs))
    (xs : List α) :
    motive xs := by
  induction hLength : xs.length using Nat.strong_induction_on
    generalizing xs with
  | _ n ih =>
      by_cases hMem : sep ∈ xs
      · rcases List.eq_append_cons_of_mem hMem with
          ⟨p, tail, rfl, hNot⟩
        apply piece p tail hNot
        apply ih tail.length _ tail rfl
        simp only [List.length_append,
          List.length_cons] at hLength
        omega
      · exact free xs hMem

end Cut

------------------------------------------------------------
-- Longer Streams
------------------------------------------------------------

namespace Cut

variable {α β : Type} [DecidableEq α] {sep : α}

/- Seeing more of a stream. -/
theorem append_aux (xs ys : List α) :
    pieces sep (xs ++ ys) =
        pieces sep xs ++ pieces sep (rest sep xs ++ ys) ∧
      rest sep (xs ++ ys) =
        rest sep (rest sep xs ++ ys) := by
  induction xs using stream_induction sep with
  | free xs hFree =>
      rw [pieces_of_not_mem hFree, rest_of_not_mem hFree]
      exact ⟨rfl, rfl⟩
  | piece p xs hFree ih =>
      rcases ih with ⟨hPieces, hRest⟩
      rw [List.append_assoc, List.cons_append,
        pieces_cons hFree, pieces_cons hFree,
        rest_cons hFree, rest_cons hFree, hPieces, hRest]
      exact ⟨rfl, rfl⟩

theorem pieces_append (xs ys : List α) :
    pieces sep (xs ++ ys) =
      pieces sep xs ++ pieces sep (rest sep xs ++ ys) :=
  (append_aux xs ys).1

theorem rest_append (xs ys : List α) :
    rest sep (xs ++ ys) = rest sep (rest sep xs ++ ys) :=
  (append_aux xs ys).2

/- A part of a stream has the first of its pieces. -/
theorem pieces_prefix
    {xs ys : List α}
    (hPrefix : xs <+: ys) :
    pieces sep xs <+: pieces sep ys := by
  rcases hPrefix with ⟨zs, rfl⟩
  rw [pieces_append]
  exact List.prefix_append _ _

/- Messages, each followed by the separator. -/
theorem pieces_flatMap
    {line : β → List α}
    {ms : List β}
    (hFree : ∀ m ∈ ms, sep ∉ line m) :
    pieces sep (ms.flatMap fun m => line m ++ [sep]) =
      ms.map line := by
  induction ms with
  | nil => rfl
  | cons m ms ih =>
      have hFirst := hFree m List.mem_cons_self
      have hOthers : ∀ a ∈ ms, sep ∉ line a :=
        fun a ha => hFree a (List.mem_cons_of_mem m ha)
      rw [List.flatMap_cons, List.append_assoc,
        List.singleton_append, pieces_cons hFirst,
        ih hOthers, List.map_cons]

end Cut

------------------------------------------------------------
-- Putting Pieces Together
------------------------------------------------------------

namespace Cut

variable {α : Type} {sep : α}

/- Pieces, each followed by the separator. -/
def join (sep : α) (ps : List (List α)) : List α :=
  ps.flatMap fun p => p ++ [sep]

theorem join_cons (p : List α) (ps : List (List α)) :
    join sep (p :: ps) = p ++ sep :: join sep ps := by
  simp [join]

theorem join_append (ps qs : List (List α)) :
    join sep (ps ++ qs) = join sep ps ++ join sep qs :=
  List.flatMap_append

/- A part without separators ends before the first one. -/
theorem length_le_of_append_eq
    {r ys l zs : List α}
    (hFree : sep ∉ r)
    (hEq : r ++ ys = l ++ sep :: zs) :
    r.length ≤ l.length := by
  rcases List.append_eq_append_iff.mp hEq with
    ⟨mid, hL, _⟩ | ⟨mid, hR, hTail⟩
  · rw [hL, List.length_append]
    omega
  · cases mid with
    | nil => simp [hR]
    | cons a mid =>
        injection hTail with hHead _
        subst hHead
        rw [hR] at hFree
        exact absurd (by simp) hFree

variable [DecidableEq α]

/- Cutting a stream loses nothing. -/
theorem join_pieces (sep : α) (xs : List α) :
    join sep (pieces sep xs) ++ rest sep xs = xs := by
  induction xs using stream_induction sep with
  | free xs hFree =>
      rw [pieces_of_not_mem hFree, rest_of_not_mem hFree]
      rfl
  | piece p xs hFree ih =>
      rw [pieces_cons hFree, rest_cons hFree, join_cons,
        List.append_assoc, List.cons_append, ih]

/- Where a piece of a stream stands in it. -/
theorem pieces_split
    {xs p : List α}
    {ps qs : List (List α)}
    (hPieces : pieces sep xs = ps ++ p :: qs) :
    ∃ ys, xs = join sep ps ++ p ++ sep :: ys := by
  refine ⟨join sep qs ++ rest sep xs, ?_⟩
  have hJoin := join_pieces sep xs
  rw [hPieces, join_append, join_cons] at hJoin
  simpa using hJoin.symm

theorem not_mem_rest (sep : α) (xs : List α) :
    sep ∉ rest sep xs := by
  induction xs using stream_induction sep with
  | free xs hFree =>
      rw [rest_of_not_mem hFree]
      exact hFree
  | piece p xs hFree ih =>
      rw [rest_cons hFree]
      exact ih

theorem not_mem_of_mem_pieces
    {xs p : List α}
    (hMem : p ∈ pieces sep xs) :
    sep ∉ p := by
  revert hMem
  induction xs using stream_induction sep with
  | free xs hFree =>
      intro hMem
      rw [pieces_of_not_mem hFree] at hMem
      cases hMem
  | piece q xs hFree ih =>
      intro hMem
      rw [pieces_cons hFree] at hMem
      rcases List.mem_cons.mp hMem with rfl | hLater
      · exact hFree
      · exact ih hLater

/- There are as many pieces as separators. -/
theorem length_pieces (xs : List α) :
    (pieces sep xs).length = xs.count sep := by
  induction xs using stream_induction sep with
  | free xs hFree =>
      rw [pieces_of_not_mem hFree,
        List.count_eq_zero.mpr hFree]
      rfl
  | piece p xs hFree ih =>
      rw [pieces_cons hFree, List.length_cons, ih,
        List.count_append, List.count_cons_self,
        List.count_eq_zero.mpr hFree]
      omega

/- Putting pieces together and cutting them apart. -/
theorem pieces_join_append
    {ps : List (List α)}
    (hFree : ∀ p ∈ ps, sep ∉ p)
    (xs : List α) :
    pieces sep (join sep ps ++ xs) = ps ++ pieces sep xs ∧
      rest sep (join sep ps ++ xs) = rest sep xs := by
  induction ps with
  | nil => exact ⟨rfl, rfl⟩
  | cons p ps ih =>
      have hFirst := hFree p List.mem_cons_self
      have hLater := ih fun q hq =>
        hFree q (List.mem_cons_of_mem p hq)
      rw [join_cons, List.append_assoc, List.cons_append,
        pieces_cons hFirst, rest_cons hFirst, hLater.1,
        hLater.2]
      exact ⟨rfl, rfl⟩

end Cut

import Mathlib

/-
  The rank of a position: how many entries before it carry a
  given value. Among the positions that carry the value
  themselves, the rank numbers them from zero.

  Key definitions include:
    * `Rank.rank`

  Key theorems include:
    * `Rank.rank_append`, `Rank.rank_snoc`
    * `Rank.rank_injective`
-/

------------------------------------------------------------
-- Ranks
------------------------------------------------------------

namespace Rank

variable {α : Type} [DecidableEq α]

def rank (a : α) (xs : List α) (i : Nat) : Nat :=
  (xs.take i).count a

/- Later entries do not change the rank of a position. -/
theorem rank_append
    (a : α)
    {xs : List α}
    {i : Nat}
    (hLe : i ≤ xs.length)
    (ys : List α) :
    rank a (xs ++ ys) i = rank a xs i := by
  unfold rank
  rw [List.take_append_of_le_length hLe]

theorem rank_le_length
    (a : α)
    (xs : List α)
    (i : Nat) :
    rank a xs i ≤ xs.length :=
  List.count_le_length.trans
    (List.take_sublist i xs).length_le

/- The rank past the end, as the list grows. -/
theorem rank_snoc (a x : α) (xs : List α) :
    rank a (xs ++ [x]) (xs ++ [x]).length =
      rank a xs xs.length + if x = a then 1 else 0 := by
  unfold rank
  rw [List.take_length, List.take_length,
    List.count_append, List.count_singleton]
  simp

/- A position with the value counts for those behind it. -/
theorem rank_lt
    {a : α}
    {xs : List α}
    {i j : Nat}
    (hAt : xs[i]? = some a)
    (hLt : i < j) :
    rank a xs i < rank a xs j := by
  have hStep : rank a xs (i + 1) = rank a xs i + 1 := by
    unfold rank
    rw [List.take_add_one, hAt]
    simp
  have hMono : rank a xs (i + 1) ≤ rank a xs j := by
    unfold rank
    have hTake : (xs.take (i + 1)).Sublist (xs.take j) :=
      (List.take_prefix_take_left hLt).sublist
    exact hTake.count_le a
  omega

theorem rank_injective
    {a : α}
    {xs : List α}
    {i j : Nat}
    (hAt : xs[i]? = some a)
    (hAt' : xs[j]? = some a)
    (hSame : rank a xs i = rank a xs j) :
    i = j := by
  rcases Nat.lt_trichotomy i j with hLt | hEq | hGt
  · have hRank := rank_lt hAt hLt
    omega
  · exact hEq
  · have hRank := rank_lt hAt' hGt
    omega

end Rank

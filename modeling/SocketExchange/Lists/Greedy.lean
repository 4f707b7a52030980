import Mathlib

/-
  The greedy split of a quantity over a list of shares.

  The shares are served in order, each with as much of it as
  is left of the quantity, until nothing is left.

  Key definitions include:
    * `Greedy.fills`
    * `Greedy.full`

  Key theorems include:
    * `Greedy.lt_length_fills`
    * `Greedy.getElem?_fills`
    * `Greedy.sum_fills`
    * `Greedy.lt_full`
    * `Greedy.drop_eq_filter`
-/

------------------------------------------------------------
-- Fills
------------------------------------------------------------

namespace Greedy

/- What each share gets, for as long as there is something. -/
def fills : Nat → List Nat → List Nat
| _, [] => []
| q, r :: rs =>
    if q = 0 then [] else min r q :: fills (q - r) rs

@[simp] theorem fills_zero (rs : List Nat) :
    fills 0 rs = [] := by
  cases rs with
  | nil => rfl
  | cons r rs => simp [fills]

theorem fills_cons
    {q : Nat}
    (hPos : 0 < q)
    (r : Nat)
    (rs : List Nat) :
    fills q (r :: rs) = min r q :: fills (q - r) rs := by
  rw [fills, if_neg (by omega)]

/- A share gets something while the ones before it leave some. -/
theorem lt_length_fills
    (q : Nat)
    (rs : List Nat)
    (j : Nat) :
    j < (fills q rs).length ↔
      j < rs.length ∧ (rs.take j).sum < q := by
  induction rs generalizing q j with
  | nil => simp [fills]
  | cons r rs ih =>
      rcases Nat.eq_zero_or_pos q with rfl | hPos
      · simp
      rw [fills_cons hPos]
      cases j with
      | zero => simp [hPos]
      | succ j =>
          simp only [List.length_cons, List.take_succ_cons,
            List.sum_cons, Nat.add_lt_add_iff_right, ih]
          omega

theorem getElem?_fills
    {q : Nat}
    {rs : List Nat}
    {j r : Nat}
    (hLt : j < (fills q rs).length)
    (hShare : rs[j]? = some r) :
    (fills q rs)[j]? =
      some (min r (q - (rs.take j).sum)) := by
  induction rs generalizing q j with
  | nil => simp at hShare
  | cons s rs ih =>
      rcases Nat.eq_zero_or_pos q with rfl | hPos
      · simp at hLt
      rw [fills_cons hPos] at hLt ⊢
      cases j with
      | zero =>
          simp only [List.getElem?_cons_zero,
            Option.some.injEq] at hShare
          simp [hShare]
      | succ j =>
          rw [List.length_cons,
            Nat.add_lt_add_iff_right] at hLt
          rw [List.getElem?_cons_succ] at hShare ⊢
          rw [ih hLt hShare, List.take_succ_cons,
            List.sum_cons, Nat.sub_add_eq]

theorem sum_fills (q : Nat) (rs : List Nat) :
    (fills q rs).sum = min q rs.sum := by
  induction rs generalizing q with
  | nil => simp [fills]
  | cons r rs ih =>
      rcases Nat.eq_zero_or_pos q with rfl | hPos
      · simp
      rw [fills_cons hPos, List.sum_cons, List.sum_cons, ih]
      omega

end Greedy

------------------------------------------------------------
-- Shares Served In Full
------------------------------------------------------------

namespace Greedy

/- How many shares are served in full. -/
def full : Nat → List Nat → Nat
| _, [] => 0
| q, r :: rs => if r ≤ q then full (q - r) rs + 1 else 0

theorem lt_full
    (q : Nat)
    (rs : List Nat)
    (j : Nat) :
    j < full q rs ↔
      j < rs.length ∧ (rs.take (j + 1)).sum ≤ q := by
  induction rs generalizing q j with
  | nil => simp [full]
  | cons r rs ih =>
      rw [full]
      simp only [List.length_cons, List.take_succ_cons,
        List.sum_cons]
      by_cases hFits : r ≤ q
      · rw [if_pos hFits]
        cases j with
        | zero => simp [hFits]
        | succ j =>
            rw [Nat.add_lt_add_iff_right, ih,
              Nat.add_lt_add_iff_right]
            omega
      · rw [if_neg hFits]
        omega

/- Nothing is served in full out of nothing. -/
theorem full_zero
    {rs : List Nat}
    (hPos : ∀ r ∈ rs, 0 < r) :
    full 0 rs = 0 := by
  cases rs with
  | nil => rfl
  | cons r rs =>
      have hFirst := hPos r List.mem_cons_self
      rw [full, if_neg (by omega)]

/- A list without its first entries, told by what they are. -/
theorem drop_eq_filter
    {α : Type}
    {p : α → Bool}
    {k : Nat}
    {as : List α}
    (hKept :
      ∀ (j : Nat) (a : α), as[j]? = some a →
        (p a = true ↔ k ≤ j)) :
    as.drop k = as.filter p := by
  induction as generalizing k with
  | nil => simp
  | cons a as ih =>
      have hFirst := hKept 0 a rfl
      cases k with
      | zero =>
          rw [List.filter_cons_of_pos (hFirst.mpr le_rfl),
            ← ih (k := 0)]
          · rfl
          · intro j b hAt
            exact ⟨fun _ => Nat.zero_le j, fun _ =>
              (hKept (j + 1) b hAt).mpr (Nat.zero_le _)⟩
      | succ k =>
          rw [List.drop_succ_cons, List.filter_cons_of_neg]
          · apply ih
            intro j b hAt
            rw [hKept (j + 1) b hAt]
            exact Nat.add_le_add_iff_right
          · intro hIn
            exact absurd (hFirst.mp hIn) (by omega)

end Greedy

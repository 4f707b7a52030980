import Mathlib

/-
  Working on the first element of a list that satisfies a
  test.

  `List.find?` and `List.eraseP` find and remove it;
  `FirstMatch.modify` rewrites it in place. All three split
  the list at the same element, which is how facts about
  them are proved here.

  Main declarations:
    * `FirstMatch.modify`
    * `FirstMatch.of_split`, `FirstMatch.split`
    * `FirstMatch.of_selected`
    * `FirstMatch.mem_append_iff_of_pairwise`
-/

------------------------------------------------------------
-- The First Match
------------------------------------------------------------

namespace FirstMatch

variable {α : Type}

/- Rewrite the first element that satisfies `p`. -/
def modify
    (p : α → Bool)
    (f : α → α) :
    List α → List α
| [] => []
| a :: as =>
    if p a then f a :: as else a :: modify p f as

theorem modify_append_of_forall
    {p : α → Bool}
    (f : α → α)
    {as : List α}
    (hNone : ∀ a ∈ as, p a = false)
    (bs : List α) :
    modify p f (as ++ bs) = as ++ modify p f bs := by
  induction as with
  | nil => rfl
  | cons a as ih =>
      have hHead : p a = false := hNone a (by simp)
      have hTail : ∀ x ∈ as, p x = false :=
        fun x hx => hNone x (by simp [hx])
      simp [modify, hHead, ih hTail]

/- Erasing and rewriting the first match touch it alone. -/
theorem of_split
    {p : α → Bool}
    {as : List α}
    {b : α}
    (hNone : ∀ a ∈ as, p a = false)
    (hMatch : p b = true)
    (bs : List α) :
    (as ++ b :: bs).find? p = some b ∧
      (as ++ b :: bs).eraseP p = as ++ bs ∧
      ∀ f, modify p f (as ++ b :: bs) =
        as ++ f b :: bs := by
  refine ⟨?_, ?_, ?_⟩
  · rw [List.find?_eq_some_iff_append]
    refine ⟨hMatch, as, bs, rfl, ?_⟩
    intro a ha
    simp [hNone a ha]
  · rw [List.eraseP_append_right _ (by
      intro a ha
      simp [hNone a ha])]
    simp [hMatch]
  · intro f
    rw [modify_append_of_forall f hNone]
    simp [modify, hMatch]

/-
  A list with a match splits there: nothing before the match
  satisfies the test, and erasing or rewriting the first
  match touches that element alone.
-/
theorem split
    {p : α → Bool}
    {l : List α}
    {b : α}
    (hFind : l.find? p = some b) :
    ∃ as bs, l = as ++ b :: bs ∧
      (∀ a ∈ as, p a = false) ∧ p b = true ∧
      l.eraseP p = as ++ bs ∧
      ∀ f, modify p f l = as ++ f b :: bs := by
  rcases List.find?_eq_some_iff_append.mp hFind with
    ⟨hMatch, as, bs, rfl, hBefore⟩
  have hNone : ∀ a ∈ as, p a = false := by
    intro a ha
    simpa using hBefore a ha
  exact ⟨as, bs, rfl, hNone, hMatch,
    (of_split hNone hMatch bs).2⟩

/-
  Nothing that is selected passes a test that only reflects
  a test nothing passes.
-/
theorem none_selected
    {β : Type}
    {sel : α → Option β}
    {p : α → Bool}
    {q : β → Bool}
    {as : List α}
    (hMiss :
      ∀ a ∈ as, ∀ b, sel a = some b → q b = true →
        p a = true)
    (hNone : ∀ a ∈ as, p a = false) :
    ∀ b ∈ as.filterMap sel, q b = false := by
  intro b hb
  rcases List.mem_filterMap.mp hb with ⟨a, ha, hSel⟩
  cases hTest : q b with
  | false => rfl
  | true =>
      have hHit := hMiss a ha b hSel hTest
      rw [hNone a ha] at hHit
      cases hHit

/-
  A selection whose test reflects the test of the list has
  its first match where the list has it.
-/
theorem of_selected
    {β : Type}
    {sel : α → Option β}
    {p : α → Bool}
    {q : β → Bool}
    {as bs : List α}
    {a : α}
    {b : β}
    (hMiss :
      ∀ x ∈ as ++ a :: bs, ∀ y, sel x = some y →
        q y = true → p x = true)
    (hNone : ∀ x ∈ as, p x = false)
    (hThis : sel a = some b)
    (hMatch : q b = true) :
    ((as ++ a :: bs).filterMap sel).find? q = some b ∧
      ((as ++ a :: bs).filterMap sel).eraseP q =
        (as ++ bs).filterMap sel ∧
      ∀ f, modify q f ((as ++ a :: bs).filterMap sel) =
        as.filterMap sel ++ f b :: bs.filterMap sel := by
  have hBefore : ∀ y ∈ as.filterMap sel, q y = false := by
    refine none_selected ?_ hNone
    intro x hx
    exact hMiss x (List.mem_append_left _ hx)
  rw [List.filterMap_append, List.filterMap_cons, hThis,
    List.filterMap_append]
  exact of_split hBefore hMatch (bs.filterMap sel)

end FirstMatch

------------------------------------------------------------
-- Lists Sorted By A Key
------------------------------------------------------------

namespace FirstMatch

variable {α κ : Type}
variable [LT κ] [Std.Irrefl fun a b : κ => a < b]

omit [Std.Irrefl fun a b : κ => a < b] in
/- Rewriting one element keeps a list sorted by its key. -/
theorem pairwise_of_key_eq
    {key : α → κ}
    {as bs : List α}
    {b b' : α}
    (hKey : key b' = key b)
    (hSorted :
      (as ++ b :: bs).Pairwise fun x y => key x < key y) :
    (as ++ b' :: bs).Pairwise
      fun x y => key x < key y := by
  rw [List.pairwise_append, List.pairwise_cons] at *
  rcases hSorted with ⟨hLeft, ⟨hHead, hRight⟩, hCross⟩
  refine ⟨hLeft, ⟨?_, hRight⟩, ?_⟩
  · intro x hx
    rw [hKey]
    exact hHead x hx
  · intro x hx y hy
    rcases List.mem_cons.mp hy with rfl | hy
    · rw [hKey]
      exact hCross x hx b (by simp)
    · exact hCross x hx y (by simp [hy])

/- Different positions of a sorted list have different keys. -/
theorem key_ne_of_lt
    {a b : κ}
    (hLt : a < b) :
    a ≠ b := by
  rintro rfl
  exact Std.Irrefl.irrefl a hLt

/-
  In a list strictly sorted by a key, an element is found by
  its key.
-/
theorem eq_of_key_eq
    {key : α → κ}
    {l : List α}
    (hSorted : l.Pairwise fun a b => key a < key b)
    {a b : α}
    (ha : a ∈ l)
    (hb : b ∈ l)
    (hKey : key a = key b) :
    a = b := by
  induction l with
  | nil => cases ha
  | cons c l ih =>
      rcases List.pairwise_cons.mp hSorted with
        ⟨hHead, hTail⟩
      rcases List.mem_cons.mp ha with hFirst | hLater
      · rcases List.mem_cons.mp hb with hFirst' | hLater'
        · rw [hFirst, hFirst']
        · rw [hFirst] at hKey
          exact absurd hKey (key_ne_of_lt (hHead b hLater'))
      · rcases List.mem_cons.mp hb with hFirst' | hLater'
        · rw [hFirst'] at hKey
          exact absurd hKey.symm
            (key_ne_of_lt (hHead a hLater))
        · exact ih hTail hLater hLater'

/-
  Removing one element of a list sorted by a key leaves
  exactly the elements with other keys.
-/
theorem mem_append_iff_of_pairwise
    {key : α → κ}
    {as bs : List α}
    {b : α}
    (hSorted :
      (as ++ b :: bs).Pairwise fun x y => key x < key y)
    (x : α) :
    x ∈ as ++ bs ↔
      x ∈ as ++ b :: bs ∧ key x ≠ key b := by
  constructor
  · intro hx
    have hMem : x ∈ as ++ b :: bs := by
      rcases List.mem_append.mp hx with h | h <;>
        simp [h]
    refine ⟨hMem, ?_⟩
    rcases List.pairwise_append.mp hSorted with
      ⟨_, hRight, hCross⟩
    rcases List.mem_append.mp hx with h | h
    · exact key_ne_of_lt (hCross x h b (by simp))
    · exact (key_ne_of_lt
        ((List.pairwise_cons.mp hRight).1 x h)).symm
  · rintro ⟨hMem, hNe⟩
    rcases List.mem_append.mp hMem with h | h
    · simp [h]
    · rcases List.mem_cons.mp h with rfl | h
      · exact absurd rfl hNe
      · simp [h]

end FirstMatch

import Mathlib

/-
  Lists whose elements are justified by what precedes them.

  Key definitions include:
    * `Traced`
    * `Traced.collect`

  Key theorems include:
    * `Traced.append`
    * `Traced.prefix_of`
    * `Traced.induction`
-/

------------------------------------------------------------
-- Traced Lists
------------------------------------------------------------

variable {α : Type}

/-
  Every element of the list stands in the relation `P` to
  the elements before it.
-/
def Traced
    (P : List α → α → Prop)
    (xs : List α) : Prop :=
  ∀ pre a post, xs = pre ++ a :: post → P pre a

namespace Traced

variable {P : List α → α → Prop} {xs ys : List α}

theorem nil : Traced P [] := by
  intro pre a post hSplit
  simp at hSplit

/- New elements are justified by the old and each other. -/
theorem append
    (hOld : Traced P xs)
    (hNew : Traced (fun pre a => P (xs ++ pre) a) ys) :
    Traced P (xs ++ ys) := by
  intro pre a post hSplit
  rcases List.append_eq_append_iff.mp hSplit with
    ⟨mid, hPre, hYs⟩ | ⟨mid, hXs, hPost⟩
  · rw [hPre]
    exact hNew mid a post hYs
  · cases mid with
    | nil =>
        rw [List.nil_append] at hPost
        rw [List.append_nil] at hXs
        have hLast : P (xs ++ []) a :=
          hNew [] a post hPost.symm
        rwa [List.append_nil, hXs] at hLast
    | cons b mid =>
        injection hPost with hHead hTail
        subst hHead
        exact hOld pre a mid hXs

theorem singleton
    {a : α}
    (hFirst : P [] a) :
    Traced P [a] := by
  intro pre b post hSplit
  cases pre with
  | nil =>
      injection hSplit with hHead _
      exact hHead ▸ hFirst
  | cons c pre => simp at hSplit

theorem cons
    {a : α}
    (hFirst : P [] a)
    (hRest : Traced (fun pre b => P (a :: pre) b) xs) :
    Traced P (a :: xs) :=
  (singleton hFirst).append hRest

/- A list all of whose elements are justified by anything. -/
theorem of_forall
    (hAll : ∀ pre, ∀ a ∈ xs, P pre a) :
    Traced P xs := by
  intro pre a post hSplit
  exact hAll pre a (by simp [hSplit])

theorem prefix_of
    (hAll : Traced P ys)
    (hPrefix : xs <+: ys) :
    Traced P xs := by
  rcases hPrefix with ⟨zs, rfl⟩
  intro pre a post hSplit
  apply hAll pre a (post ++ zs)
  simp [hSplit]

/- Induction along a list, each element with its reason. -/
theorem induction
    {motive : List α → Prop}
    (hNil : motive [])
    (hSnoc :
      ∀ xs a, Traced P xs → motive xs → P xs a →
        motive (xs ++ [a]))
    (hAll : Traced P xs) :
    motive xs := by
  induction xs using List.reverseRecOn with
  | nil => exact hNil
  | append_singleton xs a ih =>
      have hOld : Traced P xs :=
        hAll.prefix_of (List.prefix_append xs [a])
      exact hSnoc xs a hOld (ih hOld) (hAll xs a [] rfl)

end Traced

------------------------------------------------------------
-- Collecting Along A List
------------------------------------------------------------

namespace Traced

variable {α β : Type}

/- A fold over elements none of which changes anything. -/
theorem foldl_of_forall
    {f : β → α → β}
    {xs : List α}
    (hAll : ∀ a ∈ xs, ∀ b, f b a = b)
    (b : β) :
    xs.foldl f b = b := by
  induction xs with
  | nil => rfl
  | cons a xs ih =>
      rw [List.foldl_cons, hAll a List.mem_cons_self b]
      apply ih
      intro c hc
      exact hAll c (List.mem_cons_of_mem a hc)

/- What every element yields, given those before it. -/
def collect : (List α → α → List β) → List α → List β
| _, [] => []
| f, a :: xs => f [] a ++ collect (fun pre => f (a :: pre)) xs

theorem collect_append
    (f : List α → α → List β)
    (xs ys : List α) :
    collect f (xs ++ ys) =
      collect f xs ++
        collect (fun pre => f (xs ++ pre)) ys := by
  induction xs generalizing f with
  | nil => rfl
  | cons a xs ih =>
      simp only [List.cons_append, collect, ih,
        List.append_assoc]

theorem collect_eq_nil
    {f : List α → α → List β}
    {xs : List α}
    (hNone : ∀ pre, ∀ a ∈ xs, f pre a = []) :
    collect f xs = [] := by
  induction xs generalizing f with
  | nil => rfl
  | cons a xs ih =>
      have hRest :
          collect (fun pre => f (a :: pre)) xs = [] := by
        apply ih
        intro pre b hb
        exact hNone _ b (List.mem_cons_of_mem a hb)
      rw [collect, hNone [] a List.mem_cons_self, hRest]
      rfl

end Traced

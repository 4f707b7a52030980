import Mathlib

/-
  Bounded while loops.

  A loop is given by its step function, which answers `none`
  when the loop guard fails and the next state otherwise.
  `Loop.iterate` runs the step at most `fuel` times, so the
  states `iterate step n s` for `n : Nat` are exactly the
  states at the head of the loop.

  Main declarations:
    * `Loop.iterate`
    * `Loop.iterate_inv`
    * `Loop.iterate_done`
    * `Loop.iterate_eq_of_done`
    * `Loop.iterate_rel`
-/

------------------------------------------------------------
-- Iteration
------------------------------------------------------------

namespace Loop

variable {σ τ : Type}

/- Run the loop body at most `fuel` times. -/
def iterate
    (step : σ → Option σ) :
    Nat → σ → σ
| 0, s => s
| fuel + 1, s =>
    match step s with
    | none => s
    | some s' => iterate step fuel s'

/- A loop whose guard fails is left at once. -/
theorem iterate_of_none
    {step : σ → Option σ}
    {s : σ}
    (hNone : step s = none)
    (fuel : Nat) :
    iterate step fuel s = s := by
  cases fuel with
  | zero => rfl
  | succ fuel =>
      simp [iterate, hNone]

/- One turn of a loop whose guard holds. -/
theorem iterate_succ_of_some
    {step : σ → Option σ}
    {s s' : σ}
    (hSome : step s = some s')
    (fuel : Nat) :
    iterate step (fuel + 1) s = iterate step fuel s' := by
  simp [iterate, hSome]

/- A loop run for a while and then for a while longer. -/
theorem iterate_add
    (step : σ → Option σ)
    (fuel more : Nat)
    (s : σ) :
    iterate step (fuel + more) s =
      iterate step more (iterate step fuel s) := by
  induction fuel generalizing s with
  | zero => simp [iterate]
  | succ fuel ih =>
      cases hNext : step s with
      | none => simp only [iterate_of_none hNext]
      | some s' =>
          rw [Nat.add_right_comm, iterate_succ_of_some hNext,
            iterate_succ_of_some hNext, ih]

end Loop

------------------------------------------------------------
-- Invariants And Termination
------------------------------------------------------------

namespace Loop

variable {σ τ : Type}
variable {step : σ → Option σ}

/- A property kept by the body holds at every loop head. -/
theorem iterate_inv
    (Inv : σ → Prop)
    (hStep :
      ∀ s s', Inv s → step s = some s' → Inv s')
    (fuel : Nat)
    {s : σ}
    (hInit : Inv s) :
    Inv (iterate step fuel s) := by
  induction fuel generalizing s with
  | zero => exact hInit
  | succ fuel ih =>
      cases hNext : step s with
      | none =>
          rw [iterate_of_none hNext]
          exact hInit
      | some s' =>
          rw [iterate_succ_of_some hNext]
          exact ih (hStep s s' hInit hNext)

/-
  A measure that every turn decreases bounds the number of
  turns: with that much fuel the guard fails at the end.
-/
theorem iterate_done
    {measure : σ → Nat}
    (hDecrease :
      ∀ s s', step s = some s' → measure s' < measure s)
    {fuel : Nat}
    {s : σ}
    (hFuel : measure s ≤ fuel) :
    step (iterate step fuel s) = none := by
  induction fuel generalizing s with
  | zero =>
      cases hNext : step s with
      | none => simpa [iterate] using hNext
      | some s' =>
          have hLess := hDecrease s s' hNext
          omega
  | succ fuel ih =>
      cases hNext : step s with
      | none =>
          rw [iterate_of_none hNext]
          exact hNext
      | some s' =>
          rw [iterate_succ_of_some hNext]
          apply ih
          have hLess := hDecrease s s' hNext
          omega

/- Fuel beyond the end of the loop is never spent. -/
theorem iterate_eq_of_done
    {fuel larger : Nat}
    {s : σ}
    (hDone : step (iterate step fuel s) = none)
    (hLe : fuel ≤ larger) :
    iterate step larger s = iterate step fuel s := by
  induction fuel generalizing s larger with
  | zero =>
      exact iterate_of_none hDone larger
  | succ fuel ih =>
      cases hNext : step s with
      | none =>
          rw [iterate_of_none hNext,
            iterate_of_none hNext]
      | some s' =>
          obtain ⟨rest, rfl⟩ :
              ∃ rest, larger = rest + 1 :=
            ⟨larger - 1, by omega⟩
          rw [iterate_succ_of_some hNext] at hDone
          rw [iterate_succ_of_some hNext,
            iterate_succ_of_some hNext]
          exact ih hDone (by omega)

end Loop

------------------------------------------------------------
-- Lockstep Simulation
------------------------------------------------------------

namespace Loop

variable {σ τ : Type}

/-
  Two loop bodies advance together along `R`: both leave,
  or both take a turn into related states.
-/
def Lockstep
    (R : σ → τ → Prop)
    (left : Option σ)
    (right : Option τ) : Prop :=
  match left, right with
  | none, none => True
  | some s, some t => R s t
  | _, _ => False

/- Loops whose bodies advance together end related. -/
theorem iterate_rel
    {step : σ → Option σ}
    {step' : τ → Option τ}
    {R : σ → τ → Prop}
    (hStep :
      ∀ s t, R s t → Lockstep R (step s) (step' t))
    (fuel : Nat)
    {s : σ}
    {t : τ}
    (hInit : R s t) :
    R (iterate step fuel s) (iterate step' fuel t) := by
  induction fuel generalizing s t with
  | zero => exact hInit
  | succ fuel ih =>
      have hNext := hStep s t hInit
      cases hLeft : step s with
      | none =>
          cases hRight : step' t with
          | none =>
              rw [iterate_of_none hLeft,
                iterate_of_none hRight]
              exact hInit
          | some t' =>
              simp [Lockstep, hLeft, hRight] at hNext
      | some s' =>
          cases hRight : step' t with
          | none =>
              simp [Lockstep, hLeft, hRight] at hNext
          | some t' =>
              rw [iterate_succ_of_some hLeft,
                iterate_succ_of_some hRight]
              apply ih
              simpa [Lockstep, hLeft, hRight] using hNext

end Loop

import SocketExchange.Machine.Run

/-
  Steps that leave something behind.

  A labelled step goes from a state to a state and gives out
  a list of items; a trail puts steps together and appends
  what they give out. An invariant may speak of the state
  and of everything given out so far.

  Main declarations:
    * `Machine.Trail`
    * `Machine.Trail.invariant`
    * `Machine.run_trail`
    * `Machine.emitted`
-/

------------------------------------------------------------
-- Trails
------------------------------------------------------------

namespace Machine

/- Any number of labelled steps, with all they give out. -/
inductive Trail
    {σ ν : Type}
    (R : σ → List ν → σ → Prop)
    (s : σ) : List ν → σ → Prop where
| refl : Trail R s [] s
| tail
    {t u : σ}
    {xs ys : List ν}
    (hTrail : Trail R s xs t)
    (hStep : R t ys u) :
    Trail R s (xs ++ ys) u

namespace Trail

variable {σ ν : Type} {R : σ → List ν → σ → Prop}
variable {s t u : σ} {xs ys : List ν}

theorem single
    (hStep : R s xs t) :
    Trail R s xs t := by
  simpa using (Trail.refl (R := R) (s := s)).tail hStep

theorem trans
    (hFirst : Trail R s xs t)
    (hSecond : Trail R t ys u) :
    Trail R s (xs ++ ys) u := by
  induction hSecond with
  | refl => simpa using hFirst
  | tail _ hLast ih =>
      rw [← List.append_assoc]
      exact ih.tail hLast

/- A step that gives out nothing, in front of a trail. -/
theorem head
    (hStep : R s [] t)
    (hTrail : Trail R t xs u) :
    Trail R s xs u := by
  simpa using (single hStep).trans hTrail

/-
  What every step keeps holds at the end, of the last state
  and all that was given out.
-/
theorem invariant
    (Inv : σ → List ν → Prop)
    (hStep :
      ∀ s t given ys, Inv s given → R s ys t →
        Inv t (given ++ ys))
    {given : List ν}
    (hTrail : Trail R s xs t)
    (hInit : Inv s given) :
    Inv t (given ++ xs) := by
  induction hTrail with
  | refl => simpa using hInit
  | tail _ hLast ih =>
      rw [← List.append_assoc]
      exact hStep _ _ _ _ ih hLast

/- The same for a property of the state alone. -/
theorem keeps
    (Inv : σ → Prop)
    (hStep : ∀ s t ys, Inv s → R s ys t → Inv t)
    (hTrail : Trail R s xs t)
    (hInit : Inv s) :
    Inv t := by
  induction hTrail with
  | refl => exact hInit
  | tail _ hLast ih => exact hStep _ _ _ ih hLast

end Trail

end Machine

------------------------------------------------------------
-- Runs That Give Something Out
------------------------------------------------------------

namespace Machine

variable {σ ι ν : Type}

/- All that the steps of a run give out, in order. -/
def emitted
    (step : σ → ι → σ)
    (emit : σ → ι → List ν) :
    σ → List ι → List ν
| _, [] => []
| s, i :: is =>
    emit s i ++ emitted step emit (step s i) is

/- Every allowed step of a run is a trail: so is the run. -/
theorem run_trail
    {step : σ → ι → σ}
    {emit : σ → ι → List ν}
    {allowed : σ → ι → Prop}
    {R : σ → List ν → σ → Prop}
    (Inv : σ → Prop)
    (hStep :
      ∀ s i, Inv s → allowed s i →
        Trail R s (emit s i) (step s i) ∧ Inv (step s i))
    {s : σ}
    {is : List ι}
    (hInit : Inv s)
    (hAllowed : Permitted step allowed s is) :
    Trail R s (emitted step emit s is) (run step s is) := by
  induction is generalizing s with
  | nil => exact .refl
  | cons i is ih =>
      rcases hStep s i hInit hAllowed.1 with ⟨hFirst, hNext⟩
      exact hFirst.trans (ih hNext hAllowed.2)

end Machine

import Mathlib

/-
  Runs of deterministic machines over lists of inputs.

  Key definitions include:
    * `Machine.run`
    * `Machine.Permitted`
    * `Machine.final`
    * `Machine.replies`
    * `Machine.views`

  Key theorems include:
    * `Machine.run_invariant`
    * `Machine.run_keeps`
    * `Machine.run_related`
    * `Machine.permitted_of_good`
    * `Machine.run_iff_since`
    * `Machine.good_throughout_iff`
    * `Machine.final_invariant`
    * `Machine.simulation`
    * `Machine.simulation_map`
    * `Machine.unwinding`
-/

------------------------------------------------------------
-- Runs And Invariants
------------------------------------------------------------

namespace Machine

variable {σ ι : Type}

/- The state after a list of inputs. -/
def run
    (step : σ → ι → σ) :
    σ → List ι → σ
| s, [] => s
| s, i :: is => run step (step s i) is

@[simp] theorem run_nil
    (step : σ → ι → σ)
    (s : σ) :
    run step s [] = s := rfl

@[simp] theorem run_cons
    (step : σ → ι → σ)
    (s : σ)
    (i : ι)
    (is : List ι) :
    run step s (i :: is) = run step (step s i) is := rfl

theorem run_append
    (step : σ → ι → σ)
    (s : σ)
    (is js : List ι) :
    run step s (is ++ js) =
      run step (run step s is) js := by
  induction is generalizing s with
  | nil => rfl
  | cons i is ih => exact ih (step s i)

/-
  Every input of the list is allowed in the state in which
  it arrives.
-/
def Permitted
    (step : σ → ι → σ)
    (allowed : σ → ι → Prop) :
    σ → List ι → Prop
| _, [] => True
| s, i :: is =>
    allowed s i ∧ Permitted step allowed (step s i) is

theorem permitted_and
    {step : σ → ι → σ}
    {allowed allowed' : σ → ι → Prop}
    {s : σ}
    {is : List ι} :
    Permitted step (fun s i => allowed s i ∧ allowed' s i)
        s is ↔
      Permitted step allowed s is ∧
        Permitted step allowed' s is := by
  induction is generalizing s with
  | nil => simp [Permitted]
  | cons i is ih =>
      simp only [Permitted, ih]
      tauto

theorem permitted_of_forall
    {step : σ → ι → σ}
    {allowed : σ → ι → Prop}
    (hAll : ∀ s i, allowed s i)
    (s : σ)
    (is : List ι) :
    Permitted step allowed s is := by
  induction is generalizing s with
  | nil => trivial
  | cons i is ih => exact ⟨hAll s i, ih (step s i)⟩

/- Allowed all along, read off every split of the list. -/
theorem permitted_iff_forall_split
    {step : σ → ι → σ}
    {allowed : σ → ι → Prop}
    {s : σ}
    {is : List ι} :
    Permitted step allowed s is ↔
      ∀ pre i post, is = pre ++ i :: post →
        allowed (run step s pre) i := by
  induction is generalizing s with
  | nil => simp [Permitted]
  | cons i is ih =>
      simp only [Permitted, ih]
      constructor
      · rintro ⟨hFirst, hRest⟩ pre j post hSplit
        cases pre with
        | nil =>
            injection hSplit with hHead _
            exact hHead ▸ hFirst
        | cons k pre =>
            injection hSplit with hHead hTail
            subst hHead
            exact hRest pre j post hTail
      · intro hAll
        refine ⟨hAll [] i is rfl, ?_⟩
        intro pre j post hSplit
        exact hAll (i :: pre) j post (by rw [hSplit]; rfl)

theorem permitted_append
    {step : σ → ι → σ}
    {allowed : σ → ι → Prop}
    {s : σ}
    {is js : List ι} :
    Permitted step allowed s (is ++ js) ↔
      Permitted step allowed s is ∧
        Permitted step allowed (run step s is) js := by
  induction is generalizing s with
  | nil => simp [Permitted]
  | cons i is ih =>
      simp only [List.cons_append, Permitted, ih,
        run_cons, and_assoc]

/- A property kept by every allowed step holds all along. -/
theorem run_invariant
    {step : σ → ι → σ}
    {allowed : σ → ι → Prop}
    (Inv : σ → Prop)
    (hStep :
      ∀ s i, Inv s → allowed s i → Inv (step s i))
    {s : σ}
    {is : List ι}
    (hInit : Inv s)
    (hAllowed : Permitted step allowed s is) :
    Inv (run step s is) := by
  induction is generalizing s with
  | nil => exact hInit
  | cons i is ih =>
      exact ih (hStep s i hInit hAllowed.1) hAllowed.2

/- The same rule when every input is allowed. -/
theorem run_keeps
    {step : σ → ι → σ}
    (Inv : σ → Prop)
    (hStep : ∀ s i, Inv s → Inv (step s i))
    {s : σ}
    (hInit : Inv s)
    (is : List ι) :
    Inv (run step s is) := by
  have hAny : Permitted step (fun _ _ => True) s is :=
    permitted_of_forall (fun _ _ => trivial) s is
  exact run_invariant Inv (fun s i hInv _ => hStep s i hInv)
    hInit hAny

theorem permitted_mono
    {step : σ → ι → σ}
    {allowed allowed' : σ → ι → Prop}
    (hWeaker : ∀ s i, allowed s i → allowed' s i)
    {s : σ}
    {is : List ι}
    (hAllowed : Permitted step allowed s is) :
    Permitted step allowed' s is := by
  induction is generalizing s with
  | nil => trivial
  | cons i is ih =>
      exact ⟨hWeaker s i hAllowed.1, ih hAllowed.2⟩

/- A map that every step respects is respected by runs. -/
theorem run_map
    {τ : Type}
    {step : σ → ι → σ}
    {step' : τ → ι → τ}
    {f : σ → τ}
    (hStep : ∀ s i, f (step s i) = step' (f s) i)
    (s : σ)
    (is : List ι) :
    f (run step s is) = run step' (f s) is := by
  induction is generalizing s with
  | nil => rfl
  | cons i is ih => rw [run_cons, run_cons, ih, hStep]

/- Two machines whose steps keep a relation end related. -/
theorem run_related
    {τ κ : Type}
    {step : σ → ι → σ}
    {step' : τ → κ → τ}
    {allowed : σ → ι → Prop}
    {R : σ → τ → Prop}
    {g : ι → κ}
    (hStep :
      ∀ s t i, R s t → allowed s i →
        R (step s i) (step' t (g i)))
    {s : σ}
    {t : τ}
    {is : List ι}
    (hInit : R s t)
    (hAllowed : Permitted step allowed s is) :
    R (run step s is) (run step' t (is.map g)) := by
  induction is generalizing s t with
  | nil => exact hInit
  | cons i is ih =>
      apply ih
      · exact hStep s t i hInit hAllowed.1
      · exact hAllowed.2

/-
  Reading a run backwards: when a property that holds after
  a step held before it and shows that the step was allowed,
  it shows at the end that every step was.
-/
theorem permitted_of_good
    {step : σ → ι → σ}
    {legal allowed : σ → ι → Prop}
    (Inv good : σ → Prop)
    (hInv :
      ∀ s i, Inv s → legal s i → Inv (step s i))
    (hBack :
      ∀ s i, Inv s → legal s i → good (step s i) →
        good s ∧ allowed s i)
    {s : σ}
    {is : List ι}
    (hInit : Inv s)
    (hLegal : Permitted step legal s is)
    (hGood : good (run step s is)) :
    good s ∧ Permitted step allowed s is := by
  induction is generalizing s with
  | nil => exact ⟨hGood, trivial⟩
  | cons i is ih =>
      rcases ih (hInv s i hInit hLegal.1) hLegal.2
          hGood with ⟨hNext, hRest⟩
      rcases hBack s i hInit hLegal.1 hNext with
        ⟨hNow, hAllowed⟩
      exact ⟨hNow, hAllowed, hRest⟩

/-
  A property that steps bring about, keep or take away. It
  holds after a run when it held from the start, or when
  some step brought it about, and every input since kept it.
-/
theorem run_iff_since
    {step : σ → ι → σ}
    {P : σ → Prop}
    {cause : σ → ι → Prop}
    {keeps : ι → Prop}
    (hStep :
      ∀ s i, P (step s i) ↔ cause s i ∨ (P s ∧ keeps i))
    (s : σ)
    (is : List ι) :
    P (run step s is) ↔
      (P s ∧ ∀ j ∈ is, keeps j) ∨
        ∃ pre i post, is = pre ++ i :: post ∧
          cause (run step s pre) i ∧
          ∀ j ∈ post, keeps j := by
  induction is generalizing s with
  | nil => simp
  | cons i is ih =>
      rw [run_cons, ih (step s i), hStep s i]
      constructor
      · rintro (⟨hCause | ⟨hHeld, hKeep⟩, hLater⟩ |
          ⟨pre, j, post, rfl, hCause, hLater⟩)
        · exact Or.inr ⟨[], i, is, rfl, hCause, hLater⟩
        · exact Or.inl
            ⟨hHeld, List.forall_mem_cons.mpr
              ⟨hKeep, hLater⟩⟩
        · exact Or.inr
            ⟨i :: pre, j, post, rfl, hCause, hLater⟩
      · rintro (⟨hHeld, hAll⟩ |
          ⟨pre, j, post, hSplit, hCause, hLater⟩)
        · rcases List.forall_mem_cons.mp hAll with
            ⟨hKeep, hLater⟩
          exact Or.inl ⟨Or.inr ⟨hHeld, hKeep⟩, hLater⟩
        · cases pre with
          | nil =>
              injection hSplit with hHead hTail
              subst hHead hTail
              exact Or.inl ⟨Or.inl hCause, hLater⟩
          | cons k pre =>
              injection hSplit with hHead hTail
              subst hHead
              exact Or.inr
                ⟨pre, j, post, hTail, hCause, hLater⟩

/-
  The good prefixes of a run. An invariant that allowed
  steps keep is good, and a step that is not allowed ends in
  a state that is not: then a run is good throughout exactly
  when its steps are allowed.
-/
theorem good_throughout_iff
    {step : σ → ι → σ}
    {legal allowed : σ → ι → Prop}
    (Inv good : σ → Prop)
    (hGood : ∀ s, Inv s → good s)
    (hKeep :
      ∀ s i, Inv s → legal s i → allowed s i →
        Inv (step s i))
    (hBreak :
      ∀ s i, Inv s → legal s i → ¬ allowed s i →
        ¬ good (step s i))
    {s : σ}
    {is : List ι}
    (hInit : Inv s)
    (hLegal : Permitted step legal s is) :
    (∀ pre post, is = pre ++ post → good (run step s pre)) ↔
      Permitted step allowed s is := by
  induction is generalizing s with
  | nil =>
      constructor
      · intro _
        trivial
      · intro _ pre post hSplit
        rw [(List.append_eq_nil_iff.mp hSplit.symm).1]
        exact hGood s hInit
  | cons i is ih =>
      constructor
      · intro hAlways
        have hAllowed : allowed s i := by
          by_contra hNot
          exact hBreak s i hInit hLegal.1 hNot
            (hAlways [i] is rfl)
        refine ⟨hAllowed, ?_⟩
        have hNext := hKeep s i hInit hLegal.1 hAllowed
        apply (ih hNext hLegal.2).mp
        intro pre post hSplit
        exact hAlways (i :: pre) post (by rw [hSplit]; rfl)
      · rintro ⟨hAllowed, hLater⟩ pre post hSplit
        have hNext := hKeep s i hInit hLegal.1 hAllowed
        cases pre with
        | nil => exact hGood s hInit
        | cons j pre =>
            injection hSplit with hHead hTail
            subst hHead
            exact (ih hNext hLegal.2).mpr hLater pre post
              hTail

end Machine

------------------------------------------------------------
-- Machines With Replies
------------------------------------------------------------

namespace Machine

variable {σ τ ι ο : Type}

/- The state a replying machine ends in. -/
def final
    (step : σ → ι → σ × ο) :
    σ → List ι → σ :=
  run fun s i => (step s i).1

/- The replies a machine gives, in order. -/
def replies
    (step : σ → ι → σ × ο) :
    σ → List ι → List ο
| _, [] => []
| s, i :: is =>
    (step s i).2 :: replies step (step s i).1 is

@[simp] theorem final_nil
    (step : σ → ι → σ × ο)
    (s : σ) :
    final step s [] = s := rfl

@[simp] theorem final_cons
    (step : σ → ι → σ × ο)
    (s : σ)
    (i : ι)
    (is : List ι) :
    final step s (i :: is) =
      final step (step s i).1 is := rfl

theorem final_append
    (step : σ → ι → σ × ο)
    (s : σ)
    (is js : List ι) :
    final step s (is ++ js) =
      final step (final step s is) js :=
  run_append _ s is js

theorem replies_append
    (step : σ → ι → σ × ο)
    (s : σ)
    (is js : List ι) :
    replies step s (is ++ js) =
      replies step s is ++
        replies step (final step s is) js := by
  induction is generalizing s with
  | nil => rfl
  | cons i is ih =>
      simp only [List.cons_append, replies, ih, final_cons]

/- A property kept by every step holds at the end. -/
theorem final_invariant
    (step : σ → ι → σ × ο)
    (Inv : σ → Prop)
    (hStep : ∀ s i, Inv s → Inv (step s i).1)
    {s : σ}
    (hInit : Inv s)
    (is : List ι) :
    Inv (final step s is) :=
  run_keeps Inv hStep hInit is

/-
  Forward simulation. The relation may mention the inputs
  still to come, so that a bound on the whole run can be
  spent step by step.
-/
theorem simulation
    {f : σ → ι → σ × ο}
    {g : τ → ι → τ × ο}
    (R : σ → τ → List ι → Prop)
    (hStep :
      ∀ s t i is, R s t (i :: is) →
        (f s i).2 = (g t i).2 ∧
          R (f s i).1 (g t i).1 is)
    {s : σ}
    {t : τ}
    {is : List ι}
    (hInit : R s t is) :
    replies f s is = replies g t is ∧
      R (final f s is) (final g t is) [] := by
  induction is generalizing s t with
  | nil => exact ⟨rfl, hInit⟩
  | cons i is ih =>
      rcases hStep s t i is hInit with ⟨hReply, hNext⟩
      rcases ih hNext with ⟨hReplies, hFinal⟩
      refine ⟨?_, hFinal⟩
      simp only [replies, hReply, hReplies]

/-
  Simulation under a renaming of the inputs: the replies
  are the renamed replies.
-/
theorem simulation_map
    {κ π : Type}
    {f : σ → ι → σ × ο}
    {g : τ → κ → τ × π}
    (input : ι → κ)
    (reply : ο → π)
    (R : σ → τ → Prop)
    (hStep :
      ∀ s t i, R s t →
        (g t (input i)).2 = reply (f s i).2 ∧
          R (f s i).1 (g t (input i)).1)
    {s : σ}
    {t : τ}
    (hInit : R s t)
    (is : List ι) :
    replies g t (is.map input) =
        (replies f s is).map reply ∧
      R (final f s is) (final g t (is.map input)) := by
  induction is generalizing s t with
  | nil => exact ⟨rfl, hInit⟩
  | cons i is ih =>
      rcases hStep s t i hInit with ⟨hReply, hNext⟩
      rcases ih hNext with ⟨hReplies, hFinal⟩
      refine ⟨?_, hFinal⟩
      simp only [List.map_cons, replies, hReply, hReplies]

end Machine

------------------------------------------------------------
-- Unwinding
------------------------------------------------------------

namespace Machine

variable {σ ι ν : Type}

/-
  What an observer sees of a run: the visible part of every
  input that it sees at all, judged in the state in which
  the input arrives.
-/
def views
    (step : σ → ι → σ)
    (view : σ → ι → Option ν) :
    σ → List ι → List ν
| _, [] => []
| s, i :: is =>
    (view s i).toList ++ views step view (step s i) is

theorem views_cons_of_none
    {step : σ → ι → σ}
    {view : σ → ι → Option ν}
    {s : σ}
    {i : ι}
    (hNone : view s i = none)
    (is : List ι) :
    views step view s (i :: is) =
      views step view (step s i) is := by
  simp [views, hNone]

theorem views_cons_of_some
    {step : σ → ι → σ}
    {view : σ → ι → Option ν}
    {s : σ}
    {i : ι}
    {v : ν}
    (hSome : view s i = some v)
    (is : List ι) :
    views step view s (i :: is) =
      v :: views step view (step s i) is := by
  simp [views, hSome]

/-
  The unwinding rule for two runs of one machine. Invisible
  steps keep the states related on either side; two steps
  that look the same keep them related when taken together.
  Then runs with equal views end related.
-/
theorem unwinding
    {step : σ → ι → σ}
    {view : σ → ι → Option ν}
    {allowed : σ → ι → Prop}
    {R : σ → σ → Prop}
    (hLeft :
      ∀ s t i, R s t → allowed s i →
        view s i = none → R (step s i) t)
    (hRight :
      ∀ s t i, R s t → allowed t i →
        view t i = none → R s (step t i))
    (hBoth :
      ∀ s t i j v, R s t → allowed s i → allowed t j →
        view s i = some v → view t j = some v →
          R (step s i) (step t j))
    {s t : σ}
    {is js : List ι}
    (hInit : R s t)
    (hAllowedLeft : Permitted step allowed s is)
    (hAllowedRight : Permitted step allowed t js)
    (hViews :
      views step view s is = views step view t js) :
    R (run step s is) (run step t js) := by
  -- The left run is walked one step at a time; at each of
  -- its visible steps the right run first catches up.
  induction is generalizing s t js with
  | nil =>
      induction js generalizing t with
      | nil => exact hInit
      | cons j js ih =>
          cases hSeen : view t j with
          | none =>
              rw [views_cons_of_none hSeen] at hViews
              exact ih
                (hRight s t j hInit hAllowedRight.1 hSeen)
                hAllowedRight.2 hViews
          | some v =>
              rw [views_cons_of_some hSeen] at hViews
              simp [views] at hViews
  | cons i is ihLeft =>
      cases hSeen : view s i with
      | none =>
          rw [views_cons_of_none hSeen] at hViews
          exact ihLeft
            (hLeft s t i hInit hAllowedLeft.1 hSeen)
            hAllowedLeft.2 hAllowedRight hViews
      | some v =>
          rw [views_cons_of_some hSeen] at hViews
          induction js generalizing t with
          | nil => simp [views] at hViews
          | cons j js ihRight =>
              cases hSeenRight : view t j with
              | none =>
                  rw [views_cons_of_none hSeenRight]
                    at hViews
                  exact ihRight
                    (hRight s t j hInit
                      hAllowedRight.1 hSeenRight)
                    hAllowedRight.2 hViews
              | some w =>
                  rw [views_cons_of_some hSeenRight]
                    at hViews
                  injection hViews with hHead hTail
                  subst hHead
                  have hNext :
                      R (step s i) (step t j) :=
                    hBoth s t i j v hInit
                      hAllowedLeft.1 hAllowedRight.1
                      hSeen hSeenRight
                  rw [run_cons, run_cons]
                  exact ihLeft hNext hAllowedLeft.2
                    hAllowedRight.2 hTail

end Machine

import SocketExchange.Book.Lifecycle

/-
  Time priority over whole runs.

  Orders at one price level trade in the order in which
  they arrived. Read over a run: while an order rests, no
  later order of its level trades at all. The later order
  keeps every unit it had, unless its owner takes it back.

  Key definitions include:
    * `SameLevel`
    * `Shielded`

  Key theorems include:
    * `Shielded.step`
    * `run_no_overtaking`
-/

------------------------------------------------------------
-- Shielding
------------------------------------------------------------

namespace SocketExchange

/- Two orders rest at the same price level. -/
structure SameLevel (o o' : Order) : Prop where
  inst : o.inst = o'.inst
  side : o.side = o'.side
  price : o.price = o'.price

/- Orders of one level face the same incoming orders. -/
theorem SameLevel.restsAt_eq
    {o o' : Order}
    (hSame : SameLevel o o')
    (inst : Fin 2)
    (side : Side)
    (price : UInt32) :
    restsAt inst side price o =
      restsAt inst side price o' := by
  simp only [restsAt, hSame.inst, hSame.side, hSame.price]

/-
  The order `y` stands behind the order with id `older`:
  that order is at the level of `y`, and for as long as it
  is in the list `y` is there too, unchanged.
-/
structure Shielded
    (older : UInt32)
    (y : Order)
    (resting : List Order) : Prop where
  sorted : resting.Pairwise fun a b => a.id < b.id
  level : ∀ o ∈ resting, o.id = older → SameLevel o y
  shielded : ∀ o ∈ resting, o.id = older → y ∈ resting

/- Orders leave the list and nothing else happens to it. -/
theorem Shielded.sublist
    {older : UInt32}
    {y : Order}
    {resting fewer : List Order}
    (hShield : Shielded older y resting)
    (hSub : List.Sublist fewer resting)
    (hStays : ∀ o ∈ fewer, o.id = older → y ∈ fewer) :
    Shielded older y fewer where
  sorted := hShield.sorted.sublist hSub
  level := fun o hMem => hShield.level o (hSub.subset hMem)
  shielded := hStays

/- An order that is not shielded loses some quantity. -/
theorem Shielded.lower
    {older : UInt32}
    {y other : Order}
    {before after : List Order}
    (hShield :
      Shielded older y (before ++ other :: after))
    (hNe :
      ∀ o ∈ before ++ other :: after, o.id = older →
        other ≠ y)
    (q : UInt32) :
    Shielded older y
      (before ++ { other with remaining := q } ::
        after) := by
  -- Every order of the new list is one of the old list.
  have hOld :
      ∀ o ∈ before ++ { other with remaining := q } ::
          after,
        ∃ o' ∈ before ++ other :: after,
          o'.id = o.id ∧ SameLevel o o' := by
    intro o hMem
    rcases List.mem_append.mp hMem with hIn | hIn
    · exact ⟨o, by simp [hIn], rfl, rfl, rfl, rfl⟩
    · rcases List.mem_cons.mp hIn with rfl | hIn
      · exact ⟨other, by simp, rfl, rfl, rfl, rfl⟩
      · exact ⟨o, by simp [hIn], rfl, rfl, rfl, rfl⟩
  refine ⟨?_, ?_, ?_⟩
  · refine FirstMatch.pairwise_of_key_eq ?_ hShield.sorted
    rfl
  · intro o hMem hId
    rcases hOld o hMem with ⟨o', hMem', hId', hSame⟩
    have hLevel := hShield.level o' hMem' (hId'.trans hId)
    exact ⟨hSame.inst.trans hLevel.inst,
      hSame.side.trans hLevel.side,
      hSame.price.trans hLevel.price⟩
  · intro o hMem hId
    rcases hOld o hMem with ⟨o', hMem', hId', _⟩
    have hOther := hNe o' hMem' (hId'.trans hId)
    have hStays :=
      hShield.shielded o' hMem' (hId'.trans hId)
    have hApart : y ∈ before ∨ y ∈ after := by
      simpa [hOther.symm] using hStays
    rcases hApart with hIn | hIn <;> simp [hIn]

/- The newest order joins at the end. -/
theorem Shielded.append
    {older : UInt32}
    {y : Order}
    {resting : List Order}
    (hShield : Shielded older y resting)
    {o : Order}
    (hNewest : ∀ o' ∈ resting, o'.id < o.id)
    (hNew : o.id ≠ older) :
    Shielded older y (resting ++ [o]) := by
  have hSame :
      ∀ o' ∈ resting ++ [o], o'.id = older →
        o' ∈ resting := by
    intro o' hMem hId
    rcases List.mem_append.mp hMem with hIn | hIn
    · exact hIn
    · rw [List.mem_singleton.mp hIn] at hId
      exact absurd hId hNew
  refine ⟨?_, ?_, ?_⟩
  · rw [List.pairwise_append]
    refine ⟨hShield.sorted, List.pairwise_singleton _ _, ?_⟩
    intro o' hIn last hLast
    rw [List.mem_singleton.mp hLast]
    exact hNewest o' hIn
  · intro o' hMem hId
    exact hShield.level o' (hSame o' hMem hId) hId
  · intro o' hMem hId
    exact List.mem_append_left _
      (hShield.shielded o' (hSame o' hMem hId) hId)

end SocketExchange

------------------------------------------------------------
-- One Call
------------------------------------------------------------

namespace SocketExchange

namespace Reference

/-
  The order a turn trades with is the first of its level,
  so it is not one that stands behind another.
-/
theorem ne_of_shielded
    {older : UInt32}
    {y other : Order}
    {inst : Fin 2}
    {side : Side}
    {price : UInt32}
    {before after : List Order}
    (hShield :
      Shielded older y (before ++ other :: after))
    (hOlder : older < y.id)
    (hBefore :
      ∀ o ∈ before, restsAt inst side price o = false)
    (hOther : restsAt inst side price other = true)
    {o : Order}
    (hMem : o ∈ before ++ other :: after)
    (hId : o.id = older) :
    other ≠ y := by
  rintro rfl
  have hSame := hShield.level o hMem hId
  have hFaces : restsAt inst side price o = true := by
    rw [hSame.restsAt_eq, hOther]
  have hSorted := List.pairwise_append.mp hShield.sorted
  rcases List.mem_append.mp hMem with hIn | hIn
  · rw [hBefore o hIn] at hFaces
    cases hFaces
  · -- Behind the order it trades with, ids only go up.
    have hGe : other.id ≤ o.id := by
      rcases List.mem_cons.mp hIn with rfl | hAfter
      · exact UInt32.le_refl _
      · have hTail := List.pairwise_cons.mp hSorted.2.1
        exact UInt32.le_of_lt (hTail.1 o hAfter)
    rw [hId] at hGe
    exact absurd hOlder (UInt32.not_lt.mpr hGe)

/- A turn of the trading loop leaves the shield in place. -/
theorem matchStep_shielded
    {older : UInt32}
    {y : Order}
    {side : Side}
    {inst : Fin 2}
    {price : UInt32}
    {owner : Int}
    (hOlder : older < y.id)
    {m m' : MatchState}
    (hShield : Shielded older y m.resting)
    (hStep : matchStep side inst price owner m = some m') :
    Shielded older y m'.resting := by
  rcases matchStep_cases hStep with
    ⟨_, before, other, after, hSplit, hBefore, hOther, _, _,
      hCase⟩
  rw [hSplit] at hShield
  rcases hCase with ⟨_, hNext⟩ | ⟨_, hNext⟩
  · rw [hNext]
    have hSub :
        List.Sublist (before ++ after)
          (before ++ other :: after) :=
      (List.sublist_cons_self other after).append_left _
    refine hShield.sublist hSub ?_
    intro o hMem hId
    have hOld := hSub.subset hMem
    have hNe :=
      ne_of_shielded hShield hOlder hBefore hOther hOld hId
    have hStays := hShield.shielded o hOld hId
    simpa [hNe.symm] using hStays
  · rw [hNext]
    exact hShield.lower
      (fun o hMem hId =>
        ne_of_shielded hShield hOlder hBefore hOther hMem
          hId)
      _

theorem matchLoop_shielded
    {older : UInt32}
    {y : Order}
    (hOlder : older < y.id)
    (side : Side)
    (inst : Fin 2)
    (price : UInt32)
    (owner : Int)
    {m : MatchState}
    (hShield : Shielded older y m.resting) :
    Shielded older y
      (matchLoop side inst price owner m).resting :=
  Loop.iterate_inv (fun n => Shielded older y n.resting)
    (fun _ _ hInv hStep =>
      matchStep_shielded hOlder hInv hStep)
    _ hShield

/-
  One call leaves the shield in place, unless it is the
  owner of the shielded order who takes it back.
-/
theorem step_shielded
    {older : UInt32}
    {y : Order}
    {r : Reference}
    (hOlder : older < y.id)
    (hKnown : older < r.nextId)
    (hFresh : ∀ o ∈ r.resting, o.id < r.nextId)
    (hShield : Shielded older y r.resting)
    (call : Call) :
    call = .cancel y.id y.owner ∨
      Shielded older y (r.step call).1.resting := by
  cases call with
  | submit side inst qty price owner =>
      right
      have hLoop :=
        matchLoop_shielded hOlder side inst price owner
          (m := ⟨qty, r.resting, []⟩) hShield
      have hShrinks :=
        matchLoop_shrinks side inst price owner
          ⟨qty, r.resting, []⟩
      simp only [step, submit]
      split
      · refine hLoop.append ?_ (UInt32.ne_of_lt hKnown).symm
        intro o hMem
        rcases hShrinks o hMem with ⟨o', hOld, hSame⟩
        rw [hSame.1]
        exact hFresh o' hOld
      · exact hLoop
  | cancel id owner =>
      by_cases hOwn : id = y.id ∧ owner = y.owner
      · left
        rw [hOwn.1, hOwn.2]
      right
      simp only [step, cancel]
      cases hFind :
          r.resting.find? (fun o => o.id == id) with
      | none => exact hShield
      | some o =>
          by_cases hOwner : o.owner = owner
          · simp only [ne_eq, hOwner, not_true, if_false]
            refine hShield.sublist
              List.eraseP_sublist ?_
            intro o' hMem hId
            have hOld := List.mem_of_mem_eraseP hMem
            have hStays := hShield.shielded o' hOld hId
            have hOther : y.id ≠ id := by
              intro hId
              have hFound := List.find?_some hFind
              have hEq : o = y :=
                FirstMatch.eq_of_key_eq hShield.sorted
                  (List.mem_of_find?_eq_some hFind) hStays
                  ((beq_iff_eq.mp hFound).trans hId.symm)
              rw [hEq] at hOwner
              exact hOwn ⟨hId.symm, hOwner.symm⟩
            have hKept :
                y ∈ r.resting.eraseP (fun o => o.id == id) ↔
                  y ∈ r.resting :=
              List.mem_eraseP_of_neg (by simpa using hOther)
            exact hKept.mpr hStays
          · simpa only [ne_eq, hOwner, not_false_eq_true,
              if_true] using hShield

end Reference

end SocketExchange

------------------------------------------------------------
-- Runs
------------------------------------------------------------

namespace SocketExchange

/- A run leaves the shield in place in the same way. -/
theorem Represents.run_shielded
    {e : Exchange}
    {r : Reference}
    {calls : List Call}
    {older : UInt32}
    {y : Order}
    (hRep : Represents e r)
    (hRoom : HasRoom e calls)
    (hOlder : older < y.id)
    (hKnown : older < e.nextId)
    (hShield : Shielded older y r.resting) :
    .cancel y.id y.owner ∈ calls ∨
      Shielded older y
        (Machine.final Reference.step r calls).resting := by
  induction calls generalizing e r with
  | nil => exact Or.inr hShield
  | cons call calls ih =>
      have hNow :=
        Reference.step_shielded hOlder
          (hRep.nextId ▸ hKnown) hRep.fresh hShield call
      rcases hNow with rfl | hNext
      · exact Or.inl (List.mem_cons_self ..)
      · have hLater : older < (e.step call).1.nextId :=
          UInt32.lt_of_lt_of_le hKnown hRoom.nextId_le
        rcases ih (hRep.step hRoom).2 hRoom.step hLater
            hNext with hCancel | hEnd
        · exact Or.inl (List.mem_cons_of_mem _ hCancel)
        · exact Or.inr hEnd

namespace Exchange

/-
  No overtaking. Let two orders rest at the same price
  level, one with the smaller id. However the run goes on,
  if the older order still rests at the end then the younger
  one has not traded: it rests with the very record it had,
  or its owner has asked to cancel it.
-/
theorem run_no_overtaking
    (before after : List Call)
    (hSubmits : submits (before ++ after) < 2 ^ 32)
    (older younger : UInt32)
    (o y : Order)
    (hAge : older < younger)
    (hOlder :
      (Machine.final step empty before).orders[older]? =
        some o)
    (hYounger :
      (Machine.final step empty before).orders[younger]? =
        some y)
    (hLevel : SameLevel o y)
    (hRests :
      older ∈
        (Machine.final step empty
          (before ++ after)).orders) :
    (Machine.final step empty
          (before ++ after)).orders[younger]? = some y ∨
      .cancel younger y.owner ∈ after := by
  rcases split_run hSubmits with ⟨hRep, hRoom, hFinal⟩
  rcases (hRep.orders older o).mp hOlder with ⟨hMemO, hIdO⟩
  rcases (hRep.orders younger y).mp hYounger with
    ⟨hMemY, hIdY⟩
  have hKnown := hRep.fresh o hMemO
  rw [← hRep.nextId, hIdO] at hKnown
  have hShield :
      Shielded older y
        (Machine.final Reference.step Reference.empty
          before).resting := by
    refine ⟨hRep.sorted, ?_, fun _ _ _ => hMemY⟩
    intro o' hMem hId
    have hSame := (hRep.orders older o').mpr ⟨hMem, hId⟩
    rw [hOlder] at hSame
    exact Option.some.inj hSame ▸ hLevel
  have hRun := hRep.run_shielded hRoom
    (hIdY.symm ▸ hAge) hKnown hShield
  rw [hIdY] at hRun
  rcases hRun with hCancel | hEnd
  · exact Or.inr hCancel
  left
  have hAfter := (hRep.run hRoom).2
  rw [hFinal] at hRests ⊢
  rw [Std.ExtTreeMap.mem_iff_isSome_getElem?,
    Option.isSome_iff_exists] at hRests
  rcases hRests with ⟨o', hStill⟩
  rcases (hAfter.orders older o').mp hStill with
    ⟨hMem, hId⟩
  exact (hAfter.orders younger y).mpr
    ⟨hEnd.shielded o' hMem hId, hIdY⟩

/- Two sellers at one price, the older of them first. -/
def waitingCalls (inst : Fin 2) : List Call :=
  [.submit .sell inst 5 100 1, .submit .sell inst 7 100 2]

/- A buyer takes part of the first order and no more. -/
theorem run_no_overtaking_waiting :
    (Machine.final step empty
        (waitingCalls 0 ++
          [.submit .buy 0 3 100 3])).orders[(1 : UInt32)]? =
      some ⟨1, .sell, 0, 100, 7, 2⟩ := by
  have hCase :=
    run_no_overtaking (waitingCalls 0)
      [.submit .buy 0 3 100 3] (by decide) 0 1
      ⟨0, .sell, 0, 100, 5, 1⟩ ⟨1, .sell, 0, 100, 7, 2⟩
      (by decide) (by decide) (by decide) ⟨rfl, rfl, rfl⟩
      (by decide)
  simpa using hCase

end Exchange

end SocketExchange

import SocketExchange.Book.Exchange

/-
  Which orders a call touches, and how.

  Nothing here depends on the indices of the exchange
  agreeing: a trade fills an entry of `orders_`, and an
  entry of `orders_` changes only when a trade fills it, a
  cancellation by its owner takes it back, or a submission
  rests it.

  Key definitions include:
    * `Exchange.Fills`

  Key theorems include:
    * `Exchange.submit_fills`
    * `Exchange.step_leaves`
    * `Exchange.step_rests`
-/

------------------------------------------------------------
-- The Matching Loop And The Resting Orders
------------------------------------------------------------

namespace SocketExchange

namespace Exchange

/-
  The entry of `orders_` that a trade of quantity `q` filled,
  at the key `key`: it is gone, or it was more than the rest
  of the incoming order could take.
-/
def FilledAt
    (before after : Orders)
    (remaining : UInt32)
    (q key : UInt32)
    (o : Order) : Prop :=
  before[key]? = some o ∧
    (q = o.remaining ∧ after[key]? = none ∨
      q ≠ o.remaining ∧ remaining = 0 ∧
        after[key]? =
          some { o with remaining := o.remaining - q })

/-
  What the matching loop has done to `orders_` so far: every
  trade filled one entry, and every entry is as it was or
  was filled by a trade.
-/
structure LoopEffect
    (side : Side)
    (inst : Fin 2)
    (price : UInt32)
    (owner : Int)
    (before : Orders)
    (m : MatchState) : Prop where
  trade_fills :
    ∀ t ∈ m.out, ∃ key o,
      FilledAt before m.orders m.remaining t.qty key o ∧
        t = fillTrade side inst price owner t.qty o
  order_kept :
    ∀ (key : UInt32) (o : Order), before[key]? = some o →
      m.orders[key]? = some o ∨
        ∃ q, FilledAt before m.orders m.remaining q key o ∧
          fillTrade side inst price owner q o ∈ m.out
  none_kept :
    ∀ key : UInt32, before[key]? = none →
      m.orders[key]? = none

section Loop

variable {side : Side} {inst : Fin 2}
variable {price : UInt32} {owner : Int} {before : Orders}

/- While quantity is left, a filled entry is a gone one. -/
theorem FilledAt.gone
    {after : Orders}
    {remaining q key : UInt32}
    {o : Order}
    (hFilled : FilledAt before after remaining q key o)
    (hPos : 0 < remaining) :
    q = o.remaining ∧ after[key]? = none := by
  rcases hFilled.2 with hGone | ⟨_, hZero, _⟩
  · exact hGone
  · subst hZero
    exact absurd hPos (by decide)

/- An entry filled earlier is not the one filled now. -/
theorem FilledAt.still
    {orders after : Orders}
    {left remaining q key otherId : UInt32}
    {o other : Order}
    (hFilled : FilledAt before orders left q key o)
    (hPos : 0 < left)
    (hOther : orders[otherId]? = some other)
    (hElse :
      ∀ k : UInt32, k ≠ otherId →
        after[k]? = orders[k]?) :
    FilledAt before after remaining q key o := by
  rcases hFilled.gone hPos with ⟨hQty, hNone⟩
  have hNe : key ≠ otherId := by
    rintro rfl
    rw [hNone] at hOther
    cases hOther
  exact ⟨hFilled.1,
    Or.inl ⟨hQty, by rw [hElse key hNe, hNone]⟩⟩

/-
  The entry under the front id is the one the loop started
  with: a filled one would be gone by now.
-/
theorem LoopEffect.front
    {m : MatchState}
    {key : UInt32}
    {other : Order}
    (hEffect :
      LoopEffect side inst price owner before m)
    (hPos : 0 < m.remaining)
    (hOther : m.orders[key]? = some other) :
    before[key]? = some other := by
  cases hOld : before[key]? with
  | none =>
      rw [hEffect.none_kept key hOld] at hOther
      cases hOther
  | some o =>
      rcases hEffect.order_kept key o hOld with
        hSame | ⟨_, hFilled, _⟩
      · rw [← hSame, hOther]
      · rw [(hFilled.gone hPos).2] at hOther
        cases hOther

/- Filling the front entry, and changing no other. -/
theorem LoopEffect.fill
    {m : MatchState}
    {otherId remaining q : UInt32}
    {other : Order}
    {orders : Orders}
    (hEffect :
      LoopEffect side inst price owner before m)
    (hPos : 0 < m.remaining)
    (hOther : m.orders[otherId]? = some other)
    (hElse :
      ∀ k : UInt32, k ≠ otherId →
        orders[k]? = m.orders[k]?)
    (hFilled :
      FilledAt before orders remaining q otherId other)
    (level : List UInt32) :
    LoopEffect side inst price owner before
      { remaining := remaining
        level := level
        orders := orders
        out :=
          m.out ++
            [fillTrade side inst price owner q other] } where
  trade_fills := by
    intro t ht
    rcases List.mem_append.mp ht with hOld | hLast
    · rcases hEffect.trade_fills t hOld with
        ⟨key, o, hEarlier, hTrade⟩
      exact ⟨key, o, hEarlier.still hPos hOther hElse,
        hTrade⟩
    · rw [List.mem_singleton.mp hLast]
      exact ⟨otherId, other, hFilled, rfl⟩
  order_kept := by
    intro key o hKey
    by_cases hEq : key = otherId
    · subst hEq
      rw [hEffect.front hPos hOther] at hKey
      injection hKey with hKey
      subst hKey
      exact Or.inr ⟨q, hFilled, by simp⟩
    · rcases hEffect.order_kept key o hKey with
        hSame | ⟨q', hOld, hMem⟩
      · exact Or.inl ((hElse key hEq).trans hSame)
      · exact Or.inr ⟨q', hOld.still hPos hOther hElse,
          List.mem_append_left _ hMem⟩
  none_kept := by
    intro key hNone
    have hNe : key ≠ otherId := by
      rintro rfl
      rw [hEffect.front hPos hOther] at hNone
      cases hNone
    exact (hElse key hNe).trans
      (hEffect.none_kept key hNone)

/- Nothing is left of what was taken whole. -/
theorem eq_of_sub_eq_zero
    {a b : UInt32}
    (hLe : b ≤ a)
    (hZero : a - b = 0) :
    b = a := by
  have hNat := congrArg UInt32.toNat hZero
  rw [UInt32.toNat_sub_of_le _ _ hLe] at hNat
  have hLeNat := UInt32.le_iff_toNat_le.mp hLe
  apply UInt32.toNat_inj.mp
  simp at hNat
  omega

theorem LoopEffect.step
    {m m' : MatchState}
    (hEffect :
      LoopEffect side inst price owner before m)
    (hStep : matchStep side inst price owner m = some m') :
    LoopEffect side inst price owner before m' := by
  rcases matchStep_cases hStep with
    ⟨hPos, otherId, rest, _, ⟨_, rfl⟩ | hFill⟩
  · exact ⟨hEffect.trade_fills, hEffect.order_kept,
      hEffect.none_kept⟩
  rcases hFill with ⟨other, q, hOther, hq, hCase⟩
  have hBefore := hEffect.front hPos hOther
  have hLe : q ≤ other.remaining :=
    hq ▸ minU32_le_right _ _
  rcases hCase with ⟨hZero, rfl⟩ | ⟨hRest, rfl⟩
  · have hAll := eq_of_sub_eq_zero hLe hZero
    refine hEffect.fill hPos hOther ?_
      ⟨hBefore, Or.inl ⟨hAll, by simp⟩⟩ _
    intro k hNe
    have hNe' : ¬ otherId = k := fun h => hNe h.symm
    simp [Std.ExtTreeMap.getElem?_erase, hNe']
  · refine hEffect.fill hPos hOther ?_
      ⟨hBefore, Or.inr ⟨?_, ?_, ?_⟩⟩ _
    · intro k hNe
      have hNe' : ¬ otherId = k := fun h => hNe h.symm
      simp [Std.ExtTreeMap.getElem?_insert, hNe']
    · rintro rfl
      exact hRest (by simp)
    · subst hq
      exact sub_minU32_eq_zero_of_ne hRest
    · simp

theorem matchLoop_effect
    (e : Exchange)
    (side : Side)
    (inst : Fin 2)
    (qty price : UInt32)
    (owner : Int) :
    LoopEffect side inst price owner e.orders
      (matchLoop side inst price owner
        (e.matchStart side inst qty price [])) := by
  refine Loop.iterate_inv
    (LoopEffect side inst price owner e.orders)
    (fun _ _ => LoopEffect.step) _ ?_
  exact ⟨fun t ht => absurd ht (by simp [matchStart]),
    fun _ _ h => Or.inl h, fun _ h => h⟩

end Loop

end Exchange

end SocketExchange

------------------------------------------------------------
-- Calls And The Resting Orders
------------------------------------------------------------

namespace SocketExchange

namespace Exchange

/-
  The trade filled the order under this key. A filled-up
  order is gone; its key can be in use again only for the
  remainder of the incoming order itself.
-/
def Fills
    (e e' : Exchange)
    (t : Trade)
    (key : UInt32)
    (o : Order) : Prop :=
  e.orders[key]? = some o ∧
    (t.qty = o.remaining ∧
        (e'.orders[key]? = none ∨ key = e.nextId) ∨
      t.qty ≠ o.remaining ∧
        e'.orders[key]? =
          some { o with remaining := o.remaining - t.qty })

section Submit

variable {e : Exchange} {side : Side} {inst : Fin 2}
variable {qty price : UInt32} {owner : Int}

/-
  `orders_` after a submission: what the loop left, and
  under the new id the remainder, if there is one.
-/
theorem submit_orders
    (key : UInt32) :
    (e.submit side inst qty price owner
        []).1.orders[key]? =
      if key = e.nextId ∧
          0 < (matchLoop side inst price owner
            (e.matchStart side inst qty price
              [])).remaining ∧
          (matchLoop side inst price owner
            (e.matchStart side inst qty price
              [])).orders[key]? = none then
        some
          { id := e.nextId, side := side, inst := inst
            price := price
            remaining :=
              (matchLoop side inst price owner
                (e.matchStart side inst qty price
                  [])).remaining
            owner := owner }
      else
        (matchLoop side inst price owner
          (e.matchStart side inst qty price
            [])).orders[key]? := by
  unfold submit
  dsimp only
  generalize matchLoop side inst price owner
    (e.matchStart side inst qty price []) = m
  by_cases hPos : 0 < m.remaining
  · rw [if_pos hPos]
    simp only [Std.ExtTreeMap.getElem?_insertIfNew]
    by_cases hKey : e.nextId = key
    · subst hKey
      by_cases hNew : e.nextId ∈ m.orders
      · simp [hNew]
      · simp [hNew, hPos]
    · have hNe : ¬ key = e.nextId := fun h => hKey h.symm
      simp [hKey, hNe]
  · rw [if_neg hPos]
    simp [hPos]

/- Every trade of a submission fills a resting order. -/
theorem submit_fills
    {t : Trade}
    (hTrade :
      t ∈ (e.submit side inst qty price owner []).2.2) :
    ∃ key o,
      Fills e (e.submit side inst qty price owner []).1 t
          key o ∧
        t = fillTrade side inst price owner t.qty o := by
  have hEffect :=
    matchLoop_effect e side inst qty price owner
  have hOut :
      t ∈ (matchLoop side inst price owner
        (e.matchStart side inst qty price [])).out := by
    unfold submit at hTrade
    dsimp only at hTrade
    split at hTrade <;> exact hTrade
  rcases hEffect.trade_fills t hOut with
    ⟨key, o, ⟨hBefore, hAfter⟩, hEq⟩
  refine ⟨key, o, ⟨hBefore, ?_⟩, hEq⟩
  rw [submit_orders]
  rcases hAfter with ⟨hAll, hNone⟩ | ⟨hPart, hZero, hLeft⟩
  · refine Or.inl ⟨hAll, ?_⟩
    by_cases hKey : key = e.nextId
    · exact Or.inr hKey
    · simp [hKey, hNone]
  · refine Or.inr ⟨hPart, ?_⟩
    simp [hZero, hLeft]

end Submit

theorem submit_id
    (e : Exchange)
    (side : Side)
    (inst : Fin 2)
    (qty price : UInt32)
    (owner : Int) :
    (e.submit side inst qty price owner []).2.1 =
      e.nextId := by
  unfold submit
  dsimp only
  split <;> rfl

/-
  An order leaves the book in two ways: its owner cancels
  it, or a trade takes all that remained of it.
-/
theorem step_leaves
    {e : Exchange}
    {call : Call}
    {key : UInt32}
    {o : Order}
    (hOrder : e.orders[key]? = some o)
    (hGone :
      ∀ q, (e.step call).1.orders[key]? ≠
        some { o with remaining := q }) :
    call = .cancel key o.owner ∨
      ∃ side inst qty price owner,
        call = .submit side inst qty price owner ∧
          fillTrade side inst price owner o.remaining o ∈
            (e.submit side inst qty price owner
              []).2.2 := by
  cases call with
  | cancel id owner =>
      left
      simp only [step, cancel] at hGone
      by_cases hKey : id = key
      · subst hKey
        rw [hOrder] at hGone
        dsimp only at hGone
        by_cases hOwner : o.owner = owner
        · rw [hOwner]
        · rw [if_pos hOwner] at hGone
          exact absurd hOrder (hGone o.remaining)
      · -- Another order's cancellation leaves this one.
        exfalso
        apply hGone o.remaining
        split
        · exact hOrder
        · split
          · exact hOrder
          · simp [Std.ExtTreeMap.getElem?_erase, hKey,
              hOrder]
  | submit side inst qty price owner =>
      right
      refine ⟨side, inst, qty, price, owner, rfl, ?_⟩
      have hEffect :=
        matchLoop_effect e side inst qty price owner
      simp only [step, submit_orders] at hGone
      have hOut :
          (e.submit side inst qty price owner []).2.2 =
            (matchLoop side inst price owner
              (e.matchStart side inst qty price
                [])).out := by
        unfold submit
        dsimp only
        split <;> rfl
      rw [hOut]
      rcases hEffect.order_kept key o hOrder with
        hSame | ⟨q, ⟨_, hAfter⟩, hMem⟩
      · exact absurd hSame
          (by simpa [hSame] using hGone o.remaining)
      · rcases hAfter with ⟨rfl, _⟩ | ⟨_, hZero, hLeft⟩
        · exact hMem
        · exact absurd hLeft
            (by simpa [hZero] using
              hGone (o.remaining - q))

/-
  An order in the book after a call was there before, or
  rests because this very call submitted it.
-/
theorem step_rests
    {e : Exchange}
    {call : Call}
    {key : UInt32}
    {o : Order}
    (hOrder : (e.step call).1.orders[key]? = some o) :
    (∃ q, e.orders[key]? =
        some { o with remaining := q }) ∨
      ∃ qty,
        call = .submit o.side o.inst qty o.price o.owner ∧
          key = e.nextId := by
  cases call with
  | cancel id owner =>
      left
      refine ⟨o.remaining, ?_⟩
      simp only [step, cancel] at hOrder
      split at hOrder
      · exact hOrder
      · split at hOrder
        · exact hOrder
        · simp only [Std.ExtTreeMap.getElem?_erase]
            at hOrder
          split at hOrder
          · cases hOrder
          · exact hOrder
  | submit side inst qty price owner =>
      have hEffect :=
        matchLoop_effect e side inst qty price owner
      simp only [step, submit_orders] at hOrder
      split at hOrder
      · next hNew =>
          injection hOrder with hOrder
          subst hOrder
          exact Or.inr ⟨qty, rfl, hNew.1⟩
      · left
        cases hBefore : e.orders[key]? with
        | none =>
            rw [hEffect.none_kept key hBefore] at hOrder
            cases hOrder
        | some b =>
            rcases hEffect.order_kept key b hBefore with
              hSame | ⟨q, ⟨_, hAfter⟩, _⟩
            · rw [hSame] at hOrder
              injection hOrder with hOrder
              exact ⟨b.remaining, by rw [← hOrder]⟩
            · rcases hAfter with
                ⟨_, hNone⟩ | ⟨_, _, hLeft⟩
              · rw [hNone] at hOrder
                cases hOrder
              · rw [hLeft] at hOrder
                injection hOrder with hOrder
                exact ⟨b.remaining, by rw [← hOrder]⟩

end Exchange

end SocketExchange

import SocketExchange.Book.Fills

/-
  Quantities stay within bounds.

  An order that rests has a quantity left, and never more
  than the largest that was submitted; the same holds of
  every trade. Nothing here depends on the number of
  submissions.

  Main declarations:
    * `Exchange.Within`
    * `Exchange.submit_within`
    * `Exchange.step_within`
-/

------------------------------------------------------------
-- The Matching Loop
------------------------------------------------------------

namespace SocketExchange

namespace Exchange

/- A quantity that is positive and at most the bound. -/
def InRange (hi q : UInt32) : Prop :=
  0 < q ∧ q ≤ hi

/- Every order has a quantity left, within the bound. -/
def Within (hi : UInt32) (orders : Orders) : Prop :=
  ∀ (key : UInt32) (o : Order), orders[key]? = some o →
    InRange hi o.remaining

/- What the loop keeps. -/
structure LoopWithin
    (hi price : UInt32)
    (m : MatchState) : Prop where
  remaining : m.remaining ≤ hi
  orders : Within hi m.orders
  out : ∀ t ∈ m.out, InRange hi t.qty ∧ t.price = price

variable {hi price : UInt32}

/- A difference that does not wrap is no larger. -/
theorem sub_le_of_le
    {a b : UInt32}
    (hLe : b ≤ a) :
    a - b ≤ a := by
  rw [UInt32.le_iff_toNat_le, UInt32.toNat_sub_of_le _ _ hLe]
  omega

/- Removing an order keeps the bound. -/
theorem Within.erase
    {orders : Orders}
    (hWithin : Within hi orders)
    (key : UInt32) :
    Within hi (orders.erase key) := by
  intro k o hOrder
  rw [Std.ExtTreeMap.getElem?_erase] at hOrder
  split at hOrder
  · cases hOrder
  · exact hWithin k o hOrder

/- So does adding one that is in range. -/
theorem Within.insert
    {orders : Orders}
    {o : Order}
    (hWithin : Within hi orders)
    (hNew : InRange hi o.remaining)
    (key : UInt32) :
    Within hi (orders.insert key o) := by
  intro k o' hOrder
  rw [Std.ExtTreeMap.getElem?_insert] at hOrder
  split at hOrder
  · injection hOrder with hSame
    exact hSame ▸ hNew
  · exact hWithin k o' hOrder

/- What is exchanged is no more than either side has. -/
theorem inRange_minU32
    {a b : UInt32}
    (hPos : 0 < a)
    (hOther : InRange hi b) :
    InRange hi (minU32 a b) := by
  constructor
  · have hPosNat := UInt32.lt_iff_toNat_lt.mp hPos
    have hOtherNat := UInt32.lt_iff_toNat_lt.mp hOther.1
    rw [UInt32.lt_iff_toNat_lt, minU32_toNat]
    omega
  · exact UInt32.le_trans (minU32_le_right a b) hOther.2

/- One turn of the matching loop keeps it. -/
theorem LoopWithin.step
    {side : Side}
    {inst : Fin 2}
    {owner : Int}
    {m m' : MatchState}
    (hWithin : LoopWithin hi price m)
    (hStep : matchStep side inst price owner m = some m') :
    LoopWithin hi price m' := by
  rcases matchStep_cases hStep with
    ⟨hPos, otherId, rest, _, ⟨_, rfl⟩ | hFill⟩
  · exact ⟨hWithin.remaining, hWithin.orders, hWithin.out⟩
  rcases hFill with ⟨other, q, hOther, hq, hCase⟩
  have hRange := hWithin.orders otherId other hOther
  have hQty : InRange hi q :=
    hq ▸ inRange_minU32 hPos hRange
  have hLeft : m.remaining - q ≤ hi := by
    refine UInt32.le_trans (sub_le_of_le ?_)
      hWithin.remaining
    exact hq ▸ minU32_le_left _ _
  have hOut :
      ∀ t ∈ m.out ++
          [fillTrade side inst price owner q other],
        InRange hi t.qty ∧ t.price = price := by
    intro t ht
    rcases List.mem_append.mp ht with hOld | hLast
    · exact hWithin.out t hOld
    · rw [List.mem_singleton.mp hLast]
      exact ⟨hQty, rfl⟩
  rcases hCase with ⟨_, rfl⟩ | ⟨hRest, rfl⟩
  · exact ⟨hLeft, hWithin.orders.erase otherId, hOut⟩
  · refine ⟨hLeft, ?_, hOut⟩
    apply hWithin.orders.insert
    constructor
    · exact UInt32.pos_iff_ne_zero.mpr hRest
    · refine UInt32.le_trans (sub_le_of_le ?_) hRange.2
      exact hq ▸ minU32_le_right _ _

/- So does the whole loop, whatever the order it serves. -/
theorem matchLoop_within
    {e : Exchange}
    {qty : UInt32}
    (hWithin : Within hi e.orders)
    (hQty : qty ≤ hi)
    (side : Side)
    (inst : Fin 2)
    (owner : Int) :
    LoopWithin hi price
      (matchLoop side inst price owner
        (e.matchStart side inst qty price [])) := by
  refine Loop.iterate_inv (LoopWithin hi price)
    (fun _ _ => LoopWithin.step) _ ?_
  exact ⟨hQty, hWithin,
    fun t ht => absurd ht (by simp [matchStart])⟩

end Exchange

end SocketExchange

------------------------------------------------------------
-- Calls
------------------------------------------------------------

namespace SocketExchange

namespace Exchange

variable {hi : UInt32} {e : Exchange}

/-
  And so does a submission in range, in its trades as well
  as in the book it leaves.
-/
theorem submit_within
    {qty price : UInt32}
    (hWithin : Within hi e.orders)
    (hQty : qty ≤ hi)
    (side : Side)
    (inst : Fin 2)
    (owner : Int) :
    Within hi
        (e.submit side inst qty price owner []).1.orders ∧
      ∀ t ∈ (e.submit side inst qty price owner []).2.2,
        InRange hi t.qty ∧ t.price = price := by
  have hLoop : LoopWithin hi price _ :=
    matchLoop_within hWithin hQty side inst owner
  constructor
  · intro key o hOrder
    rw [submit_orders] at hOrder
    split at hOrder
    · next hNew =>
        injection hOrder with hSame
        subst hSame
        exact ⟨hNew.2.1, hLoop.remaining⟩
    · exact hLoop.orders key o hOrder
  · intro t ht
    apply hLoop.out t
    unfold submit at ht
    dsimp only at ht
    split at ht
    · exact ht
    · exact ht

/- Hence any call whose quantity is in range. -/
theorem step_within
    {call : Call}
    (hWithin : Within hi e.orders)
    (hQty :
      ∀ side inst qty price owner,
        call = .submit side inst qty price owner →
          qty ≤ hi) :
    Within hi (e.step call).1.orders := by
  cases call with
  | submit side inst qty price owner =>
      exact (submit_within hWithin
        (hQty _ _ _ _ _ rfl) side inst owner).1
  | cancel id owner =>
      simp only [step, cancel]
      split
      · exact hWithin
      · split
        · exact hWithin
        · exact hWithin.erase id

end Exchange

end SocketExchange

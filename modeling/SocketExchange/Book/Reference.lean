import SocketExchange.Book.Exchange
import SocketExchange.Lists.FirstMatch

/-
  The reference exchange.

  All resting orders are kept in one list in arrival order.
  A submission repeatedly trades with the first order on the
  opposite side at its instrument and price, and appends any
  remainder to the end; a cancellation removes the order
  with that id when its owner asks. This is what price
  levels and time priority are for, written without either.

  Key definitions include:
    * `Reference`
    * `Reference.trade`
    * `Reference.matchStep`
    * `Reference.submit`
    * `Reference.cancel`
    * `restsAt`
-/

------------------------------------------------------------
-- Where An Order Rests
------------------------------------------------------------

namespace SocketExchange

/- An order rests on `side` of `inst` at `price`. -/
def restsAt
    (inst : Fin 2)
    (side : Side)
    (price : UInt32)
    (o : Order) : Bool :=
  decide (o.inst = inst ∧ o.side = side ∧ o.price = price)

@[simp] theorem restsAt_iff
    (inst : Fin 2)
    (side : Side)
    (price : UInt32)
    (o : Order) :
    restsAt inst side price o = true ↔
      o.inst = inst ∧ o.side = side ∧ o.price = price := by
  simp [restsAt]

/- Where an order rests does not depend on its quantity. -/
@[simp] theorem restsAt_remaining
    (inst : Fin 2)
    (side : Side)
    (price : UInt32)
    (o : Order)
    (q : UInt32) :
    restsAt inst side price { o with remaining := q } =
      restsAt inst side price o := rfl

end SocketExchange

------------------------------------------------------------
-- The One-List Exchange
------------------------------------------------------------

namespace SocketExchange

structure Reference where
  nextId : UInt32
  resting : List Order

namespace Reference

def empty : Reference where
  nextId := 0
  resting := []

/- What a submission works on while it trades. -/
structure MatchState where
  remaining : UInt32
  resting : List Order
  out : List Trade

/- Who buys and who sells when two orders meet. -/
def trade
    (side : Side)
    (inst : Fin 2)
    (price : UInt32)
    (owner : Int)
    (q : UInt32)
    (other : Order) : Trade :=
  match side with
  | .buy =>
      { inst := inst, qty := q, price := price
        buyerOwner := owner, sellerOwner := other.owner }
  | .sell =>
      { inst := inst, qty := q, price := price
        buyerOwner := other.owner, sellerOwner := owner }

/-
  Trade with the first resting order on the opposite side
  at the same instrument and price, if there is one.
-/
def matchStep
    (side : Side)
    (inst : Fin 2)
    (price : UInt32)
    (owner : Int)
    (m : MatchState) : Option MatchState :=
  let facing := restsAt inst side.opposite price
  if 0 < m.remaining then
    match m.resting.find? facing with
    | none => none
    | some other =>
        let q :=
          if m.remaining ≤ other.remaining then m.remaining
          else other.remaining
        some
          { remaining := m.remaining - q
            resting :=
              if other.remaining - q = 0 then
                m.resting.eraseP facing
              else
                FirstMatch.modify facing
                  (fun o =>
                    { o with
                      remaining := other.remaining - q })
                  m.resting
            out :=
              m.out ++
                [trade side inst price owner q other] }
  else
    none

/- Trade for as long as there is something to trade with. -/
def matchLoop
    (side : Side)
    (inst : Fin 2)
    (price : UInt32)
    (owner : Int)
    (m : MatchState) : MatchState :=
  Loop.iterate (matchStep side inst price owner)
    (m.resting.length + 1) m

def submit
    (r : Reference)
    (side : Side)
    (inst : Fin 2)
    (qty price : UInt32)
    (owner : Int)
    (out : List Trade) :
    Reference × UInt32 × List Trade :=
  let m :=
    matchLoop side inst price owner
      { remaining := qty, resting := r.resting, out := out }
  let order : Order :=
    { id := r.nextId, side := side, inst := inst
      price := price, remaining := m.remaining
      owner := owner }
  ({ nextId := r.nextId + 1
     resting :=
       if 0 < m.remaining then m.resting ++ [order]
       else m.resting },
    r.nextId, m.out)

def cancel
    (r : Reference)
    (id : UInt32)
    (owner : Int) :
    Reference × Except String Unit :=
  match r.resting.find? fun o => o.id == id with
  | none => (r, .error "unknown order")
  | some o =>
      if o.owner ≠ owner then
        (r, .error "not your order")
      else
        ({ r with
           resting := r.resting.eraseP fun o => o.id == id },
          .ok ())

/- Perform one call. -/
def step (r : Reference) : Call → Reference × Reply
| .submit side inst qty price owner =>
    let s := r.submit side inst qty price owner []
    (s.1, .submitted s.2.1 s.2.2)
| .cancel id owner =>
    let s := r.cancel id owner
    (s.1, .cancelled s.2)

end Reference

end SocketExchange

------------------------------------------------------------
-- What One Reference Turn Can Do
------------------------------------------------------------

namespace SocketExchange

namespace Reference

/- Both exchanges write the same trades. -/
theorem trade_eq
    (side : Side)
    (inst : Fin 2)
    (price : UInt32)
    (owner : Int)
    (q : UInt32)
    (other : Order) :
    trade side inst price owner q other =
      Exchange.fillTrade side inst price owner q other := by
  cases side with
  | buy => rfl
  | sell => rfl

/- The smaller of two quantities is what `std::min` takes. -/
theorem smaller_eq_minU32 (a b : UInt32) :
    (if a ≤ b then a else b) = minU32 a b := by
  unfold minU32
  by_cases hLe : a ≤ b
  · rw [if_pos hLe, if_neg (UInt32.not_lt.mpr hLe)]
  · rw [if_neg hLe, if_pos (UInt32.not_le.mp hLe)]

/-
  One trading turn splits the list at the order it trades
  with, and either drops that order or lowers its quantity.
-/
theorem matchStep_cases
    {side : Side}
    {inst : Fin 2}
    {price : UInt32}
    {owner : Int}
    {m m' : MatchState}
    (hStep : matchStep side inst price owner m = some m') :
    0 < m.remaining ∧
      ∃ before other after,
        m.resting = before ++ other :: after ∧
        (∀ o ∈ before,
          restsAt inst side.opposite price o = false) ∧
        restsAt inst side.opposite price other = true ∧
        m'.remaining =
          m.remaining -
            minU32 m.remaining other.remaining ∧
        m'.out =
          m.out ++
            [Exchange.fillTrade side inst price owner
              (minU32 m.remaining other.remaining)
              other] ∧
        ((other.remaining -
              minU32 m.remaining other.remaining = 0 ∧
            m'.resting = before ++ after) ∨
          (other.remaining -
              minU32 m.remaining other.remaining ≠ 0 ∧
            m'.resting =
              before ++
                { other with
                  remaining :=
                    other.remaining -
                      minU32 m.remaining
                        other.remaining } :: after)) := by
  unfold matchStep at hStep
  simp only [smaller_eq_minU32, trade_eq] at hStep
  by_cases hPos : 0 < m.remaining
  · rw [if_pos hPos] at hStep
    refine ⟨hPos, ?_⟩
    cases hFind :
        m.resting.find?
          (restsAt inst side.opposite price) with
    | none => simp [hFind] at hStep
    | some other =>
        rcases FirstMatch.split hFind with
          ⟨before, after, hSplit, hBefore, hOther,
            hErase, hModify⟩
        simp only [hFind] at hStep
        have hNext := Option.some.inj hStep
        subst hNext
        refine
          ⟨before, other, after, hSplit, hBefore, hOther,
            rfl, rfl, ?_⟩
        by_cases hFilled :
            other.remaining -
              minU32 m.remaining other.remaining = 0
        · exact Or.inl
            ⟨hFilled, by simp only [if_pos hFilled, hErase]⟩
        · exact Or.inr
            ⟨hFilled, by
              simp only [if_neg hFilled, hModify]⟩
  · simp [hPos] at hStep

/- A turn is refused only when there is nothing to trade. -/
theorem matchStep_eq_none_iff
    (side : Side)
    (inst : Fin 2)
    (price : UInt32)
    (owner : Int)
    (m : MatchState) :
    matchStep side inst price owner m = none ↔
      m.remaining = 0 ∨
        ∀ o ∈ m.resting,
          restsAt inst side.opposite price o = false := by
  unfold matchStep
  by_cases hPos : 0 < m.remaining
  · have hNe : m.remaining ≠ 0 :=
      UInt32.pos_iff_ne_zero.mp hPos
    rw [if_pos hPos]
    cases hFind :
        m.resting.find?
          (restsAt inst side.opposite price) with
    | none =>
        have hNone :
            ∀ o ∈ m.resting,
              restsAt inst side.opposite price o =
                false := by
          intro o ho
          exact Bool.eq_false_iff.mpr
            (List.find?_eq_none.mp hFind o ho)
        exact ⟨fun _ => Or.inr hNone, fun _ => rfl⟩
    | some other =>
        have hMem := List.mem_of_find?_eq_some hFind
        have hOther := List.find?_some hFind
        constructor
        · intro hStep
          simp at hStep
        · rintro (hZero | hNone)
          · exact absurd hZero hNe
          · rw [hNone other hMem] at hOther
            cases hOther
  · have hZero : m.remaining = 0 := by
      by_contra hNe
      exact hPos (UInt32.pos_iff_ne_zero.mpr hNe)
    simp [hZero]

/- Turns left in the trading loop. -/
def MatchState.turns (m : MatchState) : Nat :=
  m.resting.length + if 0 < m.remaining then 1 else 0

theorem matchStep_turns
    {side : Side}
    {inst : Fin 2}
    {price : UInt32}
    {owner : Int}
    (m m' : MatchState)
    (hStep : matchStep side inst price owner m = some m') :
    m'.turns < m.turns := by
  rcases matchStep_cases hStep with
    ⟨hPos, before, other, after, hSplit, _, _, hRem, _,
      hCase⟩
  rcases hCase with ⟨_, hNext⟩ | ⟨hRest, hNext⟩
  · simp only [MatchState.turns, hSplit, hNext, hPos,
      if_true, List.length_append, List.length_cons]
    split <;> omega
  · rw [Exchange.sub_minU32_eq_zero_of_ne hRest] at hRem
    simp [MatchState.turns, hSplit, hNext, hPos, hRem]

theorem matchLoop_done
    (side : Side)
    (inst : Fin 2)
    (price : UInt32)
    (owner : Int)
    (m : MatchState) :
    matchStep side inst price owner
      (matchLoop side inst price owner m) = none := by
  apply Loop.iterate_done matchStep_turns
  unfold MatchState.turns
  split <;> omega

end Reference

end SocketExchange

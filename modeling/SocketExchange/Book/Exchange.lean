import SocketExchange.Machine.Loop
import SocketExchange.Machine.Run

/-
  The order book and matching engine (`book.hpp`,
  `book.cpp`).

  Identifiers, prices and quantities are the source's
  32-bit unsigned integers, so the counter wraps and
  subtraction is modular. An instrument is an index into
  the two-element array `books_`. A price level is the list
  of its order ids, front first.

  Key definitions include:
    * `Exchange`
    * `Exchange.matchStep`
    * `Exchange.submit`
    * `Exchange.cancel`
    * `Exchange.step`
-/

------------------------------------------------------------
-- Orders And Trades
------------------------------------------------------------

namespace SocketExchange

inductive Side where
| buy : Side
| sell : Side
deriving DecidableEq, Repr

/- Position of a side in `books_[inst]`. -/
def sideIdx : Side → Fin 2
| .buy => 0
| .sell => 1

/- The side an incoming order is matched against. -/
def Side.opposite : Side → Side
| .buy => .sell
| .sell => .buy

structure Order where
  id : UInt32
  side : Side
  inst : Fin 2
  price : UInt32
  remaining : UInt32
  owner : Int
deriving DecidableEq, Repr

structure Trade where
  inst : Fin 2
  qty : UInt32
  price : UInt32
  buyerOwner : Int
  sellerOwner : Int
deriving DecidableEq, Repr

/- `std::min` on unsigned integers. -/
def minU32 (a b : UInt32) : UInt32 :=
  if b < a then b else a

theorem minU32_toNat (a b : UInt32) :
    (minU32 a b).toNat = min a.toNat b.toNat := by
  unfold minU32
  by_cases hLt : b < a
  · rw [if_pos hLt]
    have hNat := UInt32.lt_iff_toNat_lt.mp hLt
    omega
  · rw [if_neg hLt]
    have hNat : ¬ b.toNat < a.toNat :=
      fun h => hLt (UInt32.lt_iff_toNat_lt.mpr h)
    omega

theorem minU32_le_left (a b : UInt32) :
    minU32 a b ≤ a := by
  rw [UInt32.le_iff_toNat_le, minU32_toNat]
  omega

theorem minU32_le_right (a b : UInt32) :
    minU32 a b ≤ b := by
  rw [UInt32.le_iff_toNat_le, minU32_toNat]
  omega

end SocketExchange

------------------------------------------------------------
-- Exchange State
------------------------------------------------------------

namespace SocketExchange

abbrev Orders := Std.ExtTreeMap UInt32 Order

/- Price to queue of resting order ids. -/
abbrev Levels := Std.ExtTreeMap UInt32 (List UInt32)

/- `books_[instrument][side]`. -/
abbrev Books := Fin 2 → Fin 2 → Levels

/- Overwrite one of the four price maps. -/
def Books.set
    (books : Books)
    (inst side : Fin 2)
    (levels : Levels) : Books :=
  fun i k =>
    if i = inst ∧ k = side then levels else books i k

@[simp] theorem Books.set_self
    (books : Books)
    (inst side : Fin 2)
    (levels : Levels) :
    books.set inst side levels inst side = levels := by
  simp [Books.set]

theorem Books.set_of_ne
    (books : Books)
    {inst side i k : Fin 2}
    (levels : Levels)
    (hNe : ¬ (i = inst ∧ k = side)) :
    books.set inst side levels i k = books i k := by
  simp [Books.set, hNe]

structure Exchange where
  nextId : UInt32
  orders : Orders
  books : Books

namespace Exchange

/- A freshly constructed exchange. -/
def empty : Exchange where
  nextId := 0
  orders := ∅
  books := fun _ _ => ∅

end Exchange

end SocketExchange

------------------------------------------------------------
-- Submission
------------------------------------------------------------

namespace SocketExchange

namespace Exchange

/-
  The variables of the matching loop: `o.remaining`,
  `it->second`, `orders_` and `out`. An iterator at the end
  of the opposite book is an empty level.
-/
structure MatchState where
  remaining : UInt32
  level : List UInt32
  orders : Orders
  out : List Trade

/- The trade record of one fill. -/
def fillTrade
    (side : Side)
    (inst : Fin 2)
    (price : UInt32)
    (owner : Int)
    (q : UInt32)
    (other : Order) : Trade where
  inst := inst
  qty := q
  price := price
  buyerOwner :=
    match side with
    | .buy => owner
    | .sell => other.owner
  sellerOwner :=
    match side with
    | .buy => other.owner
    | .sell => owner

/-
  One turn of the matching loop, `none` when its condition
  fails. A front id without an order is popped and skipped;
  a filled order leaves both the level and `orders_`.
-/
def matchStep
    (side : Side)
    (inst : Fin 2)
    (price : UInt32)
    (owner : Int)
    (m : MatchState) : Option MatchState :=
  if 0 < m.remaining then
    match m.level with
    | [] => none
    | otherId :: rest =>
        match m.orders[otherId]? with
        | none => some { m with level := rest }
        | some other =>
            let q := minU32 m.remaining other.remaining
            let filled :=
              { other with
                remaining := other.remaining - q }
            let trade :=
              fillTrade side inst price owner q other
            if filled.remaining = 0 then
              some
                { remaining := m.remaining - q
                  level := rest
                  orders := m.orders.erase otherId
                  out := m.out ++ [trade] }
            else
              some
                { remaining := m.remaining - q
                  level := m.level
                  orders := m.orders.insert otherId filled
                  out := m.out ++ [trade] }
  else
    none

/-
  The matching loop. Every turn shortens the level or ends
  with nothing left to fill, which bounds its turns.
-/
def matchLoop
    (side : Side)
    (inst : Fin 2)
    (price : UInt32)
    (owner : Int)
    (m : MatchState) : MatchState :=
  Loop.iterate (matchStep side inst price owner)
    (m.level.length + 1) m

/- The loop variables on entry. -/
def matchStart
    (e : Exchange)
    (side : Side)
    (inst : Fin 2)
    (qty price : UInt32)
    (out : List Trade) : MatchState where
  remaining := qty
  level :=
    ((e.books inst (sideIdx side.opposite))[price]?).getD []
  orders := e.orders
  out := out

/-
  The opposite book after the loop: the level found at the
  start is written back, or erased when it was emptied.
-/
def settleLevel
    (levels : Levels)
    (price : UInt32)
    (level : List UInt32) : Levels :=
  match levels[price]? with
  | none => levels
  | some _ =>
      if level = [] then levels.erase price
      else levels.insert price level

/- `books_[inst][side][price].push_back(id)`. -/
def pushBack
    (levels : Levels)
    (price id : UInt32) : Levels :=
  levels.insert price (levels[price]?.getD [] ++ [id])

/-
  `Exchange::submit`: assign an id, match against the
  opposite level at exactly `price`, append the trades to
  `out`, and rest any remainder.
-/
def submit
    (e : Exchange)
    (side : Side)
    (inst : Fin 2)
    (qty price : UInt32)
    (owner : Int)
    (out : List Trade) :
    Exchange × UInt32 × List Trade :=
  let id := e.nextId
  let opp := sideIdx side.opposite
  let m :=
    matchLoop side inst price owner
      (e.matchStart side inst qty price out)
  let books :=
    e.books.set inst opp
      (settleLevel (e.books inst opp) price m.level)
  if 0 < m.remaining then
    let own := sideIdx side
    ({ nextId := e.nextId + 1
       orders :=
         m.orders.insertIfNew id
           { id := id, side := side, inst := inst
             price := price, remaining := m.remaining
             owner := owner }
       books :=
         books.set inst own
           (pushBack (books inst own) price id) },
      id, m.out)
  else
    ({ nextId := e.nextId + 1
       orders := m.orders
       books := books }, id, m.out)

end Exchange

end SocketExchange

------------------------------------------------------------
-- Cancellation
------------------------------------------------------------

namespace SocketExchange

namespace Exchange

/- Erase an id from its level, and the level once empty. -/
def eraseFromLevel
    (levels : Levels)
    (price id : UInt32) : Levels :=
  match levels[price]? with
  | none => levels
  | some level =>
      if level.erase id = [] then levels.erase price
      else levels.insert price (level.erase id)

/- `Exchange::cancel`, with the error text on failure. -/
def cancel
    (e : Exchange)
    (id : UInt32)
    (owner : Int) :
    Exchange × Except String Unit :=
  match e.orders[id]? with
  | none => (e, .error "unknown order")
  | some o =>
      if o.owner ≠ owner then
        (e, .error "not your order")
      else
        ({ e with
           orders := e.orders.erase id
           books :=
             e.books.set o.inst (sideIdx o.side)
               (eraseFromLevel
                 (e.books o.inst (sideIdx o.side))
                 o.price id) },
          .ok ())

end Exchange

end SocketExchange

------------------------------------------------------------
-- The Exchange As A Machine
------------------------------------------------------------

namespace SocketExchange

/- A call on the exchange. -/
inductive Call where
| submit :
    Side → Fin 2 → UInt32 → UInt32 → Int → Call
| cancel : UInt32 → Int → Call
deriving DecidableEq, Repr

/- What a call returns. -/
inductive Reply where
| submitted : UInt32 → List Trade → Reply
| cancelled : Except String Unit → Reply
deriving DecidableEq

/- Number of submissions among a list of calls. -/
def submits : List Call → Nat
| [] => 0
| .submit _ _ _ _ _ :: calls => submits calls + 1
| .cancel _ _ :: calls => submits calls

namespace Exchange

/- Perform one call, with a fresh trade vector. -/
def step (e : Exchange) : Call → Exchange × Reply
| .submit side inst qty price owner =>
    let r := e.submit side inst qty price owner []
    (r.1, .submitted r.2.1 r.2.2)
| .cancel id owner =>
    let r := e.cancel id owner
    (r.1, .cancelled r.2)

end Exchange

end SocketExchange

------------------------------------------------------------
-- The Matching Loop Ends
------------------------------------------------------------

namespace SocketExchange

namespace Exchange

/- Turns left in the matching loop. -/
def MatchState.turns (m : MatchState) : Nat :=
  m.level.length + if 0 < m.remaining then 1 else 0

/- What one turn of the matching loop can do. -/
theorem matchStep_cases
    {side : Side}
    {inst : Fin 2}
    {price : UInt32}
    {owner : Int}
    {m m' : MatchState}
    (hStep : matchStep side inst price owner m = some m') :
    0 < m.remaining ∧
      ∃ otherId rest, m.level = otherId :: rest ∧
        ((m.orders[otherId]? = none ∧
            m' = { m with level := rest }) ∨
          ∃ other q,
            m.orders[otherId]? = some other ∧
            q = minU32 m.remaining other.remaining ∧
            ((other.remaining - q = 0 ∧
                m' =
                  { remaining := m.remaining - q
                    level := rest
                    orders := m.orders.erase otherId
                    out := m.out ++
                      [fillTrade side inst price owner
                        q other] }) ∨
              (other.remaining - q ≠ 0 ∧
                m' =
                  { remaining := m.remaining - q
                    level := otherId :: rest
                    orders :=
                      m.orders.insert otherId
                        { other with
                          remaining :=
                            other.remaining - q }
                    out := m.out ++
                      [fillTrade side inst price owner
                        q other] }))) := by
  unfold matchStep at hStep
  by_cases hPos : 0 < m.remaining
  · rw [if_pos hPos] at hStep
    refine ⟨hPos, ?_⟩
    cases hLevel : m.level with
    | nil => simp [hLevel] at hStep
    | cons otherId rest =>
        refine ⟨otherId, rest, rfl, ?_⟩
        simp only [hLevel] at hStep
        cases hOther : m.orders[otherId]? with
        | none =>
            simp only [hOther] at hStep
            exact Or.inl ⟨rfl, (Option.some.inj hStep).symm⟩
        | some other =>
            simp only [hOther] at hStep
            refine Or.inr ⟨other, _, rfl, rfl, ?_⟩
            by_cases hFilled :
                other.remaining -
                  minU32 m.remaining other.remaining = 0
            · rw [if_pos hFilled] at hStep
              exact Or.inl
                ⟨hFilled, (Option.some.inj hStep).symm⟩
            · rw [if_neg hFilled] at hStep
              exact Or.inr
                ⟨hFilled, (Option.some.inj hStep).symm⟩
  · simp [hPos] at hStep

/-
  An order that is not filled completely has taken all that
  was left of the incoming one.
-/
theorem sub_minU32_eq_zero_of_ne
    {a b : UInt32}
    (hRest : b - minU32 a b ≠ 0) :
    a - minU32 a b = 0 := by
  unfold minU32 at *
  by_cases hLt : b < a
  · simp [hLt] at hRest
  · simp [hLt]

theorem matchStep_turns
    {side : Side}
    {inst : Fin 2}
    {price : UInt32}
    {owner : Int}
    (m m' : MatchState)
    (hStep : matchStep side inst price owner m = some m') :
    m'.turns < m.turns := by
  rcases matchStep_cases hStep with
    ⟨hPos, otherId, rest, hLevel, hCase⟩
  rcases hCase with ⟨_, rfl⟩ | ⟨other, q, _, hq, hCase⟩
  · simp [MatchState.turns, hLevel]
  · rcases hCase with ⟨_, rfl⟩ | ⟨hRest, rfl⟩
    · simp only [MatchState.turns, hLevel, hPos, if_true,
        List.length_cons]
      split <;> omega
    · subst hq
      simp [MatchState.turns, hLevel, hPos,
        sub_minU32_eq_zero_of_ne hRest]

/-
  The fuel of `matchLoop` suffices: the loop condition is
  false when it is left.
-/
theorem matchLoop_done
    (side : Side)
    (inst : Fin 2)
    (price : UInt32)
    (owner : Int)
    (m : MatchState) :
    matchStep side inst price owner
      (matchLoop side inst price owner m) = none := by
  apply Loop.iterate_done matchStep_turns
  unfold MatchState.turns
  split <;> omega

end Exchange

end SocketExchange

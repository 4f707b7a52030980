import SocketExchange.Book.Refinement

/-
  The matching engine treats all sides, instruments, prices
  and traders alike.

  Renaming the four of them in every call renames them in
  every reply and in the book, and changes nothing else. In
  particular buyers and sellers are treated in the same way,
  although the source spells the two out in several places.

  Key definitions include:
    * `Renaming`
    * `Renames`

  Key theorems include:
    * `Renames.submit`
    * `Renames.cancel`
    * `run_renamed`
-/

------------------------------------------------------------
-- Renamings
------------------------------------------------------------

namespace SocketExchange

/-
  New names for sides, instruments, prices and traders. No
  two things get the same name.
-/
structure Renaming where
  side : Equiv.Perm Side
  inst : Equiv.Perm (Fin 2)
  price : UInt32 ↪ UInt32
  owner : Int ↪ Int

namespace Renaming

variable (ρ : Renaming)

/-
  An order keeps its id and quantity; the rest is renamed.
-/
def order (o : Order) : Order where
  id := o.id
  side := ρ.side o.side
  inst := ρ.inst o.inst
  price := ρ.price o.price
  remaining := o.remaining
  owner := ρ.owner o.owner

/- Exchanging the sides exchanges the two parties. -/
def trade (t : Trade) : Trade where
  inst := ρ.inst t.inst
  qty := t.qty
  price := ρ.price t.price
  buyerOwner :=
    match ρ.side .buy with
    | .buy => ρ.owner t.buyerOwner
    | .sell => ρ.owner t.sellerOwner
  sellerOwner :=
    match ρ.side .buy with
    | .buy => ρ.owner t.sellerOwner
    | .sell => ρ.owner t.buyerOwner

/- The same for a call. -/
def call : Call → Call
| .submit side inst qty price owner =>
    .submit (ρ.side side) (ρ.inst inst) qty
      (ρ.price price) (ρ.owner owner)
| .cancel id owner => .cancel id (ρ.owner owner)

/- And for a reply. -/
def reply : Reply → Reply
| .submitted id trades =>
    .submitted id (trades.map ρ.trade)
| .cancelled result => .cancelled result

/- A renaming of the sides keeps them or exchanges them. -/
theorem side_cases :
    (ρ.side .buy = .buy ∧ ρ.side .sell = .sell) ∨
      (ρ.side .buy = .sell ∧ ρ.side .sell = .buy) := by
  have hApart : ρ.side .buy ≠ ρ.side .sell := by
    intro hSame
    cases ρ.side.injective hSame
  cases hBuy : ρ.side .buy with
  | buy =>
      cases hSell : ρ.side .sell with
      | buy => exact absurd (hBuy.trans hSell.symm) hApart
      | sell => simp
  | sell =>
      cases hSell : ρ.side .sell with
      | buy => simp
      | sell => exact absurd (hBuy.trans hSell.symm) hApart

/- A renaming of the sides keeps them opposite. -/
theorem side_opposite (side : Side) :
    (ρ.side side).opposite = ρ.side side.opposite := by
  rcases ρ.side_cases with ⟨hBuy, hSell⟩ | ⟨hBuy, hSell⟩
  · cases side <;> simp [Side.opposite, hBuy, hSell]
  · cases side <;> simp [Side.opposite, hBuy, hSell]

/- The trade of a renamed fill is the renamed trade. -/
theorem trade_fill
    (side : Side)
    (inst : Fin 2)
    (price : UInt32)
    (owner : Int)
    (q : UInt32)
    (other : Order) :
    Exchange.fillTrade (ρ.side side) (ρ.inst inst)
        (ρ.price price) (ρ.owner owner) q
        (ρ.order other) =
      ρ.trade
        (Exchange.fillTrade side inst price owner q
          other) := by
  rcases ρ.side_cases with ⟨hBuy, hSell⟩ | ⟨hBuy, hSell⟩
  · cases side <;>
      simp [Exchange.fillTrade, trade, order, hBuy, hSell]
  · cases side <;>
      simp [Exchange.fillTrade, trade, order, hBuy, hSell]

end Renaming

end SocketExchange

------------------------------------------------------------
-- The Matching Loop
------------------------------------------------------------

namespace SocketExchange

/- The same ids, with renamed orders. -/
def OrdersRenamed
    (ρ : Renaming)
    (orders orders' : Orders) : Prop :=
  ∀ id : UInt32, orders'[id]? = (orders[id]?).map ρ.order

/- Removing an order keeps the two books renamed. -/
theorem OrdersRenamed.erase
    {ρ : Renaming}
    {orders orders' : Orders}
    (hOrders : OrdersRenamed ρ orders orders')
    (id : UInt32) :
    OrdersRenamed ρ (orders.erase id)
      (orders'.erase id) := by
  intro key
  simp only [Std.ExtTreeMap.getElem?_erase]
  split
  · rfl
  · exact hOrders key

/- So does overwriting an order by its renamed self. -/
theorem OrdersRenamed.insert
    {ρ : Renaming}
    {orders orders' : Orders}
    (hOrders : OrdersRenamed ρ orders orders')
    (id : UInt32)
    (o : Order) :
    OrdersRenamed ρ (orders.insert id o)
      (orders'.insert id (ρ.order o)) := by
  intro key
  simp only [Std.ExtTreeMap.getElem?_insert]
  split
  · rfl
  · exact hOrders key

/- And adding one when its id is free. -/
theorem OrdersRenamed.insertIfNew
    {ρ : Renaming}
    {orders orders' : Orders}
    (hOrders : OrdersRenamed ρ orders orders')
    (id : UInt32)
    (o : Order) :
    OrdersRenamed ρ (orders.insertIfNew id o)
      (orders'.insertIfNew id (ρ.order o)) := by
  have hMem : id ∈ orders' ↔ id ∈ orders := by
    simp only [Std.ExtTreeMap.mem_iff_isSome_getElem?,
      hOrders id, Option.isSome_map]
  intro key
  simp only [Std.ExtTreeMap.getElem?_insertIfNew, hMem]
  split
  · rfl
  · exact hOrders key

/- The loop variables of a call and of the renamed call. -/
structure LoopRenamed
    (ρ : Renaming)
    (m m' : Exchange.MatchState) : Prop where
  remaining : m'.remaining = m.remaining
  level : m'.level = m.level
  orders : OrdersRenamed ρ m.orders m'.orders
  out : m'.out = m.out.map ρ.trade

namespace Exchange

/- A turn of both loops trades in the same way. -/
theorem matchStep_renamed
    {ρ : Renaming}
    {m m' : MatchState}
    (side : Side)
    (inst : Fin 2)
    (price : UInt32)
    (owner : Int)
    (hSame : LoopRenamed ρ m m') :
    Loop.Lockstep (LoopRenamed ρ)
      (matchStep side inst price owner m)
      (matchStep (ρ.side side) (ρ.inst inst)
        (ρ.price price) (ρ.owner owner) m') := by
  rcases m with ⟨remaining, level, orders, out⟩
  rcases m' with ⟨remaining', level', orders', out'⟩
  rcases hSame with ⟨hRemaining, hLevel, hOrders, hOut⟩
  simp only at hRemaining hLevel hOut hOrders
  subst hRemaining hLevel hOut
  unfold matchStep
  by_cases hPos : 0 < remaining'
  · simp only [if_pos hPos]
    cases level' with
    | nil => trivial
    | cons otherId rest =>
        have hFront := hOrders otherId
        cases hOther : orders[otherId]? with
        | none =>
            rw [hOther, Option.map_none] at hFront
            simp only [hFront, hOther]
            exact ⟨rfl, rfl, hOrders, rfl⟩
        | some other =>
            rw [hOther, Option.map_some] at hFront
            have hQty :
                (ρ.order other).remaining =
                  other.remaining := rfl
            have hTrade :
                List.map ρ.trade out ++
                    [fillTrade (ρ.side side) (ρ.inst inst)
                      (ρ.price price) (ρ.owner owner)
                      (minU32 remaining' other.remaining)
                      (ρ.order other)] =
                  List.map ρ.trade
                    (out ++
                      [fillTrade side inst price owner
                        (minU32 remaining'
                          other.remaining)
                        other]) := by
              simp [ρ.trade_fill]
            simp only [hFront, hOther, hQty]
            by_cases hFilled :
                other.remaining -
                  minU32 remaining' other.remaining = 0
            · simp only [if_pos hFilled]
              exact ⟨rfl, rfl, hOrders.erase otherId,
                hTrade⟩
            · simp only [if_neg hFilled]
              exact ⟨rfl, rfl, hOrders.insert otherId _,
                hTrade⟩
  · simp only [if_neg hPos]
    trivial

/-
  The two loops run in step: every turn of the one is the
  renamed turn of the other.
-/
theorem matchLoop_renamed
    {ρ : Renaming}
    {m m' : MatchState}
    (side : Side)
    (inst : Fin 2)
    (price : UInt32)
    (owner : Int)
    (hSame : LoopRenamed ρ m m') :
    LoopRenamed ρ (matchLoop side inst price owner m)
      (matchLoop (ρ.side side) (ρ.inst inst)
        (ρ.price price) (ρ.owner owner) m') := by
  unfold matchLoop
  rw [hSame.level]
  exact Loop.iterate_rel
    (fun _ _ h => matchStep_renamed side inst price owner h)
    _ hSame

end Exchange

end SocketExchange

------------------------------------------------------------
-- Price Maps
------------------------------------------------------------

namespace SocketExchange

open Exchange

/- The same levels, at renamed prices. -/
def LevelsRenamed
    (ρ : Renaming)
    (levels levels' : Levels) : Prop :=
  ∀ price : UInt32, levels'[ρ.price price]? = levels[price]?

/-
  Storing what is left of a level keeps the levels renamed.
-/
theorem LevelsRenamed.settle
    {ρ : Renaming}
    {levels levels' : Levels}
    (hLevels : LevelsRenamed ρ levels levels')
    (price : UInt32)
    (level : List UInt32) :
    LevelsRenamed ρ (settleLevel levels price level)
      (settleLevel levels' (ρ.price price) level) := by
  intro p
  simp only [getElem?_settleLevel, hLevels price, hLevels p,
    ρ.price.injective.eq_iff]

/- So does queueing an id at its end. -/
theorem LevelsRenamed.push
    {ρ : Renaming}
    {levels levels' : Levels}
    (hLevels : LevelsRenamed ρ levels levels')
    (price id : UInt32) :
    LevelsRenamed ρ (pushBack levels price id)
      (pushBack levels' (ρ.price price) id) := by
  intro p
  simp only [getElem?_pushBack, hLevels price, hLevels p,
    ρ.price.injective.eq_iff]

/- And taking one out of it. -/
theorem LevelsRenamed.erase
    {ρ : Renaming}
    {levels levels' : Levels}
    (hLevels : LevelsRenamed ρ levels levels')
    (price id : UInt32) :
    LevelsRenamed ρ (eraseFromLevel levels price id)
      (eraseFromLevel levels' (ρ.price price) id) := by
  rw [eraseFromLevel_eq, eraseFromLevel_eq, hLevels price]
  exact hLevels.settle price _

/- The same four price maps, at renamed places. -/
def BooksRenamed
    (ρ : Renaming)
    (books books' : Books) : Prop :=
  ∀ inst side,
    LevelsRenamed ρ (books inst (sideIdx side))
      (books' (ρ.inst inst) (sideIdx (ρ.side side)))

/-
  Replacing one side of one instrument by renamed levels
  keeps the books renamed.
-/
theorem BooksRenamed.set
    {ρ : Renaming}
    {books books' : Books}
    (hBooks : BooksRenamed ρ books books')
    (inst : Fin 2)
    (side : Side)
    {levels levels' : Levels}
    (hLevels : LevelsRenamed ρ levels levels') :
    BooksRenamed ρ (books.set inst (sideIdx side) levels)
      (books'.set (ρ.inst inst) (sideIdx (ρ.side side))
        levels') := by
  intro i s
  have hPlace :
      (ρ.inst i = ρ.inst inst ∧
          sideIdx (ρ.side s) = sideIdx (ρ.side side)) ↔
        (i = inst ∧ sideIdx s = sideIdx side) := by
    rw [ρ.inst.injective.eq_iff, sideIdx_injective.eq_iff,
      sideIdx_injective.eq_iff, ρ.side.injective.eq_iff]
  by_cases hHere : i = inst ∧ sideIdx s = sideIdx side
  · simp only [Books.set, if_pos hHere,
      if_pos (hPlace.mpr hHere)]
    exact hLevels
  · have hThere := fun h => hHere (hPlace.mp h)
    simp only [Books.set, if_neg hHere, if_neg hThere]
    exact hBooks i s

end SocketExchange

------------------------------------------------------------
-- Runs
------------------------------------------------------------

namespace SocketExchange

/- An exchange, and the same exchange renamed. -/
structure Renames
    (ρ : Renaming)
    (e e' : Exchange) : Prop where
  nextId : e'.nextId = e.nextId
  orders : OrdersRenamed ρ e.orders e'.orders
  books : BooksRenamed ρ e.books e'.books

/- The empty exchange is its own renaming. -/
theorem renames_empty (ρ : Renaming) :
    Renames ρ Exchange.empty Exchange.empty where
  nextId := rfl
  orders := by
    intro id
    simp [Exchange.empty]
  books := by
    intro inst side price
    simp [Exchange.empty]

namespace Renames

variable {ρ : Renaming} {e e' : Exchange}

/- The loop of a renamed submission is the renamed loop. -/
theorem matchLoop
    (hSame : Renames ρ e e')
    (side : Side)
    (inst : Fin 2)
    (qty price : UInt32)
    (owner : Int) :
    LoopRenamed ρ
      (Exchange.matchLoop side inst price owner
        (e.matchStart side inst qty price []))
      (Exchange.matchLoop (ρ.side side) (ρ.inst inst)
        (ρ.price price) (ρ.owner owner)
        (e'.matchStart (ρ.side side) (ρ.inst inst) qty
          (ρ.price price) [])) := by
  apply Exchange.matchLoop_renamed
  refine ⟨rfl, ?_, hSame.orders, rfl⟩
  have hLevel := hSame.books inst side.opposite price
  simp only [Exchange.matchStart, ρ.side_opposite, hLevel]

/- A renamed submission gets the renamed reply. -/
theorem submit
    (hSame : Renames ρ e e')
    (side : Side)
    (inst : Fin 2)
    (qty price : UInt32)
    (owner : Int) :
    let r := e.submit side inst qty price owner []
    let r' :=
      e'.submit (ρ.side side) (ρ.inst inst) qty
        (ρ.price price) (ρ.owner owner) []
    r'.2 = (r.2.1, r.2.2.map ρ.trade) ∧
      Renames ρ r.1 r'.1 := by
  have hLoop := hSame.matchLoop side inst qty price owner
  simp only [Exchange.submit, ρ.side_opposite]
  generalize
    Exchange.matchLoop side inst price owner
      (e.matchStart side inst qty price []) = m at hLoop ⊢
  generalize
    Exchange.matchLoop (ρ.side side) (ρ.inst inst)
      (ρ.price price) (ρ.owner owner)
      (e'.matchStart (ρ.side side) (ρ.inst inst) qty
        (ρ.price price) []) = m' at hLoop ⊢
  -- The opposite book is settled in both cases.
  have hSettled :=
    hSame.books.set inst side.opposite
      ((hSame.books inst side.opposite).settle price
        m.level)
  simp only [hLoop.remaining, hLoop.level, hLoop.out,
    hSame.nextId]
  by_cases hRests : 0 < m.remaining
  · simp only [if_pos hRests]
    refine ⟨trivial, rfl, hLoop.orders.insertIfNew _ _, ?_⟩
    exact hSettled.set inst side
      ((hSettled inst side).push price e.nextId)
  · simp only [if_neg hRests]
    exact ⟨trivial, rfl, hLoop.orders, hSettled⟩

/- So does a renamed cancellation. -/
theorem cancel
    (hSame : Renames ρ e e')
    (id : UInt32)
    (owner : Int) :
    (e'.cancel id (ρ.owner owner)).2 =
        (e.cancel id owner).2 ∧
      Renames ρ (e.cancel id owner).1
        (e'.cancel id (ρ.owner owner)).1 := by
  have hLookup := hSame.orders id
  unfold Exchange.cancel
  cases hOrder : e.orders[id]? with
  | none =>
      rw [hOrder, Option.map_none] at hLookup
      simp only [hLookup]
      exact ⟨trivial, hSame⟩
  | some o =>
      rw [hOrder, Option.map_some] at hLookup
      have hMine :
          (ρ.order o).owner = ρ.owner owner ↔
            o.owner = owner :=
        ρ.owner.injective.eq_iff
      by_cases hOwner : o.owner = owner
      · simp only [hLookup, ne_eq, hMine, hOwner,
          not_true, if_false]
        refine ⟨trivial, hSame.nextId,
          hSame.orders.erase id, ?_⟩
        exact hSame.books.set o.inst o.side
          ((hSame.books o.inst o.side).erase o.price id)
      · simp only [hLookup, ne_eq, hMine, hOwner,
          not_false_eq_true, if_true]
        exact ⟨trivial, hSame⟩

/- Hence so does any renamed call. -/
theorem step
    (hSame : Renames ρ e e')
    (call : Call) :
    (e'.step (ρ.call call)).2 =
        ρ.reply (e.step call).2 ∧
      Renames ρ (e.step call).1
        (e'.step (ρ.call call)).1 := by
  cases call with
  | submit side inst qty price owner =>
      rcases hSame.submit side inst qty price owner with
        ⟨hReply, hNext⟩
      refine ⟨?_, hNext⟩
      simp only [Renaming.call, Exchange.step, hReply,
        Renaming.reply]
  | cancel id owner =>
      rcases hSame.cancel id owner with ⟨hReply, hNext⟩
      refine ⟨?_, hNext⟩
      simp only [Renaming.call, Exchange.step, hReply,
        Renaming.reply]

end Renames

namespace Exchange

/-
  The exchange has no favourites. Exchanging buyers and
  sellers, or renaming instruments, prices and traders,
  throughout a run of any length gives the renamed replies
  in the same order, with the same ids, quantities and error
  texts, and leaves the renamed orders resting.
-/
theorem run_renamed
    (ρ : Renaming)
    (calls : List Call) :
    Machine.replies step empty (calls.map ρ.call) =
        (Machine.replies step empty calls).map ρ.reply ∧
      ∀ id : UInt32,
        (Machine.final step empty
            (calls.map ρ.call)).orders[id]? =
          ((Machine.final step empty
            calls).orders[id]?).map ρ.order := by
  have hSim :=
    Machine.simulation_map ρ.call ρ.reply (Renames ρ)
      (fun _ _ call hSame => hSame.step call)
      (renames_empty ρ) calls
  exact ⟨hSim.1, hSim.2.orders⟩

/- Buyers for sellers and back, and nothing else. -/
def mirror : Renaming where
  side := Equiv.swap .buy .sell
  inst := Equiv.refl _
  price := Function.Embedding.refl _
  owner := Function.Embedding.refl _

example :
    (fillingCalls 0).map mirror.call =
      [.submit .buy 0 5 100 1, .submit .buy 0 7 100 2,
        .submit .sell 0 8 100 3, .submit .sell 0 1 99 3] ∧
      mirror.trade ⟨0, 5, 100, 3, 1⟩ =
        ⟨0, 5, 100, 1, 3⟩ := by
  decide

end Exchange

end SocketExchange

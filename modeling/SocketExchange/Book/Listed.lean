import SocketExchange.Book.Fills
import SocketExchange.Book.Greedy

/-
  A resting order is queued at its own level.

  Nothing here bounds the number of submissions. Once the
  counter has come round a level can hold an id twice, or
  one whose order rests elsewhere; but the id of an order
  never leaves its level before the order leaves the book.

  Main declarations:
    * `Exchange.Listed`
    * `Exchange.final_listed`
    * `Exchange.Unlists`
    * `Exchange.Listed.cancel_unlists`
-/

------------------------------------------------------------
-- The Matching Loop
------------------------------------------------------------

namespace SocketExchange

namespace Exchange

/- The level of an order holds its id. -/
def Listed (e : Exchange) : Prop :=
  ∀ (key : UInt32) (o : Order), e.orders[key]? = some o →
    key ∈ e.deque o.inst (sideIdx o.side) o.price

/-
  What the loop has done so far to a level that held these
  ids: an id that it took off has no order any more, and no
  order has moved.
-/
structure LoopListed
    (level : List UInt32)
    (before : Orders)
    (m : MatchState) : Prop where
  kept :
    ∀ key ∈ level, key ∈ m.level ∨ m.orders[key]? = none
  placed :
    ∀ (key : UInt32) (o : Order),
      m.orders[key]? = some o →
        ∃ q, before[key]? = some { o with remaining := q }

section Loop

variable {level : List UInt32} {before : Orders}
variable {m m' : MatchState}

/- Taking the front id off, when its order is gone. -/
theorem LoopListed.pop
    {otherId : UInt32}
    {rest : List UInt32}
    {orders : Orders}
    (hListed : LoopListed level before m)
    (hLevel : m.level = otherId :: rest)
    (hGone : orders[otherId]? = none)
    (hElse :
      ∀ k : UInt32, k ≠ otherId →
        orders[k]? = m.orders[k]?)
    (remaining : UInt32)
    (out : List Trade) :
    LoopListed level before
      { remaining := remaining, level := rest
        orders := orders, out := out } where
  kept := by
    intro key hKey
    by_cases hFront : key = otherId
    · exact Or.inr (hFront ▸ hGone)
    · rcases hListed.kept key hKey with hIn | hNone
      · rw [hLevel, List.mem_cons] at hIn
        exact Or.inl (hIn.resolve_left hFront)
      · exact Or.inr ((hElse key hFront).trans hNone)
  placed := by
    intro key o hOrder
    have hOther : key ≠ otherId := by
      rintro rfl
      rw [hGone] at hOrder
      cases hOrder
    dsimp only at hOrder
    rw [hElse key hOther] at hOrder
    exact hListed.placed key o hOrder

/- Lowering the front order, which stays where it is. -/
theorem LoopListed.lower
    {otherId : UInt32}
    {other : Order}
    {rest : List UInt32}
    (hListed : LoopListed level before m)
    (hLevel : m.level = otherId :: rest)
    (hOther : m.orders[otherId]? = some other)
    (left remaining : UInt32)
    (out : List Trade) :
    LoopListed level before
      { remaining := remaining, level := otherId :: rest
        orders :=
          m.orders.insert otherId
            { other with remaining := left }
        out := out } where
  kept := by
    intro key hKey
    dsimp only
    rw [← hLevel, Std.ExtTreeMap.getElem?_insert]
    rcases hListed.kept key hKey with hIn | hNone
    · exact Or.inl hIn
    · have hNe : ¬ otherId = key := by
        rintro rfl
        rw [hOther] at hNone
        cases hNone
      simp [hNe, hNone]
  placed := by
    intro key o hOrder
    dsimp only at hOrder
    rw [Std.ExtTreeMap.getElem?_insert] at hOrder
    by_cases hFront : otherId = key
    · subst hFront
      rw [if_pos Std.ReflCmp.compare_self] at hOrder
      injection hOrder with hOrder
      subst hOrder
      exact hListed.placed otherId other hOther
    · simp only [Std.LawfulEqCmp.compare_eq_iff_eq, hFront,
        if_false] at hOrder
      exact hListed.placed key o hOrder

theorem LoopListed.step
    {side : Side}
    {inst : Fin 2}
    {price : UInt32}
    {owner : Int}
    (hListed : LoopListed level before m)
    (hStep : matchStep side inst price owner m = some m') :
    LoopListed level before m' := by
  rcases matchStep_cases hStep with
    ⟨_, otherId, rest, hLevel, ⟨hStale, rfl⟩ | hFill⟩
  · exact hListed.pop hLevel hStale (fun _ _ => rfl) _ _
  rcases hFill with ⟨other, q, hOther, _, hCase⟩
  rcases hCase with ⟨_, rfl⟩ | ⟨_, rfl⟩
  · refine hListed.pop hLevel (by simp) ?_ _ _
    intro k hNe
    have hNe' : ¬ otherId = k := fun h => hNe h.symm
    simp [Std.ExtTreeMap.getElem?_erase, hNe']
  · exact hListed.lower hLevel hOther _ _ _

theorem matchLoop_listed
    (e : Exchange)
    (side : Side)
    (inst : Fin 2)
    (qty price : UInt32)
    (owner : Int) :
    LoopListed (e.deque inst (sideIdx side.opposite) price)
      e.orders
      (matchLoop side inst price owner
        (e.matchStart side inst qty price [])) := by
  refine Loop.iterate_inv
    (LoopListed
      (e.deque inst (sideIdx side.opposite) price) e.orders)
    (fun _ _ => LoopListed.step) _ ?_
  exact ⟨fun _ h => Or.inl h,
    fun _ o h => ⟨o.remaining, h⟩⟩

end Loop

end Exchange

end SocketExchange

------------------------------------------------------------
-- Calls
------------------------------------------------------------

namespace SocketExchange

namespace Exchange

variable {e : Exchange}

/- An order that the loop left is still at its level. -/
theorem Listed.submit_kept
    {side : Side}
    {inst : Fin 2}
    {qty price key : UInt32}
    {owner : Int}
    {m : MatchState}
    {o : Order}
    (hListed : Listed e)
    (hLoop :
      matchLoop side inst price owner
        (e.matchStart side inst qty price []) = m)
    (hOrder : m.orders[key]? = some o) :
    key ∈
      (e.submit side inst qty price owner []).1.deque o.inst
        (sideIdx o.side) o.price := by
  have hEffect :=
    matchLoop_listed e side inst qty price owner
  rw [hLoop] at hEffect
  rcases hEffect.placed key o hOrder with ⟨q, hBefore⟩
  have hWas :
      key ∈ e.deque o.inst (sideIdx o.side) o.price :=
    hListed key { o with remaining := q } hBefore
  by_cases hAt : o.inst = inst ∧ o.price = price
  · rcases hAt with ⟨rfl, rfl⟩
    by_cases hOwn : o.side = side
    · subst hOwn
      rw [deque, submit_own_level hLoop]
      split
      · exact List.mem_append_left _ hWas
      · exact hWas
    · -- The opposite level: the loop has not taken it off.
      have hSide : o.side = side.opposite := by
        cases hSides : o.side <;> cases side <;>
          first | rfl | exact absurd hSides hOwn
      rw [hSide] at hWas ⊢
      have hSome :
          ¬ (e.books o.inst (sideIdx side.opposite))[
              o.price]? = none := by
        intro hNone
        rw [deque, hNone] at hWas
        cases hWas
      rw [deque, submit_level hLoop, if_neg hSome,
        levelEntry_getD]
      rcases hEffect.kept key hWas with hIn | hNone
      · exact hIn
      · rw [hOrder] at hNone
        cases hNone
  · rw [deque, submit_other_levels _ hAt]
    exact hWas

theorem Listed.submit
    (hListed : Listed e)
    (side : Side)
    (inst : Fin 2)
    (qty price : UInt32)
    (owner : Int) :
    Listed (e.submit side inst qty price owner []).1 := by
  intro key o hOrder
  rw [submit_orders] at hOrder
  split at hOrder
  · next hNew =>
      -- The remainder, at the tail of its own level.
      injection hOrder with hOrder
      subst hOrder
      rw [deque, submit_own_level rfl, if_pos hNew.2.1,
        hNew.1]
      simp
  · exact hListed.submit_kept rfl hOrder

/-
  An order has been taken out of the book. Its id has left
  `orders_`, and the queue of its level, which held it;
  every other order and every other queue is as it was.
-/
structure Unlists
    (e : Exchange)
    (key : UInt32)
    (o : Order)
    (e' : Exchange) : Prop where
  nextId : e'.nextId = e.nextId
  listed :
    key ∈ e.deque o.inst (sideIdx o.side) o.price
  orders :
    ∀ k : UInt32,
      e'.orders[k]? =
        if k = key then none else e.orders[k]?
  levels :
    ∀ (inst side : Fin 2) (price : UInt32),
      (e'.books inst side)[price]? =
        if inst = o.inst ∧ side = sideIdx o.side ∧
            price = o.price then
          levelEntry ((e.deque inst side price).erase key)
        else (e.books inst side)[price]?

/- A cancellation by the owner takes the order out. -/
theorem Listed.cancel_unlists
    {key : UInt32}
    {o : Order}
    (hListed : Listed e)
    (hOrder : e.orders[key]? = some o) :
    (e.cancel key o.owner).2 = .ok () ∧
      Unlists e key o (e.cancel key o.owner).1 := by
  unfold cancel
  rw [hOrder]
  dsimp only
  rw [if_neg (not_not_intro rfl)]
  refine ⟨rfl, rfl, hListed key o hOrder, ?_, ?_⟩
  · intro k
    dsimp only
    rw [Std.ExtTreeMap.getElem?_erase]
    by_cases hKey : k = key
    · simp [hKey]
    · have hNe : ¬ key = k := fun h => hKey h.symm
      simp [hKey, hNe]
  · intro inst side price
    dsimp only
    by_cases hBook : inst = o.inst ∧ side = sideIdx o.side
    · rcases hBook with ⟨rfl, rfl⟩
      rw [Books.set_self, getElem?_eraseFromLevel]
      by_cases hPrice : price = o.price
      · subst hPrice
        rw [if_pos rfl, if_pos ⟨rfl, rfl, rfl⟩, deque]
      · rw [if_neg hPrice, if_neg fun h => hPrice h.2.2]
    · rw [Books.set_of_ne _ _ hBook,
        if_neg fun h => hBook ⟨h.1, h.2.1⟩]

/- The queues, once an order has been taken out. -/
theorem Unlists.mem_deque
    {e' : Exchange}
    {key k : UInt32}
    {o : Order}
    {inst side : Fin 2}
    {price : UInt32}
    (hUnlists : Unlists e key o e')
    (hNe : k ≠ key)
    (hMem : k ∈ e.deque inst side price) :
    k ∈ e'.deque inst side price := by
  rw [deque, hUnlists.levels]
  split
  · rw [levelEntry_getD]
    exact (List.mem_erase_of_ne hNe).mpr hMem
  · exact hMem

theorem Listed.cancel
    (hListed : Listed e)
    (id : UInt32)
    (owner : Int) :
    Listed (e.cancel id owner).1 := by
  cases hOrder : e.orders[id]? with
  | none =>
      have hSame : (e.cancel id owner).1 = e := by
        simp [Exchange.cancel, hOrder]
      rw [hSame]
      exact hListed
  | some o =>
      by_cases hOwner : o.owner = owner
      · subst hOwner
        have hUnlists := (hListed.cancel_unlists hOrder).2
        intro k b hLater
        rw [hUnlists.orders] at hLater
        split at hLater
        · cases hLater
        · next hNe =>
            exact hUnlists.mem_deque hNe
              (hListed k b hLater)
      · have hSame : (e.cancel id owner).1 = e := by
          simp [Exchange.cancel, hOrder, hOwner]
        rw [hSame]
        exact hListed

theorem Listed.step
    (hListed : Listed e)
    (call : Call) :
    Listed (e.step call).1 := by
  cases call with
  | submit side inst qty price owner =>
      exact hListed.submit side inst qty price owner
  | cancel id owner => exact hListed.cancel id owner

/- Over every run, of any length. -/
theorem final_listed (calls : List Call) :
    Listed (Machine.final step empty calls) := by
  apply Machine.final_invariant step Listed
    (fun _ call hListed => hListed.step call)
  intro key o hOrder
  simp [empty] at hOrder

end Exchange

end SocketExchange

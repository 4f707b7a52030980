import SocketExchange.Book.Greedy
import SocketExchange.Book.Lifecycle

/-
  Cancelling.

  A cancellation takes one order out of the map and out of
  its level, and the level out of its price map once nobody
  is left there: exactly what resting the order put in. So
  cancelling an order that has just come to rest gives back
  the exchange as it was, but for the counter. A refused
  cancellation changes nothing.

  Main declarations:
    * `Exchange.Takes`
    * `Exchange.run_cancel_undoes`
-/

------------------------------------------------------------
-- What A Cancellation Removes
------------------------------------------------------------

namespace SocketExchange

namespace Exchange

/- A level is absent when nobody rests there. -/
theorem Consistent.entry_eq
    {e : Exchange}
    (hConsistent : e.Consistent)
    (inst side : Fin 2)
    (price : UInt32) :
    (e.books inst side)[price]? =
      levelEntry (e.deque inst side price) := by
  have hNe := hConsistent.level_ne_nil inst side price
  unfold deque levelEntry
  cases hEntry : (e.books inst side)[price]? with
  | none => rfl
  | some level =>
      have hLevel : level ≠ [] := by
        rintro rfl
        exact hNe hEntry
      exact (if_neg hLevel).symm

/- The other ids of a level, in their order. -/
def without (id : UInt32) (ids : List UInt32) : List UInt32 :=
  ids.filter fun other => other != id

theorem without_of_not_mem
    {id : UInt32}
    {ids : List UInt32}
    (hOut : id ∉ ids) :
    without id ids = ids := by
  apply List.filter_eq_self.mpr
  intro other hMem
  rw [bne_iff_ne]
  rintro rfl
  exact hOut hMem

/-
  An order has been taken out of the book, and nothing else:
  the map keeps every other order, and each level its other
  ids in their order.
-/
structure Takes
    (e : Exchange)
    (id : UInt32)
    (e' : Exchange) : Prop where
  nextId : e'.nextId = e.nextId
  orders :
    ∀ key : UInt32,
      e'.orders[key]? =
        if key = id then none else e.orders[key]?
  levels :
    ∀ (inst side : Fin 2) (price : UInt32),
      (e'.books inst side)[price]? =
        levelEntry (without id (e.deque inst side price))

/- An order is queued at its own level and nowhere else. -/
theorem Consistent.mem_deque_iff
    {e : Exchange}
    {id : UInt32}
    {o : Order}
    (hConsistent : e.Consistent)
    (hOrder : e.orders[id]? = some o)
    (inst side : Fin 2)
    (price : UInt32) :
    id ∈ e.deque inst side price ↔
      inst = o.inst ∧ side = sideIdx o.side ∧
        price = o.price := by
  have hAt :
      ∀ i k p, id ∈ e.deque i k p →
        i = o.inst ∧ k = sideIdx o.side ∧ p = o.price := by
    intro i k p hMem
    rcases hConsistent.queued_known i k p id hMem with
      ⟨o', hOrder', _, hInst, hSide, hPrice⟩
    rw [hOrder] at hOrder'
    injection hOrder' with hSame
    subst hSame
    exact ⟨hInst.symm, hSide.symm, hPrice.symm⟩
  refine ⟨hAt inst side price, ?_⟩
  rintro ⟨rfl, rfl, rfl⟩
  have hIn : id ∈ e.orders := by
    rw [Std.ExtTreeMap.mem_iff_isSome_getElem?, hOrder]
    rfl
  rcases hConsistent.queued_once id hIn with
    ⟨i, k, p, hCount, _⟩
  have hMem : id ∈ e.deque i k p :=
    List.count_pos_iff.mp (by omega)
  rcases hAt i k p hMem with ⟨rfl, rfl, rfl⟩
  exact hMem

/- Erasing from a level takes the id out of its queue. -/
theorem Consistent.erase_level
    {e : Exchange}
    (hConsistent : e.Consistent)
    (inst side : Fin 2)
    (price id p : UInt32) :
    (eraseFromLevel (e.books inst side) price id)[p]? =
      if p = price then
        levelEntry (without id (e.deque inst side price))
      else (e.books inst side)[p]? := by
  have hOnce : (e.deque inst side price).Nodup :=
    (hConsistent.increasing inst side price).imp
      UInt32.ne_of_lt
  rw [getElem?_eraseFromLevel, ← deque,
    hOnce.erase_eq_filter]
  rfl

/- A cancellation by the owner takes the order out. -/
theorem Consistent.cancel_takes
    {e : Exchange}
    {id : UInt32}
    {o : Order}
    (hConsistent : e.Consistent)
    (hOrder : e.orders[id]? = some o) :
    (e.cancel id o.owner).2 = .ok () ∧
      Takes e id (e.cancel id o.owner).1 := by
  unfold cancel
  rw [hOrder]
  dsimp only
  rw [if_neg (not_not_intro rfl)]
  refine ⟨rfl, rfl, ?_, ?_⟩
  · intro key
    dsimp only
    rw [Std.ExtTreeMap.getElem?_erase]
    by_cases hKey : id = key
    · simp [hKey]
    · have hNe : ¬ key = id := fun h => hKey h.symm
      simp [hKey, hNe]
  · intro inst side price
    have hMem :=
      hConsistent.mem_deque_iff hOrder inst side price
    dsimp only
    by_cases hBook : inst = o.inst ∧ side = sideIdx o.side
    · rcases hBook with ⟨rfl, rfl⟩
      rw [Books.set_self, hConsistent.erase_level]
      by_cases hPrice : price = o.price
      · rw [if_pos hPrice, hPrice]
      · have hOut := fun h => hPrice (hMem.mp h).2.2
        rw [if_neg hPrice, without_of_not_mem hOut]
        exact hConsistent.entry_eq _ _ _
    · have hOut :=
        fun h => hBook ⟨(hMem.mp h).1, (hMem.mp h).2.1⟩
      rw [Books.set_of_ne _ _ hBook, without_of_not_mem hOut]
      exact hConsistent.entry_eq _ _ _

/- A cancellation answers by whose order it is. -/
theorem cancel_ok_iff
    (e : Exchange)
    (id : UInt32)
    (owner : Int) :
    (e.cancel id owner).2 = .ok () ↔
      ∃ o, e.orders[id]? = some o ∧ o.owner = owner := by
  unfold cancel
  cases hOrder : e.orders[id]? with
  | none => simp
  | some o =>
      by_cases hOwner : o.owner = owner
      · simp [hOwner]
      · simp [hOwner]

/- A refused cancellation changes nothing. -/
theorem cancel_refused
    {e : Exchange}
    {id : UInt32}
    {owner : Int}
    (hRefused : (e.cancel id owner).2 ≠ .ok ()) :
    (e.cancel id owner).1 = e := by
  unfold cancel at hRefused ⊢
  cases hOrder : e.orders[id]? with
  | none => rfl
  | some o =>
      rw [hOrder] at hRefused
      dsimp only at hRefused ⊢
      by_cases hOwner : o.owner ≠ owner
      · rw [if_pos hOwner]
      · rw [if_neg hOwner] at hRefused
        exact absurd rfl hRefused

end Exchange

end SocketExchange

------------------------------------------------------------
-- Cancelling What Has Just Come To Rest
------------------------------------------------------------

namespace SocketExchange

namespace Exchange

/- An id that is not in use is in no queue. -/
theorem Consistent.not_queued
    {e : Exchange}
    {id : UInt32}
    (hConsistent : e.Consistent)
    (hUnused : e.orders[id]? = none)
    (inst side : Fin 2)
    (price : UInt32) :
    id ∉ e.deque inst side price := by
  intro hMem
  rcases hConsistent.queued_known inst side price id
      hMem with ⟨o, hOrder, _⟩
  rw [hUnused] at hOrder
  cases hOrder

/- Two exchanges with the same queues have the same books. -/
theorem Consistent.books_eq
    {e e' : Exchange}
    (hConsistent : e.Consistent)
    (hLevels :
      ∀ (inst side : Fin 2) (price : UInt32),
        (e'.books inst side)[price]? =
          levelEntry (e.deque inst side price)) :
    e'.books = e.books := by
  funext inst side
  apply Std.ExtTreeMap.ext_getElem?
  intro price
  rw [hLevels, hConsistent.entry_eq]

section Undo

variable {e : Exchange} {side : Side} {inst : Fin 2}
variable {qty price : UInt32} {owner : Int}
variable {out : List Trade} {facing : List Order}
variable {trades : List Trade}
variable {r : Exchange × UInt32 × List Trade}

/- An order that trades with nobody faces nobody. -/
theorem GreedyFill.facing_nil
    (hFill :
      GreedyFill e side inst qty price owner out facing
        trades r)
    (hQty : 0 < qty)
    (hNone : r.2.2 = out) :
    facing = [] := by
  have hEmpty : trades = [] := by
    have hAll := hFill.appended.symm.trans hNone
    exact List.append_right_eq_self.mp hAll
  by_contra hNe
  have hFirst := (hFill.count 0).mpr
    ⟨List.length_pos_iff.mpr hNe,
      UInt32.lt_iff_toNat_lt.mp hQty⟩
  rw [hEmpty] at hFirst
  exact Nat.not_lt_zero _ hFirst

/- The queues once such an order rests. -/
theorem GreedyFill.deque_after
    (hFill :
      GreedyFill e side inst qty price owner out []
        trades r)
    (hQty : 0 < qty)
    (i k : Fin 2)
    (p : UInt32) :
    r.1.deque i k p = e.deque i k p ∨
      r.1.deque i k p = e.deque i k p ++ [e.nextId] := by
  by_cases hAt : i = inst ∧ p = price
  · rcases hAt with ⟨rfl, rfl⟩
    obtain ⟨s, rfl⟩ := sideIdx_surjective k
    by_cases hSide : s = side
    · subst hSide
      right
      have hLess :
          (quantities []).sum < qty.toNat :=
        UInt32.lt_iff_toNat_lt.mp hQty
      have hOwn := hFill.own_level
      rw [if_pos hLess] at hOwn
      rw [deque, hOwn]
      rfl
    · left
      have hOpposite : s = side.opposite := by
        cases s <;> cases side <;>
          first | exact absurd rfl hSide | rfl
      subst hOpposite
      have hLevel := hFill.level
      have hQueued := hFill.queued
      rw [deque, hLevel, hQueued]
      rfl
  · left
    rw [deque, hFill.other_levels i k p hAt]
    rfl

/-
  Cancelling an order that traded with nobody gives back the
  map and the books of before.
-/
theorem GreedyFill.cancel_restores
    (hConsistent : e.Consistent)
    (hAfter : r.1.Consistent)
    (hUnused : e.orders[e.nextId]? = none)
    (hFill :
      GreedyFill e side inst qty price owner out []
        trades r)
    (hQty : 0 < qty) :
    r.1.cancel e.nextId owner =
      ({ nextId := e.nextId + 1
         orders := e.orders
         books := e.books }, .ok ()) := by
  have hRests := hFill.rests
  have hLess :
      (quantities []).sum < qty.toNat :=
    UInt32.lt_iff_toNat_lt.mp hQty
  rw [if_pos hLess] at hRests
  rcases hAfter.cancel_takes hRests with ⟨hOk, hTakes⟩
  have hOrders :
      (r.1.cancel e.nextId owner).1.orders = e.orders := by
    apply Std.ExtTreeMap.ext_getElem?
    intro key
    rw [hTakes.orders key]
    by_cases hKey : key = e.nextId
    · rw [if_pos hKey, hKey, hUnused]
    · rw [if_neg hKey]
      exact hFill.others key List.not_mem_nil hKey
  have hBooks :
      (r.1.cancel e.nextId owner).1.books = e.books := by
    apply hConsistent.books_eq
    intro i k p
    have hOut := hConsistent.not_queued hUnused i k p
    rw [hTakes.levels i k p]
    rcases hFill.deque_after hQty i k p with hSame | hPushed
    · rw [hSame, without_of_not_mem hOut]
    · have hLast : without e.nextId [e.nextId] = [] := by
        simp [without]
      rw [hPushed, without, List.filter_append, ← without,
        ← without, without_of_not_mem hOut, hLast,
        List.append_nil]
  have hNext :
      (r.1.cancel e.nextId owner).1.nextId =
        e.nextId + 1 := by
    rw [hTakes.nextId, hFill.next.2]
  rw [← hOk, ← hOrders, ← hBooks, ← hNext]

end Undo

/-
  Cancelling undoes a submission that rests, and is
  otherwise atomic. On every exchange reached by fewer than
  `2 ^ 32 - 1` submissions: a submission of at least one
  unit that trades with nobody can be cancelled by its
  owner, which gives back the map and all four books as they
  were; a cancellation succeeds exactly when the order rests
  and is the caller's, and takes just that order out; and a
  refused one changes nothing.
-/
theorem run_cancel_undoes
    (calls : List Call)
    (hSubmits : submits calls < 2 ^ 32 - 1) :
    let e := Machine.final step empty calls
    (∀ (side : Side) (inst : Fin 2) (qty price : UInt32)
        (w : Int) (out : List Trade), 1 ≤ qty →
      let r := e.submit side inst qty price w out
      r.2.2 = out →
        r.1.cancel r.2.1 w =
          ({ nextId := e.nextId + 1
             orders := e.orders
             books := e.books }, .ok ())) ∧
    (∀ (id : UInt32) (owner : Int),
      ((e.cancel id owner).2 = .ok () ↔
        ∃ o, e.orders[id]? = some o ∧ o.owner = owner) ∧
      ((e.cancel id owner).2 = .ok () →
        Takes e id (e.cancel id owner).1) ∧
      ((e.cancel id owner).2 ≠ .ok () →
        (e.cancel id owner).1 = e)) := by
  intro e
  have hRep :=
    represents_final (show submits calls < 2 ^ 32 by omega)
  refine ⟨?_, ?_⟩
  · intro side inst qty price w out hQty r hNone
    have hPos : 0 < qty := by
      rw [UInt32.le_iff_toNat_le] at hQty
      exact UInt32.lt_iff_toNat_lt.mpr hQty
    have hSpare : e.nextId.toNat + 1 < 2 ^ 32 := by
      have hNext : e.nextId = 0 + UInt32.ofNat _ :=
        final_nextId empty calls
      rw [hNext, UInt32.zero_add, UInt32.toNat_ofNat']
      omega
    have hFill :=
      (hRep.serves side inst qty price out).submit_greedy
        hRep.nextId_unused w
    have hAfter :=
      (hRep.submit hSpare side inst qty price w out).2
    rw [hFill.facing_nil hPos hNone] at hFill
    have hId : r.2.1 = e.nextId := hFill.next.1
    rw [hId]
    exact hFill.cancel_restores hRep.consistent
      hAfter.consistent hRep.nextId_unused hPos
  · intro id owner
    refine ⟨cancel_ok_iff e id owner, ?_, cancel_refused⟩
    intro hOk
    rcases (cancel_ok_iff e id owner).mp hOk with
      ⟨o, hOrder, rfl⟩
    exact (hRep.consistent.cancel_takes hOrder).2

/- A buyer takes back the order nobody answered. -/
theorem run_cancel_undoes_filling :
    ((Machine.final step empty (fillingCalls 0)).submit .buy
        0 6 98 3 []).1.cancel 4 3 =
      ({ nextId := 5
         orders :=
           (Machine.final step empty
             (fillingCalls 0)).orders
         books :=
           (Machine.final step empty
             (fillingCalls 0)).books }, .ok ()) := by
  have hUndone :=
    (run_cancel_undoes (fillingCalls 0) (by decide)).1 .buy
      0 6 98 3 [] (by decide) (by decide)
  exact hUndone

/-
  An order for nothing neither trades nor rests, and there
  is nothing to cancel.
-/
theorem cancel_of_nothing_unknown :
    ¬ ∀ (calls : List Call) (side : Side) (inst : Fin 2)
        (qty price : UInt32) (w : Int),
      submits calls < 2 ^ 32 - 1 →
      (((Machine.final step empty calls).submit side inst
        qty price w []).2.2 = [] →
      (((Machine.final step empty calls).submit side inst
        qty price w []).1.cancel
          ((Machine.final step empty calls).submit side inst
            qty price w []).2.1 w).2 = .ok ()) := by
  intro hAlways
  have hOk :=
    hAlways [] .buy 0 0 100 1 (by decide) (by decide)
  have hRefused :
      ((empty.submit .buy 0 0 100 1 []).1.cancel
        (empty.submit .buy 0 0 100 1 []).2.1 1).2 =
          .error "unknown order" := by
    decide
  rw [Machine.final_nil, hRefused] at hOk
  cases hOk

end Exchange

end SocketExchange

import SocketExchange.Book.Refinement

/-
  Invariants of every reachable exchange.

  Both are read off the list the exchange represents. The
  representation invariant says how `orders_` and `books_`
  fit together; the book is never crossed because a
  remainder rests only once its opposite level is exhausted.

  Main declarations:
    * `Exchange.Consistent`
    * `Exchange.run_consistent`
    * `Exchange.run_not_crossed`
-/

------------------------------------------------------------
-- The Representation Invariant
------------------------------------------------------------

namespace SocketExchange

namespace Exchange

/- The queue of ids at one key. -/
def deque
    (e : Exchange)
    (inst side : Fin 2)
    (price : UInt32) : List UInt32 :=
  ((e.books inst side)[price]?).getD []

structure Consistent (e : Exchange) : Prop where
  queued_known :
    ∀ inst side price,
      ∀ id ∈ e.deque inst side price,
      ∃ o, e.orders[id]? = some o ∧ o.id = id ∧
        o.inst = inst ∧ sideIdx o.side = side ∧
        o.price = price
  queued_once :
    ∀ id ∈ e.orders, ∃ inst side price,
      (e.deque inst side price).count id = 1 ∧
        ∀ inst' side' price',
          id ∈ e.deque inst' side' price' →
            inst' = inst ∧ side' = side ∧ price' = price
  level_ne_nil :
    ∀ (inst side : Fin 2) (price : UInt32),
      (e.books inst side)[price]? ≠ some []
  remaining_pos :
    ∀ (id : UInt32) (o : Order),
      e.orders[id]? = some o → 1 ≤ o.remaining
  id_lt :
    ∀ id ∈ e.orders, id < e.nextId
  increasing :
    ∀ inst side price,
      (e.deque inst side price).Pairwise (· < ·)

end Exchange

theorem sideIdx_surjective :
    Function.Surjective sideIdx := by
  intro k
  match k with
  | 0 => exact ⟨.buy, rfl⟩
  | 1 => exact ⟨.sell, rfl⟩

/- The queue at a key lists the ids resting there. -/
theorem Represents.deque_eq
    {e : Exchange}
    {r : Reference}
    (hRep : Represents e r)
    (inst : Fin 2)
    (side : Side)
    (price : UInt32) :
    e.deque inst (sideIdx side) price =
      idsAt r.resting inst side price := by
  rw [Exchange.deque, hRep.levels inst side price,
    levelEntry_getD]

theorem mem_idsAt_iff
    {resting : List Order}
    {inst : Fin 2}
    {side : Side}
    {price id : UInt32} :
    id ∈ idsAt resting inst side price ↔
      ∃ o ∈ resting, o.id = id ∧ o.inst = inst ∧
        o.side = side ∧ o.price = price := by
  unfold idsAt
  rw [List.mem_map]
  constructor
  · rintro ⟨o, hMem, hId⟩
    rcases List.mem_filter.mp hMem with ⟨hIn, hAt⟩
    rw [restsAt_iff] at hAt
    exact ⟨o, hIn, hId, hAt⟩
  · rintro ⟨o, hIn, hId, hAt⟩
    exact ⟨o, List.mem_filter.mpr
      ⟨hIn, (restsAt_iff _ _ _ _).mpr hAt⟩, hId⟩

theorem Represents.mem_orders_iff
    {e : Exchange}
    {r : Reference}
    (hRep : Represents e r)
    (id : UInt32) :
    id ∈ e.orders ↔ ∃ o ∈ r.resting, o.id = id := by
  rw [Std.ExtTreeMap.mem_iff_isSome_getElem?,
    Option.isSome_iff_exists]
  exact exists_congr fun o => hRep.orders id o

/- The queues of a sorted list are sorted. -/
theorem idsAt_pairwise
    {resting : List Order}
    (hSorted : resting.Pairwise fun a b => a.id < b.id)
    (inst : Fin 2)
    (side : Side)
    (price : UInt32) :
    (idsAt resting inst side price).Pairwise (· < ·) := by
  unfold idsAt
  rw [List.pairwise_map]
  exact hSorted.sublist List.filter_sublist

/- What represents a list is consistent. -/
theorem Represents.consistent
    {e : Exchange}
    {r : Reference}
    (hRep : Represents e r) :
    e.Consistent where
  queued_known := by
    intro inst side price id hMem
    obtain ⟨s, rfl⟩ := sideIdx_surjective side
    rw [hRep.deque_eq, mem_idsAt_iff] at hMem
    rcases hMem with ⟨o, hIn, hId, hInst, hSide, hPrice⟩
    exact ⟨o, (hRep.orders id o).mpr ⟨hIn, hId⟩, hId,
      hInst, congrArg sideIdx hSide, hPrice⟩
  queued_once := by
    intro id hMem
    rcases (hRep.mem_orders_iff id).mp hMem with
      ⟨o, hIn, hId⟩
    refine ⟨o.inst, sideIdx o.side, o.price, ?_, ?_⟩
    · rw [hRep.deque_eq]
      apply List.count_eq_one_of_mem
      · exact (idsAt_pairwise hRep.sorted _ _ _).imp
          UInt32.ne_of_lt
      · exact mem_idsAt_iff.mpr
          ⟨o, hIn, hId, rfl, rfl, rfl⟩
    · intro inst' side' price' hOther
      obtain ⟨s', rfl⟩ := sideIdx_surjective side'
      rw [hRep.deque_eq, mem_idsAt_iff] at hOther
      rcases hOther with
        ⟨o', hIn', hId', hInst, hSide, hPrice⟩
      have hSame : o' = o :=
        FirstMatch.eq_of_key_eq hRep.sorted hIn' hIn
          (hId'.trans hId.symm)
      subst hSame
      exact ⟨hInst.symm, congrArg sideIdx hSide.symm,
        hPrice.symm⟩
  level_ne_nil := by
    intro inst side price
    obtain ⟨s, rfl⟩ := sideIdx_surjective side
    rw [hRep.levels inst s price, levelEntry]
    split
    · simp
    · simpa using ‹_›
  remaining_pos := by
    intro id o hLookup
    have hPos :=
      hRep.positive o ((hRep.orders id o).mp hLookup).1
    rw [UInt32.lt_iff_toNat_lt] at hPos
    rw [UInt32.le_iff_toNat_le]
    exact hPos
  id_lt := by
    intro id hMem
    rcases (hRep.mem_orders_iff id).mp hMem with
      ⟨o, hIn, rfl⟩
    rw [hRep.nextId]
    exact hRep.fresh o hIn
  increasing := by
    intro inst side price
    obtain ⟨s, rfl⟩ := sideIdx_surjective side
    rw [hRep.deque_eq]
    exact idsAt_pairwise hRep.sorted inst s price

/-
  At the head of every turn of the matching loop, every id
  of the level has an order.
-/
theorem Represents.level_known
    {e : Exchange}
    {r : Reference}
    (hRep : Represents e r)
    (side : Side)
    (inst : Fin 2)
    (qty price : UInt32)
    (owner : Int)
    (out : List Trade)
    (turn : Nat) :
    let m :=
      Loop.iterate
        (Exchange.matchStep side inst price owner) turn
        (e.matchStart side inst qty price out)
    ∀ id ∈ m.level, id ∈ m.orders := by
  intro m id hMem
  have hLoop :=
    hRep.matchTurn side inst qty price owner out turn
  rw [hLoop.level, mem_idsAt_iff] at hMem
  rcases hMem with ⟨o, hIn, hId, _⟩
  rw [Std.ExtTreeMap.mem_iff_isSome_getElem?,
    Option.isSome_iff_exists]
  exact ⟨o, (hLoop.orders id o).mpr ⟨hIn, hId⟩⟩

end SocketExchange

------------------------------------------------------------
-- Reachable Exchanges Are Consistent
------------------------------------------------------------

namespace SocketExchange

/- The exchange after a run of calls, and its list. -/
theorem represents_final
    {calls : List Call}
    (hSubmits : submits calls < 2 ^ 32) :
    Represents
      (Machine.final Exchange.step Exchange.empty calls)
      (Machine.final Reference.step
        Reference.empty calls) :=
  (represents_empty.run (hasRoom_empty hSubmits)).2

namespace Exchange

/-
  Every reachable exchange is consistent. Hence the front of
  a level is never stale while an order is matched, and a
  cancelled order is found in a level that exists.
-/
theorem run_consistent
    (calls : List Call)
    (hSubmits : submits calls < 2 ^ 32) :
    let e := Machine.final step empty calls
    e.Consistent ∧
      (∀ side inst qty price owner out turn,
        let m :=
          Loop.iterate (matchStep side inst price owner)
            turn (e.matchStart side inst qty price out)
        ∀ id rest, m.level = id :: rest →
          m.orders[id]? ≠ none) ∧
      (∀ (id : UInt32) (o : Order),
        e.orders[id]? = some o → ∃ level,
          (e.books o.inst (sideIdx o.side))[o.price]? =
              some level ∧
            id ∈ level) := by
  intro e
  have hRep := represents_final hSubmits
  refine ⟨hRep.consistent, ?_, ?_⟩
  · intro side inst qty price owner out turn m id rest
      hLevel
    have hKnown :=
      hRep.level_known side inst qty price owner out
        turn id (by
          change id ∈ m.level
          simp [hLevel])
    rw [Std.ExtTreeMap.mem_iff_isSome_getElem?] at hKnown
    exact Option.isSome_iff_ne_none.mp hKnown
  · intro id o hLookup
    rcases (hRep.orders id o).mp hLookup with ⟨hIn, hId⟩
    have hQueued :
        id ∈ idsAt _ o.inst o.side o.price :=
      mem_idsAt_iff.mpr ⟨o, hIn, hId, rfl, rfl, rfl⟩
    refine ⟨_, ?_, hQueued⟩
    rw [hRep.levels o.inst o.side o.price, levelEntry,
      if_neg (List.ne_nil_of_mem hQueued)]

/- The order filled in part is still in its level. -/
theorem run_consistent_filling :
    ∃ level,
      ((Machine.final step empty (fillingCalls 0)).books 0
          1)[(100 : UInt32)]? = some level ∧
        1 ∈ level :=
  (run_consistent (fillingCalls 0) (by decide)).2.2 1
    ⟨1, .sell, 0, 100, 4, 2⟩ (by decide)

end Exchange

end SocketExchange

------------------------------------------------------------
-- The Book Is Never Crossed
------------------------------------------------------------

namespace SocketExchange

/- No two orders face each other at one price. -/
def Uncrossed (resting : List Order) : Prop :=
  ∀ a ∈ resting, ∀ b ∈ resting,
    a.inst = b.inst → a.price = b.price →
      a.side = b.side

/- The same order, with at most the same quantity left. -/
def Order.Shrinks (o o' : Order) : Prop :=
  o.id = o'.id ∧ o.side = o'.side ∧ o.inst = o'.inst ∧
    o.price = o'.price ∧ o.owner = o'.owner ∧
    o.remaining ≤ o'.remaining

theorem Order.Shrinks.refl (o : Order) : o.Shrinks o :=
  ⟨rfl, rfl, rfl, rfl, rfl, UInt32.le_refl _⟩

theorem Order.Shrinks.trans
    {a b c : Order}
    (hab : a.Shrinks b)
    (hbc : b.Shrinks c) :
    a.Shrinks c := by
  rcases hab with ⟨h₁, h₂, h₃, h₄, h₅, h₆⟩
  rcases hbc with ⟨k₁, k₂, k₃, k₄, k₅, k₆⟩
  exact ⟨h₁.trans k₁, h₂.trans k₂, h₃.trans k₃,
    h₄.trans k₄, h₅.trans k₅, UInt32.le_trans h₆ k₆⟩

namespace Reference

/- Trading only ever lowers what rests. -/
theorem matchLoop_shrinks
    (side : Side)
    (inst : Fin 2)
    (price : UInt32)
    (owner : Int)
    (m : MatchState) :
    ∀ o ∈ (matchLoop side inst price owner m).resting,
      ∃ o' ∈ m.resting, o.Shrinks o' := by
  unfold matchLoop
  refine Loop.iterate_inv
    (fun n : MatchState =>
      ∀ o ∈ n.resting, ∃ o' ∈ m.resting, o.Shrinks o')
    ?_ _ (fun o ho => ⟨o, ho, Order.Shrinks.refl o⟩)
  intro n n' hInv hStep o ho
  rcases matchStep_cases hStep with
    ⟨_, before, other, after, hSplit, _, _, _, _, hCase⟩
  rcases hCase with ⟨_, hNext⟩ | ⟨_, hNext⟩
  · apply hInv o
    rw [hNext] at ho
    rw [hSplit]
    rcases List.mem_append.mp ho with h | h <;> simp [h]
  · rw [hNext] at ho
    rcases List.mem_append.mp ho with h | h
    · exact hInv o (by simp [hSplit, h])
    · rcases List.mem_cons.mp h with rfl | h
      · rcases hInv other (by simp [hSplit]) with
          ⟨o', hIn, hShrinks⟩
        refine ⟨o', hIn, Order.Shrinks.trans ?_ hShrinks⟩
        refine ⟨rfl, rfl, rfl, rfl, rfl, ?_⟩
        rw [UInt32.le_iff_toNat_le,
          UInt32.toNat_sub_of_le _ _
            (minU32_le_right _ _)]
        omega
      · exact hInv o (by simp [hSplit, h])

/- A remainder is left only when nothing faces it. -/
theorem matchLoop_exhausts
    (side : Side)
    (inst : Fin 2)
    (price : UInt32)
    (owner : Int)
    (m : MatchState)
    (hLeft :
      0 < (matchLoop side inst price owner m).remaining) :
    ∀ o ∈ (matchLoop side inst price owner m).resting,
      restsAt inst side.opposite price o = false := by
  have hDone := matchLoop_done side inst price owner m
  rw [matchStep_eq_none_iff] at hDone
  rcases hDone with hZero | hNone
  · rw [hZero] at hLeft
    exact absurd hLeft (UInt32.lt_irrefl 0)
  · exact hNone

theorem step_uncrossed
    (r : Reference)
    (call : Call)
    (hUncrossed : Uncrossed r.resting) :
    Uncrossed (r.step call).1.resting := by
  cases call with
  | submit side inst qty price owner =>
      simp only [step, submit]
      set m :=
        matchLoop side inst price owner
          { remaining := qty
            resting := r.resting
            out := [] } with hm
      have hOld : Uncrossed m.resting := by
        intro a ha b hb hInst hPrice
        rcases matchLoop_shrinks side inst price owner _
            a ha with
          ⟨a', ha', _, hSideA, hInstA, hPriceA, _⟩
        rcases matchLoop_shrinks side inst price owner _
            b hb with
          ⟨b', hb', _, hSideB, hInstB, hPriceB, _⟩
        rw [hSideA, hSideB]
        apply hUncrossed a' ha' b' hb'
        · rw [← hInstA, ← hInstB, hInst]
        · rw [← hPriceA, ← hPriceB, hPrice]
      by_cases hLeft : 0 < m.remaining
      · -- Nobody at this key is on the opposite side.
        have hSide :
            ∀ o ∈ m.resting, o.inst = inst →
              o.price = price → o.side = side := by
          intro o ho hInst hPrice
          have hAway :=
            matchLoop_exhausts side inst price owner _
              hLeft o ho
          rw [Bool.eq_false_iff, Ne, restsAt_iff] at hAway
          by_contra hNe
          apply hAway
          refine ⟨hInst, ?_, hPrice⟩
          cases hO : o.side <;> cases side <;>
            simp_all [Side.opposite]
        rw [if_pos hLeft]
        intro a ha b hb hInst hPrice
        rcases List.mem_append.mp ha with ha | ha <;>
          rcases List.mem_append.mp hb with hb | hb
        · exact hOld a ha b hb hInst hPrice
        · rw [List.mem_singleton] at hb
          subst hb
          exact hSide a ha hInst hPrice
        · rw [List.mem_singleton] at ha
          subst ha
          exact (hSide b hb hInst.symm hPrice.symm).symm
        · rw [List.mem_singleton] at ha hb
          rw [ha, hb]
      · rw [if_neg hLeft]
        exact hOld
  | cancel id owner =>
      simp only [step, cancel]
      split
      · exact hUncrossed
      · split
        · exact hUncrossed
        · intro a ha b hb
          exact hUncrossed a (List.mem_of_mem_eraseP ha)
            b (List.mem_of_mem_eraseP hb)

end Reference

namespace Exchange

/-
  The book is never crossed: no instrument and price has
  both a resting buy and a resting sell order, and the two
  price maps of an instrument share no key.
-/
theorem run_not_crossed
    (calls : List Call)
    (hSubmits : submits calls < 2 ^ 32) :
    let e := Machine.final step empty calls
    (∀ (a b : UInt32) (oa ob : Order),
      e.orders[a]? = some oa → e.orders[b]? = some ob →
        oa.inst = ob.inst → oa.price = ob.price →
          ¬ (oa.side = .buy ∧ ob.side = .sell)) ∧
      ∀ (inst : Fin 2) (price : UInt32),
        ¬ (price ∈ e.books inst 0 ∧
          price ∈ e.books inst 1) := by
  intro e
  have hRep := represents_final hSubmits
  have hUncrossed :
      Uncrossed
        (Machine.final Reference.step
          Reference.empty calls).resting :=
    Machine.final_invariant Reference.step
      (fun r => Uncrossed r.resting)
      Reference.step_uncrossed
      (by simp [Uncrossed, Reference.empty]) calls
  refine ⟨?_, ?_⟩
  · rintro a b oa ob ha hb hInst hPrice ⟨hBuy, hSell⟩
    have hSame :=
      hUncrossed oa ((hRep.orders a oa).mp ha).1
        ob ((hRep.orders b ob).mp hb).1 hInst hPrice
    rw [hBuy, hSell] at hSame
    cases hSame
  · rintro inst price ⟨hBuy, hSell⟩
    have hRests :
        ∀ side, price ∈ e.books inst (sideIdx side) →
          ∃ o ∈ (Machine.final Reference.step
              Reference.empty calls).resting,
            o.inst = inst ∧ o.side = side ∧
              o.price = price := by
      intro side hMem
      rw [Std.ExtTreeMap.mem_iff_isSome_getElem?,
        hRep.levels inst side price, levelEntry] at hMem
      split at hMem
      · cases hMem
      · rcases List.exists_mem_of_ne_nil _ ‹_› with
          ⟨id, hId⟩
        rcases mem_idsAt_iff.mp hId with
          ⟨o, hIn, _, hAt⟩
        exact ⟨o, hIn, hAt⟩
    rcases hRests .buy hBuy with ⟨a, ha, hia, hsa, hpa⟩
    rcases hRests .sell hSell with ⟨b, hb, hib, hsb, hpb⟩
    have hSame :=
      hUncrossed a ha b hb (hia.trans hib.symm)
        (hpa.trans hpb.symm)
    rw [hsa, hsb] at hSame
    cases hSame

theorem run_not_crossed_filling :
    100 ∉ (Machine.final step empty (fillingCalls 0)).books 0
      0 := by
  intro hBuys
  exact (run_not_crossed (fillingCalls 0) (by decide)).2 0 100
    ⟨hBuys, by decide⟩

end Exchange

end SocketExchange

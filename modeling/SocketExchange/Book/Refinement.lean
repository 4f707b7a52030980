import SocketExchange.Book.Reference

/-
  The exchange refines the reference exchange.

  `Represents e r` says that the id map and the four price
  maps of `e` are two indices of the one list of `r`: the
  map finds every resting order by its id, and each level
  lists, in arrival order, the ids resting at its key. The
  relation is kept by the matching loop turn by turn, and so
  by every call.

  Main declarations:
    * `Represents`
    * `Represents.submit`
    * `Represents.cancel`
    * `Represents.run`
    * `exchange_refines_reference`
-/

------------------------------------------------------------
-- The Representation Relation
------------------------------------------------------------

namespace SocketExchange

/- The ids resting at a key, in arrival order. -/
def idsAt
    (resting : List Order)
    (inst : Fin 2)
    (side : Side)
    (price : UInt32) : List UInt32 :=
  (resting.filter (restsAt inst side price)).map Order.id

/- The map entry of a level: absent when nobody rests there. -/
def levelEntry (ids : List UInt32) : Option (List UInt32) :=
  if ids = [] then none else some ids

@[simp] theorem levelEntry_getD (ids : List UInt32) :
    (levelEntry ids).getD [] = ids := by
  unfold levelEntry
  by_cases hEmpty : ids = []
  · simp [hEmpty]
  · simp [hEmpty]

/- The id map is an index of a list of orders. -/
def IndexedBy
    (orders : Orders)
    (resting : List Order) : Prop :=
  ∀ id o,
    orders[id]? = some o ↔ o ∈ resting ∧ o.id = id

/- The four price maps list a list of orders by key. -/
def QueuedBy
    (books : Books)
    (resting : List Order) : Prop :=
  ∀ inst side price,
    (books inst (sideIdx side))[price]? =
      levelEntry (idsAt resting inst side price)

structure Represents
    (e : Exchange)
    (r : Reference) : Prop where
  nextId : e.nextId = r.nextId
  sorted : r.resting.Pairwise fun a b => a.id < b.id
  fresh : ∀ o ∈ r.resting, o.id < r.nextId
  positive : ∀ o ∈ r.resting, 0 < o.remaining
  orders : IndexedBy e.orders r.resting
  levels : QueuedBy e.books r.resting

theorem represents_empty :
    Represents Exchange.empty Reference.empty where
  nextId := rfl
  sorted := List.Pairwise.nil
  fresh := by simp [Reference.empty]
  positive := by simp [Reference.empty]
  orders := by
    intro id o
    simp [Exchange.empty, Reference.empty]
  levels := by
    intro inst side price
    simp [Exchange.empty, Reference.empty, idsAt,
      levelEntry]

theorem sideIdx_injective : Function.Injective sideIdx := by
  intro a b hEq
  cases a <;> cases b <;> simp_all [sideIdx]

end SocketExchange

------------------------------------------------------------
-- Indices Under List Updates
------------------------------------------------------------

namespace SocketExchange

/- Dropping an order from the list drops its index entry. -/
theorem IndexedBy.erase
    {orders : Orders}
    {before after : List Order}
    {other : Order}
    (hSorted :
      (before ++ other :: after).Pairwise
        fun a b => a.id < b.id)
    (hIndex : IndexedBy orders (before ++ other :: after)) :
    IndexedBy (orders.erase other.id)
      (before ++ after) := by
  intro id o
  rw [FirstMatch.mem_append_iff_of_pairwise hSorted o,
    Std.ExtTreeMap.getElem?_erase]
  by_cases hId : other.id = id
  · subst hId
    simp
  · have hCompare : compare other.id id ≠ .eq := by
      simpa using hId
    rw [if_neg hCompare, hIndex id o]
    constructor
    · rintro ⟨hMem, rfl⟩
      exact ⟨⟨hMem, fun h => hId h.symm⟩, rfl⟩
    · rintro ⟨⟨hMem, _⟩, hEq⟩
      exact ⟨hMem, hEq⟩

/- Rewriting an order in place rewrites its index entry. -/
theorem IndexedBy.modify
    {orders : Orders}
    {before after : List Order}
    {other other' : Order}
    (hId : other'.id = other.id)
    (hSorted :
      (before ++ other :: after).Pairwise
        fun a b => a.id < b.id)
    (hIndex : IndexedBy orders (before ++ other :: after)) :
    IndexedBy (orders.insert other.id other')
      (before ++ other' :: after) := by
  have hSorted' :=
    FirstMatch.pairwise_of_key_eq hId hSorted
  have hMem :
      ∀ o, o ∈ before ++ other' :: after ↔
        o = other' ∨
          (o ∈ before ++ other :: after ∧
            o.id ≠ other.id) := by
    intro o
    rw [← FirstMatch.mem_append_iff_of_pairwise hSorted o]
    simp only [List.mem_append, List.mem_cons]
    tauto
  intro id o
  rw [Std.ExtTreeMap.getElem?_insert, hMem]
  by_cases hEq : other.id = id
  · subst hEq
    rw [if_pos (by simp)]
    constructor
    · intro hSome
      have hSame : other' = o := Option.some.inj hSome
      subst hSame
      exact ⟨Or.inl rfl, hId⟩
    · rintro ⟨rfl | ⟨_, hNe⟩, hKey⟩
      · rfl
      · exact absurd hKey hNe
  · have hCompare : compare other.id id ≠ .eq := by
      simpa using hEq
    rw [if_neg hCompare, hIndex id o]
    constructor
    · rintro ⟨hIn, rfl⟩
      exact ⟨Or.inr ⟨hIn, fun h => hEq h.symm⟩, rfl⟩
    · rintro ⟨rfl | ⟨hIn, _⟩, hKey⟩
      · exact absurd (hId.symm.trans hKey) hEq
      · exact ⟨hIn, hKey⟩

/- Appending a fresh order adds its index entry. -/
theorem IndexedBy.append
    {orders : Orders}
    {resting : List Order}
    (hIndex : IndexedBy orders resting)
    (o' : Order)
    (hFresh : ∀ o ∈ resting, o.id ≠ o'.id) :
    IndexedBy (orders.insertIfNew o'.id o')
      (resting ++ [o']) := by
  have hAbsent : o'.id ∉ orders := by
    rw [Std.ExtTreeMap.mem_iff_isSome_getElem?]
    intro hSome
    rcases Option.isSome_iff_exists.mp hSome with ⟨o, ho⟩
    rcases (hIndex o'.id o).mp ho with ⟨hMem, hId⟩
    exact hFresh o hMem hId
  intro id o
  rw [Std.ExtTreeMap.getElem?_insertIfNew]
  simp only [List.mem_append, List.mem_singleton]
  by_cases hEq : o'.id = id
  · subst hEq
    rw [if_pos ⟨by simp, hAbsent⟩]
    constructor
    · intro hSome
      have hSame : o' = o := Option.some.inj hSome
      subst hSame
      exact ⟨Or.inr rfl, rfl⟩
    · rintro ⟨hMem | rfl, hKey⟩
      · exact absurd hKey (hFresh o hMem)
      · rfl
  · have hCompare :
        ¬ (compare o'.id id = .eq ∧ o'.id ∉ orders) := by
      rintro ⟨h, _⟩
      exact hEq (by simpa using h)
    rw [if_neg hCompare, hIndex id o]
    constructor
    · rintro ⟨hMem, hKey⟩
      exact ⟨Or.inl hMem, hKey⟩
    · rintro ⟨hMem | rfl, hKey⟩
      · exact ⟨hMem, hKey⟩
      · exact absurd hKey hEq

end SocketExchange

------------------------------------------------------------
-- The Matching Loop
------------------------------------------------------------

namespace SocketExchange

/-
  The two matching loops side by side. The level holds the
  ids facing the incoming order, and every other key of the
  list is as it was in the list `start` the loops began on.
-/
structure MatchRel
    (start : List Order)
    (side : Side)
    (inst : Fin 2)
    (price : UInt32)
    (m : Exchange.MatchState)
    (n : Reference.MatchState) : Prop where
  remaining : m.remaining = n.remaining
  out : m.out = n.out
  level :
    m.level = idsAt n.resting inst side.opposite price
  orders : IndexedBy m.orders n.resting
  sorted : n.resting.Pairwise fun a b => a.id < b.id
  positive : ∀ o ∈ n.resting, 0 < o.remaining
  ids : ∀ o ∈ n.resting, ∃ o' ∈ start, o.id = o'.id
  others :
    ∀ i s p,
      ¬ (i = inst ∧ s = side.opposite ∧ p = price) →
        idsAt n.resting i s p = idsAt start i s p

/- Dropping a facing order leaves all other keys alone. -/
theorem idsAt_drop_of_ne
    {before after : List Order}
    {other : Order}
    {inst i : Fin 2}
    {side s : Side}
    {price p : UInt32}
    (hOther : restsAt inst side price other = true)
    (hNe : ¬ (i = inst ∧ s = side ∧ p = price)) :
    idsAt (before ++ other :: after) i s p =
      idsAt (before ++ after) i s p := by
  have hAway : restsAt i s p other = false := by
    rw [restsAt_iff] at hOther
    rcases hOther with ⟨rfl, rfl, rfl⟩
    rw [Bool.eq_false_iff]
    intro hAt
    rw [restsAt_iff] at hAt
    exact hNe ⟨hAt.1.symm, hAt.2.1.symm, hAt.2.2.symm⟩
  simp [idsAt, List.filter_append, hAway]

/- The quantity of an order does not show in the levels. -/
theorem idsAt_modify
    (before after : List Order)
    (other : Order)
    (q : UInt32)
    (i : Fin 2)
    (s : Side)
    (p : UInt32) :
    idsAt
        (before ++ { other with remaining := q } :: after)
        i s p =
      idsAt (before ++ other :: after) i s p := by
  simp only [idsAt, List.filter_append, List.map_append]
  congr 1
  by_cases hAt : restsAt i s p other = true
  · rw [List.filter_cons_of_pos hAt,
      List.filter_cons_of_pos
        ((restsAt_remaining i s p other q).trans hAt)]
    rfl
  · rw [List.filter_cons_of_neg hAt,
      List.filter_cons_of_neg (by
        rwa [restsAt_remaining])]

/- The first facing order heads its level. -/
theorem idsAt_split
    {before after : List Order}
    {other : Order}
    {inst : Fin 2}
    {side : Side}
    {price : UInt32}
    (hBefore :
      ∀ o ∈ before, restsAt inst side price o = false)
    (hOther : restsAt inst side price other = true) :
    idsAt (before ++ other :: after) inst side price =
        other.id :: idsAt (before ++ after) inst side price
      := by
  have hNone :
      before.filter (restsAt inst side price) = [] := by
    rw [List.filter_eq_nil_iff]
    intro o ho
    simp only [hBefore o ho, Bool.false_eq_true,
      not_false_iff]
  simp only [idsAt, List.filter_append, hNone,
    List.filter_cons, hOther, if_true, List.nil_append,
    List.map_cons]

section Turn

variable {start before after : List Order}
variable {side : Side} {inst : Fin 2} {price : UInt32}
variable {owner : Int} {other : Order}
variable {m : Exchange.MatchState}
variable {n : Reference.MatchState}

/- Nothing left to trade: the level is empty too. -/
theorem MatchRel.stuck
    (hRel : MatchRel start side inst price m n)
    (hRight :
      Reference.matchStep side inst price owner n = none) :
    Exchange.matchStep side inst price owner m = none := by
  rw [Reference.matchStep_eq_none_iff] at hRight
  unfold Exchange.matchStep
  rcases hRight with hZero | hNone
  · simp [hRel.remaining, hZero]
  · have hEmpty :
        n.resting.filter
          (restsAt inst side.opposite price) = [] := by
      rw [List.filter_eq_nil_iff]
      intro o ho
      simp only [hNone o ho, Bool.false_eq_true,
        not_false_iff]
    simp [hRel.level, idsAt, hEmpty]

/- The order traded with is the front of the level. -/
theorem MatchRel.front
    (hRel : MatchRel start side inst price m n)
    (hSplit : n.resting = before ++ other :: after)
    (hBefore :
      ∀ o ∈ before,
        restsAt inst side.opposite price o = false)
    (hOther :
      restsAt inst side.opposite price other = true) :
    m.level =
        other.id ::
          idsAt (before ++ after) inst side.opposite
            price ∧
      m.orders[other.id]? = some other := by
  constructor
  · rw [hRel.level, hSplit, idsAt_split hBefore hOther]
  · exact (hRel.orders other.id other).mpr
      ⟨by simp [hSplit], rfl⟩

/- It is filled up and leaves both states. -/
theorem MatchRel.drop
    (hRel : MatchRel start side inst price m n)
    (hSplit : n.resting = before ++ other :: after)
    (hOther :
      restsAt inst side.opposite price other = true)
    (remaining : UInt32)
    (out : List Trade) :
    MatchRel start side inst price
      { remaining := remaining
        level :=
          idsAt (before ++ after) inst side.opposite price
        orders := m.orders.erase other.id
        out := out }
      { remaining := remaining
        resting := before ++ after
        out := out } := by
  have hSorted := hRel.sorted
  have hOrders := hRel.orders
  rw [hSplit] at hSorted hOrders
  have hSubset :
      ∀ o ∈ before ++ after, o ∈ n.resting := by
    intro o ho
    rw [hSplit]
    rcases List.mem_append.mp ho with h | h <;> simp [h]
  exact
    { remaining := rfl
      out := rfl
      level := rfl
      orders := hOrders.erase hSorted
      sorted := hSorted.sublist (by simp)
      positive := fun o ho =>
        hRel.positive o (hSubset o ho)
      ids := fun o ho => hRel.ids o (hSubset o ho)
      others := by
        intro i s p hNe
        rw [← hRel.others i s p hNe, hSplit]
        exact (idsAt_drop_of_ne hOther hNe).symm }

/- It keeps its place, with less quantity. -/
theorem MatchRel.lower
    {q : UInt32}
    (hRel : MatchRel start side inst price m n)
    (hSplit : n.resting = before ++ other :: after)
    (hRest : q ≠ 0)
    (remaining : UInt32)
    (out : List Trade) :
    MatchRel start side inst price
      { remaining := remaining
        level := m.level
        orders :=
          m.orders.insert other.id
            { other with remaining := q }
        out := out }
      { remaining := remaining
        resting :=
          before ++ { other with remaining := q } :: after
        out := out } := by
  have hSorted := hRel.sorted
  have hOrders := hRel.orders
  rw [hSplit] at hSorted hOrders
  -- A resting order is an old one, or the one lowered.
  have hMem :
      ∀ o ∈ before ++ { other with remaining := q } :: after,
        o ∈ n.resting ∨
          o = { other with remaining := q } := by
    intro o ho
    rw [hSplit]
    rcases List.mem_append.mp ho with h | h
    · exact Or.inl (by simp [h])
    · rcases List.mem_cons.mp h with hIs | h
      · exact Or.inr hIs
      · exact Or.inl (by simp [h])
  exact
    { remaining := rfl
      out := rfl
      level := by
        rw [idsAt_modify, ← hSplit]
        exact hRel.level
      orders := hOrders.modify rfl hSorted
      sorted := by
        refine FirstMatch.pairwise_of_key_eq ?_ hSorted
        rfl
      positive := by
        intro o ho
        rcases hMem o ho with hOld | rfl
        · exact hRel.positive o hOld
        · exact UInt32.pos_iff_ne_zero.mpr hRest
      ids := by
        intro o ho
        rcases hMem o ho with hOld | rfl
        · exact hRel.ids o hOld
        · exact hRel.ids other (by simp [hSplit])
      others := by
        intro i s p hNe
        rw [idsAt_modify, ← hSplit]
        exact hRel.others i s p hNe }

/- One turn of both loops keeps them related. -/
theorem MatchRel.step
    (hRel : MatchRel start side inst price m n) :
    Loop.Lockstep (MatchRel start side inst price)
      (Exchange.matchStep side inst price owner m)
      (Reference.matchStep side inst price owner n) := by
  cases hRight :
      Reference.matchStep side inst price owner n with
  | none =>
      rw [hRel.stuck hRight]
      trivial
  | some n' =>
      rcases Reference.matchStep_cases hRight with
        ⟨hPos, before, other, after, hSplit, hBefore,
          hOther, hRem, hOut, hCase⟩
      rcases hRel.front hSplit hBefore hOther with
        ⟨hLevel, hLookup⟩
      rcases hCase with ⟨hFilled, hNext⟩ | ⟨hRest, hNext⟩
      · have hLeft :
            Exchange.matchStep side inst price owner m =
              some
                { remaining := n'.remaining
                  level :=
                    idsAt (before ++ after) inst
                      side.opposite price
                  orders := m.orders.erase other.id
                  out := n'.out } := by
          unfold Exchange.matchStep
          simp [hLevel, hLookup, hRel.remaining, hPos,
            hFilled, hRem, hOut, hRel.out]
        have hDrop :=
          hRel.drop hSplit hOther n'.remaining n'.out
        rw [← hNext] at hDrop
        rw [hLeft, ← hNext]
        exact hDrop
      · have hLeft :
            Exchange.matchStep side inst price owner m =
              some
                { remaining := n'.remaining
                  level := m.level
                  orders :=
                    m.orders.insert other.id
                      { other with
                        remaining :=
                          other.remaining -
                            minU32 n.remaining
                              other.remaining }
                  out := n'.out } := by
          unfold Exchange.matchStep
          simp [hLevel, hLookup, hRel.remaining, hPos,
            hRest, hRem, hOut, hRel.out]
        have hLower :=
          hRel.lower hSplit hRest n'.remaining n'.out
        rw [← hNext] at hLower
        rw [hLeft]
        exact hLower

end Turn

/- Both loops on entry. -/
theorem Represents.matchStart
    {e : Exchange}
    {r : Reference}
    (hRep : Represents e r)
    (side : Side)
    (inst : Fin 2)
    (qty price : UInt32)
    (out : List Trade) :
    MatchRel r.resting side inst price
      (e.matchStart side inst qty price out)
      { remaining := qty
        resting := r.resting
        out := out } where
  remaining := rfl
  out := rfl
  level := by
    simp [Exchange.matchStart, hRep.levels inst]
  orders := hRep.orders
  sorted := hRep.sorted
  positive := hRep.positive
  ids := fun o ho => ⟨o, ho, rfl⟩
  others := fun _ _ _ _ => rfl

/- The loops are related at the head of every turn. -/
theorem Represents.matchTurn
    {e : Exchange}
    {r : Reference}
    (hRep : Represents e r)
    (side : Side)
    (inst : Fin 2)
    (qty price : UInt32)
    (owner : Int)
    (out : List Trade)
    (turn : Nat) :
    MatchRel r.resting side inst price
      (Loop.iterate
        (Exchange.matchStep side inst price owner) turn
        (e.matchStart side inst qty price out))
      (Loop.iterate
        (Reference.matchStep side inst price owner) turn
        { remaining := qty
          resting := r.resting
          out := out }) :=
  Loop.iterate_rel (fun _ _ h => h.step) turn
    (hRep.matchStart side inst qty price out)

/- The loops end related, whatever fuel each was given. -/
theorem Represents.matchLoop
    {e : Exchange}
    {r : Reference}
    (hRep : Represents e r)
    (side : Side)
    (inst : Fin 2)
    (qty price : UInt32)
    (owner : Int)
    (out : List Trade) :
    MatchRel r.resting side inst price
      (Exchange.matchLoop side inst price owner
        (e.matchStart side inst qty price out))
      (Reference.matchLoop side inst price owner
        { remaining := qty
          resting := r.resting
          out := out }) := by
  set m := e.matchStart side inst qty price out
  set n : Reference.MatchState :=
    { remaining := qty, resting := r.resting, out := out }
  set fuel :=
    max (m.level.length + 1) (n.resting.length + 1)
  have hLeft :
      Loop.iterate
          (Exchange.matchStep side inst price owner)
          fuel m =
        Exchange.matchLoop side inst price owner m :=
    Loop.iterate_eq_of_done
      (Exchange.matchLoop_done side inst price owner m)
      (Nat.le_max_left _ _)
  have hRight :
      Loop.iterate
          (Reference.matchStep side inst price owner)
          fuel n =
        Reference.matchLoop side inst price owner n :=
    Loop.iterate_eq_of_done
      (Reference.matchLoop_done side inst price owner n)
      (Nat.le_max_right _ _)
  rw [← hLeft, ← hRight]
  exact hRep.matchTurn side inst qty price owner out fuel

end SocketExchange

------------------------------------------------------------
-- Price Maps Under List Updates
------------------------------------------------------------

namespace SocketExchange

open Exchange

theorem getElem?_settleLevel
    (levels : Levels)
    (price : UInt32)
    (level : List UInt32)
    (p : UInt32) :
    (settleLevel levels price level)[p]? =
      if p = price then
        if levels[price]? = none then none
        else levelEntry level
      else levels[p]? := by
  unfold settleLevel levelEntry
  cases hLevel : levels[price]? with
  | none =>
      by_cases hPrice : p = price
      · subst hPrice
        simp [hLevel]
      · simp [hPrice]
  | some ids =>
      by_cases hPrice : p = price
      · subst hPrice
        by_cases hEmpty : level = []
        · simp [hEmpty]
        · simp [hEmpty]
      · have hNe : ¬ price = p := fun h => hPrice h.symm
        by_cases hEmpty : level = []
        · simp [hEmpty, hPrice,
            Std.ExtTreeMap.getElem?_erase, hNe]
        · simp [hEmpty, hPrice,
            Std.ExtTreeMap.getElem?_insert, hNe]

theorem getElem?_pushBack
    (levels : Levels)
    (price id p : UInt32) :
    (pushBack levels price id)[p]? =
      if p = price then
        some (levels[price]?.getD [] ++ [id])
      else levels[p]? := by
  unfold pushBack
  rw [Std.ExtTreeMap.getElem?_insert]
  by_cases hPrice : p = price
  · simp [hPrice]
  · have hNe : ¬ price = p := fun h => hPrice h.symm
    simp [hPrice, hNe]

/- Erasing from a level is settling what is left of it. -/
theorem eraseFromLevel_eq
    (levels : Levels)
    (price id : UInt32) :
    eraseFromLevel levels price id =
      settleLevel levels price
        ((levels[price]?.getD []).erase id) := by
  unfold eraseFromLevel settleLevel
  cases levels[price]? <;> rfl

/- What erasing an id from a level leaves of the levels. -/
theorem getElem?_eraseFromLevel
    (levels : Levels)
    (price id p : UInt32) :
    (eraseFromLevel levels price id)[p]? =
      if p = price then
        levelEntry ((levels[price]?.getD []).erase id)
      else levels[p]? := by
  rw [eraseFromLevel_eq, getElem?_settleLevel]
  by_cases hPrice : p = price
  · rw [if_pos hPrice, if_pos hPrice]
    split
    · next hNone =>
        rw [hNone]
        rfl
    · rfl
  · rw [if_neg hPrice, if_neg hPrice]

/-
  Settling one level moves the price maps to a list that
  differs at that key only, provided an absent level stays
  empty.
-/
theorem QueuedBy.settle
    {books : Books}
    {resting resting' : List Order}
    {inst : Fin 2}
    {side : Side}
    {price : UInt32}
    (hQueued : QueuedBy books resting)
    (hAbsent :
      idsAt resting inst side price = [] →
        idsAt resting' inst side price = [])
    (hOthers :
      ∀ i s p,
        ¬ (i = inst ∧ s = side ∧ p = price) →
          idsAt resting' i s p = idsAt resting i s p) :
    QueuedBy
      (books.set inst (sideIdx side)
        (settleLevel (books inst (sideIdx side)) price
          (idsAt resting' inst side price)))
      resting' := by
  intro i s p
  by_cases hBook : i = inst ∧ sideIdx s = sideIdx side
  · rcases hBook with ⟨rfl, hSide⟩
    have hSame := sideIdx_injective hSide
    subst hSame
    rw [Books.set_self, getElem?_settleLevel]
    by_cases hPrice : p = price
    · subst hPrice
      rw [if_pos rfl, hQueued i s p]
      by_cases hEmpty : idsAt resting i s p = []
      · simp [levelEntry, hEmpty, hAbsent hEmpty]
      · simp [levelEntry, hEmpty]
    · rw [if_neg hPrice, hQueued i s p,
        hOthers i s p (fun h => hPrice h.2.2)]
  · rw [Books.set_of_ne _ _ hBook, hQueued i s p,
      hOthers i s p]
    rintro ⟨hInst, hSide, _⟩
    exact hBook ⟨hInst, congrArg sideIdx hSide⟩

/- Pushing an id at the back of a level appends its order. -/
theorem QueuedBy.push
    {books : Books}
    {resting : List Order}
    (hQueued : QueuedBy books resting)
    (o : Order) :
    QueuedBy
      (books.set o.inst (sideIdx o.side)
        (pushBack (books o.inst (sideIdx o.side))
          o.price o.id))
      (resting ++ [o]) := by
  intro i s p
  have hAppend :
      idsAt (resting ++ [o]) i s p =
        idsAt resting i s p ++
          if restsAt i s p o then [o.id] else [] := by
    simp only [idsAt, List.filter_append, List.map_append,
      List.filter_cons, List.filter_nil]
    split <;> rfl
  rw [hAppend]
  by_cases hBook : i = o.inst ∧ sideIdx s = sideIdx o.side
  · rcases hBook with ⟨rfl, hSide⟩
    have hSame := sideIdx_injective hSide
    subst hSame
    rw [Books.set_self, getElem?_pushBack]
    by_cases hPrice : p = o.price
    · subst hPrice
      rw [if_pos rfl, hQueued o.inst o.side o.price,
        levelEntry_getD]
      simp [levelEntry]
    · have hAway : restsAt o.inst o.side p o = false := by
        simpa [restsAt] using fun h : o.price = p =>
          hPrice h.symm
      rw [if_neg hPrice, hQueued o.inst o.side p, hAway]
      simp
  · have hAway : restsAt i s p o = false := by
      rw [Bool.eq_false_iff]
      intro hAt
      rw [restsAt_iff] at hAt
      exact hBook ⟨hAt.1.symm, by rw [hAt.2.1]⟩
    rw [Books.set_of_ne _ _ hBook, hQueued i s p, hAway]
    simp

/- Dropping an order erases its id from its level. -/
theorem idsAt_erase
    {before after : List Order}
    {o : Order}
    (hSorted :
      (before ++ o :: after).Pairwise
        fun a b => a.id < b.id) :
    (idsAt (before ++ o :: after)
        o.inst o.side o.price).erase o.id =
      idsAt (before ++ after) o.inst o.side o.price := by
  have hAt : restsAt o.inst o.side o.price o = true := by
    simp
  have hNotBefore :
      o.id ∉
        (before.filter
          (restsAt o.inst o.side o.price)).map
            Order.id := by
    intro hMem
    rcases List.mem_map.mp hMem with ⟨o', ho', hId⟩
    have hIn := (List.mem_filter.mp ho').1
    have hLt :=
      (List.pairwise_append.mp hSorted).2.2 o' hIn o
        (by simp)
    exact UInt32.ne_of_lt hLt hId
  simp only [idsAt, List.filter_append, List.map_append,
    List.filter_cons_of_pos hAt, List.map_cons]
  rw [List.erase_append_right _ hNotBefore,
    List.erase_cons_head]

end SocketExchange

------------------------------------------------------------
-- Calls
------------------------------------------------------------

namespace SocketExchange

/- The counter moves up unless it wraps. -/
theorem lt_succ_of_room
    {a : UInt32}
    (hRoom : a.toNat + 1 < 2 ^ 32) :
    a < a + 1 := by
  rw [UInt32.lt_iff_toNat_lt, UInt32.toNat_add]
  simp
  omega

/- An absent opposite level means the loop never runs. -/
theorem Represents.level_absent
    {e : Exchange}
    {r : Reference}
    (hRep : Represents e r)
    (side : Side)
    (inst : Fin 2)
    (qty price : UInt32)
    (owner : Int)
    (out : List Trade)
    (hEmpty :
      idsAt r.resting inst side.opposite price = []) :
    idsAt
      (Reference.matchLoop side inst price owner
        { remaining := qty
          resting := r.resting
          out := out }).resting inst side.opposite price =
        [] := by
  have hLoop :=
    hRep.matchLoop side inst qty price owner out
  have hLevel :
      (e.matchStart side inst qty price out).level =
        [] := by
    rw [(hRep.matchStart side inst qty price out).level]
    exact hEmpty
  have hStuck :
      Exchange.matchStep side inst price owner
          (e.matchStart side inst qty price out) =
        none := by
    simp [Exchange.matchStep, hLevel]
  rw [← hLoop.level, Exchange.matchLoop,
    Loop.iterate_of_none hStuck, hLevel]

/-
  Submission keeps the representation and answers like the
  reference, as long as the id counter does not wrap.
-/
theorem Represents.submit
    {e : Exchange}
    {r : Reference}
    (hRep : Represents e r)
    (hRoom : e.nextId.toNat + 1 < 2 ^ 32)
    (side : Side)
    (inst : Fin 2)
    (qty price : UInt32)
    (owner : Int)
    (out : List Trade) :
    (e.submit side inst qty price owner out).2 =
        (r.submit side inst qty price owner out).2 ∧
      Represents
        (e.submit side inst qty price owner out).1
        (r.submit side inst qty price owner out).1 := by
  have hLoop :=
    hRep.matchLoop side inst qty price owner out
  unfold Exchange.submit Reference.submit
  dsimp only
  set m :=
    Exchange.matchLoop side inst price owner
      (e.matchStart side inst qty price out) with hm
  set n :=
    Reference.matchLoop side inst price owner
      { remaining := qty
        resting := r.resting
        out := out } with hn
  have hNext : r.nextId < r.nextId + 1 :=
    lt_succ_of_room (by rw [← hRep.nextId]; exact hRoom)
  have hOld : ∀ o ∈ n.resting, o.id < r.nextId := by
    intro o ho
    rcases hLoop.ids o ho with ⟨o', ho', hId⟩
    rw [hId]
    exact hRep.fresh o' ho'
  have hAbsent :
      idsAt r.resting inst side.opposite price = [] →
        idsAt n.resting inst side.opposite price = [] :=
    hRep.level_absent side inst qty price owner out
  have hBooks :=
    hRep.levels.settle hAbsent hLoop.others
  rw [← hLoop.level] at hBooks
  rw [hLoop.remaining]
  by_cases hRest : 0 < n.remaining
  · simp only [if_pos hRest]
    refine ⟨by rw [hRep.nextId, hLoop.out], ?_⟩
    rw [hRep.nextId]
    exact
      { nextId := rfl
        sorted := by
          rw [List.pairwise_append]
          refine ⟨hLoop.sorted, by simp, ?_⟩
          intro o ho o' ho'
          rw [List.mem_singleton] at ho'
          subst ho'
          exact hOld o ho
        fresh := by
          intro o ho
          rcases List.mem_append.mp ho with h | h
          · exact UInt32.lt_trans (hOld o h) hNext
          · rw [List.mem_singleton] at h
            subst h
            exact hNext
        positive := by
          intro o ho
          rcases List.mem_append.mp ho with h | h
          · exact hLoop.positive o h
          · rw [List.mem_singleton] at h
            subst h
            exact hRest
        orders := by
          refine hLoop.orders.append
            { id := r.nextId, side := side, inst := inst
              price := price, remaining := n.remaining
              owner := owner } ?_
          intro o ho
          exact UInt32.ne_of_lt (hOld o ho)
        levels :=
          hBooks.push
            { id := r.nextId, side := side, inst := inst
              price := price, remaining := n.remaining
              owner := owner } }
  · simp only [if_neg hRest]
    refine ⟨by rw [hRep.nextId, hLoop.out], ?_⟩
    rw [hRep.nextId]
    exact
      { nextId := rfl
        sorted := hLoop.sorted
        fresh := fun o ho =>
          UInt32.lt_trans (hOld o ho) hNext
        positive := hLoop.positive
        orders := hLoop.orders
        levels := hBooks }

/- The id map and the list search agree. -/
theorem Represents.find_eq
    {e : Exchange}
    {r : Reference}
    (hRep : Represents e r)
    (id : UInt32) :
    r.resting.find? (fun o => o.id == id) =
      e.orders[id]? := by
  cases hFind : r.resting.find? fun o => o.id == id with
  | none =>
      cases hLookup : e.orders[id]? with
      | none => rfl
      | some o =>
          rcases (hRep.orders id o).mp hLookup with
            ⟨hMem, hId⟩
          have hNot := List.find?_eq_none.mp hFind o hMem
          simp [hId] at hNot
  | some o =>
      have hMem := List.mem_of_find?_eq_some hFind
      have hId := List.find?_some hFind
      exact ((hRep.orders id o).mpr
        ⟨hMem, by simpa using hId⟩).symm

/- Cancellation keeps the representation and its answers. -/
theorem Represents.cancel
    {e : Exchange}
    {r : Reference}
    (hRep : Represents e r)
    (id : UInt32)
    (owner : Int) :
    (e.cancel id owner).2 = (r.cancel id owner).2 ∧
      Represents (e.cancel id owner).1
        (r.cancel id owner).1 := by
  unfold Exchange.cancel Reference.cancel
  cases hLookup : e.orders[id]? with
  | none =>
      rw [hRep.find_eq id, hLookup]
      exact ⟨rfl, hRep⟩
  | some o =>
      have hFind := hRep.find_eq id
      rw [hLookup] at hFind
      rw [hFind]
      by_cases hOwner : o.owner = owner
      · rcases FirstMatch.split hFind with
          ⟨before, after, hSplit, _, hId, hErase, _⟩
        have hKey : o.id = id := by simpa using hId
        subst hKey
        have hSorted := hRep.sorted
        have hOrders := hRep.orders
        rw [hSplit] at hSorted hOrders
        have hSubset :
            ∀ o' ∈ before ++ after, o' ∈ r.resting := by
          intro o' ho'
          rw [hSplit]
          rcases List.mem_append.mp ho' with h | h <;>
            simp [h]
        simp only [hOwner, ne_eq, not_true_eq_false,
          if_false, hErase, true_and]
        refine
          { nextId := hRep.nextId
            sorted := hSorted.sublist (by simp)
            fresh := fun o' ho' =>
              hRep.fresh o' (hSubset o' ho')
            positive := fun o' ho' =>
              hRep.positive o' (hSubset o' ho')
            orders := hOrders.erase hSorted
            levels := ?_ }
        rw [eraseFromLevel_eq,
          hRep.levels o.inst o.side o.price,
          levelEntry_getD, hSplit, idsAt_erase hSorted]
        apply hRep.levels.settle
        · intro hEmpty
          rw [hSplit] at hEmpty
          rw [← idsAt_erase hSorted, hEmpty]
          rfl
        · intro i s p hNe
          rw [hSplit]
          exact (idsAt_drop_of_ne (by simp) hNe).symm
      · simp only [ne_eq, hOwner, not_false_iff, if_true,
          true_and]
        exact hRep

end SocketExchange

------------------------------------------------------------
-- Runs
------------------------------------------------------------

namespace SocketExchange

/- Room for the submissions still to come. -/
def HasRoom (e : Exchange) (calls : List Call) : Prop :=
  e.nextId.toNat + submits calls < 2 ^ 32

/- Each submission spends one id. -/
theorem HasRoom.step
    {e : Exchange}
    {call : Call}
    {calls : List Call}
    (hRoom : HasRoom e (call :: calls)) :
    HasRoom (e.step call).1 calls := by
  unfold HasRoom at *
  cases call with
  | submit side inst qty price owner =>
      have hNext :
          (e.step
            (.submit side inst qty price owner)).1.nextId =
              e.nextId + 1 := by
        simp only [Exchange.step, Exchange.submit]
        split <;> rfl
      simp only [submits] at hRoom
      rw [hNext, UInt32.toNat_add]
      simp
      omega
  | cancel id owner =>
      have hNext :
          (e.step (.cancel id owner)).1.nextId =
            e.nextId := by
        simp only [Exchange.step, Exchange.cancel]
        split
        · rfl
        · split <;> rfl
      simp only [submits] at hRoom
      rw [hNext]
      exact hRoom

/- One call keeps the representation and its reply. -/
theorem Represents.step
    {e : Exchange}
    {r : Reference}
    {call : Call}
    {calls : List Call}
    (hRep : Represents e r)
    (hRoom : HasRoom e (call :: calls)) :
    (e.step call).2 = (r.step call).2 ∧
      Represents (e.step call).1 (r.step call).1 := by
  cases call with
  | submit side inst qty price owner =>
      have hSpare : e.nextId.toNat + 1 < 2 ^ 32 := by
        simp only [HasRoom, submits] at hRoom
        omega
      rcases hRep.submit hSpare side inst qty price
          owner [] with
        ⟨hReply, hNext⟩
      refine ⟨?_, hNext⟩
      simp only [Exchange.step, Reference.step, hReply]
  | cancel id owner =>
      rcases hRep.cancel id owner with ⟨hReply, hNext⟩
      refine ⟨?_, hNext⟩
      simp only [Exchange.step, Reference.step, hReply]

/- A whole run keeps the representation and its replies. -/
theorem Represents.run
    {e : Exchange}
    {r : Reference}
    {calls : List Call}
    (hRep : Represents e r)
    (hRoom : HasRoom e calls) :
    Machine.replies Exchange.step e calls =
        Machine.replies Reference.step r calls ∧
      Represents (Machine.final Exchange.step e calls)
        (Machine.final Reference.step r calls) := by
  have hSim :=
    Machine.simulation
      (fun e r calls => Represents e r ∧ HasRoom e calls)
      (fun e r call calls h =>
        let hStep := h.1.step h.2
        ⟨hStep.1, hStep.2, h.2.step⟩)
      ⟨hRep, hRoom⟩
  exact ⟨hSim.1, hSim.2.1⟩

theorem hasRoom_empty
    {calls : List Call}
    (hSubmits : submits calls < 2 ^ 32) :
    HasRoom Exchange.empty calls := by
  simpa [HasRoom, Exchange.empty] using hSubmits

/- A buyer fills one seller and part of the next. -/
def fillingCalls (inst : Fin 2) : List Call :=
  [.submit .sell inst 5 100 1, .submit .sell inst 7 100 2,
    .submit .buy inst 8 100 3, .submit .buy inst 1 99 3]

/- The rest is cancelled, first by the wrong trader. -/
def cancellingCalls (inst : Fin 2) : List Call :=
  fillingCalls inst ++
    [.cancel 1 3, .cancel 1 2, .cancel 1 2]

/-
  Any sequence of calls on an empty exchange is answered
  exactly as by the one-list exchange: the same ids, the
  same trades in the same order, and the same results and
  error texts of cancellations.
-/
theorem exchange_refines_reference
    (calls : List Call)
    (hSubmits : submits calls < 2 ^ 32) :
    Machine.replies Exchange.step Exchange.empty calls =
      Machine.replies Reference.step
        Reference.empty calls := by
  exact
    (represents_empty.run (hasRoom_empty hSubmits)).1

theorem exchange_refines_reference_cancelling :
    Machine.replies Reference.step Reference.empty
        (cancellingCalls 0) =
      [.submitted 0 [], .submitted 1 [],
        .submitted 2 [⟨0, 5, 100, 3, 1⟩, ⟨0, 3, 100, 3, 2⟩],
        .submitted 3 [],
        .cancelled (.error "not your order"),
        .cancelled (.ok ()),
        .cancelled (.error "unknown order")] := by
  rw [← exchange_refines_reference (cancellingCalls 0)
    (by decide)]
  decide

end SocketExchange

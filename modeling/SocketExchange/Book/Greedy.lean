import SocketExchange.Book.Invariant
import SocketExchange.Lists.Greedy

/-
  What one submission fills.

  The matching loop serves the opposite level front first,
  each order with as much as is left of the incoming one:
  its trades are the greedy split of the quantity over what
  remains of the orders of that level. Whatever is not at
  the level, or at the one where the remainder rests, stays
  as it was.

  Main declarations:
    * `Exchange.restingAt`
    * `Exchange.Splits`
    * `Exchange.GreedyFill`
    * `Exchange.run_submit_greedy`
-/

------------------------------------------------------------
-- Orders Facing A Submission
------------------------------------------------------------

namespace SocketExchange

namespace Exchange

/- The resting orders of one level, in arrival order. -/
def restingAt
    (e : Exchange)
    (inst : Fin 2)
    (side : Side)
    (price : UInt32) : List Order :=
  (e.deque inst (sideIdx side) price).filterMap
    fun id => e.orders[id]?

/- What remains of each order of a list. -/
def quantities (facing : List Order) : List Nat :=
  facing.map fun o => o.remaining.toNat

/- What remains of the orders before one, added up. -/
def ahead (facing : List Order) (j : Nat) : Nat :=
  ((quantities facing).take j).sum

/- The trades of a greedy split over a list of orders. -/
def greedyTrades
    (side : Side)
    (inst : Fin 2)
    (price : UInt32)
    (owner : Int)
    (q : Nat)
    (facing : List Order) : List Trade :=
  List.zipWith
    (fun o f =>
      fillTrade side inst price owner (UInt32.ofNat f) o)
    facing (Greedy.fills q (quantities facing))

@[simp] theorem quantities_cons
    (o : Order)
    (os : List Order) :
    quantities (o :: os) =
      o.remaining.toNat :: quantities os := rfl

@[simp] theorem ahead_zero (facing : List Order) :
    ahead facing 0 = 0 := rfl

theorem ahead_cons_succ
    (o : Order)
    (os : List Order)
    (j : Nat) :
    ahead (o :: os) (j + 1) =
      o.remaining.toNat + ahead os j := by
  simp [ahead]

theorem ahead_succ
    {facing : List Order}
    {j : Nat}
    {o : Order}
    (hAt : facing[j]? = some o) :
    ahead facing (j + 1) =
      ahead facing j + o.remaining.toNat := by
  have hShare :
      (quantities facing)[j]? = some o.remaining.toNat := by
    rw [quantities, List.getElem?_map, hAt]
    rfl
  rw [ahead, ahead, List.take_add_one, hShare]
  simp

theorem greedyTrades_cons
    {side : Side}
    {inst : Fin 2}
    {price : UInt32}
    {owner : Int}
    {q : Nat}
    (hPos : 0 < q)
    (o : Order)
    (os : List Order) :
    greedyTrades side inst price owner q (o :: os) =
      fillTrade side inst price owner
          (UInt32.ofNat (min o.remaining.toNat q)) o ::
        greedyTrades side inst price owner
          (q - o.remaining.toNat) os := by
  rw [greedyTrades, quantities_cons,
    Greedy.fills_cons hPos]
  rfl

theorem quantities_pos
    {facing : List Order}
    (hPos : ∀ o ∈ facing, 0 < o.remaining) :
    ∀ r ∈ quantities facing, 0 < r := by
  intro r hr
  rcases List.mem_map.mp hr with ⟨o, ho, rfl⟩
  exact UInt32.lt_iff_toNat_lt.mp (hPos o ho)

end Exchange

end SocketExchange

------------------------------------------------------------
-- The Matching Loop In Closed Form
------------------------------------------------------------

namespace SocketExchange

namespace Exchange

/- The level of the loop lists orders that are all there. -/
structure Serves
    (m : MatchState)
    (facing : List Order) : Prop where
  level : m.level = facing.map Order.id
  known : ∀ o ∈ facing, m.orders[o.id]? = some o
  once : (facing.map Order.id).Nodup
  positive : ∀ o ∈ facing, 0 < o.remaining

/- What the loop leaves of a level that it serves. -/
structure Splits
    (side : Side)
    (inst : Fin 2)
    (price : UInt32)
    (owner : Int)
    (facing : List Order)
    (m m' : MatchState) : Prop where
  remaining :
    m'.remaining.toNat =
      m.remaining.toNat - (quantities facing).sum
  out :
    m'.out =
      m.out ++
        greedyTrades side inst price owner
          m.remaining.toNat facing
  level :
    m'.level =
      m.level.drop
        (Greedy.full m.remaining.toNat (quantities facing))
  served :
    ∀ (j : Nat) (o : Order), facing[j]? = some o →
      m'.orders[o.id]? =
        if ahead facing (j + 1) ≤ m.remaining.toNat then
          none
        else
          some
            { o with
              remaining :=
                o.remaining -
                  UInt32.ofNat
                    (m.remaining.toNat - ahead facing j) }
  others :
    ∀ key : UInt32, key ∉ m.level →
      m'.orders[key]? = m.orders[key]?

section Loop

variable {side : Side} {inst : Fin 2}
variable {price : UInt32} {owner : Int}
variable {m : MatchState} {o : Order} {os : List Order}

/- A turn that fills the front order up. -/
theorem matchStep_takes
    (side : Side)
    (inst : Fin 2)
    (price : UInt32)
    (owner : Int)
    {rest : List UInt32}
    (hPos : 0 < m.remaining)
    (hLevel : m.level = o.id :: rest)
    (hKnown : m.orders[o.id]? = some o)
    (hFits : o.remaining ≤ m.remaining) :
    matchStep side inst price owner m =
      some
        { remaining := m.remaining - o.remaining
          level := rest
          orders := m.orders.erase o.id
          out := m.out ++
            [fillTrade side inst price owner
              o.remaining o] } := by
  have hMin :
      minU32 m.remaining o.remaining = o.remaining := by
    apply UInt32.toNat_inj.mp
    rw [minU32_toNat]
    exact Nat.min_eq_right (UInt32.le_iff_toNat_le.mp hFits)
  simp [matchStep, hPos, hLevel, hKnown, hMin]

/- A turn that the front order outlasts. -/
theorem matchStep_lowers
    (side : Side)
    (inst : Fin 2)
    (price : UInt32)
    (owner : Int)
    {rest : List UInt32}
    (hPos : 0 < m.remaining)
    (hLevel : m.level = o.id :: rest)
    (hKnown : m.orders[o.id]? = some o)
    (hShort : m.remaining < o.remaining) :
    matchStep side inst price owner m =
      some
        { remaining := 0
          level := m.level
          orders :=
            m.orders.insert o.id
              { o with
                remaining := o.remaining - m.remaining }
          out := m.out ++
            [fillTrade side inst price owner
              m.remaining o] } := by
  have hNat := UInt32.lt_iff_toNat_lt.mp hShort
  have hMin :
      minU32 m.remaining o.remaining = m.remaining := by
    apply UInt32.toNat_inj.mp
    rw [minU32_toNat]
    omega
  have hLeft : o.remaining - m.remaining ≠ 0 := by
    intro hZero
    have hSub := congrArg UInt32.toNat hZero
    rw [UInt32.toNat_sub_of_le _ _
      (UInt32.le_of_lt hShort)] at hSub
    simp at hSub
    omega
  simp [matchStep, hPos, hLevel, hKnown, hMin, hLeft]

/- The ids behind the front one are others. -/
theorem Serves.front_ne
    {a : Order}
    (hServes : Serves m (o :: os))
    (ha : a ∈ os) :
    ¬ o.id = a.id := by
  have hOnce := List.nodup_cons.mp hServes.once
  intro hSame
  exact hOnce.1 (hSame ▸ List.mem_map_of_mem ha)

theorem Serves.not_mem_level
    {key : UInt32}
    (hServes : Serves m (o :: os))
    (hKey : key ∉ m.level) :
    ¬ o.id = key ∧ key ∉ os.map Order.id := by
  rw [hServes.level, List.map_cons, List.mem_cons,
    not_or] at hKey
  exact ⟨fun h => hKey.1 h.symm, hKey.2⟩

/- Filling up the front order leaves the others to serve. -/
theorem Serves.tail
    {out : List Trade}
    {remaining : UInt32}
    (hServes : Serves m (o :: os)) :
    Serves
      { remaining := remaining
        level := os.map Order.id
        orders := m.orders.erase o.id
        out := out } os where
  level := rfl
  known := by
    intro a ha
    have hNe := hServes.front_ne ha
    dsimp only
    rw [Std.ExtTreeMap.getElem?_erase]
    simp [hNe,
      hServes.known a (List.mem_cons_of_mem _ ha)]
  once := (List.nodup_cons.mp hServes.once).2
  positive := fun a ha =>
    hServes.positive a (List.mem_cons_of_mem _ ha)

/- A loop that does not run leaves everything. -/
theorem Splits.refl
    {facing : List Order}
    (hServes : Serves m facing)
    (hIdle : facing = [] ∨ m.remaining = 0) :
    Splits side inst price owner facing m m := by
  have hFull :
      Greedy.full m.remaining.toNat (quantities facing) =
        0 := by
    rcases hIdle with rfl | hZero
    · rfl
    · rw [hZero]
      exact Greedy.full_zero
        (quantities_pos hServes.positive)
  have hTrades :
      greedyTrades side inst price owner
        m.remaining.toNat facing = [] := by
    rcases hIdle with rfl | hZero
    · rfl
    · simp [greedyTrades, hZero]
  refine ⟨?_, ?_, ?_, ?_, fun _ _ => rfl⟩
  · rcases hIdle with rfl | hZero
    · simp [quantities]
    · simp [hZero]
  · rw [hTrades, List.append_nil]
  · rw [hFull, List.drop_zero]
  · intro j a hAt
    have hMem := List.mem_of_getElem? hAt
    rcases hIdle with rfl | hZero
    · simp at hAt
    · have hLt :
          ¬ ahead facing (j + 1) ≤ m.remaining.toNat := by
        intro hLe
        have hNone := (Greedy.lt_full _ _ j).mpr
          ⟨by simpa [quantities] using
            (List.getElem?_eq_some_iff.mp hAt).1, hLe⟩
        rw [hFull] at hNone
        exact Nat.not_lt_zero _ hNone
      rw [if_neg hLt, hServes.known a hMem, hZero]
      simp

/- A turn that fills the front order up, and then the loop. -/
theorem Splits.take
    {m₁ m' : MatchState}
    (hServes : Serves m (o :: os))
    (hPos : 0 < m.remaining)
    (hFits : o.remaining ≤ m.remaining)
    (hNext :
      m₁ =
        { remaining := m.remaining - o.remaining
          level := os.map Order.id
          orders := m.orders.erase o.id
          out := m.out ++
            [fillTrade side inst price owner
              o.remaining o] })
    (hSplits : Splits side inst price owner os m₁ m') :
    Splits side inst price owner (o :: os) m m' := by
  have hFitsNat := UInt32.le_iff_toNat_le.mp hFits
  have hPosNat : 0 < m.remaining.toNat :=
    UInt32.lt_iff_toNat_lt.mp hPos
  have hLeft :
      m₁.remaining.toNat =
        m.remaining.toNat - o.remaining.toNat := by
    rw [hNext]
    exact UInt32.toNat_sub_of_le _ _ hFits
  have hOnce := List.nodup_cons.mp hServes.once
  refine ⟨?_, ?_, ?_, ?_, ?_⟩
  · rw [hSplits.remaining, hLeft, quantities_cons,
      List.sum_cons, Nat.sub_add_eq]
  · rw [hSplits.out, hLeft, greedyTrades_cons hPosNat,
      Nat.min_eq_left hFitsNat, UInt32.ofNat_toNat, hNext]
    exact List.append_assoc _ _ _
  · rw [hSplits.level, hLeft, hServes.level,
      quantities_cons, Greedy.full, if_pos hFitsNat, hNext]
    rfl
  · intro j a hAt
    cases j with
    | zero =>
        -- The front order is gone, and stays so.
        have hSame : o = a := by simpa using hAt
        subst hSame
        have hGone : o.id ∉ m₁.level := by
          rw [hNext]
          exact hOnce.1
        rw [hSplits.others _ hGone, hNext,
          ahead_cons_succ, ahead_zero, Nat.add_zero,
          if_pos hFitsNat]
        simp
    | succ j =>
        have hAt' : os[j]? = some a := by simpa using hAt
        have hSub :
            m.remaining.toNat - o.remaining.toNat -
                ahead os j =
              m.remaining.toNat -
                (o.remaining.toNat + ahead os j) :=
          (Nat.sub_add_eq _ _ _).symm
        rw [hSplits.served j a hAt', hLeft,
          ahead_cons_succ, ahead_cons_succ, hSub]
        by_cases hIn :
            o.remaining.toNat + ahead os (j + 1) ≤
              m.remaining.toNat
        · rw [if_pos hIn, if_pos (by omega)]
        · rw [if_neg hIn, if_neg (by omega)]
  · intro key hKey
    rcases hServes.not_mem_level hKey with ⟨hNe, hRest⟩
    have hKey' : key ∉ m₁.level := by
      rw [hNext]
      exact hRest
    rw [hSplits.others key hKey', hNext]
    simp [Std.ExtTreeMap.getElem?_erase, hNe]

/- A turn that the front order outlasts is the last one. -/
theorem Splits.lower
    {m' : MatchState}
    (hServes : Serves m (o :: os))
    (hPos : 0 < m.remaining)
    (hShort : m.remaining < o.remaining)
    (hNext :
      m' =
        { remaining := 0
          level := m.level
          orders :=
            m.orders.insert o.id
              { o with
                remaining := o.remaining - m.remaining }
          out := m.out ++
            [fillTrade side inst price owner
              m.remaining o] }) :
    Splits side inst price owner (o :: os) m m' := by
  have hShortNat := UInt32.lt_iff_toNat_lt.mp hShort
  have hPosNat : 0 < m.remaining.toNat :=
    UInt32.lt_iff_toNat_lt.mp hPos
  have hNone :
      m.remaining.toNat - o.remaining.toNat = 0 := by
    omega
  subst hNext
  refine ⟨?_, ?_, ?_, ?_, ?_⟩
  · rw [quantities_cons, List.sum_cons, Nat.sub_add_eq,
      hNone, Nat.zero_sub]
    rfl
  · rw [greedyTrades_cons hPosNat, hNone,
      Nat.min_eq_right (Nat.le_of_lt hShortNat)]
    simp [greedyTrades]
  · rw [quantities_cons, Greedy.full,
      if_neg (Nat.not_le.mpr hShortNat), List.drop_zero]
  · intro j a hAt
    cases j with
    | zero =>
        have hSame : o = a := by simpa using hAt
        subst hSame
        rw [ahead_cons_succ, ahead_zero, Nat.add_zero,
          if_neg (Nat.not_le.mpr hShortNat)]
        simp
    | succ j =>
        have hAt' : os[j]? = some a := by simpa using hAt
        have hMem := List.mem_of_getElem? hAt'
        have hNe := hServes.front_ne hMem
        have hLater :
            ¬ ahead (o :: os) (j + 1 + 1) ≤
              m.remaining.toNat := by
          rw [ahead_cons_succ]
          omega
        have hSpent :
            m.remaining.toNat - ahead (o :: os) (j + 1) =
              0 := by
          rw [ahead_cons_succ]
          omega
        rw [if_neg hLater, hSpent]
        dsimp only
        rw [Std.ExtTreeMap.getElem?_insert]
        simp [hNe, hServes.known a
          (List.mem_cons_of_mem _ hMem)]
  · intro key hKey
    rcases hServes.not_mem_level hKey with ⟨hNe, _⟩
    dsimp only
    rw [Std.ExtTreeMap.getElem?_insert]
    simp [hNe]

/- The loop splits the quantity greedily over its level. -/
theorem matchLoop_splits
    (side : Side)
    (inst : Fin 2)
    (price : UInt32)
    (owner : Int)
    {facing : List Order}
    (hServes : Serves m facing) :
    Splits side inst price owner facing m
      (matchLoop side inst price owner m) := by
  -- Induction on the level: a turn serves its front order,
  -- and is the last one unless it fills the order up.
  induction facing generalizing m with
  | nil =>
      have hStuck :
          matchStep side inst price owner m = none := by
        have hLevel : m.level = [] := hServes.level
        simp [matchStep, hLevel]
      rw [matchLoop, Loop.iterate_of_none hStuck]
      exact Splits.refl hServes (Or.inl rfl)
  | cons o os ih =>
      have hLevel : m.level = o.id :: os.map Order.id :=
        hServes.level
      have hKnown := hServes.known o List.mem_cons_self
      by_cases hPos : 0 < m.remaining
      · by_cases hFits : o.remaining ≤ m.remaining
        · have hStep :=
            matchStep_takes side inst price owner hPos hLevel
              hKnown hFits
          rw [matchLoop, Loop.iterate_succ_of_some hStep,
            hLevel, List.length_cons]
          exact Splits.take hServes hPos hFits rfl
            (ih hServes.tail)
        · have hShort := UInt32.not_le.mp hFits
          have hStep :=
            matchStep_lowers side inst price owner hPos hLevel
              hKnown hShort
          rw [matchLoop, Loop.iterate_succ_of_some hStep,
            Loop.iterate_of_none (by simp [matchStep])]
          exact Splits.lower hServes hPos hShort rfl
      · have hZero : m.remaining = 0 := by
          by_contra hNe
          exact hPos (UInt32.pos_iff_ne_zero.mpr hNe)
        rw [matchLoop, Loop.iterate_of_none
          (by simp [matchStep, hZero])]
        exact Splits.refl hServes (Or.inr hZero)

end Loop

end Exchange

end SocketExchange

------------------------------------------------------------
-- One Submission
------------------------------------------------------------

namespace SocketExchange

/- The orders of a level, read off the list. -/
theorem Represents.restingAt_eq
    {e : Exchange}
    {r : Reference}
    (hRep : Represents e r)
    (inst : Fin 2)
    (side : Side)
    (price : UInt32) :
    e.restingAt inst side price =
      r.resting.filter (restsAt inst side price) := by
  rw [Exchange.restingAt, hRep.deque_eq, idsAt,
    List.filterMap_map]
  refine Eq.trans (List.filterMap_congr ?_)
    List.filterMap_some
  intro o ho
  have hIn := (List.mem_filter.mp ho).1
  exact (hRep.orders o.id o).mpr ⟨hIn, rfl⟩

theorem Represents.serves
    {e : Exchange}
    {r : Reference}
    (hRep : Represents e r)
    (side : Side)
    (inst : Fin 2)
    (qty price : UInt32)
    (out : List Trade) :
    Exchange.Serves (e.matchStart side inst qty price out)
      (e.restingAt inst side.opposite price) := by
  have hLevel := hRep.deque_eq inst side.opposite price
  rw [hRep.restingAt_eq]
  refine ⟨hLevel, ?_, ?_, ?_⟩
  · intro o ho
    exact (hRep.orders o.id o).mpr
      ⟨(List.mem_filter.mp ho).1, rfl⟩
  · exact (idsAt_pairwise hRep.sorted _ _ _).imp
      UInt32.ne_of_lt
  · intro o ho
    exact hRep.positive o (List.mem_filter.mp ho).1

/- The id a submission is given is not in use. -/
theorem Represents.nextId_unused
    {e : Exchange}
    {r : Reference}
    (hRep : Represents e r) :
    e.orders[e.nextId]? = none := by
  cases hOrder : e.orders[e.nextId]? with
  | none => rfl
  | some o =>
      rcases (hRep.orders _ o).mp hOrder with ⟨hIn, hId⟩
      have hLt := hRep.fresh o hIn
      rw [hId, hRep.nextId] at hLt
      exact absurd hLt (UInt32.lt_irrefl _)

namespace Exchange

/-
  The two parties of a trade, by the side of the incoming
  order: who sent it, and who owns the order it met.
-/
def Parties
    (side : Side)
    (incoming resting : Int)
    (t : Trade) : Prop :=
  (side = .buy → t.buyerOwner = incoming ∧
    t.sellerOwner = resting) ∧
  (side = .sell → t.buyerOwner = resting ∧
    t.sellerOwner = incoming)

theorem fillTrade_parties
    (side : Side)
    (inst : Fin 2)
    (price : UInt32)
    (owner : Int)
    (q : UInt32)
    (o : Order) :
    Parties side owner o.owner
      (fillTrade side inst price owner q o) := by
  constructor
  · rintro rfl
    exact ⟨rfl, rfl⟩
  · rintro rfl
    exact ⟨rfl, rfl⟩

/-
  What a submission does, given the orders `facing` that
  rest opposite to it and the trades it appends.
-/
structure GreedyFill
    (e : Exchange)
    (side : Side)
    (inst : Fin 2)
    (qty price : UInt32)
    (owner : Int)
    (out : List Trade)
    (facing : List Order)
    (trades : List Trade)
    (r : Exchange × UInt32 × List Trade) : Prop where
  queued :
    e.deque inst (sideIdx side.opposite) price =
      facing.map Order.id
  appended : r.2.2 = out ++ trades
  count :
    ∀ j, j < trades.length ↔
      j < facing.length ∧ ahead facing j < qty.toNat
  trade :
    ∀ (j : Nat) (o : Order), facing[j]? = some o →
      j < trades.length →
        ∃ t, trades[j]? = some t ∧ 1 ≤ t.qty.toNat ∧
          t.qty.toNat =
            min o.remaining.toNat
              (qty.toNat - ahead facing j) ∧
          t.inst = inst ∧ t.price = price ∧
          Parties side owner o.owner t
  total :
    (trades.map fun t => t.qty.toNat).sum =
      min qty.toNat (quantities facing).sum
  removed :
    ∀ (j : Nat) (o : Order), facing[j]? = some o →
      j + 1 < trades.length → r.1.orders[o.id]? = none
  last :
    ∀ (j : Nat) (o : Order) (t : Trade),
      facing[j]? = some o → trades[j]? = some t →
      j + 1 = trades.length →
        r.1.orders[o.id]? =
          if t.qty = o.remaining then none
          else
            some
              { o with remaining := o.remaining - t.qty }
  untouched :
    ∀ (j : Nat) (o : Order), facing[j]? = some o →
      trades.length ≤ j → r.1.orders[o.id]? = some o
  level :
    (r.1.books inst (sideIdx side.opposite))[price]? =
      levelEntry
        ((facing.map Order.id).filter
          fun id => decide (id ∈ r.1.orders))
  rests :
    r.1.orders[e.nextId]? =
      if (quantities facing).sum < qty.toNat then
        some
          { id := e.nextId, side := side, inst := inst
            price := price
            remaining :=
              UInt32.ofNat
                (qty.toNat - (quantities facing).sum)
            owner := owner }
      else none
  own_level :
    (r.1.books inst (sideIdx side))[price]? =
      if (quantities facing).sum < qty.toNat then
        some
          (e.deque inst (sideIdx side) price ++ [e.nextId])
      else (e.books inst (sideIdx side))[price]?
  others :
    ∀ key : UInt32, key ∉ facing.map Order.id →
      key ≠ e.nextId → r.1.orders[key]? = e.orders[key]?
  other_levels :
    ∀ (i k : Fin 2) (p : UInt32),
      ¬ (i = inst ∧ p = price) →
        (r.1.books i k)[p]? = (e.books i k)[p]?
  next : r.2.1 = e.nextId ∧ r.1.nextId = e.nextId + 1

section Submit

variable {e : Exchange} {side : Side} {inst : Fin 2}
variable {qty price : UInt32} {owner : Int}
variable {out : List Trade} {m : MatchState}

theorem sideIdx_ne_opposite (side : Side) :
    ¬ sideIdx side = sideIdx side.opposite := by
  cases side with
  | buy => decide
  | sell => decide

/- The id, the trades and the next id. -/
theorem submit_reply
    (hLoop :
      matchLoop side inst price owner
        (e.matchStart side inst qty price out) = m) :
    (e.submit side inst qty price owner out).2 =
        (e.nextId, m.out) ∧
      (e.submit side inst qty price owner out).1.nextId =
        e.nextId + 1 := by
  unfold submit
  dsimp only
  rw [hLoop]
  split
  · exact ⟨rfl, rfl⟩
  · exact ⟨rfl, rfl⟩

/- The opposite level is what the loop left of it. -/
theorem submit_level
    (hLoop :
      matchLoop side inst price owner
        (e.matchStart side inst qty price out) = m) :
    ((e.submit side inst qty price owner out).1.books inst
        (sideIdx side.opposite))[price]? =
      if (e.books inst (sideIdx side.opposite))[price]? =
          none then none
      else levelEntry m.level := by
  have hSides : ¬ sideIdx side.opposite = sideIdx side :=
    fun h => sideIdx_ne_opposite side h.symm
  unfold submit
  dsimp only
  rw [hLoop]
  split
  · dsimp only
    rw [Books.set_of_ne _ _ (fun h => hSides h.2),
      Books.set_self, getElem?_settleLevel, if_pos rfl]
  · dsimp only
    rw [Books.set_self, getElem?_settleLevel, if_pos rfl]

theorem submit_own_level
    (hLoop :
      matchLoop side inst price owner
        (e.matchStart side inst qty price out) = m) :
    ((e.submit side inst qty price owner out).1.books inst
        (sideIdx side))[price]? =
      if 0 < m.remaining then
        some
          (e.deque inst (sideIdx side) price ++ [e.nextId])
      else (e.books inst (sideIdx side))[price]? := by
  have hSides := sideIdx_ne_opposite side
  unfold submit
  dsimp only
  rw [hLoop]
  split
  · dsimp only
    rw [Books.set_self,
      Books.set_of_ne _ _ (fun h => hSides h.2),
      getElem?_pushBack, if_pos rfl]
    rfl
  · dsimp only
    rw [Books.set_of_ne _ _ (fun h => hSides h.2)]

theorem submit_other_levels
    {i : Fin 2}
    {p : UInt32}
    (k : Fin 2)
    (hOther : ¬ (i = inst ∧ p = price)) :
    ((e.submit side inst qty price owner
        out).1.books i k)[p]? =
      (e.books i k)[p]? := by
  -- One of the four price maps, written at `price` only.
  have hSet :
      ∀ (books : Books) (j : Fin 2) (levels : Levels),
        (∀ p, p ≠ price →
          levels[p]? = (books inst j)[p]?) →
          (books.set inst j levels i k)[p]? =
            (books i k)[p]? := by
    intro books j levels hElse
    by_cases hAt : i = inst ∧ k = j
    · rcases hAt with ⟨rfl, rfl⟩
      rw [Books.set_self]
      exact hElse p (fun h => hOther ⟨rfl, h⟩)
    · rw [Books.set_of_ne _ _ hAt]
  unfold submit
  dsimp only
  generalize matchLoop side inst price owner
    (e.matchStart side inst qty price out) = m
  have hSettled :
      ∀ p, p ≠ price →
        (settleLevel (e.books inst (sideIdx side.opposite))
          price m.level)[p]? =
        (e.books inst (sideIdx side.opposite))[p]? := by
    intro p hNe
    rw [getElem?_settleLevel, if_neg hNe]
  split
  · refine Eq.trans (hSet _ _ _ ?_) (hSet _ _ _ hSettled)
    intro p hNe
    rw [getElem?_pushBack, if_neg hNe]
  · exact hSet _ _ _ hSettled

/- `orders_` when the new id is not in use. -/
theorem submit_orders_fresh
    (hLoop :
      matchLoop side inst price owner
        (e.matchStart side inst qty price out) = m)
    (hFresh : m.orders[e.nextId]? = none)
    (key : UInt32) :
    (e.submit side inst qty price owner
        out).1.orders[key]? =
      if key = e.nextId ∧ 0 < m.remaining then
        some
          { id := e.nextId, side := side, inst := inst
            price := price, remaining := m.remaining
            owner := owner }
      else m.orders[key]? := by
  have hNew : e.nextId ∉ m.orders := by
    rw [Std.ExtTreeMap.mem_iff_isSome_getElem?, hFresh]
    exact Bool.false_ne_true
  unfold submit
  dsimp only
  rw [hLoop]
  by_cases hPos : 0 < m.remaining
  · rw [if_pos hPos]
    simp only [Std.ExtTreeMap.getElem?_insertIfNew]
    by_cases hKey : e.nextId = key
    · subst hKey
      simp [hNew, hPos]
    · have hNe : ¬ key = e.nextId := fun h => hKey h.symm
      simp [hKey, hNe]
  · rw [if_neg hPos]
    simp [hPos]

/- The trades of a greedy split, one by one. -/
theorem greedyTrades_length
    (side : Side)
    (inst : Fin 2)
    (price : UInt32)
    (owner : Int)
    (q : Nat)
    (facing : List Order)
    (j : Nat) :
    j < (greedyTrades side inst price owner q
        facing).length ↔
      j < facing.length ∧ ahead facing j < q := by
  have hFills :=
    Greedy.lt_length_fills q (quantities facing) j
  have hLength :
      (quantities facing).length = facing.length :=
    List.length_map _
  rw [greedyTrades, List.length_zipWith, Nat.lt_min,
    hFills, hLength, ahead]
  tauto

theorem greedyTrades_getElem?
    {facing : List Order}
    {q j : Nat}
    {o : Order}
    (hAt : facing[j]? = some o)
    (hLt : ahead facing j < q) :
    (greedyTrades side inst price owner q facing)[j]? =
      some
        (fillTrade side inst price owner
          (UInt32.ofNat
            (min o.remaining.toNat (q - ahead facing j)))
          o) := by
  have hShare :
      (quantities facing)[j]? = some o.remaining.toNat := by
    rw [quantities, List.getElem?_map, hAt]
    rfl
  have hLength :
      j < (Greedy.fills q (quantities facing)).length := by
    rw [Greedy.lt_length_fills]
    exact ⟨(List.getElem?_eq_some_iff.mp hShare).1, hLt⟩
  rw [greedyTrades, List.getElem?_zipWith, hAt,
    Greedy.getElem?_fills hLength hShare]
  rfl

/- A fill is no more than what remained of the order. -/
theorem toNat_fill
    (o : Order)
    (q : Nat) :
    (UInt32.ofNat (min o.remaining.toNat q)).toNat =
      min o.remaining.toNat q := by
  apply UInt32.toNat_ofNat_of_lt'
  exact Nat.lt_of_le_of_lt (Nat.min_le_left _ _)
    o.remaining.toNat_lt

/- The quantities of the trades are the fills. -/
theorem greedyTrades_qty
    (side : Side)
    (inst : Fin 2)
    (price : UInt32)
    (owner : Int)
    (q : Nat)
    (facing : List Order) :
    (greedyTrades side inst price owner q facing).map
        (fun t => t.qty.toNat) =
      Greedy.fills q (quantities facing) := by
  induction facing generalizing q with
  | nil => rfl
  | cons o os ih =>
      rcases Nat.eq_zero_or_pos q with rfl | hPos
      · simp [greedyTrades]
      rw [greedyTrades_cons hPos, List.map_cons, ih,
        quantities_cons, Greedy.fills_cons hPos]
      exact congrArg (· :: _) (toNat_fill o q)

/- Every order of the level that is reached has its trade. -/
theorem greedyTrades_trade
    {facing : List Order}
    {q j : Nat}
    {o : Order}
    (hAt : facing[j]? = some o)
    (hPos : 0 < o.remaining)
    (hLeft : ahead facing j < q) :
    ∃ t,
      (greedyTrades side inst price owner q facing)[j]? =
        some t ∧
      1 ≤ t.qty.toNat ∧
      t.qty.toNat =
        min o.remaining.toNat (q - ahead facing j) ∧
      t.inst = inst ∧ t.price = price ∧
      Parties side owner o.owner t := by
  have hPosNat : 0 < o.remaining.toNat :=
    UInt32.lt_iff_toNat_lt.mp hPos
  have hFill := toNat_fill o (q - ahead facing j)
  refine ⟨_, greedyTrades_getElem? hAt hLeft, ?_, hFill,
    rfl, rfl, fillTrade_parties _ _ _ _ _ _⟩
  change 1 ≤ (UInt32.ofNat _).toNat
  rw [hFill]
  omega

/- Behind the last trade nothing is left of the quantity. -/
theorem le_ahead_of_length_le
    {facing : List Order}
    {q j : Nat}
    {o : Order}
    (hAt : facing[j]? = some o)
    (hPast :
      (greedyTrades side inst price owner q
        facing).length ≤ j) :
    q ≤ ahead facing j := by
  by_contra hLt
  have hBefore :=
    (greedyTrades_length side inst price owner q facing
      j).mpr
      ⟨(List.getElem?_eq_some_iff.mp hAt).1,
        Nat.lt_of_not_le hLt⟩
  omega

/- What a fill leaves of an order. -/
theorem fill_leaves
    {o : Order}
    {f : UInt32}
    {q before next : Nat}
    (hFill :
      f =
        UInt32.ofNat (min o.remaining.toNat (q - before)))
    (hLeft : before < q)
    (hNext : next = before + o.remaining.toNat) :
    (if next ≤ q then none
      else
        some
          { o with
            remaining :=
              o.remaining - UInt32.ofNat (q - before) }) =
      if f = o.remaining then none
      else some { o with remaining := o.remaining - f } := by
  by_cases hFits : next ≤ q
  · have hMin :
        min o.remaining.toNat (q - before) =
          o.remaining.toNat := by
      omega
    rw [hMin, UInt32.ofNat_toNat] at hFill
    rw [if_pos hFits, if_pos hFill]
  · have hNat := toNat_fill o (q - before)
    have hMin :
        min o.remaining.toNat (q - before) = q - before := by
      omega
    rw [← hFill, hMin] at hNat
    rw [hMin] at hFill
    have hLess : ¬ f = o.remaining := by
      intro hSame
      rw [hSame] at hNat
      omega
    rw [if_neg hFits, if_neg hLess, hFill]

/-
  An order of the level after the loop, by how far the
  trades went.
-/
theorem Splits.order_after
    {facing : List Order}
    {m' : MatchState}
    {j : Nat}
    {o : Order}
    (hSplits : Splits side inst price owner facing m m')
    (hAt : facing[j]? = some o) :
    (ahead facing (j + 1) ≤ m.remaining.toNat →
        m'.orders[o.id]? = none) ∧
      (m.remaining.toNat ≤ ahead facing j →
        0 < o.remaining → m'.orders[o.id]? = some o) := by
  have hServed := hSplits.served j o hAt
  refine ⟨?_, ?_⟩
  · intro hFull
    rw [hServed, if_pos hFull]
  · intro hLater hPos
    have hPosNat : 0 < o.remaining.toNat :=
      UInt32.lt_iff_toNat_lt.mp hPos
    have hNext := ahead_succ hAt
    rw [hServed, if_neg (by omega),
      Nat.sub_eq_zero_of_le hLater]
    simp

end Submit

/-
  The level is left with the ids of the orders that are
  still there.
-/
theorem Splits.level_after
    {m m' : MatchState}
    {side : Side}
    {inst : Fin 2}
    {price : UInt32}
    {owner : Int}
    {facing : List Order}
    {p : UInt32 → Bool}
    (hServes : Serves m facing)
    (hSplits : Splits side inst price owner facing m m')
    (hKept :
      ∀ o ∈ facing,
        (p o.id = true ↔ m'.orders[o.id]? ≠ none)) :
    m'.level = (facing.map Order.id).filter p := by
  rw [hSplits.level, hServes.level]
  apply Greedy.drop_eq_filter
  intro j id hAt
  rw [List.getElem?_map, Option.map_eq_some_iff] at hAt
  rcases hAt with ⟨o, hAt, rfl⟩
  have hFull :=
    Greedy.lt_full m.remaining.toNat (quantities facing) j
  have hLength : j < (quantities facing).length := by
    rw [quantities, List.length_map]
    exact (List.getElem?_eq_some_iff.mp hAt).1
  rw [hKept o (List.mem_of_getElem? hAt),
    hSplits.served j o hAt]
  by_cases hIn : ahead facing (j + 1) ≤ m.remaining.toNat
  · have hLt := hFull.mpr ⟨hLength, hIn⟩
    rw [if_pos hIn]
    simpa using hLt
  · have hLt := fun h => hIn (hFull.mp h).2
    rw [if_neg hIn]
    simpa using hLt

end Exchange

end SocketExchange

------------------------------------------------------------
-- Greedy Fill
------------------------------------------------------------

namespace SocketExchange

namespace Exchange

section Listed

variable {e : Exchange} {side : Side} {inst : Fin 2}
variable {qty price : UInt32} {owner : Int}
variable {out : List Trade} {m : MatchState}
variable {facing : List Order}

/- An id that is not in use is not queued. -/
theorem Serves.not_queued
    {key : UInt32}
    (hServes : Serves m facing)
    (hUnused : m.orders[key]? = none) :
    key ∉ facing.map Order.id := by
  intro hMem
  rcases List.mem_map.mp hMem with ⟨o, ho, hId⟩
  have hKnown := hServes.known o ho
  rw [hId, hUnused] at hKnown
  cases hKnown

/- The remainder is not one of the orders of the level. -/
theorem submit_orders_listed
    (hLoop :
      matchLoop side inst price owner
        (e.matchStart side inst qty price out) = m)
    (hFresh : m.orders[e.nextId]? = none)
    (hNotIn : e.nextId ∉ facing.map Order.id) :
    ∀ o ∈ facing,
      (e.submit side inst qty price owner
        out).1.orders[o.id]? = m.orders[o.id]? := by
  intro o ho
  rw [submit_orders_fresh hLoop hFresh, if_neg]
  rintro ⟨hId, _⟩
  exact hNotIn (hId ▸ List.mem_map_of_mem ho)

/- The level has the orders that are still in the book. -/
theorem Serves.submit_level_kept
    (hServes :
      Serves (e.matchStart side inst qty price out) facing)
    (hLoop :
      matchLoop side inst price owner
        (e.matchStart side inst qty price out) = m)
    (hSplits :
      Splits side inst price owner facing
        (e.matchStart side inst qty price out) m)
    (hAtLevel :
      ∀ o ∈ facing,
        (e.submit side inst qty price owner
          out).1.orders[o.id]? = m.orders[o.id]?) :
    ((e.submit side inst qty price owner out).1.books inst
        (sideIdx side.opposite))[price]? =
      levelEntry
        ((facing.map Order.id).filter
          fun id =>
            decide
              (id ∈ (e.submit side inst qty price owner
                out).1.orders)) := by
  have hLevel :=
    hSplits.level_after (p := fun id =>
      decide
        (id ∈ (e.submit side inst qty price owner
          out).1.orders)) hServes (by
      intro o ho
      rw [decide_eq_true_iff,
        Std.ExtTreeMap.mem_iff_isSome_getElem?,
        hAtLevel o ho, Option.isSome_iff_ne_none])
  rw [submit_level hLoop, ← hLevel]
  split
  · next hNone =>
      have hQueued :
          e.deque inst (sideIdx side.opposite) price =
            facing.map Order.id := hServes.level
      have hEmpty : facing.map Order.id = [] := by
        rw [← hQueued, deque, hNone]
        rfl
      rw [hLevel, hEmpty]
      rfl
  · rfl

end Listed

/-
  A submission at a level whose orders are all there, with
  an id that is not in use.
-/
theorem Serves.submit_greedy
    {e : Exchange}
    {side : Side}
    {inst : Fin 2}
    {qty price : UInt32}
    {out : List Trade}
    {facing : List Order}
    (hServes :
      Serves (e.matchStart side inst qty price out) facing)
    (hUnused : e.orders[e.nextId]? = none)
    (owner : Int) :
    GreedyFill e side inst qty price owner out facing
      (greedyTrades side inst price owner qty.toNat facing)
      (e.submit side inst qty price owner out) := by
  have hSplits :=
    matchLoop_splits side inst price owner hServes
  generalize hLoop :
    matchLoop side inst price owner
      (e.matchStart side inst qty price out) = m at hSplits
  have hNotIn : e.nextId ∉ facing.map Order.id :=
    hServes.not_queued hUnused
  have hFresh : m.orders[e.nextId]? = none := by
    rw [hSplits.others e.nextId (hServes.level ▸ hNotIn)]
    exact hUnused
  have hReply := submit_reply hLoop
  have hOrders := submit_orders_fresh hLoop hFresh
  have hAtLevel := submit_orders_listed hLoop hFresh hNotIn
  have hRemaining :
      m.remaining.toNat =
        qty.toNat - (quantities facing).sum :=
    hSplits.remaining
  have hRests :
      0 < m.remaining ↔
        (quantities facing).sum < qty.toNat := by
    rw [UInt32.lt_iff_toNat_lt, hRemaining]
    exact Nat.sub_pos_iff_lt
  have hCount :=
    greedyTrades_length side inst price owner qty.toNat
      facing
  exact
    { queued := hServes.level
      appended := by
        rw [hReply.1]
        exact hSplits.out
      count := hCount
      trade := by
        intro j o hAt hLt
        have hPos :=
          hServes.positive o (List.mem_of_getElem? hAt)
        exact greedyTrades_trade hAt hPos
          ((hCount j).mp hLt).2
      total := by
        rw [greedyTrades_qty, Greedy.sum_fills]
      removed := by
        intro j o hAt hLt
        have hLeft := ((hCount (j + 1)).mp hLt).2
        rw [hAtLevel o (List.mem_of_getElem? hAt)]
        exact (hSplits.order_after hAt).1
          (Nat.le_of_lt hLeft)
      last := by
        intro j o t hAt hTrade _
        have hLt := (List.getElem?_eq_some_iff.mp hTrade).1
        have hLeft := ((hCount j).mp hLt).2
        rw [greedyTrades_getElem? hAt hLeft] at hTrade
        injection hTrade with hTrade
        rw [hAtLevel o (List.mem_of_getElem? hAt),
          hSplits.served j o hAt]
        exact fill_leaves (congrArg Trade.qty hTrade).symm
          hLeft (ahead_succ hAt)
      untouched := by
        intro j o hAt hGe
        have hMem := List.mem_of_getElem? hAt
        rw [hAtLevel o hMem]
        exact (hSplits.order_after hAt).2
          (le_ahead_of_length_le hAt hGe)
          (hServes.positive o hMem)
      level := hServes.submit_level_kept hLoop hSplits hAtLevel
      rests := by
        have hLeft :
            m.remaining =
              UInt32.ofNat
                (qty.toNat - (quantities facing).sum) := by
          rw [← hRemaining, UInt32.ofNat_toNat]
        rw [hOrders, hFresh]
        simp only [true_and, hRests]
        rw [hLeft]
      own_level := by
        rw [submit_own_level hLoop]
        simp only [hRests]
      others := by
        intro key hKey hNext
        rw [hOrders, if_neg (fun h => hNext h.1)]
        exact hSplits.others key (hServes.level ▸ hKey)
      other_levels := fun i k p hOther =>
        submit_other_levels k hOther
      next := ⟨congrArg Prod.fst hReply.1, hReply.2⟩ }

/-
  The greedy fill of one submission. On every exchange
  reached by fewer than `2 ^ 32` submissions, the trades of
  the next one are the greedy split of its quantity over
  what remains of the orders that rest opposite to it at its
  price, in arrival order. Every order served but possibly
  the last leaves the book, the last keeps what it did not
  trade, a remainder rests at the tail of its own level
  exactly when the quantity exceeds the level, and nothing
  else changes.
-/
theorem run_submit_greedy
    (calls : List Call)
    (hSubmits : submits calls < 2 ^ 32)
    (side : Side)
    (inst : Fin 2)
    (qty price : UInt32)
    (owner : Int)
    (out : List Trade) :
    let e := Machine.final step empty calls
    ∃ trades,
      GreedyFill e side inst qty price owner out
        (e.restingAt inst side.opposite price) trades
        (e.submit side inst qty price owner out) := by
  intro e
  have hRep := represents_final hSubmits
  exact ⟨_, (hRep.serves side inst qty price
    out).submit_greedy hRep.nextId_unused owner⟩

/- Two sellers, and a buyer who takes the second in part. -/
theorem run_submit_greedy_filling :
    ∃ e' : Exchange,
      (Machine.final step empty
          [.submit .sell 0 5 100 1,
            .submit .sell 0 7 100 2]).submit .buy 0 8 100 3
          [⟨1, 4, 9, 7, 6⟩] =
        (e', 2,
          [⟨1, 4, 9, 7, 6⟩, ⟨0, 5, 100, 3, 1⟩,
            ⟨0, 3, 100, 3, 2⟩]) ∧
      e'.orders[(1 : UInt32)]? =
        some ⟨1, .sell, 0, 100, 4, 2⟩ := by
  rcases run_submit_greedy
      [.submit .sell 0 5 100 1, .submit .sell 0 7 100 2]
      (by decide) .buy 0 8 100 3 [⟨1, 4, 9, 7, 6⟩] with
    ⟨trades, hFill⟩
  have hTwo : trades.length = 2 := by
    have hSecond := (hFill.count 1).mpr (by decide)
    have hThird := (hFill.count 2).not.mpr (by decide)
    omega
  rcases hFill.trade 0 ⟨0, .sell, 0, 100, 5, 1⟩
      (by decide) (by omega) with
    ⟨⟨_, p, _, _, _⟩, hFirst, _, hFive, rfl, rfl, hParties⟩
  rcases hParties.1 rfl with ⟨rfl, rfl⟩
  rcases hFill.trade 1 ⟨1, .sell, 0, 100, 7, 2⟩
      (by decide) (by omega) with
    ⟨⟨_, q, _, _, _⟩, hSecond, _, hThree, rfl, rfl, hParties⟩
  rcases hParties.1 rfl with ⟨rfl, rfl⟩
  obtain rfl : p = 5 := by
    apply UInt32.toNat_inj.mp
    rw [hFive]
    decide
  obtain rfl : q = 3 := by
    apply UInt32.toNat_inj.mp
    rw [hThree]
    decide
  have hTrades :
      trades = [⟨0, 5, 100, 3, 1⟩, ⟨0, 3, 100, 3, 2⟩] := by
    rcases List.length_eq_two.mp hTwo with ⟨t, u, rfl⟩
    injection hFirst with hFirst
    injection hSecond with hSecond
    rw [hFirst, hSecond]
  refine ⟨_, Prod.ext rfl (Prod.ext ?_ ?_), ?_⟩
  · exact hFill.next.1
  · rw [hFill.appended, hTrades]
    rfl
  · exact hFill.last 1 ⟨1, .sell, 0, 100, 7, 2⟩ _
      (by decide) hSecond hTwo.symm

end Exchange

end SocketExchange

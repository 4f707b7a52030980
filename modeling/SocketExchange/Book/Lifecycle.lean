import SocketExchange.Book.Fills
import SocketExchange.Book.Invariant

/-
  The life of an order id.

  An id is handed out, its order rests and shrinks, and once
  the order is filled up or cancelled the id is gone. That
  lasts for as long as the 32-bit counter does not come
  round: the submission 2^32 later gets the same id, and if
  the first order still rests then, `emplace` drops the
  remainder of the second without a word.

  Main declarations:
    * `Exchange.Fresh`
    * `NoneOutlasts`
    * `Exchange.Finishes`, `Exchange.TradesWith`
    * `Exchange.ids_fresh_iff`
    * `Exchange.run_finished_stay_finished`
-/

------------------------------------------------------------
-- The Id Counter
------------------------------------------------------------

namespace SocketExchange

/- The call enters an order. -/
def Call.isSubmit : Call → Bool
| .submit _ _ _ _ _ => true
| .cancel _ _ => false

/- The ids that submissions returned, in order. -/
def idsOf : List Reply → List UInt32
| [] => []
| .submitted id _ :: replies => id :: idsOf replies
| .cancelled _ :: replies => idsOf replies

theorem submits_append (calls more : List Call) :
    submits (calls ++ more) =
      submits calls + submits more := by
  induction calls with
  | nil => simp [submits]
  | cons call calls ih =>
      cases call with
      | submit side inst qty price owner =>
          simp only [List.cons_append, submits, ih]
          omega
      | cancel id owner =>
          simp only [List.cons_append, submits, ih]

theorem submits_cons (call : Call) (calls : List Call) :
    submits (call :: calls) =
      submits calls + if call.isSubmit then 1 else 0 := by
  cases call <;> rfl

/- The submission with a given number of others behind it. -/
theorem exists_submit_before
    {calls : List Call}
    (behind : Nat)
    (hLt : behind < submits calls) :
    ∃ before own between,
      calls = before ++ own :: between ∧
        own.isSubmit = true ∧ submits between = behind := by
  induction calls with
  | nil => simp [submits] at hLt
  | cons call calls ih =>
      by_cases hRest : behind < submits calls
      · rcases ih hRest with
          ⟨before, own, between, rfl, hOwn, hCount⟩
        exact ⟨call :: before, own, between, rfl, hOwn,
          hCount⟩
      · rw [submits_cons] at hLt
        have hOwn : call.isSubmit = true := by
          by_contra hNot
          simp only [hNot, if_false] at hLt
          omega
        rw [if_pos hOwn] at hLt
        exact ⟨[], call, calls, rfl, hOwn, by omega⟩

namespace Exchange

theorem step_nextId (e : Exchange) (call : Call) :
    (e.step call).1.nextId =
      if call.isSubmit then e.nextId + 1
      else e.nextId := by
  cases call with
  | submit side inst qty price owner =>
      simp only [step, submit, Call.isSubmit, if_true]
      split <;> rfl
  | cancel id owner =>
      simp only [step, cancel, Call.isSubmit,
        Bool.false_eq_true, if_false]
      split
      · rfl
      · split <;> rfl

/- The counter counts submissions, modulo its width. -/
theorem final_nextId
    (e : Exchange)
    (calls : List Call) :
    (Machine.final step e calls).nextId =
      e.nextId + UInt32.ofNat (submits calls) := by
  induction calls generalizing e with
  | nil => simp [submits]
  | cons call calls ih =>
      rw [Machine.final_cons, ih, step_nextId, submits_cons]
      split
      · rw [UInt32.ofNat_add, UInt32.add_assoc]
        congr 1
        exact UInt32.add_comm _ _
      · rfl

/- The ids are consecutive, modulo the counter's width. -/
theorem idsOf_replies
    (e : Exchange)
    (calls : List Call) :
    idsOf (Machine.replies step e calls) =
      (List.range (submits calls)).map
        fun n => e.nextId + UInt32.ofNat n := by
  induction calls generalizing e with
  | nil => rfl
  | cons call calls ih =>
      cases call with
      | submit side inst qty price owner =>
          have hNext :=
            step_nextId e (.submit side inst qty price owner)
          simp only [Call.isSubmit, if_true] at hNext
          simp only [Machine.replies, step, idsOf, submits,
            submit_id]
          simp only [step] at hNext
          rw [ih, hNext, List.range_succ_eq_map,
            List.map_cons, List.map_map]
          congr 1
          · simp
          · apply List.map_congr_left
            intro n _
            simp only [Function.comp_apply,
              UInt32.ofNat_add, Nat.succ_eq_add_one]
            rw [UInt32.add_assoc]
            congr 1
            exact UInt32.add_comm _ _
      | cancel id owner =>
          have hNext := step_nextId e (.cancel id owner)
          simp only [Call.isSubmit, Bool.false_eq_true,
            if_false] at hNext
          simp only [Machine.replies, idsOf, submits, step]
          simp only [step] at hNext
          rw [ih, hNext]

end Exchange

end SocketExchange

------------------------------------------------------------
-- Fresh Ids
------------------------------------------------------------

namespace SocketExchange

namespace Exchange

/- What is left of an incoming order after the loop. -/
def remainder
    (e : Exchange)
    (side : Side)
    (inst : Fin 2)
    (qty price : UInt32)
    (owner : Int) : UInt32 :=
  (matchLoop side inst price owner
    (e.matchStart side inst qty price [])).remaining

/-
  The id a submission returns is nobody's at that moment,
  and it leads to the remainder, if there is one.
-/
def Fresh (e : Exchange) : Call → Prop
| .submit side inst qty price owner =>
    let r := e.submit side inst qty price owner []
    let left := e.remainder side inst qty price owner
    r.2.1 ∉ e.orders ∧
      (0 < left →
        r.1.orders[r.2.1]? =
          some
            { id := r.2.1, side := side, inst := inst
              price := price, remaining := left
              owner := owner })
| .cancel _ _ => True

/- Only the first half can fail on its own. -/
theorem fresh_of_not_mem
    {e : Exchange}
    (hNew : e.nextId ∉ e.orders)
    (call : Call) :
    Fresh e call := by
  cases call with
  | cancel id owner => trivial
  | submit side inst qty price owner =>
      unfold Fresh
      dsimp only
      rw [submit_id]
      refine ⟨hNew, ?_⟩
      intro hLeft
      have hNone : e.orders[e.nextId]? = none := by
        simpa using hNew
      have hAfter :=
        (matchLoop_effect e side inst qty price
          owner).none_kept e.nextId hNone
      rw [submit_orders, if_pos ⟨rfl, hLeft, hAfter⟩]
      rfl

end Exchange

/-
  No order outlasts the counter: when the 2^32-th submission
  after its own is made, it rests no more. The first
  exchange in the condition is the one the order came to, so
  its counter is the id the order got.
-/
def NoneOutlasts (calls : List Call) : Prop :=
  ∀ before own between next after,
    calls = (before ++ own :: between) ++ next :: after →
      own.isSubmit = true → next.isSubmit = true →
      submits between + 1 = 2 ^ 32 →
        (Machine.final Exchange.step Exchange.empty
            before).nextId ∉
          (Machine.final Exchange.step Exchange.empty
            (before ++ own :: between)).orders

namespace Exchange

/- After 2^32 submissions the counter is where it was. -/
theorem nextId_comes_round
    {before between : List Call}
    {own : Call}
    (hOwn : own.isSubmit = true)
    (hRound : submits between + 1 = 2 ^ 32) :
    (Machine.final step empty
        (before ++ own :: between)).nextId =
      (Machine.final step empty before).nextId := by
  have hSubmits :
      submits (before ++ own :: between) =
        submits before + 2 ^ 32 := by
    rw [submits_append, submits_cons, if_pos hOwn, hRound]
  rw [final_nextId, final_nextId, hSubmits,
    UInt32.ofNat_add]
  have hZero : UInt32.ofNat (2 ^ 32) = 0 := by decide
  rw [hZero, UInt32.add_zero]

/-
  Ids are fresh in a run of any length exactly when no order
  outlasts the counter.
-/
theorem ids_fresh_iff (calls : List Call) :
    Machine.Permitted (fun e call => (step e call).1) Fresh
        empty calls ↔
      NoneOutlasts calls := by
  rw [Machine.permitted_iff_forall_split]
  constructor
  · intro hFresh before own between next after hSplit hOwn
      hNext hRound
    have hAt := hFresh (before ++ own :: between) next after
      hSplit
    cases next with
    | cancel id owner => cases hNext
    | submit side inst qty price owner =>
        have hNew := hAt.1
        rw [submit_id] at hNew
        rw [← nextId_comes_round hOwn hRound]
        exact hNew
  · intro hNone pre call post hSplit
    cases call with
    | cancel id owner => trivial
    | submit side inst qty price owner =>
        apply fresh_of_not_mem
        by_cases hFew : submits pre < 2 ^ 32
        · intro hMem
          have hLt :=
            (represents_final hFew).consistent.id_lt _ hMem
          exact absurd hLt (UInt32.lt_irrefl _)
        · -- The counter came round to an earlier order.
          have hMany : 2 ^ 32 - 1 < submits pre := by
            omega
          rcases exists_submit_before _ hMany with
            ⟨before, own, between, rfl, hOwn, hCount⟩
          have hRound : submits between + 1 = 2 ^ 32 := by
            omega
          have hGone :=
            hNone before own between _ post hSplit hOwn rfl
              hRound
          rw [← nextId_comes_round hOwn hRound] at hGone
          exact hGone

/- An order that nobody answers rests as it came. -/
theorem submit_unanswered
    {e : Exchange}
    {side : Side}
    {inst : Fin 2}
    {qty price : UInt32}
    (hQty : 0 < qty)
    (hAbsent :
      (e.books inst (sideIdx side.opposite))[price]? =
        none)
    (owner : Int) :
    e.submit side inst qty price owner [] =
      ({ nextId := e.nextId + 1
         orders :=
           e.orders.insertIfNew e.nextId
             { id := e.nextId, side := side, inst := inst
               price := price, remaining := qty
               owner := owner }
         books :=
           e.books.set inst (sideIdx side)
             (pushBack (e.books inst (sideIdx side)) price
               e.nextId) },
        e.nextId, []) := by
  have hStuck :
      matchStep side inst price owner
          (e.matchStart side inst qty price []) = none := by
    simp [matchStep, matchStart, hAbsent]
  have hBooks :
      e.books.set inst (sideIdx side.opposite)
          (settleLevel
            (e.books inst (sideIdx side.opposite)) price
            []) =
        e.books := by
    funext i k
    by_cases hAt : i = inst ∧ k = sideIdx side.opposite
    · rw [hAt.1, hAt.2, Books.set_self]
      simp [settleLevel, hAbsent]
    · rw [Books.set_of_ne _ _ hAt]
  unfold submit
  dsimp only
  rw [matchLoop, Loop.iterate_of_none hStuck]
  simp only [matchStart, hAbsent, Option.getD_none]
  rw [hBooks, if_pos hQty]

/- A key that is put into a map and taken out again. -/
theorem erase_insertIfNew
    {m : Orders}
    {key : UInt32}
    (hNew : key ∉ m)
    (o : Order) :
    (m.insertIfNew key o).erase key = m := by
  apply Std.ExtTreeMap.ext_getElem?
  intro k
  rw [Std.ExtTreeMap.getElem?_erase,
    Std.ExtTreeMap.getElem?_insertIfNew]
  by_cases hKey : key = k
  · subst hKey
    simp [Std.ExtTreeMap.getElem?_eq_none hNew]
  · simp [hKey]

/- An id that is queued at a level and taken out again. -/
theorem eraseFromLevel_pushBack
    {levels : Levels}
    {price id : UInt32}
    (hEntry : levels[price]? ≠ some [])
    (hOut : id ∉ levels[price]?.getD []) :
    eraseFromLevel (pushBack levels price id) price id =
      levels := by
  apply Std.ExtTreeMap.ext_getElem?
  intro p
  have hErase :
      (levels[price]?.getD [] ++ [id]).erase id =
        levels[price]?.getD [] := by
    rw [List.erase_append_right _ hOut]
    simp
  rw [getElem?_eraseFromLevel, getElem?_pushBack,
    getElem?_pushBack, if_pos rfl, Option.getD_some, hErase]
  by_cases hPrice : p = price
  · rw [if_pos hPrice, hPrice]
    cases hLevel : levels[price]? with
    | none => rfl
    | some ids =>
        have hNe : ids ≠ [] := by
          rintro rfl
          exact hEntry hLevel
        rw [Option.getD_some, levelEntry, if_neg hNe]
  · rw [if_neg hPrice, if_neg hPrice]

/-
  An order that nobody answers and that is taken back leaves
  nothing behind but the next id.
-/
theorem cancel_unanswered
    {e : Exchange}
    {side : Side}
    {inst : Fin 2}
    {qty price : UInt32}
    (hQty : 0 < qty)
    (hAbsent :
      (e.books inst (sideIdx side.opposite))[price]? =
        none)
    (hNew : e.nextId ∉ e.orders)
    (hEntry :
      (e.books inst (sideIdx side))[price]? ≠ some [])
    (hOut : e.nextId ∉ e.deque inst (sideIdx side) price)
    (owner : Int) :
    (e.submit side inst qty price owner []).1.cancel
        e.nextId owner =
      ({ e with nextId := e.nextId + 1 }, .ok ()) := by
  have hBooks :
      ∀ levels : Levels,
        (e.books.set inst (sideIdx side) levels).set inst
            (sideIdx side) (e.books inst (sideIdx side)) =
          e.books := by
    intro levels
    funext i k
    by_cases hAt : i = inst ∧ k = sideIdx side
    · rw [hAt.1, hAt.2, Books.set_self]
    · rw [Books.set_of_ne _ _ hAt, Books.set_of_ne _ _ hAt]
  rw [submit_unanswered hQty hAbsent owner]
  unfold cancel
  dsimp only
  rw [Std.ExtTreeMap.getElem?_insertIfNew,
    if_pos ⟨Std.ReflCmp.compare_self, hNew⟩]
  dsimp only
  rw [if_neg (not_not_intro rfl), Books.set_self,
    eraseFromLevel_pushBack hEntry hOut, hBooks,
    erase_insertIfNew hNew]

/- One buyer waits. -/
def oneBuyer (inst : Fin 2) : Exchange :=
  (empty.submit .buy inst 1 1 1 []).1

/- Its order, and others that it enters and takes back. -/
def changeOfMind (inst : Fin 2) : Nat → List Call
| 0 => [.submit .buy inst 1 1 1]
| n + 1 =>
    changeOfMind inst n ++
      [.submit .buy inst 1 1 1,
        .cancel (UInt32.ofNat (n + 1)) 1]

/- No more than the first order is left of them. -/
theorem final_changeOfMind
    {n : Nat}
    (hRoom : n < 2 ^ 32) :
    Machine.final step empty (changeOfMind 0 n) =
      { oneBuyer 0 with
        nextId := UInt32.ofNat (n + 1) } := by
  induction n with
  | zero => rfl
  | succ n ih =>
      have hNat :
          (UInt32.ofNat (n + 1)).toNat = n + 1 :=
        UInt32.toNat_ofNat_of_lt' hRoom
      have hNe : UInt32.ofNat (n + 1) ≠ 0 := by
        intro hZero
        rw [hZero] at hNat
        cases hNat
      have hOnly : (oneBuyer 0).orders.keys = [0] := by
        decide
      have hLevel :
          ((oneBuyer 0).books 0 0)[(1 : UInt32)]? =
            some [0] := by
        decide
      have hAbsent :
          ((oneBuyer 0).books 0 1)[(1 : UInt32)]? =
            none := by
        decide
      have hNew :
          UInt32.ofNat (n + 1) ∉ (oneBuyer 0).orders := by
        rw [← Std.ExtTreeMap.mem_keys, hOnly,
          List.mem_singleton]
        exact hNe
      have hOut :
          UInt32.ofNat (n + 1) ∉
            (oneBuyer 0).deque 0 (sideIdx .buy) 1 := by
        change _ ∉ [(0 : UInt32)]
        rw [List.mem_singleton]
        exact hNe
      have hTaken :=
        @cancel_unanswered
          { oneBuyer 0 with nextId := UInt32.ofNat (n + 1) }
          .buy 0 1 1 (by decide) hAbsent hNew
          (fun h => nomatch hLevel.symm.trans h) hOut 1
      rw [changeOfMind, Machine.final_append,
        ih (Nat.lt_of_succ_lt hRoom)]
      simp only [Machine.final_cons, Machine.final_nil,
        step]
      rw [hTaken]
      rw [UInt32.ofNat_add (n + 1) 1]
      rfl

/- With the counter come round, the next id is not fresh. -/
theorem not_fresh_of_round
    {n : Nat}
    (hRoom : n < 2 ^ 32)
    (hRound : UInt32.ofNat (n + 1) = 0) :
    ¬ Machine.Permitted (fun e call => (step e call).1)
        Fresh empty
        (changeOfMind 0 n ++ [.submit .buy 0 1 1 1]) := by
  intro hFresh
  rw [Machine.permitted_append] at hFresh
  have hFinal :
      Machine.run (fun e call => (step e call).1) empty
          (changeOfMind 0 n) =
        { oneBuyer 0 with
          nextId := UInt32.ofNat (n + 1) } :=
    final_changeOfMind hRoom
  rw [hFinal, hRound] at hFresh
  have hNew := hFresh.2.1.1
  rw [submit_id] at hNew
  exact hNew (by decide)

/-
  The buyer of the first order has entered and taken back
  2^32 - 1 others. The next one gets the id of the first,
  which still rests.
-/
theorem buys_come_round :
    ¬ Machine.Permitted (fun e call => (step e call).1)
        Fresh empty
        (changeOfMind 0 (2 ^ 32 - 1) ++
          [.submit .buy 0 1 1 1]) :=
  not_fresh_of_round (by decide) (by decide)

end Exchange

end SocketExchange

------------------------------------------------------------
-- The Life Of An Order
------------------------------------------------------------

namespace SocketExchange

namespace Exchange

/- The head of a turn of the matching loop. -/
def matchTurn
    (e : Exchange)
    (side : Side)
    (inst : Fin 2)
    (qty price : UInt32)
    (owner : Int)
    (turn : Nat) : MatchState :=
  Loop.iterate (matchStep side inst price owner) turn
    (e.matchStart side inst qty price [])

/-
  The order with this id is counterparty in this turn: it is
  at the front, and there is quantity left to trade.
-/
def MatchState.Meets
    (m : MatchState)
    (id : UInt32)
    (o : Order) : Prop :=
  0 < m.remaining ∧ m.level.head? = some id ∧
    m.orders[id]? = some o

/- The call makes a trade with the order with this id. -/
def TradesWith (e : Exchange) (id : UInt32) : Call → Prop
| .submit side inst qty price owner =>
    ∃ turn o,
      (e.matchTurn side inst qty price owner turn).Meets
        id o
| .cancel _ _ => False

/-
  The call ends the order with this id: it is filled on
  arrival, filled up by a trade, or cancelled.
-/
def Finishes (e : Exchange) (id : UInt32) : Call → Prop
| .submit side inst qty price owner =>
    id = e.nextId ∧
        e.remainder side inst qty price owner = 0 ∨
      ∃ turn o,
        (e.matchTurn side inst qty price owner turn).Meets
            id o ∧
          o.remaining ≤
            (e.matchTurn side inst qty price owner
              turn).remaining
| .cancel key owner =>
    key = id ∧ (e.cancel key owner).2 = .ok ()

section Turns

variable {e : Exchange} {side : Side} {inst : Fin 2}
variable {qty price : UInt32} {owner : Int}

/- Nothing enters `orders_` while the loop runs. -/
theorem matchStep_none_kept
    {m m' : MatchState}
    {key : UInt32}
    (hNone : m.orders[key]? = none)
    (hStep : matchStep side inst price owner m = some m') :
    m'.orders[key]? = none := by
  rcases matchStep_cases hStep with
    ⟨_, otherId, rest, _, ⟨_, rfl⟩ | hFill⟩
  · exact hNone
  rcases hFill with ⟨other, q, hOther, _, hCase⟩
  have hNe : ¬ otherId = key := by
    rintro rfl
    rw [hNone] at hOther
    cases hOther
  rcases hCase with ⟨_, rfl⟩ | ⟨_, rfl⟩
  · simp [Std.ExtTreeMap.getElem?_erase, hNe, hNone]
  · simp [Std.ExtTreeMap.getElem?_insert, hNe, hNone]

theorem iterate_none_kept
    {m : MatchState}
    {key : UInt32}
    (hNone : m.orders[key]? = none)
    (fuel : Nat) :
    (Loop.iterate (matchStep side inst price owner) fuel
      m).orders[key]? = none :=
  Loop.iterate_inv
    (fun m : MatchState => m.orders[key]? = none)
    (fun _ _ hOld hStep => matchStep_none_kept hOld hStep)
    fuel hNone

/- A counterparty was in the book before the call. -/
theorem mem_of_meets
    {turn : Nat}
    {id : UInt32}
    {o : Order}
    (hMeets :
      (e.matchTurn side inst qty price owner turn).Meets
        id o) :
    id ∈ e.orders := by
  rw [Std.ExtTreeMap.mem_iff_isSome_getElem?,
    Option.isSome_iff_ne_none]
  intro hNone
  have hStill :
      (e.matchTurn side inst qty price owner
        turn).orders[id]? = none :=
    iterate_none_kept hNone turn
  rw [hMeets.2.2] at hStill
  cases hStill

/- An order that is filled up is gone when the loop ends. -/
theorem gone_of_filled
    {turn : Nat}
    {id : UInt32}
    {o : Order}
    (hMeets :
      (e.matchTurn side inst qty price owner turn).Meets
        id o)
    (hFilled :
      o.remaining ≤
        (e.matchTurn side inst qty price owner
          turn).remaining) :
    (matchLoop side inst price owner
      (e.matchStart side inst qty price
        [])).orders[id]? = none := by
  rcases hMeets with ⟨hPos, hFront, hOther⟩
  -- The turn trades, so it is one the loop really takes.
  have hAll :
      o.remaining -
        minU32 (e.matchTurn side inst qty price owner
          turn).remaining o.remaining = 0 := by
    have hMin :
        minU32 (e.matchTurn side inst qty price owner
          turn).remaining o.remaining = o.remaining := by
      apply UInt32.toNat_inj.mp
      rw [minU32_toNat]
      exact Nat.min_eq_right
        (UInt32.le_iff_toNat_le.mp hFilled)
    rw [hMin, UInt32.sub_self]
  rcases hLevel : (e.matchTurn side inst qty price owner
      turn).level with _ | ⟨front, rest⟩
  · rw [hLevel] at hFront
    cases hFront
  rw [hLevel] at hFront
  injection hFront with hFront
  subst hFront
  have hStep :
      ∃ m', matchStep side inst price owner
          (e.matchTurn side inst qty price owner turn) =
            some m' ∧
        m'.orders[front]? = none := by
    unfold matchStep
    rw [if_pos hPos, hLevel]
    simp only [hOther, hAll, if_true]
    exact ⟨_, rfl, by simp⟩
  rcases hStep with ⟨m', hStep, hGone⟩
  have hDone :=
    matchLoop_done side inst price owner
      (e.matchStart side inst qty price [])
  unfold matchLoop at hDone ⊢
  generalize hFuel :
      (e.matchStart side inst qty price []).level.length +
        1 = fuel at hDone ⊢
  by_cases hLt : turn < fuel
  · obtain ⟨more, rfl⟩ :
        ∃ more, fuel = turn + (more + 1) :=
      ⟨fuel - turn - 1, by omega⟩
    rw [Loop.iterate_add]
    change (Loop.iterate _ _
      (e.matchTurn side inst qty price owner
        turn)).orders[front]? = none
    rw [Loop.iterate_succ_of_some hStep]
    exact iterate_none_kept hGone more
  · have hLate :=
      Loop.iterate_eq_of_done hDone (Nat.le_of_not_lt hLt)
    rw [← hLate] at hDone
    change matchStep side inst price owner
      (e.matchTurn side inst qty price owner turn) =
        none at hDone
    rw [hStep] at hDone
    cases hDone

end Turns

end Exchange

end SocketExchange

------------------------------------------------------------
-- Finished Orders Stay Finished
------------------------------------------------------------

namespace SocketExchange

/- A resting order is an old one, or the one submitted. -/
theorem Reference.step_shrinks
    {r : Reference}
    {call : Call}
    {o : Order}
    (hMem : o ∈ (r.step call).1.resting) :
    (∃ o' ∈ r.resting, o.Shrinks o') ∨ o.id = r.nextId := by
  cases call with
  | submit side inst qty price owner =>
      simp only [step, submit] at hMem
      split at hMem
      · rcases List.mem_append.mp hMem with hOld | hLast
        · exact Or.inl
            (matchLoop_shrinks side inst price owner _ o
              hOld)
        · rw [List.mem_singleton.mp hLast]
          exact Or.inr rfl
      · exact Or.inl
          (matchLoop_shrinks side inst price owner _ o hMem)
  | cancel id owner =>
      simp only [step, cancel] at hMem
      have hOld : o ∈ r.resting := by
        split at hMem
        · exact hMem
        · split at hMem
          · exact hMem
          · exact List.mem_of_mem_eraseP hMem
      exact Or.inl ⟨o, hOld, Order.Shrinks.refl o⟩

/-
  What rests under an id already handed out rested before,
  and only shrinks.
-/
theorem Represents.step_ages
    {e : Exchange}
    {r : Reference}
    {call : Call}
    {calls : List Call}
    {id : UInt32}
    {o' : Order}
    (hRep : Represents e r)
    (hRoom : HasRoom e (call :: calls))
    (hKnown : id < e.nextId)
    (hAfter : (e.step call).1.orders[id]? = some o') :
    ∃ o, e.orders[id]? = some o ∧ o'.Shrinks o := by
  have hNext := (hRep.step hRoom).2
  rcases (hNext.orders id o').mp hAfter with ⟨hMem, hId⟩
  rcases Reference.step_shrinks hMem with
    ⟨o, hOld, hShrinks⟩ | hNew
  · refine ⟨o, (hRep.orders id o).mpr ⟨hOld, ?_⟩, hShrinks⟩
    rw [← hShrinks.1, hId]
  · rw [hRep.nextId, ← hNew, hId] at hKnown
    exact absurd hKnown (UInt32.lt_irrefl _)

/- A run in two parts, with room for the second. -/
theorem split_run
    {before after : List Call}
    (hSubmits : submits (before ++ after) < 2 ^ 32) :
    Represents
        (Machine.final Exchange.step Exchange.empty before)
        (Machine.final Reference.step Reference.empty
          before) ∧
      HasRoom
        (Machine.final Exchange.step Exchange.empty before)
        after ∧
      Machine.final Exchange.step Exchange.empty
          (before ++ after) =
        Machine.final Exchange.step
          (Machine.final Exchange.step Exchange.empty
            before)
          after := by
  rw [submits_append] at hSubmits
  refine ⟨represents_final (by omega), ?_,
    Machine.run_append _ _ _ _⟩
  unfold HasRoom
  rw [Exchange.final_nextId]
  simp only [Exchange.empty, UInt32.zero_add,
    UInt32.toNat_ofNat']
  omega

/- The counter only moves up while there is room. -/
theorem HasRoom.nextId_le
    {e : Exchange}
    {call : Call}
    {calls : List Call}
    (hRoom : HasRoom e (call :: calls)) :
    e.nextId ≤ (e.step call).1.nextId := by
  rw [Exchange.step_nextId]
  split
  · next hSubmit =>
      unfold HasRoom at hRoom
      rw [submits_cons, if_pos hSubmit] at hRoom
      exact UInt32.le_of_lt (lt_succ_of_room (by omega))
  · exact UInt32.le_refl _

theorem HasRoom.run_nextId_le
    {e : Exchange}
    {calls : List Call}
    (hRoom : HasRoom e calls) :
    e.nextId ≤
      (Machine.final Exchange.step e calls).nextId := by
  induction calls generalizing e with
  | nil => exact UInt32.le_refl _
  | cons call calls ih =>
      exact UInt32.le_trans hRoom.nextId_le (ih hRoom.step)

theorem Represents.run_ages
    {e : Exchange}
    {r : Reference}
    {calls : List Call}
    {id : UInt32}
    {o' : Order}
    (hRep : Represents e r)
    (hRoom : HasRoom e calls)
    (hKnown : id < e.nextId)
    (hAfter :
      (Machine.final Exchange.step e calls).orders[id]? =
        some o') :
    ∃ o, e.orders[id]? = some o ∧ o'.Shrinks o := by
  induction calls generalizing e r with
  | nil => exact ⟨o', hAfter, Order.Shrinks.refl o'⟩
  | cons call calls ih =>
      have hLater : id < (e.step call).1.nextId :=
        UInt32.lt_of_lt_of_le hKnown hRoom.nextId_le
      rcases ih (hRep.step hRoom).2 hRoom.step hLater
          hAfter with ⟨o, hMid, hShrinks⟩
      rcases hRep.step_ages hRoom hKnown hMid with
        ⟨o₀, hFirst, hShrinks₀⟩
      exact ⟨o₀, hFirst, hShrinks.trans hShrinks₀⟩

namespace Exchange

/- A finished order was handed out, and is gone. -/
theorem gone_of_finishes
    {e : Exchange}
    {r : Reference}
    {call : Call}
    {calls : List Call}
    {id : UInt32}
    (hRep : Represents e r)
    (hRoom : HasRoom e (call :: calls))
    (hFinishes : e.Finishes id call) :
    id < (e.step call).1.nextId ∧
      (e.step call).1.orders[id]? = none := by
  have hOld := hRep.consistent.id_lt
  have hGrows := hRoom.nextId_le
  cases call with
  | submit side inst qty price owner =>
      rcases hFinishes with
        ⟨rfl, hZero⟩ | ⟨turn, o, hMeets, hFilled⟩
      · have hNew : e.orders[e.nextId]? = none := by
          apply Std.ExtTreeMap.getElem?_eq_none
          intro hMem
          exact absurd (hOld _ hMem) (UInt32.lt_irrefl _)
        have hEmpty :=
          (matchLoop_effect e side inst qty price
            owner).none_kept e.nextId hNew
        constructor
        · rw [step_nextId]
          unfold HasRoom at hRoom
          simp only [submits] at hRoom
          exact lt_succ_of_room (by omega)
        · simp only [step]
          rw [submit_orders, if_neg]
          · exact hEmpty
          · rintro ⟨_, hPos, _⟩
            change 0 < e.remainder side inst qty price
              owner at hPos
            rw [hZero] at hPos
            exact absurd hPos (UInt32.lt_irrefl _)
      · have hLt := hOld id (mem_of_meets hMeets)
        refine ⟨UInt32.lt_of_lt_of_le hLt hGrows, ?_⟩
        have hNe : ¬ id = e.nextId := UInt32.ne_of_lt hLt
        simp only [step]
        rw [submit_orders, if_neg (fun h => hNe h.1)]
        exact gone_of_filled hMeets hFilled
  | cancel key owner =>
      rcases hFinishes with ⟨rfl, hOk⟩
      cases hLookup : e.orders[key]? with
      | none => simp [cancel, hLookup] at hOk
      | some o =>
          by_cases hOwner : o.owner = owner
          · have hMem : key ∈ e.orders := by
              rw [Std.ExtTreeMap.mem_iff_isSome_getElem?,
                hLookup]
              rfl
            refine ⟨UInt32.lt_of_lt_of_le (hOld key hMem)
              hGrows, ?_⟩
            simp [step, cancel, hLookup, hOwner]
          · simp [cancel, hLookup, hOwner] at hOk

/- An id that is handed out and gone stays gone. -/
theorem run_stays_gone
    {e : Exchange}
    {r : Reference}
    {calls : List Call}
    {id : UInt32}
    (hRep : Represents e r)
    (hRoom : HasRoom e calls)
    (hKnown : id < e.nextId)
    (hGone : e.orders[id]? = none) :
    (Machine.final step e calls).orders[id]? = none := by
  cases hAfter :
      (Machine.final step e calls).orders[id]? with
  | none => rfl
  | some o' =>
      rcases hRep.run_ages hRoom hKnown hAfter with
        ⟨o, hBefore, _⟩
      rw [hGone] at hBefore
      cases hBefore

/- What it means for a handed-out id to be gone. -/
theorem gone_everywhere
    {e : Exchange}
    {r : Reference}
    {id : UInt32}
    (hRep : Represents e r)
    (hKnown : id < e.nextId)
    (hGone : e.orders[id]? = none) :
    id ∉ e.orders ∧
    (∀ inst side price, id ∉ e.deque inst side price) ∧
    (∀ call, ¬ e.TradesWith id call) ∧
    (∀ side inst qty price owner,
      (e.submit side inst qty price owner []).2.1 ≠ id) ∧
    ∀ owner,
      e.cancel id owner = (e, .error "unknown order") := by
  have hAbsent : id ∉ e.orders := by simpa using hGone
  refine ⟨hAbsent, ?_, ?_, ?_, ?_⟩
  · intro inst side price hMem
    rcases hRep.consistent.queued_known inst side price id
        hMem with ⟨o, hOrder, _⟩
    rw [hGone] at hOrder
    cases hOrder
  · intro call hTrades
    cases call with
    | submit side inst qty price owner =>
        rcases hTrades with ⟨turn, o, hMeets⟩
        exact hAbsent (mem_of_meets hMeets)
    | cancel key owner => exact hTrades
  · intro side inst qty price owner
    rw [submit_id]
    exact (UInt32.ne_of_lt hKnown).symm
  · intro owner
    simp [cancel, hGone]

/-
  The life of an order. While it rests, it keeps its side,
  instrument, price and owner, and its quantity never
  grows. Once it is filled up or cancelled, then in every
  later state it is in neither index, it is counterparty of
  no trade, its id is not handed out again, and cancelling
  it fails for everybody and changes nothing.
-/
theorem run_finished_stay_finished
    (before after : List Call)
    (hSubmits : submits (before ++ after) < 2 ^ 32)
    (id : UInt32) :
    let e := Machine.final step empty before
    let e' := Machine.final step empty (before ++ after)
    (∀ o o', e.orders[id]? = some o →
      e'.orders[id]? = some o' → o'.Shrinks o) ∧
    ((∃ pre call post, before = pre ++ call :: post ∧
        (Machine.final step empty pre).Finishes id call) →
      id ∉ e'.orders ∧
      (∀ inst side price,
        id ∉ e'.deque inst side price) ∧
      (∀ call, ¬ e'.TradesWith id call) ∧
      (∀ side inst qty price owner,
        (e'.submit side inst qty price owner
          []).2.1 ≠ id) ∧
      ∀ owner, e'.cancel id owner =
        (e', .error "unknown order")) := by
  intro e e'
  constructor
  · intro o o' hBefore hAfter
    rcases split_run hSubmits with ⟨hRep, hRoom, hFinal⟩
    have hKnown : id < e.nextId := by
      apply hRep.consistent.id_lt
      rw [Std.ExtTreeMap.mem_iff_isSome_getElem?]
      exact Option.isSome_iff_exists.mpr ⟨o, hBefore⟩
    change (Machine.final step empty
      (before ++ after)).orders[id]? = some o' at hAfter
    rw [hFinal] at hAfter
    rcases hRep.run_ages hRoom hKnown hAfter with
      ⟨o₀, hFirst, hShrinks⟩
    rw [hBefore] at hFirst
    injection hFirst with hSame
    exact hSame ▸ hShrinks
  · rintro ⟨pre, call, post, hSplit, hFinishes⟩
    have hSame :
        before ++ after = pre ++ call :: (post ++ after) := by
      rw [hSplit]
      simp
    have hFew := hSubmits
    rw [hSame] at hFew
    rcases split_run hFew with ⟨hRep, hRoom, hFinal⟩
    rcases gone_of_finishes hRep hRoom hFinishes with
      ⟨hKnown, hGone⟩
    rw [Machine.final_cons] at hFinal
    have hStays :=
      run_stays_gone (hRep.step hRoom).2 hRoom.step hKnown
        hGone
    rw [← hFinal, ← hSame] at hStays
    refine gone_everywhere (represents_final hSubmits) ?_
      hStays
    have hLater := HasRoom.run_nextId_le hRoom.step
    rw [← hFinal, ← hSame] at hLater
    exact UInt32.lt_of_lt_of_le hKnown hLater

/- The filled seller is gone, whatever comes after. -/
theorem run_finished_stay_finished_filling :
    (Machine.final step empty
        (fillingCalls 0 ++ [.cancel 1 2])).cancel 0 1 =
      (Machine.final step empty
          (fillingCalls 0 ++ [.cancel 1 2]),
        .error "unknown order") := by
  refine ((run_finished_stay_finished (fillingCalls 0)
    [.cancel 1 2] (by decide) 0).2 ?_).2.2.2.2 1
  refine ⟨(fillingCalls 0).take 2, .submit .buy 0 8 100 3,
    (fillingCalls 0).drop 3, rfl, Or.inr ⟨0, ?_⟩⟩
  exact ⟨⟨0, .sell, 0, 100, 5, 1⟩,
    ⟨by decide, by decide, by decide⟩, by decide⟩

end Exchange

end SocketExchange

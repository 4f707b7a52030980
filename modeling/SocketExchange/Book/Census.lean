import SocketExchange.Book.Conservation

/-
  How many orders, trades and cancellations a run can have.

  Every trade finishes an order, the resting one or the
  incoming one, and every cancellation finishes one more.
  A submission brings one order. Over a whole run the
  trades and the cancellations are therefore paid for by
  the submissions, whatever each order was split into.

  Key definitions include:
    * `MatchState.standing`
    * `cancelsOf`

  Key theorems include:
    * `matchStep_standing`
    * `step_census`
    * `run_census`
-/

------------------------------------------------------------
-- The Matching Loop
------------------------------------------------------------

namespace SocketExchange

namespace Exchange

/- Erasing an order that is there takes one away. -/
theorem size_erase_of_some
    {orders : Orders}
    {id : UInt32}
    {o : Order}
    (hOrder : orders[id]? = some o) :
    (orders.erase id).size + 1 = orders.size := by
  have hMem : id ∈ orders := by
    simp [Std.ExtTreeMap.mem_iff_isSome_getElem?, hOrder]
  have hSome : orders.size ≠ 0 := by
    intro hZero
    exact Std.ExtTreeMap.ne_empty_of_mem hMem
      (Std.ExtTreeMap.eq_empty_iff_size_eq_zero.mpr hZero)
  rw [Std.ExtTreeMap.size_erase,
    if_pos (Std.ExtTreeMap.mem_iff_contains.mp hMem)]
  omega

/- Replacing an order that is there adds none. -/
theorem size_insert_of_some
    {orders : Orders}
    {id : UInt32}
    {o : Order}
    (hOrder : orders[id]? = some o)
    (o' : Order) :
    (orders.insert id o').size = orders.size := by
  have hMem : id ∈ orders := by
    simp [Std.ExtTreeMap.mem_iff_isSome_getElem?, hOrder]
  rw [Std.ExtTreeMap.size_insert,
    if_pos (Std.ExtTreeMap.mem_iff_contains.mp hMem)]

/- The incoming order while it has something to trade. -/
def incoming (remaining : UInt32) : Nat :=
  if 0 < remaining then 1 else 0

theorem incoming_le_one (remaining : UInt32) :
    incoming remaining ≤ 1 := by
  unfold incoming
  split <;> omega

/- A subtraction in the loop brings no order to life. -/
theorem incoming_sub_le
    {remaining : UInt32}
    (hPos : 0 < remaining)
    (q : UInt32) :
    incoming (remaining - q) ≤ incoming remaining := by
  have hOne : incoming remaining = 1 := if_pos hPos
  have hLe := incoming_le_one (remaining - q)
  omega

/-
  The orders still standing while an order trades, with the
  trades made so far.
-/
def MatchState.standing (m : MatchState) : Nat :=
  m.orders.size + incoming m.remaining + m.out.length

/-
  A turn of the matching loop pays for its trade with an
  order: the resting one when it is filled, and otherwise
  the incoming one, which has nothing left.
-/
theorem matchStep_standing
    {side : Side}
    {inst : Fin 2}
    {price : UInt32}
    {owner : Int}
    {m m' : MatchState}
    (hStep : matchStep side inst price owner m = some m') :
    m'.standing ≤ m.standing := by
  rcases matchStep_cases hStep with
    ⟨hPos, otherId, rest, _, hCase⟩
  rcases hCase with ⟨_, rfl⟩ | ⟨other, q, hOther, hq, hCase⟩
  · exact Nat.le_refl _
  rcases hCase with ⟨_, rfl⟩ | ⟨hRest, rfl⟩
  · have hPaid := size_erase_of_some hOther
    have hLeft := incoming_sub_le hPos q
    simp only [MatchState.standing, List.length_append,
      List.length_singleton]
    omega
  · subst hq
    have hSame := size_insert_of_some hOther
    have hPaid : incoming m.remaining = 1 := if_pos hPos
    have hSpent :
        incoming
          (m.remaining -
            minU32 m.remaining other.remaining) = 0 := by
      rw [sub_minU32_eq_zero_of_ne hRest]
      rfl
    simp only [MatchState.standing, List.length_append,
      List.length_singleton, hSame]
    omega

theorem matchLoop_standing
    (side : Side)
    (inst : Fin 2)
    (price : UInt32)
    (owner : Int)
    (m : MatchState) :
    (matchLoop side inst price owner m).standing ≤
      m.standing :=
  Loop.iterate_inv
    (fun n => n.standing ≤ m.standing)
    (fun _ _ hInv hStep =>
      (matchStep_standing hStep).trans hInv)
    _ (Nat.le_refl _)

end Exchange

end SocketExchange

------------------------------------------------------------
-- Runs
------------------------------------------------------------

namespace SocketExchange

/- Number of cancellations a run's replies grant. -/
def cancelsOf : List Reply → Nat
| [] => 0
| .submitted _ _ :: replies => cancelsOf replies
| .cancelled (.ok _) :: replies => cancelsOf replies + 1
| .cancelled (.error _) :: replies => cancelsOf replies

theorem cancelsOf_cons
    (reply : Reply)
    (replies : List Reply) :
    cancelsOf (reply :: replies) =
      cancelsOf [reply] + cancelsOf replies := by
  cases reply with
  | submitted id trades => simp [cancelsOf]
  | cancelled result =>
      cases result with
      | error text => simp [cancelsOf]
      | ok _ =>
          simp only [cancelsOf]
          omega

namespace Exchange

/- An order is spent on trades, rests, or is both. -/
theorem submit_census
    (e : Exchange)
    (side : Side)
    (inst : Fin 2)
    (qty price : UInt32)
    (owner : Int) :
    let r := e.submit side inst qty price owner []
    r.1.orders.size + r.2.2.length ≤ e.orders.size + 1 := by
  have hLoop :=
    matchLoop_standing side inst price owner
      (e.matchStart side inst qty price [])
  have hStart :
      (e.matchStart side inst qty price []).standing ≤
        e.orders.size + 1 := by
    have hOne := incoming_le_one qty
    simp only [MatchState.standing, matchStart,
      List.length_nil]
    omega
  simp only [submit]
  generalize
    matchLoop side inst price owner
      (e.matchStart side inst qty price []) = m at hLoop ⊢
  simp only [MatchState.standing] at hLoop hStart
  by_cases hRests : 0 < m.remaining
  · have hOne : incoming m.remaining = 1 := if_pos hRests
    simp only [if_pos hRests]
    have hGrow (o : Order) :
        (m.orders.insertIfNew e.nextId o).size ≤
          m.orders.size + 1 :=
      Std.ExtTreeMap.size_insertIfNew_le
    refine (Nat.add_le_add_right (hGrow _) _).trans ?_
    omega
  · simp only [if_neg hRests]
    omega

/- A cancellation that is granted takes one order away. -/
theorem cancel_census
    (e : Exchange)
    (id : UInt32)
    (owner : Int) :
    let r := e.cancel id owner
    r.1.orders.size + cancelsOf [.cancelled r.2] =
      e.orders.size := by
  cases hOrder : e.orders[id]? with
  | none => simp [cancel, hOrder, cancelsOf]
  | some o =>
      by_cases hOwner : o.owner = owner
      · have hTaken := size_erase_of_some hOrder
        simp only [cancel, hOrder, hOwner, ne_eq,
          not_true, if_false, cancelsOf]
        omega
      · simp [cancel, hOrder, hOwner, cancelsOf]

/- What one call adds to the census. -/
theorem step_census (e : Exchange) (call : Call) :
    (e.step call).1.orders.size +
        (tradesOf [(e.step call).2]).length +
        cancelsOf [(e.step call).2] ≤
      e.orders.size + submits [call] := by
  cases call with
  | submit side inst qty price owner =>
      have hSubmit :=
        submit_census e side inst qty price owner
      simp only [step, tradesOf, cancelsOf, submits,
        List.append_nil]
      omega
  | cancel id owner =>
      have hCancel := cancel_census e id owner
      simp only [step, tradesOf, submits, List.length_nil]
      omega

theorem run_census_from
    (e : Exchange)
    (calls : List Call) :
    (Machine.final step e calls).orders.size +
        (tradesOf (Machine.replies step e calls)).length +
        cancelsOf (Machine.replies step e calls) ≤
      e.orders.size + submits calls := by
  induction calls generalizing e with
  | nil =>
      simp [Machine.replies, tradesOf, cancelsOf, submits]
  | cons call calls ih =>
      have hStep := step_census e call
      have hRest := ih (e.step call).1
      have hSubmits : submits (call :: calls) =
          submits [call] + submits calls := by
        cases call <;> simp [submits, Nat.add_comm]
      rw [Machine.final_cons, Machine.replies,
        tradesOf_cons, cancelsOf_cons, List.length_append,
        hSubmits]
      omega

/-
  The census of a run. In any run, of any length, the
  orders resting at the end, the trades made and the
  cancellations granted are together no more than the
  submissions. However an order is split up, the exchange
  makes at most one trade for each order it was given.
-/
theorem run_census (calls : List Call) :
    (Machine.final step empty calls).orders.size +
        (tradesOf
          (Machine.replies step empty calls)).length +
        cancelsOf (Machine.replies step empty calls) ≤
      submits calls := by
  have hRun := run_census_from empty calls
  have hNone : empty.orders.size = 0 :=
    Std.ExtTreeMap.size_empty
  omega

/- Four orders make two trades and one cancellation. -/
example :
    (tradesOf
        (Machine.replies step empty
          (cancellingCalls 0))).length = 2 ∧
      cancelsOf
        (Machine.replies step empty
          (cancellingCalls 0)) = 1 ∧
      submits (cancellingCalls 0) = 4 := by
  decide

end Exchange

end SocketExchange

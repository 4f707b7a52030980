import SocketExchange.Book.Invariant

/-
  Conservation of quantity.

  An account is one trader on one side of one instrument and
  price. Whatever was submitted on an account has been
  traded, was taken back by a cancellation, or still rests.
  All sums are sums of natural numbers.

  Main declarations:
    * `Account`
    * `submittedQty`, `tradedQty`, `cancelledQty`
    * `Exchange.restingQty`
    * `Exchange.run_conserves`
-/

------------------------------------------------------------
-- Accounts
------------------------------------------------------------

namespace SocketExchange

structure Account where
  owner : Int
  side : Side
  inst : Fin 2
  price : UInt32
deriving DecidableEq, Repr

namespace Account

/- The order was submitted on this account. -/
def Holds (a : Account) (o : Order) : Prop :=
  o.owner = a.owner ∧ o.side = a.side ∧
    o.inst = a.inst ∧ o.price = a.price

instance (a : Account) (o : Order) : Decidable (a.Holds o) := by
  unfold Holds
  infer_instance

/- The trader on the account's side of a trade. -/
def party (a : Account) (t : Trade) : Int :=
  match a.side with
  | .buy => t.buyerOwner
  | .sell => t.sellerOwner

/- The trade has this account on its side. -/
def Trades (a : Account) (t : Trade) : Prop :=
  a.party t = a.owner ∧ t.inst = a.inst ∧
    t.price = a.price

instance (a : Account) (t : Trade) : Decidable (a.Trades t) := by
  unfold Trades
  infer_instance

/- What is left of an order, if it is on this account. -/
def share (a : Account) (o : Order) : Nat :=
  if a.Holds o then o.remaining.toNat else 0

end Account

/- Quantity submitted on an account. -/
def submittedQty (a : Account) : List Call → Nat
| [] => 0
| .submit side inst qty price owner :: calls =>
    (if a = ⟨owner, side, inst, price⟩ then qty.toNat
      else 0) + submittedQty a calls
| .cancel _ _ :: calls => submittedQty a calls

/- Quantity traded on an account. -/
def tradedQty (a : Account) (trades : List Trade) : Nat :=
  (trades.map fun t =>
    if a.Trades t then t.qty.toNat else 0).sum

/- All trades reported in a list of replies. -/
def tradesOf : List Reply → List Trade
| [] => []
| .submitted _ trades :: replies =>
    trades ++ tradesOf replies
| .cancelled _ :: replies => tradesOf replies

namespace Exchange

/- Quantity resting on an account. -/
def restingQty (e : Exchange) (a : Account) : Nat :=
  (e.orders.toList.map fun entry => a.share entry.2).sum

/-
  Quantity that a call takes back: what was left of the
  order when it was cancelled successfully.
-/
def takenBack
    (e : Exchange)
    (a : Account) :
    Call → Nat
| .submit _ _ _ _ _ => 0
| .cancel id owner =>
    match e.orders[id]?, (e.cancel id owner).2 with
    | some o, .ok _ => a.share o
    | _, _ => 0

end Exchange

/- Quantity taken back by the cancellations of a run. -/
def cancelledQty
    (a : Account) :
    Exchange → List Call → Nat
| _, [] => 0
| e, call :: calls =>
    e.takenBack a call +
      cancelledQty a (e.step call).1 calls

@[simp] theorem tradedQty_append
    (a : Account)
    (trades trades' : List Trade) :
    tradedQty a (trades ++ trades') =
      tradedQty a trades + tradedQty a trades' := by
  simp [tradedQty]

end SocketExchange

------------------------------------------------------------
-- One Trade
------------------------------------------------------------

namespace SocketExchange

/- What rests on an account, in a list of orders. -/
def listQty (a : Account) (resting : List Order) : Nat :=
  (resting.map a.share).sum

@[simp] theorem listQty_append
    (a : Account)
    (left right : List Order) :
    listQty a (left ++ right) =
      listQty a left + listQty a right := by
  simp [listQty]

@[simp] theorem listQty_cons
    (a : Account)
    (o : Order)
    (resting : List Order) :
    listQty a (o :: resting) =
      a.share o + listQty a resting := by
  simp [listQty]

/- What an incoming order still has to trade. -/
def incomingQty
    (a : Account)
    (side : Side)
    (inst : Fin 2)
    (price : UInt32)
    (owner : Int)
    (remaining : UInt32) : Nat :=
  if a = ⟨owner, side, inst, price⟩ then remaining.toNat
  else 0

/-
  A trade counts once on the incoming order's account and
  once on the resting order's, which is on the other side.
-/
theorem tradedQty_fill
    (a : Account)
    {side : Side}
    {inst : Fin 2}
    {price : UInt32}
    (owner : Int)
    (q : UInt32)
    {other : Order}
    (hOther :
      restsAt inst side.opposite price other = true) :
    tradedQty a
        [Exchange.fillTrade side inst price owner q other] =
      incomingQty a side inst price owner q +
        (if a.Holds other then q.toNat else 0) := by
  rw [restsAt_iff] at hOther
  rcases hOther with ⟨hInst, hSide, hPrice⟩
  rcases a with ⟨w, s, i, p⟩
  cases side <;> cases s <;>
    simp [tradedQty, incomingQty, Account.Trades,
      Account.party, Account.Holds, Exchange.fillTrade,
      Side.opposite, hInst, hSide, hPrice] <;>
    grind

/- Subtraction in the loop never goes below zero. -/
theorem toNat_sub_minU32_left (x y : UInt32) :
    (x - minU32 x y).toNat + (minU32 x y).toNat =
      x.toNat := by
  have hLe := minU32_le_left x y
  have hNat := UInt32.le_iff_toNat_le.mp hLe
  rw [UInt32.toNat_sub_of_le _ _ hLe]
  omega

theorem toNat_sub_minU32_right (x y : UInt32) :
    (y - minU32 x y).toNat + (minU32 x y).toNat =
      y.toNat := by
  have hLe := minU32_le_right x y
  have hNat := UInt32.le_iff_toNat_le.mp hLe
  rw [UInt32.toNat_sub_of_le _ _ hLe]
  omega

/- Lowering an order's quantity lowers its account's share. -/
theorem share_fill
    (a : Account)
    (x : UInt32)
    (other : Order) :
    a.share
          { other with
            remaining :=
              other.remaining - minU32 x other.remaining } +
        (if a.Holds other
          then (minU32 x other.remaining).toNat else 0) =
      a.share other := by
  have hSum := toNat_sub_minU32_right x other.remaining
  unfold Account.share
  by_cases hHolds : a.Holds other
  · have hHolds' :
        a.Holds
          { other with
            remaining :=
              other.remaining -
                minU32 x other.remaining } := hHolds
    rw [if_pos hHolds, if_pos hHolds, if_pos hHolds']
    exact hSum
  · have hHolds' :
        ¬ a.Holds
          { other with
            remaining :=
              other.remaining -
                minU32 x other.remaining } := hHolds
    rw [if_neg hHolds, if_neg hHolds, if_neg hHolds']

end SocketExchange

------------------------------------------------------------
-- One Call
------------------------------------------------------------

namespace SocketExchange

namespace Reference

/-
  The balance of an account while an order trades: what the
  incoming order has left, what rests, and what has been
  traded so far.
-/
def MatchState.balance
    (m : MatchState)
    (a : Account)
    (side : Side)
    (inst : Fin 2)
    (price : UInt32)
    (owner : Int) : Nat :=
  incomingQty a side inst price owner m.remaining +
    listQty a m.resting + tradedQty a m.out

/- A trade moves quantity without changing any balance. -/
theorem matchStep_balance
    (a : Account)
    {side : Side}
    {inst : Fin 2}
    {price : UInt32}
    {owner : Int}
    {m m' : MatchState}
    (hStep : matchStep side inst price owner m = some m') :
    m'.balance a side inst price owner =
      m.balance a side inst price owner := by
  rcases matchStep_cases hStep with
    ⟨_, before, other, after, hSplit, _, hOther, hRem,
      hOut, hCase⟩
  have hTrade :=
    tradedQty_fill a owner
      (minU32 m.remaining other.remaining) hOther
  have hShare := share_fill a m.remaining other
  have hIncoming :
      incomingQty a side inst price owner
            (m.remaining -
              minU32 m.remaining other.remaining) +
          incomingQty a side inst price owner
            (minU32 m.remaining other.remaining) =
        incomingQty a side inst price owner
          m.remaining := by
    unfold incomingQty
    split
    · exact toNat_sub_minU32_left _ _
    · rfl
  unfold MatchState.balance
  rw [hRem, hOut, tradedQty_append, hTrade, hSplit]
  rcases hCase with ⟨hFilled, hNext⟩ | ⟨_, hNext⟩
  · have hGone :
        a.share
          { other with
            remaining :=
              other.remaining -
                minU32 m.remaining other.remaining } =
          0 := by
      unfold Account.share
      simp [hFilled]
    rw [hNext]
    simp only [listQty_append, listQty_cons]
    omega
  · rw [hNext]
    simp only [listQty_append, listQty_cons]
    omega

theorem matchLoop_balance
    (a : Account)
    (side : Side)
    (inst : Fin 2)
    (price : UInt32)
    (owner : Int)
    (m : MatchState) :
    (matchLoop side inst price owner m).balance
        a side inst price owner =
      m.balance a side inst price owner :=
  Loop.iterate_inv
    (fun n =>
      n.balance a side inst price owner =
        m.balance a side inst price owner)
    (fun _ _ hInv hStep =>
      (matchStep_balance a hStep).trans hInv)
    _ rfl

/- Submission conserves quantity on every account. -/
theorem submit_balance
    (a : Account)
    (r : Reference)
    (side : Side)
    (inst : Fin 2)
    (qty price : UInt32)
    (owner : Int) :
    incomingQty a side inst price owner qty +
        listQty a r.resting =
      tradedQty a
          (r.submit side inst qty price owner []).2.2 +
        listQty a
          (r.submit side inst qty price owner
            []).1.resting := by
  have hLoop :=
    matchLoop_balance a side inst price owner
      { remaining := qty
        resting := r.resting
        out := [] }
  simp only [submit]
  set m :=
    matchLoop side inst price owner
      { remaining := qty
        resting := r.resting
        out := [] }
  simp only [MatchState.balance, tradedQty, List.map_nil,
    List.sum_nil, Nat.add_zero] at hLoop
  rw [← hLoop]
  by_cases hLeft : 0 < m.remaining
  · rw [if_pos hLeft, listQty_append]
    have hRested :
        listQty a
            [{ id := r.nextId, side := side, inst := inst
               price := price, remaining := m.remaining
               owner := owner }] =
          incomingQty a side inst price owner
            m.remaining := by
      rcases a with ⟨w, s, i, p⟩
      simp only [listQty, List.map_cons, List.map_nil,
        List.sum_cons, List.sum_nil, Nat.add_zero,
        Account.share, Account.Holds, incomingQty,
        Account.mk.injEq]
      grind
    rw [hRested, tradedQty]
    omega
  · have hZero : m.remaining = 0 := by
      by_contra hNe
      exact hLeft (UInt32.pos_iff_ne_zero.mpr hNe)
    have hNone :
        incomingQty a side inst price owner
          m.remaining = 0 := by
      simp [incomingQty, hZero]
    rw [if_neg hLeft, hNone, tradedQty]
    omega

end Reference

end SocketExchange

------------------------------------------------------------
-- Whole Runs
------------------------------------------------------------

namespace SocketExchange

/- The resting quantity of an exchange is that of its list. -/
theorem Represents.restingQty_eq
    {e : Exchange}
    {r : Reference}
    (hRep : Represents e r)
    (a : Account) :
    e.restingQty a = listQty a r.resting := by
  have hEntries :
      e.orders.toList.Perm
        (r.resting.map fun o => (o.id, o)) := by
    rw [List.perm_ext_iff_of_nodup]
    · rintro ⟨id, o⟩
      rw [Std.ExtTreeMap.mem_toList_iff_getElem?_eq_some,
        hRep.orders id o]
      simp only [List.mem_map, Prod.mk.injEq]
      constructor
      · rintro ⟨hIn, hId⟩
        exact ⟨o, hIn, hId, rfl⟩
      · rintro ⟨o', hIn, hId, rfl⟩
        exact ⟨hIn, hId⟩
    · exact Std.ExtTreeMap.distinct_keys_toList.imp (by
        rintro x y hNe rfl
        exact hNe (by simp))
    · rw [List.nodup_iff_pairwise_ne, List.pairwise_map]
      exact hRep.sorted.imp (by
        intro x y hLt hEq
        exact UInt32.ne_of_lt hLt (Prod.mk.inj hEq).1)
  unfold Exchange.restingQty listQty
  rw [(hEntries.map fun entry => a.share entry.2).sum_eq,
    List.map_map]
  rfl

/- One call conserves quantity on every account. -/
theorem Represents.step_balance
    {e : Exchange}
    {r : Reference}
    {call : Call}
    {calls : List Call}
    (hRep : Represents e r)
    (hRoom : HasRoom e (call :: calls))
    (a : Account) :
    submittedQty a [call] + e.restingQty a =
      tradedQty a (tradesOf [(e.step call).2]) +
        e.takenBack a call +
        (e.step call).1.restingQty a := by
  rcases hRep.step hRoom with ⟨hReply, hNext⟩
  rw [hRep.restingQty_eq, hNext.restingQty_eq, hReply]
  cases call with
  | submit side inst qty price owner =>
      have hBalance :=
        Reference.submit_balance a r side inst qty price
          owner
      simp only [incomingQty] at hBalance
      simp only [submittedQty, Reference.step, tradesOf,
        Exchange.takenBack, List.append_nil]
      omega
  | cancel id owner =>
      simp only [submittedQty, Reference.step, tradesOf,
        Exchange.takenBack, Exchange.cancel,
        Reference.cancel, tradedQty, List.map_nil,
        List.sum_nil]
      rw [← hRep.find_eq id]
      cases hFind :
          r.resting.find? fun o => o.id == id with
      | none => simp
      | some o =>
          rcases FirstMatch.split hFind with
            ⟨before, after, hSplit, _, _, hErase, _⟩
          by_cases hOwner : o.owner = owner
          · simp only [hOwner, ne_eq, not_true_eq_false,
              if_false, hErase]
            rw [hSplit]
            simp only [listQty_append, listQty_cons]
            omega
          · simp [hOwner]

theorem submittedQty_cons
    (a : Account)
    (call : Call)
    (calls : List Call) :
    submittedQty a (call :: calls) =
      submittedQty a [call] + submittedQty a calls := by
  cases call <;> simp [submittedQty]

theorem tradesOf_cons
    (reply : Reply)
    (replies : List Reply) :
    tradesOf (reply :: replies) =
      tradesOf [reply] ++ tradesOf replies := by
  cases reply <;> simp [tradesOf]

/- A run conserves quantity, from any represented state. -/
theorem Represents.run_balance
    {e : Exchange}
    {r : Reference}
    {calls : List Call}
    (hRep : Represents e r)
    (hRoom : HasRoom e calls)
    (a : Account) :
    submittedQty a calls + e.restingQty a =
      tradedQty a
          (tradesOf
            (Machine.replies Exchange.step e calls)) +
        cancelledQty a e calls +
        (Machine.final Exchange.step e calls).restingQty
          a := by
  induction calls generalizing e r with
  | nil =>
      simp [submittedQty, Machine.replies, tradesOf,
        tradedQty, cancelledQty]
  | cons call calls ih =>
      have hStep := hRep.step_balance hRoom a
      have hRest := ih (hRep.step hRoom).2 hRoom.step
      rw [submittedQty_cons, Machine.replies,
        tradesOf_cons, tradedQty_append, cancelledQty,
        Machine.final_cons]
      omega

namespace Exchange

/-
  Conservation of quantity. On every account, the quantity
  submitted is the quantity traded, plus what cancellations
  took back, plus what rests. No turn of a matching loop
  subtracts more than there is on either side.
-/
theorem run_conserves
    (calls : List Call)
    (hSubmits : submits calls < 2 ^ 32) :
    let e := Machine.final step empty calls
    (∀ a : Account,
      submittedQty a calls =
        tradedQty a
            (tradesOf (Machine.replies step empty calls)) +
          cancelledQty a empty calls +
          e.restingQty a) ∧
      ∀ side inst qty price owner out turn,
        let m :=
          Loop.iterate (matchStep side inst price owner)
            turn (e.matchStart side inst qty price out)
        ∀ (id : UInt32) (other : Order),
          m.orders[id]? = some other →
            let q := minU32 m.remaining other.remaining
            q.toNat ≤ m.remaining.toNat ∧
              q.toNat ≤ other.remaining.toNat := by
  intro e
  constructor
  · intro a
    have hRun :=
      represents_empty.run_balance
        (hasRoom_empty hSubmits) a
    have hNothing : Exchange.empty.restingQty a = 0 := by
      rw [represents_empty.restingQty_eq]
      rfl
    rw [hNothing, Nat.add_zero] at hRun
    exact hRun
  · intro side inst qty price owner out turn m id other _ q
    exact
      ⟨UInt32.le_iff_toNat_le.mp (minU32_le_left _ _),
        UInt32.le_iff_toNat_le.mp (minU32_le_right _ _)⟩

/- Of the second seller's 7 units, 3 traded and 4 came back. -/
theorem run_conserves_cancelling :
    7 = 3 + 4 +
      (Machine.final step empty
        (cancellingCalls 0)).restingQty ⟨2, .sell, 0, 100⟩ :=
  (run_conserves (cancellingCalls 0) (by decide)).1
    ⟨2, .sell, 0, 100⟩

end Exchange

end SocketExchange

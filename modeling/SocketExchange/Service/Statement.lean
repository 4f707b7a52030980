import SocketExchange.Service.Handling
import SocketExchange.Service.Moves

/-
  The letters of a party balance.

  Over every run of the service: the fills in a letter box
  are the trades on the tape that name the party, in order,
  and there is one reply for each line that asked for one. A
  party that is gone has a first part of that. What is true
  of the service is true of the server, between any two
  turns of any run.

  Main declarations:
    * `Service.Balanced`
    * `Service.after_balanced`
    * `Server.fills_complete`
    * `Server.one_reply_each`
    * `Server.position_reconciles`
-/

------------------------------------------------------------
-- Inputs That Fit
------------------------------------------------------------

namespace SocketExchange

/- The ids of those who joined, in order. -/
def joinsOf (inputs : List Input) : List Int :=
  inputs.filterMap fun
    | .join id => some id
    | _ => none

/- Nobody joins twice, or is heard of before. -/
def Input.Fits (pre : List Input) : Input → Prop
| .join id => id ∉ joinsOf pre
| .say id _ => id ∈ joinsOf pre
| .overlong id => id ∈ joinsOf pre
| .leave id => id ∈ joinsOf pre

theorem joinsOf_append (inputs more : List Input) :
    joinsOf (inputs ++ more) =
      joinsOf inputs ++ joinsOf more :=
  List.filterMap_append

theorem joinsOf_inputsOf (log : List Obs) :
    joinsOf (inputsOf log) = acceptedOwners log := by
  unfold joinsOf inputsOf acceptedOwners
  rw [List.filterMap_filterMap]
  congr 1
  funext e
  cases e <;> rfl

/- The inputs of a history that justifies itself. -/
theorem inputs_fit
    {log : List Obs}
    (hTraced : Traced Justified log) :
    Traced Input.Fits (inputsOf log) := by
  refine Traced.induction
    (motive := fun log => Traced Input.Fits (inputsOf log))
    Traced.nil ?_ hTraced
  intro log e _ ih hJust
  have hOne :
      ∀ i, e.input? = some i →
        i.Fits (inputsOf log) →
        Traced Input.Fits (inputsOf (log ++ [e])) := by
    intro i hInput hFits
    have hLast : inputsOf [e] = [i] := by
      simp [inputsOf, hInput]
    rw [inputsOf_append, hLast]
    refine ih.append (Traced.singleton ?_)
    rw [List.append_nil]
    exact hFits
  have hNone :
      e.input? = none →
        Traced Input.Fits (inputsOf (log ++ [e])) := by
    intro hInput
    have hLast : inputsOf [e] = [] := by
      simp [inputsOf, hInput]
    rw [inputsOf_append, hLast, List.append_nil]
    exact ih
  have hIds := joinsOf_inputsOf log
  cases e with
  | accepted fd owner =>
      refine hOne _ rfl ?_
      unfold Input.Fits
      rw [hIds]
      exact hJust
  | line owner text =>
      refine hOne _ rfl ?_
      unfold Input.Fits
      rw [hIds]
      exact hJust
  | overlong owner =>
      refine hOne _ rfl ?_
      unfold Input.Fits
      rw [hIds]
      exact hJust
  | closed owner why left =>
      refine hOne _ rfl ?_
      unfold Input.Fits
      rw [hIds]
      exact hJust
  | _ => exact hNone rfl

end SocketExchange

------------------------------------------------------------
-- Balanced Letter Boxes
------------------------------------------------------------

namespace SocketExchange

namespace Service

/- A trader, here or gone, has this id. -/
def IsTrader (v : Service) (k : Int) : Prop :=
  ∃ p ∈ v.parties, p.role = .trader ∧ p.id = k

/- The letters of a party balance with tape and inputs. -/
structure Accounted
    (tape : List Trade)
    (inputs : List Input)
    (p : Party) : Prop where
  fills_first :
    p.mail.filter Msg.isFill <+:
      tape.flatMap (Trade.fillsOf p.id)
  fills :
    p.gone = false →
      p.mail.filter Msg.isFill =
        tape.flatMap (Trade.fillsOf p.id)
  replies_le :
    p.mail.countP Msg.isReply ≤
      inputs.countP (Input.asks p.id)
  replies :
    p.gone = false →
      p.mail.countP Msg.isReply =
        inputs.countP (Input.asks p.id)

/- Where the service stands after these inputs. -/
structure Balanced
    (v : Service)
    (inputs : List Input) : Prop where
  ids : v.parties.map Party.id = joinsOf inputs
  resting : ∀ o ∈ v.book.resting, v.IsTrader o.owner
  tape :
    ∀ t ∈ v.tape,
      v.IsTrader t.buyerOwner ∧ v.IsTrader t.sellerOwner
  accounts : ∀ p ∈ v.parties, Accounted v.tape inputs p

theorem balanced_start : Balanced start [] where
  ids := rfl
  resting := List.forall_mem_nil _
  tape := List.forall_mem_nil _
  accounts := List.forall_mem_nil _

variable {v v' : Service} {inputs : List Input} {i : Input}

theorem Balanced.isTrader_of_known
    (hBal : Balanced v inputs)
    {k : Int}
    (hKnown : v.Known k) :
    v.IsTrader k := by
  rcases hKnown with hTrader | ⟨o, ho, rfl⟩
  · exact hTrader
  · exact hBal.resting o ho

/- Trades name nobody who is not a trader. -/
theorem Balanced.fillsOf_eq
    {trades : List Trade}
    {p : Party}
    (hNodup : (v.parties.map Party.id).Nodup)
    (hTraders :
      ∀ t ∈ trades,
        v.IsTrader t.buyerOwner ∧ v.IsTrader t.sellerOwner)
    (hp : p ∈ v.parties) :
    trades.flatMap p.fills =
      trades.flatMap (Trade.fillsOf p.id) := by
  apply List.flatMap_congr
  intro t ht
  by_cases hRole : p.role = .trader
  · simp [Party.fills, Trade.fillsOf, hRole]
  · have hNot : ∀ k, v.IsTrader k → p.id ≠ k := by
      rintro k ⟨q, hq, hTrader, rfl⟩ hSame
      have hEq : p = q :=
        List.inj_on_of_nodup_map hNodup hp hq hSame
      exact hRole (hEq ▸ hTrader)
    rcases hTraders t ht with ⟨hBuyer, hSeller⟩
    simp [Party.fills, Trade.fillsOf, hRole,
      hNot _ hBuyer, hNot _ hSeller]

theorem Accounted.moves
    {tape trades : List Trade}
    {p q : Party}
    (hAcc : Accounted tape inputs p)
    (hMoves : p.Moves i trades q)
    (hFills :
      trades.flatMap p.fills =
        trades.flatMap (Trade.fillsOf p.id)) :
    Accounted (tape ++ trades) (inputs ++ [i]) q := by
  have hAsks :
      (inputs ++ [i]).countP (Input.asks p.id) =
        inputs.countP (Input.asks p.id) +
          if i.asks p.id then 1 else 0 := by
    rw [List.countP_append, List.countP_singleton]
  cases hGone : p.gone with
  | true =>
      rcases hMoves.gone hGone with ⟨hStays, hMail⟩
      constructor
      · rw [hMail, hMoves.id, List.flatMap_append]
        exact hAcc.fills_first.trans
          (List.prefix_append _ _)
      · intro hHere
        rw [hStays] at hHere
        cases hHere
      · rw [hMail, hMoves.id, hAsks]
        exact hAcc.replies_le.trans (Nat.le_add_right _ _)
      · intro hHere
        rw [hStays] at hHere
        cases hHere
  | false =>
      rcases hMoves.here hGone with
        ⟨ms, hMail, hMs, _, hReplies⟩
      have hAll :
          q.mail.filter Msg.isFill =
            (tape ++ trades).flatMap
              (Trade.fillsOf q.id) := by
        rw [hMail, hMoves.id, List.filter_append,
          List.flatMap_append, hAcc.fills hGone, hMs,
          hFills]
      have hCount :
          q.mail.countP Msg.isReply =
            (inputs ++ [i]).countP (Input.asks q.id) := by
        rw [hMail, hMoves.id, List.countP_append, hAsks,
          hAcc.replies hGone, hReplies]
      exact ⟨hAll ▸ List.prefix_refl _, fun _ => hAll,
        hCount.le, fun _ => hCount⟩

/- A newcomer, of whom nothing was heard before. -/
theorem Balanced.fresh
    {k : Int}
    (hBal : Balanced v inputs)
    (hTraced : Traced Input.Fits inputs)
    (hNew : k ∉ joinsOf inputs) :
    Accounted v.tape (inputs ++ [.join k])
      (Party.fresh k) := by
  have hFills : v.tape.flatMap (Trade.fillsOf k) = [] := by
    rw [List.flatMap_eq_nil_iff]
    intro t ht
    have hNot : ∀ j, v.IsTrader j → k ≠ j := by
      rintro j ⟨q, hq, _, rfl⟩ rfl
      rw [← hBal.ids] at hNew
      exact hNew (List.mem_map_of_mem hq)
    rcases hBal.tape t ht with ⟨hBuyer, hSeller⟩
    simp [Trade.fillsOf, hNot _ hBuyer, hNot _ hSeller]
  have hAsks :
      (inputs ++ [Input.join k]).countP (Input.asks k) =
        0 := by
    rw [List.countP_eq_zero]
    intro i hi hIs
    rcases List.mem_append.mp hi with hOld | hLast
    · rcases List.append_of_mem hOld with
        ⟨pre, post, hSplit⟩
      have hFits := hTraced pre i post hSplit
      have hMem : k ∈ joinsOf pre := by
        cases i with
        | say id line =>
            have hId : id = k := by
              simp only [Input.asks, Bool.and_eq_true,
                decide_eq_true_eq] at hIs
              exact hIs.1
            exact hId ▸ hFits
        | overlong id =>
            have hId : id = k := by
              simpa [Input.asks] using hIs
            exact hId ▸ hFits
        | join id => cases hIs
        | leave id => cases hIs
      refine hNew ?_
      rw [hSplit, joinsOf_append]
      exact List.mem_append_left _ hMem
    · rw [List.mem_singleton.mp hLast] at hIs
      cases hIs
  have hNone : (Party.fresh k).mail = [] := rfl
  constructor
  · exact List.nil_prefix
  · intro _
    exact hFills.symm
  · rw [hNone]
    exact Nat.zero_le _
  · intro _
    rw [hNone]
    exact hAsks.symm

theorem Balanced.step
    (hBal : Balanced v inputs)
    (hTraced : Traced Input.Fits inputs)
    (hFits : i.Fits inputs)
    (hNodup : (v.parties.map Party.id).Nodup) :
    Balanced (v.step i) (inputs ++ [i]) := by
  by_cases hJoin : ∃ k, i = .join k
  · rcases hJoin with ⟨k, rfl⟩
    have hGrows :
        ∀ j, v.IsTrader j → (v.step (.join k)).IsTrader j
      := by
      rintro j ⟨p, hp, hRole, hId⟩
      exact ⟨p, List.mem_append_left _ hp, hRole, hId⟩
    refine ⟨?_, ?_, ?_, ?_⟩
    · change (v.parties ++ [Party.fresh k]).map Party.id = _
      rw [List.map_append, hBal.ids, joinsOf_append]
      rfl
    · exact fun o ho => hGrows _ (hBal.resting o ho)
    · intro t ht
      rcases hBal.tape t ht with ⟨hBuyer, hSeller⟩
      exact ⟨hGrows _ hBuyer, hGrows _ hSeller⟩
    · intro p hp
      rcases List.mem_append.mp hp with hOld | hLast
      · have hAcc := hBal.accounts p hOld
        have hSame :
            p.Moves (.join k) [] p :=
          .quiet rfl (fun h => h) (fun h => h) rfl
            (fun _ => rfl)
        have hNext := hAcc.moves hSame rfl
        rwa [List.append_nil] at hNext
      · rw [List.mem_singleton.mp hLast]
        exact hBal.fresh hTraced hFits
  · rcases step_moved hNodup
        (fun k h => hJoin ⟨k, h⟩) with ⟨trades, H, hMoved⟩
    have hGrows :
        ∀ j, v.IsTrader j → (v.step i).IsTrader j := by
      rintro j ⟨p, hp, hRole, hId⟩
      have hMoves := hMoved.each p hp
      refine ⟨H p, ?_, hMoves.trader hRole,
        hMoves.id.trans hId⟩
      rw [hMoved.parties]
      exact List.mem_map_of_mem hp
    have hTraders :
        ∀ t ∈ trades,
          v.IsTrader t.buyerOwner ∧
            v.IsTrader t.sellerOwner := by
      intro t ht
      rcases hMoved.known t ht with ⟨hBuyer, hSeller⟩
      exact ⟨hBal.isTrader_of_known hBuyer,
        hBal.isTrader_of_known hSeller⟩
    refine ⟨?_, ?_, ?_, ?_⟩
    · have hIds :
          (v.parties.map H).map Party.id =
            v.parties.map Party.id := by
        rw [List.map_map]
        apply List.map_congr_left
        intro p hp
        exact (hMoved.each p hp).id
      have hNone : joinsOf [i] = [] := by
        cases i with
        | join k => exact absurd ⟨k, rfl⟩ hJoin
        | _ => rfl
      rw [hMoved.parties, hIds, hBal.ids, joinsOf_append,
        hNone, List.append_nil]
    · intro o ho
      exact hGrows _
        (hBal.isTrader_of_known (hMoved.resting o ho))
    · rw [hMoved.tape]
      intro t ht
      rcases List.mem_append.mp ht with hOld | hNew
      · rcases hBal.tape t hOld with ⟨hBuyer, hSeller⟩
        exact ⟨hGrows _ hBuyer, hGrows _ hSeller⟩
      · rcases hTraders t hNew with ⟨hBuyer, hSeller⟩
        exact ⟨hGrows _ hBuyer, hGrows _ hSeller⟩
    · rw [hMoved.parties, hMoved.tape]
      intro q hq
      rcases List.mem_map.mp hq with ⟨p, hp, rfl⟩
      exact (hBal.accounts p hp).moves (hMoved.each p hp)
        (Balanced.fillsOf_eq hNodup hTraders hp)

/- Ids that fit are never handed out twice. -/
theorem joinsOf_nodup
    (hTraced : Traced Input.Fits inputs) :
    (joinsOf inputs).Nodup := by
  refine Traced.induction
    (motive := fun inputs => (joinsOf inputs).Nodup)
    List.nodup_nil ?_ hTraced
  intro inputs i _ ih hFits
  rw [joinsOf_append]
  cases i with
  | join k =>
      refine List.Nodup.append ih (List.nodup_singleton k) ?_
      intro j hOld hLast
      have hEq : j = k := List.mem_singleton.mp hLast
      exact hFits (hEq ▸ hOld)
  | _ => simpa [joinsOf] using ih

/- Over every run, all letter boxes balance. -/
theorem after_balanced
    (hTraced : Traced Input.Fits inputs) :
    Balanced (start.after inputs) inputs := by
  refine Traced.induction
    (motive := fun inputs =>
      Balanced (start.after inputs) inputs)
    balanced_start ?_ hTraced
  intro inputs i hBefore ih hFits
  rw [after_append]
  refine ih.step hBefore hFits ?_
  rw [ih.ids]
  exact joinsOf_nodup hBefore

end Service

end SocketExchange

------------------------------------------------------------
-- On The Server
------------------------------------------------------------

namespace SocketExchange

/- The entry asks for a reply on this connection. -/
def Obs.asks (k : Int) : Obs → Bool
| .line owner text => decide (owner = k) && asksReply text
| .overlong owner => decide (owner = k)
| _ => false

/- Entries ask for what their inputs ask for. -/
theorem countP_asks_inputsOf
    (k : Int)
    (log : List Obs) :
    (inputsOf log).countP (Input.asks k) =
      log.countP (Obs.asks k) := by
  unfold inputsOf
  rw [List.countP_filterMap]
  congr 1
  funext e
  cases e <;> simp [Obs.input?, Obs.asks, Input.asks]

namespace Server

variable {s : Server}

/- What a settled server owes to the service. -/
theorem Settled.accounts
    (hSettled : Settled s)
    (hRoom : submits (callsOf s.log) < 2 ^ 32) :
    Registry s ∧ History s ∧
      Refines s (Service.start.after (inputsOf s.log)) ∧
      Service.Balanced
        (Service.start.after (inputsOf s.log))
        (inputsOf s.log) := by
  rcases hSettled.invariant (fun _ => True)
      (fun _ _ => trivial) (fun _ _ _ _ _ _ _ => trivial)
    with ⟨hReg, hHist, _⟩
  exact ⟨hReg, hHist, hSettled.refines hRoom,
    Service.after_balanced (inputs_fit hHist.traced)⟩

/-
  Every accepted connection has a party that is accounted
  for, and that has all its letters while it is live.
-/
theorem Settled.accounted
    (hSettled : Settled s)
    (hRoom : submits (callsOf s.log) < 2 ^ 32) :
    (∀ owner ∈ acceptedOwners s.log, ∃ p : Party,
      p.id = owner ∧ pushedTo owner s.log <+: p.mail ∧
        Service.Accounted (tradesOf (repliesOf s.log))
          (inputsOf s.log) p) ∧
    (∀ (fd : Fd) (c : Conn), s.conns[fd]? = some c →
      c.dead = false → ∃ p : Party,
        p.id = c.ownerId ∧ p.gone = false ∧
          pushedTo c.ownerId s.log = p.mail ∧
          Service.Accounted (tradesOf (repliesOf s.log))
            (inputsOf s.log) p) := by
  rcases hSettled.accounts hRoom with
    ⟨hReg, hHist, hRef, hBal⟩
  rw [← hRef.tape]
  constructor
  · intro owner hOwner
    rw [← hRef.ids] at hOwner
    rcases List.mem_map.mp hOwner with ⟨p, hp, rfl⟩
    refine ⟨p, rfl, ?_, hBal.accounts p hp⟩
    cases hRef.stands p hp with
    | here _ _ _ _ hMail =>
        rw [hMail]
    | gone _ _ hMail => exact hMail
  · intro fd c hConn hLive
    rcases hRef.party_of hReg hHist hConn hLive with
      ⟨p, hp, hHere, hP⟩
    refine ⟨p, hP.id, hHere, ?_, hBal.accounts p hp⟩
    cases hRef.stands p hp with
    | here _ _ _ _ hMail =>
        rw [← hP.id]
        exact hMail
    | gone hGone _ _ =>
        rw [hHere] at hGone
        cases hGone

/-
  As long as the exchange has ids left, the executions
  reported to a connection are, in order, the trades of the
  whole run that name its owner id: all of them while it
  lives, and a first part of them afterwards.
-/
theorem fills_complete
    (hSettled : Settled s)
    (hRoom : submits (callsOf s.log) < 2 ^ 32) :
    let tape := tradesOf (repliesOf s.log)
    (∀ owner ∈ acceptedOwners s.log,
      (pushedTo owner s.log).filter Msg.isFill <+:
        tape.flatMap (Trade.fillsOf owner)) ∧
    (∀ (fd : Fd) (c : Conn), s.conns[fd]? = some c →
      c.dead = false →
        (pushedTo c.ownerId s.log).filter Msg.isFill =
          tape.flatMap (Trade.fillsOf c.ownerId)) := by
  intro tape
  rcases hSettled.accounted hRoom with ⟨hAll, hLive⟩
  constructor
  · intro owner hOwner
    rcases hAll owner hOwner with ⟨p, rfl, hMail, hAcc⟩
    exact (hMail.filter _).trans hAcc.fills_first
  · intro fd c hConn hIs
    rcases hLive fd c hConn hIs with
      ⟨p, hId, hHere, hMail, hAcc⟩
    rw [hMail, ← hId]
    exact hAcc.fills hHere

/- The seller and the buyer of one trade. -/
def traded : Server :=
  Machine.run step listening tradingSteps

theorem traded_settled : Settled traded := by
  have hReach : Reachable traded :=
    ⟨3, _, tradingSteps, tradingSteps_legal, rfl⟩
  exact hReach.settled

def tradedBuyer : Conn :=
  (traded.conns[(6 : Fd)]?).get (by decide)

def tradedSeller : Conn :=
  (traded.conns[(5 : Fd)]?).get (by decide)

theorem tradedBuyer_conn :
    traded.conns[(6 : Fd)]? = some tradedBuyer :=
  (Option.some_get _).symm

theorem tradedSeller_conn :
    traded.conns[(5 : Fd)]? = some tradedSeller :=
  (Option.some_get _).symm

/- The buyer was told of its one trade. -/
theorem fills_complete_trading :
    (pushedTo 2 traded.log).filter Msg.isFill =
      [.bought ⟨0, 3, 100, 2, 1⟩] := by
  have hBuyer :=
    (fills_complete traded_settled (by decide)).2 6
      tradedBuyer tradedBuyer_conn (by decide)
  have hOwner : tradedBuyer.ownerId = 2 := by decide
  rw [hOwner] at hBuyer
  rw [hBuyer]
  decide

/-
  One reply each. Between any two turns, as long as the
  exchange has ids left, the direct replies queued on a live
  connection are as many as its lines that are neither blank
  nor a QUIT, and its lines that were too long; on a
  connection that ended they are never more.
-/
theorem one_reply_each
    (hSettled : Settled s)
    (hRoom : submits (callsOf s.log) < 2 ^ 32) :
    (∀ owner ∈ acceptedOwners s.log,
      (pushedTo owner s.log).countP Msg.isReply ≤
        s.log.countP (Obs.asks owner)) ∧
    (∀ (fd : Fd) (c : Conn), s.conns[fd]? = some c →
      c.dead = false →
        (pushedTo c.ownerId s.log).countP Msg.isReply =
          s.log.countP (Obs.asks c.ownerId)) := by
  rcases hSettled.accounted hRoom with ⟨hAll, hLive⟩
  constructor
  · intro owner hOwner
    rcases hAll owner hOwner with ⟨p, rfl, hMail, hAcc⟩
    rw [← countP_asks_inputsOf]
    exact hMail.sublist.countP_le.trans hAcc.replies_le
  · intro fd c hConn hIs
    rcases hLive fd c hConn hIs with
      ⟨p, hId, hHere, hMail, hAcc⟩
    rw [hMail, ← hId, ← countP_asks_inputsOf]
    exact hAcc.replies hHere

/- The seller's two lines were answered. -/
theorem one_reply_each_trading :
    (pushedTo 1 traded.log).countP Msg.isReply = 2 := by
  have hSeller :=
    (one_reply_each traded_settled (by decide)).2 5
      tradedSeller tradedSeller_conn (by decide)
  have hOwner : tradedSeller.ownerId = 1 := by decide
  rw [hOwner] at hSeller
  rw [hSeller]
  decide

end Server

end SocketExchange

------------------------------------------------------------
-- A Trader's Position
------------------------------------------------------------

namespace SocketExchange

/- The quantity that a message reports for an account. -/
def reportedBy (a : Account) : Msg → Nat
| .bought t =>
    if a.side = .buy ∧ t.inst = a.inst ∧
        t.price = a.price then t.qty.toNat
    else 0
| .sold t =>
    if a.side = .sell ∧ t.inst = a.inst ∧
        t.price = a.price then t.qty.toNat
    else 0
| _ => 0

/- The quantity that messages report for an account. -/
def reportedQty (a : Account) (ms : List Msg) : Nat :=
  (ms.map (reportedBy a)).sum

/- Only fills report a quantity. -/
theorem reportedQty_filter
    (a : Account)
    (ms : List Msg) :
    reportedQty a (ms.filter Msg.isFill) =
      reportedQty a ms := by
  unfold reportedQty
  induction ms with
  | nil => rfl
  | cons m ms ih =>
      cases m <;>
        simp [List.filter_cons, Msg.isFill, reportedBy, ih]

theorem reportedQty_append
    (a : Account)
    (ms ns : List Msg) :
    reportedQty a (ms ++ ns) =
      reportedQty a ms + reportedQty a ns := by
  simp [reportedQty]

/- The fills of a trade report what it means to an account. -/
theorem reportedQty_fillsOf
    (a : Account)
    (t : Trade) :
    reportedQty a (t.fillsOf a.owner) =
      if a.Trades t then t.qty.toNat else 0 := by
  have hOne :
      ∀ (P : Prop) [Decidable P] (m : Msg),
        reportedQty a (if P then [m] else []) =
          if P then reportedBy a m else 0 := by
    intro P _ m
    split <;> simp [reportedQty]
  unfold Trade.fillsOf
  rw [reportedQty_append, hOne, hOne]
  rcases a with ⟨owner, side, inst, price⟩
  cases side with
  | buy =>
      by_cases hBuyer : owner = t.buyerOwner
      · simp [reportedBy, Account.Trades, Account.party,
          hBuyer]
      · have hNot : ¬ t.buyerOwner = owner :=
          fun h => hBuyer h.symm
        simp [reportedBy, Account.Trades, Account.party,
          hBuyer, hNot]
  | sell =>
      by_cases hSeller : owner = t.sellerOwner
      · simp [reportedBy, Account.Trades, Account.party,
          hSeller]
      · have hNot : ¬ t.sellerOwner = owner :=
          fun h => hSeller h.symm
        simp [reportedBy, Account.Trades, Account.party,
          hSeller, hNot]

theorem reportedQty_tape
    (a : Account)
    (tape : List Trade) :
    reportedQty a (tape.flatMap (Trade.fillsOf a.owner)) =
      tradedQty a tape := by
  induction tape with
  | nil => rfl
  | cons t tape ih =>
      rw [List.flatMap_cons, reportedQty_append, ih,
        reportedQty_fillsOf]
      simp [tradedQty]

namespace Server

variable {s : Server}

/- The trades of an account are reported to its owner. -/
theorem Settled.reported
    {fd : Fd}
    {c : Conn}
    (hSettled : Settled s)
    (hRoom : submits (callsOf s.log) < 2 ^ 32)
    (hConn : s.conns[fd]? = some c)
    (hLive : c.dead = false)
    {a : Account}
    (hOwn : a.owner = c.ownerId) :
    reportedQty a (pushedTo c.ownerId s.log) =
      tradedQty a (tradesOf (repliesOf s.log)) := by
  rcases (hSettled.accounted hRoom).2 fd c hConn hLive with
    ⟨p, hId, hHere, hMail, hAcc⟩
  have hFills :
      (pushedTo c.ownerId s.log).filter Msg.isFill =
        (tradesOf (repliesOf s.log)).flatMap
          (Trade.fillsOf a.owner) := by
    rw [hMail, hOwn, ← hId]
    exact hAcc.fills hHere
  rw [← reportedQty_filter, hFills, reportedQty_tape]

/- Every account balances over the history of the server. -/
theorem Settled.balance
    (hSettled : Settled s)
    (hRoom : submits (callsOf s.log) < 2 ^ 32)
    (a : Account) :
    submittedQty a (callsOf s.log) =
      tradedQty a (tradesOf (repliesOf s.log)) +
        cancelledQty a Exchange.empty (callsOf s.log) +
        s.exch.restingQty a := by
  rcases hSettled.accounts hRoom with ⟨_, hHist, _, _⟩
  have hNothing : Exchange.empty.restingQty a = 0 := by
    rw [represents_empty.restingQty_eq]
    rfl
  have hBalance :=
    represents_empty.run_balance (hasRoom_empty hRoom) a
  rw [hNothing, Nat.add_zero, ← repliesOf_eq hHist.traced]
    at hBalance
  have hExch :
      Machine.final Exchange.step Exchange.empty
          (callsOf s.log) =
        s.exch := hHist.exch.symm
  rw [hExch] at hBalance
  exact hBalance

/-
  A trader can keep its own books, as long as the exchange
  has ids left. On every account of a live connection, what
  was submitted is what its messages reported as executed,
  what its cancellations took back, and what rests in the
  book now.
-/
theorem position_reconciles
    {fd : Fd}
    {c : Conn}
    (hSettled : Settled s)
    (hRoom : submits (callsOf s.log) < 2 ^ 32)
    (hConn : s.conns[fd]? = some c)
    (hLive : c.dead = false)
    (a : Account)
    (hOwn : a.owner = c.ownerId) :
    submittedQty a (callsOf s.log) =
      reportedQty a (pushedTo c.ownerId s.log) +
        cancelledQty a Exchange.empty (callsOf s.log) +
        s.exch.restingQty a := by
  rw [hSettled.reported hRoom hConn hLive hOwn]
  exact hSettled.balance hRoom a

/- Of the 5 units on offer, 3 were sold and 2 rest. -/
theorem position_reconciles_trading :
    5 =
      reportedQty ⟨1, .sell, 0, 100⟩
          (pushedTo 1 traded.log) + 0 + 2 := by
  have hSeller :=
    position_reconciles traded_settled (by decide)
      tradedSeller_conn (by decide) ⟨1, .sell, 0, 100⟩
      (by decide)
  have hOwner : tradedSeller.ownerId = 1 := by decide
  have hRests :
      traded.exch.restingQty ⟨1, .sell, 0, 100⟩ = 2 := by
    decide
  rw [hOwner, hRests] at hSeller
  have hGiven :
      submittedQty ⟨1, .sell, 0, 100⟩
          (callsOf traded.log) = 5 ∧
        cancelledQty ⟨1, .sell, 0, 100⟩ Exchange.empty
          (callsOf traded.log) = 0 := by
    decide
  rw [hGiven.1, hGiven.2] at hSeller
  exact hSeller

end Server

end SocketExchange

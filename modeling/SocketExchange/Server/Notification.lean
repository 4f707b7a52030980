import SocketExchange.Server.Local

/-
  What an accepted order tells each connection.

  Every connection gets the acceptance, its own fills and
  the prints it subscribed to, in order, or a prefix of them
  that ends with the message whose push ended it. What one
  connection gets depends on that connection only.

  Main declarations:
    * `Notified`
    * `orderMessages`
    * `Port.pushAll_notifies`
    * `Server.order_notifies`
-/

------------------------------------------------------------
-- Pushing A List Of Messages
------------------------------------------------------------

namespace SocketExchange

/- The messages pushed on a connection, in order. -/
def pushedTo (owner : Int) (log : List Obs) : List Msg :=
  log.filterMap fun
    | .queued k m => if k = owner then some m else none
    | _ => none

/-
  The connection was pushed exactly these messages, or the
  ones up to the message whose push ended it, for one of the
  given causes.
-/
def Notified
    (causes : CloseCause → Prop)
    (owner : Int)
    (ms : List Msg)
    (log : List Obs) : Prop :=
  pushedTo owner log = ms ∨
    ∃ pre m post why left,
      ms = pre ++ m :: post ∧
        pushedTo owner log = pre ++ [m] ∧
        log.getLast? = some (.closed owner why left) ∧
        causes why

/-
  What can end a connection that is being pushed to. The
  drain ends only one that is closing already.
-/
def EndsPush (closing : Bool) (why : CloseCause) : Prop :=
  why = .sendError ∨ why = .backlog ∨
    why = .drained ∧ closing = true

theorem pushedTo_append
    (owner : Int)
    (log more : List Obs) :
    pushedTo owner (log ++ more) =
      pushedTo owner log ++ pushedTo owner more :=
  List.filterMap_append

theorem OutputTail.pushedTo
    {k owner : Int}
    {closing dead : Bool}
    {es : List Obs}
    (hTail : OutputTail k closing dead es) :
    SocketExchange.pushedTo owner es = [] := by
  cases hTail <;> rfl

/- An ending leaves its cause as the last entry. -/
theorem OutputTail.last
    {owner : Int}
    {closing : Bool}
    {es : List Obs}
    (hTail : OutputTail owner closing true es) :
    ∃ why left,
      es.getLast? = some (.closed owner why left) ∧
        EndsPush closing why := by
  cases hTail with
  | failed wire left =>
      exact ⟨.sendError, left, rfl, Or.inl rfl⟩
  | drained wire hClosing =>
      exact ⟨.drained, 0, rfl,
        Or.inr (Or.inr ⟨rfl, hClosing⟩)⟩
  | backlog =>
      exact ⟨.backlog, 0, rfl, Or.inr (Or.inl rfl)⟩

/- Entries in front that push nothing do not matter. -/
theorem Notified.behind
    {causes : CloseCause → Prop}
    {owner : Int}
    {ms : List Msg}
    {log : List Obs}
    (hNotified : Notified causes owner ms log)
    {more : List Obs}
    (hNone : pushedTo owner more = []) :
    Notified causes owner ms (more ++ log) := by
  unfold Notified
  rw [pushedTo_append, hNone, List.nil_append]
  rcases hNotified with hAll |
    ⟨pre, m, post, why, left, hMs, hPushed, hLast, hWhy⟩
  · exact Or.inl hAll
  · refine Or.inr
      ⟨pre, m, post, why, left, hMs, hPushed, ?_, hWhy⟩
    rw [List.getLast?_append, hLast]
    rfl

namespace Port

theorem pushAll_of_dead
    {p : Port}
    (hDead : p.conn.dead = true)
    (ms : List Msg) :
    p.pushAll ms = p := by
  induction ms with
  | nil => rfl
  | cons m ms ih =>
      change (p.push m).pushAll ms = p
      rw [push_of_dead hDead]
      exact ih

theorem pushAll_notifies
    (p : Port)
    (hLive : p.conn.dead = false)
    (ms : List Msg) :
    ∃ es, (p.pushAll ms).log = p.log ++ es ∧
      Notified (EndsPush p.conn.closing) p.conn.ownerId ms
        es := by
  induction ms generalizing p with
  | nil => exact ⟨[], by simp [pushAll], Or.inl rfl⟩
  | cons m ms ih =>
      have hPush : p.push m = p.queue m := by
        simp [push, whenLive, hLive]
      have hAll :
          p.pushAll (m :: ms) = (p.queue m).pushAll ms := by
        rw [← hPush]
        rfl
      have hSame := queue_same p m
      rcases queue_tail p m hLive with ⟨es, hLog, hTail⟩
      have hFirst :
          pushedTo p.conn.ownerId
            (.queued p.conn.ownerId m :: es) = [m] := by
        have hNone : pushedTo p.conn.ownerId es = [] :=
          OutputTail.pushedTo hTail
        unfold pushedTo at hNone ⊢
        simp [hNone]
      rw [hAll]
      cases hDead : (p.queue m).conn.dead with
      | true =>
          -- The push ended the connection: nothing follows.
          rw [hDead] at hTail
          rcases hTail.last with ⟨why, left, hLast, hWhy⟩
          rw [pushAll_of_dead hDead]
          refine ⟨_, hLog, Or.inr ⟨[], m, ms, why, left, rfl,
            hFirst, ?_, hWhy⟩⟩
          rw [← List.singleton_append,
            List.getLast?_append, hLast]
          rfl
      | false =>
          rcases ih (p.queue m) hDead with
            ⟨more, hMore, hRest⟩
          rw [hSame.closing, hSame.ownerId] at hRest
          refine ⟨.queued p.conn.ownerId m :: es ++ more,
            ?_, ?_⟩
          · rw [hMore, hLog]
            simp
          · unfold Notified
            rw [pushedTo_append, hFirst]
            rcases hRest with hAll | ⟨pre, m', post, why,
              left, hMs, hPushed, hLast, hWhy⟩
            · exact Or.inl (by rw [hAll]; rfl)
            · refine Or.inr ⟨m :: pre, m', post, why, left,
                by rw [hMs]; rfl, by rw [hPushed]; rfl, ?_,
                hWhy⟩
              rw [List.getLast?_append, hLast]
              rfl

end Port

end SocketExchange

------------------------------------------------------------
-- Accepted Orders
------------------------------------------------------------

namespace SocketExchange

/-
  What an order accepted for `submitter` means for the
  connection `k`: the acceptance, if it is the submitter,
  and for each trade, in order, what the trade means.
-/
def orderMessages
    (e : Exchange)
    (side : Side)
    (inst : Fin 2)
    (qty price : UInt32)
    (submitter : Int)
    (k : Conn) : List Msg :=
  let r := e.submit side inst qty price submitter []
  (if k.ownerId = submitter then
      [.orderAccepted r.2.1] else []) ++
    r.2.2.flatMap (messagesFor k)

namespace Server

/-
  A state that a run passes through, between two events or
  in the middle of one: every handler is a sequence of
  actions.
-/
def Passed (s : Server) : Prop :=
  ∃ lfd env, Acts Guard.none (init lfd env) s

theorem Passed.registry
    {s : Server}
    (hPassed : Passed s) :
    Registry s := by
  rcases hPassed with ⟨lfd, env, hActs⟩
  exact Acts.invariant Registry (fun _ _ => Registry.act)
    hActs (registry_init lfd env)

theorem Passed.acts
    {s s' : Server}
    (hPassed : Passed s)
    (hActs : Acts Guard.none s s') :
    Passed s' := by
  rcases hPassed with ⟨lfd, env, hBefore⟩
  exact ⟨lfd, env, hBefore.trans hActs⟩

theorem Reachable.passed
    {s : Server}
    (hReach : Reachable s) :
    Passed s := by
  rcases hReach with ⟨lfd, env, steps, hLegal, rfl⟩
  refine Machine.run_invariant Passed ?_
    ⟨lfd, env, .refl⟩ hLegal
  intro s i hPassed hLegal
  exact hPassed.acts
    (step_acts hPassed.registry hLegal
      (Guard.none_spares s i))

/- A line with an order verb is one to `cmd_order`. -/
theorem dispatch_order
    (s : Server)
    (fd : Fd)
    (side : Side)
    (fields : List Bytes) :
    s.dispatch fd (side.verb :: fields) =
      s.cmdOrder fd (side.verb :: fields) side := by
  unfold dispatch
  dsimp only
  cases side with
  | buy =>
      have hNot : ¬ Side.verb .buy = ascii "LOGIN" := by
        decide
      have hIs : Side.verb .buy = ascii "BUY" := rfl
      rw [if_neg hNot, if_pos hIs]
  | sell =>
      have hNot : ¬ Side.verb .sell = ascii "LOGIN" := by
        decide
      have hNot' : ¬ Side.verb .sell = ascii "BUY" := by
        decide
      have hIs : Side.verb .sell = ascii "SELL" := rfl
      rw [if_neg hNot, if_neg hNot', if_pos hIs]

/- A line that asks for an order is accepted. -/
theorem handleLine_order
    {s : Server}
    {fd : Fd}
    {c : Conn}
    {line : Bytes}
    {side : Side}
    {inst : Fin 2}
    {qty price : UInt32}
    (hConn : s.conns[fd]? = some c)
    (hRole : c.role = .trader)
    (hRequest :
      Requests (splitWs line)
        (.submit side inst qty price c.ownerId)) :
    s.handleLine fd line =
      (s.note (.line c.ownerId line)).acceptOrder fd c side
        inst qty price := by
  rcases hRequest with
    ⟨name, quantity, level, hFields, hInst, hQty, hPrice⟩
  have hOrder :
      (s.note (.line c.ownerId line)).cmdOrder fd
          [side.verb, name, quantity, level] side =
        (s.note (.line c.ownerId line)).acceptOrder fd c
          side inst qty price := by
    unfold cmdOrder
    have hConn' :
        (s.note (.line c.ownerId line)).conns[fd]? =
          some c := hConn
    rw [hConn']
    simp [hRole, hInst, hQty, hPrice]
  unfold handleLine
  rw [hConn]
  dsimp only
  rw [hFields, dispatch_order, hOrder]

/- The port of a connection when its order goes through. -/
theorem port?_called
    {s : Server}
    {fd f : Fd}
    {c k : Conn}
    (hReg : Registry s)
    (hConn : s.conns[fd]? = some c)
    (hOther : s.conns[f]? = some k)
    (line : Bytes)
    (call : Call) :
    ∃ own, pushedTo k.ownerId own = [] ∧
      ((s.note (.line c.ownerId line)).callExchange
          c.ownerId call).port? f =
        some ((Port.ofConn s k).behind
          (logOf k.ownerId s.log ++ own)) := by
  have hFd := hReg.conn_fd f k hOther
  have hConns :
      ((s.note (.line c.ownerId line)).callExchange
        c.ownerId call).conns = s.conns.insert fd c :=
    (insert_getElem?_self hConn).symm
  have hPort :=
    port?_rewrite c (s.env.sends fd)
      [.line c.ownerId line,
        .called c.ownerId call (s.exch.step call).2]
      hReg hConn hConns rfl (by simp [note, callExchange])
      (by simp [Obs.owner?]) (by simp [note, callExchange])
      f
  by_cases hEq : f = fd
  · subst hEq
    rw [hConn] at hOther
    injection hOther with hSame
    subst hSame
    refine ⟨[.line c.ownerId line,
      .called c.ownerId call (s.exch.step call).2], rfl, ?_⟩
    rw [hPort, if_pos rfl]
    simp [Port.behind, Port.ofConn, hFd]
  · refine ⟨[], rfl, ?_⟩
    rw [hPort, if_neg hEq, port?_of_conn hOther]
    simp [Port.behind, Port.ofConn, hFd]

/-
  An accepted order notifies every live connection: whatever
  the state the run has come to, whatever `send` answers and
  in whatever order `conns_` is walked, each gets exactly
  its messages, or its messages up to the one whose push
  ended it, by a failing `send`, by the cap, or by draining
  the buffer when it was closing already. What becomes of a
  connection depends on its own state and socket only.
-/
theorem order_notifies
    {s : Server}
    {fd : Fd}
    {c : Conn}
    {line : Bytes}
    {side : Side}
    {inst : Fin 2}
    {qty price : UInt32}
    (hPassed : Passed s)
    (hConn : s.conns[fd]? = some c)
    (hLive : c.dead = false)
    (hRole : c.role = .trader)
    (hRequest :
      Requests (splitWs line)
        (.submit side inst qty price c.ownerId)) :
    ∃ more,
      (s.handleLine fd line).log = s.log ++ more ∧
      ∀ (f : Fd) (k : Conn), s.conns[f]? = some k →
        k.dead = false →
          Notified (EndsPush k.closing) k.ownerId
              (orderMessages s.exch side inst qty price
                c.ownerId k)
              (logOf k.ownerId more) ∧
            (s.handleLine fd line).conns[f]? =
              some ((Port.ofConn s k).pushAll
                (orderMessages s.exch side inst qty price
                  c.ownerId k)).conn := by
  have hReg := hPassed.registry
  have hReady : Ready Guard.none s fd c :=
    ⟨hConn, hLive, False.elim⟩
  rcases (handleLine_serves hReg hReady line).log_grows
    with ⟨more, hLog⟩
  refine ⟨more, hLog.symm, ?_⟩
  intro f k hOther hAlive
  have hNoted : Registry (s.note (.line c.ownerId line)) :=
    hReg.note _
  rcases port?_called hReg hConn hOther line
      (.submit side inst qty price c.ownerId) with
    ⟨own, hOwn, hCalled⟩
  -- The connection is the submitter exactly when it has the
  -- submitter's owner id.
  have hSubmitter : f = fd ↔ k.ownerId = c.ownerId := by
    constructor
    · rintro rfl
      rw [hConn] at hOther
      injection hOther with hSame
      rw [hSame]
    · exact hReg.owner_unique f fd k c hOther hConn
  have hMessages :
      (if f = fd then
          [Msg.orderAccepted (s.exch.submit side inst qty
            price c.ownerId []).2.1] else []) ++
          (s.exch.submit side inst qty price c.ownerId
            []).2.2.flatMap (messagesFor k) =
        orderMessages s.exch side inst qty price c.ownerId
          k := by
    simp only [orderMessages, hSubmitter]
  have hPort :
      (s.handleLine fd line).port? f =
        some (((Port.ofConn s k).pushAll
          (orderMessages s.exch side inst qty price
            c.ownerId k)).behind
              (logOf k.ownerId s.log ++ own)) := by
    rw [handleLine_order hConn hRole hRequest,
      port?_acceptOrder side inst qty price hNoted, hCalled,
      Option.map_some, ← Port.pushAll_behind, ← hMessages]
    rfl
  have hConnAfter := conn_of_port? hPort
  refine ⟨?_, hConnAfter⟩
  have hIdentity :=
    Port.pushAll_same (Port.ofConn s k)
      (orderMessages s.exch side inst qty price c.ownerId k)
  -- The connection's part of the new history.
  have hMore :
      logOf k.ownerId more =
        own ++ ((Port.ofConn s k).pushAll
          (orderMessages s.exch side inst qty price
            c.ownerId k)).log := by
    rw [port?_of_conn hConnAfter] at hPort
    injection hPort with hPort
    have hWhole := congrArg Port.log hPort
    simp only [Port.behind] at hWhole
    rw [hIdentity.ownerId, ← hLog, logOf_append,
      List.append_assoc] at hWhole
    exact List.append_cancel_left hWhole
  rcases Port.pushAll_notifies (Port.ofConn s k) hAlive
      (orderMessages s.exch side inst qty price c.ownerId
        k) with ⟨es, hEs, hNotified⟩
  have hEmpty : (Port.ofConn s k).log = [] := rfl
  rw [hEmpty, List.nil_append] at hEs
  rw [hMore, hEs]
  exact hNotified.behind hOwn

/-
  A seller enters two orders and quits, its socket blocked
  after the first reply; a buyer logs in. Now the seller's
  socket will take what is queued and one message more.
-/
def quittingSellerSteps : List Step :=
  [.connects 5, .connects 6,
    .reads 5
      [.data
        ⟨ascii
          "LOGIN ann\nSELL JNST 1 10\nSELL JNST 1 10\nQUIT\n",
          by decide, by decide⟩]
      (fun _ => [.sent 3]),
    .reads 6
      [.data ⟨ascii "LOGIN bob\n", by decide, by decide⟩]
      (fun _ => [.sent 3])]

def quittingSeller : Server :=
  (Machine.run step listening
    quittingSellerSteps).withAnswers
      { accepts := []
        recvs := []
        sends := fun fd =>
          if fd = 5 then [.sent 49] else []
        order := .sorted }

theorem quittingSeller_passed : Passed quittingSeller := by
  have hReach :
      Reachable
        (Machine.run step listening
          quittingSellerSteps) := by
    refine ⟨3, _, quittingSellerSteps, ?_, rfl⟩
    exact ⟨fun _ => ⟨by decide, by decide, trivial⟩,
      fun _ => ⟨by decide, by decide, trivial⟩,
      fun h => absurd h (by decide),
      fun h => absurd h (by decide), trivial⟩
  exact hReach.passed.acts (.single (.answers _))

/- The two connections of that state. -/
def quittingSellerConn : Conn :=
  (quittingSeller.conns[(5 : Fd)]?).get (by decide)

def waitingBuyerConn : Conn :=
  (quittingSeller.conns[(6 : Fd)]?).get (by decide)

theorem buyTwo_requested :
    Requests (splitWs (ascii "BUY JNST 2 10"))
      (.submit .buy 0 2 10 waitingBuyerConn.ownerId) :=
  ⟨ascii "JNST", ascii "2", ascii "10", by decide,
    by decide, by decide, by decide⟩

theorem order_notifies_buyer :
    ∃ more,
      (quittingSeller.handleLine 6
          (ascii "BUY JNST 2 10")).log =
        quittingSeller.log ++ more ∧
      Notified (EndsPush false) 2
        [.orderAccepted 2, .bought ⟨0, 1, 10, 2, 1⟩,
          .bought ⟨0, 1, 10, 2, 1⟩] (logOf 2 more) := by
  have hBuyerConn :
      quittingSeller.conns[(6 : Fd)]? =
        some waitingBuyerConn :=
    (Option.some_get _).symm
  rcases order_notifies quittingSeller_passed hBuyerConn
      (by decide) (by decide) buyTwo_requested with
    ⟨more, hLog, hEach⟩
  refine ⟨more, hLog, ?_⟩
  have hBuyer :=
    (hEach 6 waitingBuyerConn hBuyerConn (by decide)).1
  have hMessages :
      orderMessages quittingSeller.exch .buy 0 2 10
          waitingBuyerConn.ownerId waitingBuyerConn =
        [.orderAccepted 2, .bought ⟨0, 1, 10, 2, 1⟩,
          .bought ⟨0, 1, 10, 2, 1⟩] := by
    decide
  rw [hMessages] at hBuyer
  exact hBuyer

/-
  A failing `send` and the cap are not the only ends: the
  push of its first fill drains the quitting seller, and its
  second fill is never pushed.
-/
theorem quitting_seller_cut_short :
    ¬ ∀ (s : Server) (fd : Fd) (c : Conn) (line : Bytes)
        (side : Side) (inst : Fin 2) (qty price : UInt32),
      Passed s → s.conns[fd]? = some c → c.dead = false →
      c.role = .trader →
      Requests (splitWs line)
        (.submit side inst qty price c.ownerId) →
      ∀ more, (s.handleLine fd line).log = s.log ++ more →
      ∀ (f : Fd) (k : Conn), s.conns[f]? = some k →
        k.dead = false →
          Notified
            (fun why => why = .sendError ∨ why = .backlog)
            k.ownerId
            (orderMessages s.exch side inst qty price
              c.ownerId k)
            (logOf k.ownerId more) := by
  intro hNoOther
  have hSeller :=
    hNoOther quittingSeller 6 waitingBuyerConn
      (ascii "BUY JNST 2 10") .buy 0 2 10
      quittingSeller_passed (Option.some_get _).symm
      (by decide) (by decide) buyTwo_requested
      ((quittingSeller.handleLine 6
        (ascii "BUY JNST 2 10")).log.drop
          quittingSeller.log.length)
      (by decide) 5 quittingSellerConn
      (Option.some_get _).symm (by decide)
  rcases hSeller with hAll |
    ⟨_, _, _, why, left, _, _, hLast, hWhy⟩
  · revert hAll
    decide
  · have hDrained :
        (logOf quittingSellerConn.ownerId
          ((quittingSeller.handleLine 6
            (ascii "BUY JNST 2 10")).log.drop
              quittingSeller.log.length)).getLast? =
          some (.closed 1 .drained 0) := by
      decide
    rw [hDrained] at hLast
    injection hLast with hLast
    injection hLast with _ hCause _
    subst hCause
    rcases hWhy with h | h
    · cases h
    · cases h

end Server

end SocketExchange

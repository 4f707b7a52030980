import SocketExchange.Lists.Traced
import SocketExchange.Book.Fills
import SocketExchange.Server.Handlers

/-
  Orders stay with the connection that submitted them.

  The history of a run justifies itself: every entry is
  explained by the entries before it. Owner ids are handed
  out once, every call on the exchange is what the last line
  of the calling connection asks for, the exchange is the
  replay of the calls, and every execution reported to a
  connection was made by an order of that connection.

  Main declarations:
    * `replay`
    * `Justified`
    * `Server.History`
    * `Server.History.act`
    * `Server.orders_stay_with_connection`
-/

------------------------------------------------------------
-- Reading The History
------------------------------------------------------------

namespace SocketExchange

/- The owner ids handed out, in order. -/
def acceptedOwners (log : List Obs) : List Int :=
  log.filterMap fun
    | .accepted _ owner => some owner
    | _ => none

/- The calls made on the exchange, in order. -/
def callsOf (log : List Obs) : List Call :=
  log.filterMap fun
    | .called _ call _ => some call
    | _ => none

/- The exchange after the calls of the history. -/
def replay (log : List Obs) : Exchange :=
  Machine.final Exchange.step Exchange.empty (callsOf log)

/- The connection that an entry is about. -/
def Obs.owner? : Obs → Option Int
| .accepted _ owner => some owner
| .line owner _ => some owner
| .overlong owner => some owner
| .login owner _ => some owner
| .subscribed owner _ _ => some owner
| .called owner _ _ => some owner
| .closing owner => some owner
| .queued owner _ => some owner
| .sent owner _ => some owner
| .closed owner _ _ => some owner
| .released _ => none

/- An execution report names the connection it goes to. -/
def Reported (pre : List Obs) (owner : Int) : Msg → Prop
| .bought t => owner = t.buyerOwner ∧ Made pre t
| .sold t => owner = t.sellerOwner ∧ Made pre t
| .trade t => Made pre t
| _ => True

/- The earlier entries that an entry rests on. -/
def Justified (pre : List Obs) : Obs → Prop
| .accepted _ owner => owner ∉ acceptedOwners pre
| .called owner call reply =>
    owner ∈ acceptedOwners pre ∧ call.owner = owner ∧
      reply = ((replay pre).step call).2 ∧
      ∃ text, pre.getLast? = some (.line owner text) ∧
        Requests (splitWs text) call
| .queued owner m =>
    owner ∈ acceptedOwners pre ∧ Reported pre owner m
| .line owner _ => owner ∈ acceptedOwners pre
| .overlong owner => owner ∈ acceptedOwners pre
| .login owner _ => owner ∈ acceptedOwners pre
| .subscribed owner _ _ => owner ∈ acceptedOwners pre
| .closing owner => owner ∈ acceptedOwners pre
| .sent owner _ => owner ∈ acceptedOwners pre
| .closed owner _ _ => owner ∈ acceptedOwners pre
| .released _ => True

@[simp] theorem acceptedOwners_append
    (log more : List Obs) :
    acceptedOwners (log ++ more) =
      acceptedOwners log ++ acceptedOwners more :=
  List.filterMap_append

@[simp] theorem callsOf_append
    (log more : List Obs) :
    callsOf (log ++ more) = callsOf log ++ callsOf more :=
  List.filterMap_append

/- Entries other than calls leave the replay alone. -/
theorem replay_append_of_no_calls
    (log : List Obs)
    {more : List Obs}
    (hNone : callsOf more = []) :
    replay (log ++ more) = replay log := by
  simp [replay, hNone]

theorem replay_append_called
    (log : List Obs)
    (owner : Int)
    (call : Call)
    (reply : Reply) :
    replay (log ++ [.called owner call reply]) =
      ((replay log).step call).1 := by
  have hCalls :
      callsOf (log ++ [.called owner call reply]) =
        callsOf log ++ [call] := by
    simp [callsOf]
  unfold replay
  rw [hCalls]
  exact Machine.run_append _ _ _ _

end SocketExchange

------------------------------------------------------------
-- Every Action Justifies Its Entries
------------------------------------------------------------

namespace SocketExchange

namespace Server

structure History (s : Server) : Prop where
  traced : Traced Justified s.log
  exch : s.exch = replay s.log
  conn_accepted :
    ∀ (fd : Fd) (c : Conn), s.conns[fd]? = some c →
      Obs.accepted fd c.ownerId ∈ s.log
  accepted_lt :
    ∀ owner ∈ acceptedOwners s.log, owner < s.nextOwner

theorem history_init (lfd : Fd) (env : Env) :
    History (init lfd env) where
  traced := Traced.nil
  exch := rfl
  conn_accepted := by
    intro fd c hConn
    simp [init] at hConn
  accepted_lt := by
    intro owner hOwner
    cases hOwner

variable {s s' : Server} {fd : Fd} {c : Conn}

theorem History.owner_accepted
    (hHist : History s)
    (hConn : s.conns[fd]? = some c) :
    c.ownerId ∈ acceptedOwners s.log :=
  List.mem_filterMap.mpr
    ⟨_, hHist.conn_accepted fd c hConn, rfl⟩

/- Entries of connections that exist, no call among them. -/
theorem History.extend
    {es : List Obs}
    (hHist : History s)
    (hLog : s'.log = s.log ++ es)
    (hTraced :
      Traced (fun pre e => Justified (s.log ++ pre) e) es)
    (hCalls : callsOf es = [])
    (hAccepts : acceptedOwners es = [])
    (hExch : s'.exch = s.exch)
    (hNext : s'.nextOwner = s.nextOwner)
    (hConns :
      ∀ (f : Fd) (d : Conn), s'.conns[f]? = some d →
        ∃ e, s.conns[f]? = some e ∧
          d.ownerId = e.ownerId) :
    History s' where
  traced := by
    rw [hLog]
    exact hHist.traced.append hTraced
  exch := by
    rw [hLog, hExch, replay_append_of_no_calls _ hCalls]
    exact hHist.exch
  conn_accepted := by
    intro f d hd
    rcases hConns f d hd with ⟨e, he, hOwner⟩
    rw [hLog, hOwner]
    exact List.mem_append_left _
      (hHist.conn_accepted f e he)
  accepted_lt := by
    intro owner hOwner
    rw [hLog, acceptedOwners_append, hAccepts,
      List.append_nil] at hOwner
    rw [hNext]
    exact hHist.accepted_lt owner hOwner

theorem History.extend_one
    {e : Obs}
    (hHist : History s)
    (hLog : s'.log = s.log ++ [e])
    (hJust : Justified s.log e)
    (hCalls : callsOf [e] = [])
    (hAccepts : acceptedOwners [e] = [])
    (hExch : s'.exch = s.exch)
    (hNext : s'.nextOwner = s.nextOwner)
    (hConns :
      ∀ (f : Fd) (d : Conn), s'.conns[f]? = some d →
        ∃ e, s.conns[f]? = some e ∧
          d.ownerId = e.ownerId) :
    History s' := by
  refine hHist.extend hLog (Traced.singleton ?_) hCalls
    hAccepts hExch hNext hConns
  rw [List.append_nil]
  exact hJust

/- The entries of a flush need the connection only. -/
theorem tail_justified
    {pre es : List Obs}
    {owner : Int}
    {closing dead : Bool}
    (hTail : OutputTail owner closing dead es)
    (hAccepted : owner ∈ acceptedOwners pre) :
    Traced (fun more e => Justified (pre ++ more) e) es ∧
      callsOf es = [] ∧ acceptedOwners es = [] := by
  have hMem :
      ∀ more, owner ∈ acceptedOwners (pre ++ more) := by
    intro more
    rw [acceptedOwners_append]
    exact List.mem_append_left _ hAccepted
  refine ⟨Traced.of_forall ?_, ?_, ?_⟩
  · intro more e he
    rcases hTail.mem he with ⟨_, rfl⟩ | ⟨_, _, rfl⟩
    · exact hMem more
    · exact hMem more
  · cases hTail <;> rfl
  · cases hTail <;> rfl

theorem History.serve
    {G : Guard}
    (hHist : History s)
    (hServe : Serve G s s') :
    History s' := by
  cases hServe with
  | @queue fd c m hConn hLive hAddressed hMade _ =>
      have hAccepted := hHist.owner_accepted hConn
      rcases queued_log s fd hLive m with ⟨es, hLog, hTail⟩
      have hFirst :
          Justified (s.log ++ []) (.queued c.ownerId m) := by
        rw [List.append_nil]
        refine ⟨hAccepted, ?_⟩
        cases m with
        | bought t => exact ⟨hAddressed.2, hMade t rfl⟩
        | sold t => exact ⟨hAddressed.2, hMade t rfl⟩
        | trade t => exact hMade t rfl
        | _ => trivial
      have hAccepted' :
          c.ownerId ∈ acceptedOwners
            (s.log ++ [.queued c.ownerId m]) := by
        rw [acceptedOwners_append]
        exact List.mem_append_left _ hAccepted
      rcases tail_justified hTail hAccepted' with
        ⟨hTraced, hCalls, hAccepts⟩
      simp only [List.append_assoc] at hTraced
      refine hHist.extend
        hLog
        (Traced.cons hFirst hTraced)
        (by simpa [callsOf] using hCalls)
        (by simpa [acceptedOwners] using hAccepts)
        (commit_exch s fd _) (commit_nextOwner s fd _)
        (owners_of_insert hConn (commit_conns s fd _)
          (Port.queue_same (Port.ofConn s c) m).ownerId)
  | @flush fd c hConn hLive =>
      rcases flushed_log s fd hLive with ⟨es, hLog, hTail⟩
      rcases tail_justified hTail
          (hHist.owner_accepted hConn) with
        ⟨hTraced, hCalls, hAccepts⟩
      exact hHist.extend
        hLog
        hTraced hCalls hAccepts
        (commit_exch s fd _) (commit_nextOwner s fd _)
        (owners_of_insert hConn (commit_conns s fd _)
          (Port.flush_same (Port.ofConn s c)).ownerId)
  | closing hConn =>
      exact hHist.extend_one rfl
        (hHist.owner_accepted hConn) rfl rfl rfl rfl
        (owners_of_insert hConn rfl rfl)
  | line hConn _ _ _ =>
      exact hHist.extend_one rfl
        (hHist.owner_accepted hConn) rfl rfl rfl rfl
        (fun _ d hd => ⟨d, hd, rfl⟩)
  | overlong hConn _ _ =>
      exact hHist.extend_one rfl
        (hHist.owner_accepted hConn) rfl rfl rfl rfl
        (fun _ d hd => ⟨d, hd, rfl⟩)
  | login hConn _ _ _ _ _ =>
      exact hHist.extend_one rfl
        (hHist.owner_accepted hConn) rfl rfl rfl rfl
        (owners_of_insert hConn rfl rfl)
  | subscribe hConn _ _ _ _ _ =>
      exact hHist.extend_one rfl
        (hHist.owner_accepted hConn) rfl rfl rfl rfl
        (owners_of_insert hConn rfl rfl)
  | @call fd c call text hConn _ _ _ hLine hRequest
      hOwner =>
      refine ⟨?_, ?_, ?_, ?_⟩
      · refine hHist.traced.append (Traced.singleton ?_)
        rw [List.append_nil]
        exact ⟨hHist.owner_accepted hConn, hOwner,
          by rw [hHist.exch], text, hLine, hRequest⟩
      · change (s.exch.step call).1 = _
        rw [hHist.exch]
        exact (replay_append_called s.log c.ownerId call
          _).symm
      · intro f d hd
        exact List.mem_append_left _
          (hHist.conn_accepted f d hd)
      · intro owner hMem
        change owner ∈ acceptedOwners (s.log ++ _) at hMem
        rw [acceptedOwners_append] at hMem
        exact hHist.accepted_lt owner
          (by simpa [acceptedOwners] using hMem)

theorem History.act
    {G : Guard}
    (hReg : Registry s)
    (hHist : History s)
    (hAct : Act G s s') :
    History s' := by
  cases hAct with
  | serve hServe => exact hHist.serve hServe
  | @close fd c hConn hLive why _ =>
      exact hHist.extend_one (commit_log s fd _)
        (hHist.owner_accepted hConn) rfl rfl
        (commit_exch s fd _) (commit_nextOwner s fd _)
        (owners_of_insert hConn (commit_conns s fd _) rfl)
  | input hConn _ =>
      exact hHist.extend (List.append_nil _).symm
        Traced.nil rfl rfl rfl rfl
        (owners_of_insert hConn rfl rfl)
  | @accept cfd hFresh _ =>
      have hNone := hReg.none_of_fresh hFresh
      have hNew : s.nextOwner ∉ acceptedOwners s.log := by
        intro hMem
        have hLt := hHist.accepted_lt _ hMem
        omega
      refine ⟨?_, ?_, ?_, ?_⟩
      · refine hHist.traced.append (Traced.singleton ?_)
        rw [List.append_nil]
        exact hNew
      · change s.exch = replay (s.log ++ [_])
        rw [replay_append_of_no_calls s.log rfl]
        exact hHist.exch
      · intro f d hd
        change Obs.accepted f d.ownerId ∈ s.log ++ [_]
        rcases conn_of_insert (acceptConn_conns hNone)
            hd with ⟨rfl, rfl⟩ | ⟨_, hOld⟩
        · exact List.mem_append_right _
            (List.mem_singleton.mpr rfl)
        · exact List.mem_append_left _
            (hHist.conn_accepted f d hOld)
      · intro owner hMem
        change owner < s.nextOwner + 1
        change owner ∈ acceptedOwners (s.log ++ [_]) at hMem
        rw [acceptedOwners_append] at hMem
        rcases List.mem_append.mp hMem with hOld | hLast
        · have hLt := hHist.accepted_lt owner hOld
          omega
        · have hEq : owner = s.nextOwner := by
            simpa [acceptedOwners] using hLast
          omega
  | reap =>
      have hPlain :
          callsOf (s.dead.map Obs.released) = [] ∧
            acceptedOwners (s.dead.map Obs.released) =
              [] := by
        constructor
        · simp [callsOf]
        · simp [acceptedOwners]
      refine hHist.extend (reap_log s)
        (Traced.of_forall ?_) hPlain.1 hPlain.2
        (reap_exch s) (reap_nextOwner s) ?_
      · intro pre e he
        rcases List.mem_map.mp he with ⟨f, _, rfl⟩
        trivial
      · intro f d hd
        exact ⟨d, conn_of_reap s hd, rfl⟩
  | answers _ =>
      exact hHist.extend (List.append_nil _).symm
        Traced.nil rfl rfl rfl rfl
        (fun _ d hd => ⟨d, hd, rfl⟩)

theorem Reachable.history
    (hReach : Reachable s) :
    History s := by
  apply hReach.of_acts History history_init
  intro s s' hReg hHist hAct
  exact hHist.act hReg hAct

end Server

end SocketExchange

------------------------------------------------------------
-- What The History Tells
------------------------------------------------------------

namespace SocketExchange

variable {log : List Obs}

/- The connection submitted the order, under this id. -/
def SubmittedBy
    (log : List Obs)
    (owner : Int)
    (key : UInt32)
    (o : Order) : Prop :=
  ∃ qty trades,
    Obs.called owner
      (.submit o.side o.inst qty o.price owner)
      (.submitted key trades) ∈ log

/-
  The trade was made by two orders, the buying one submitted
  on the connection `buyer` and the selling one on `seller`.
  The later of the two came in with a call on its own
  connection; the trade filled the earlier one, which rested
  in the book then.
-/
def Execution
    (log : List Obs)
    (t : Trade)
    (buyer seller : Int) : Prop :=
  ∃ before after owner side inst qty price id trades key o,
    log = before ++
        .called owner (.submit side inst qty price owner)
          (.submitted id trades) :: after ∧
      t ∈ trades ∧
      Exchange.Fills (replay before)
        ((replay before).step
          (.submit side inst qty price owner)).1 t key o ∧
      SubmittedBy before o.owner key o ∧
      (buyer, seller) =
        match side with
        | .buy => (owner, o.owner)
        | .sell => (o.owner, owner)

/- No owner id is handed out twice. -/
theorem acceptedOwners_nodup
    (hTraced : Traced Justified log) :
    (acceptedOwners log).Nodup := by
  refine Traced.induction
    (motive := fun log => (acceptedOwners log).Nodup)
    List.nodup_nil ?_ hTraced
  intro log e _ hNodup hJust
  rw [acceptedOwners_append]
  cases e with
  | accepted fd owner =>
      refine List.Nodup.append hNodup
        (List.nodup_singleton owner) ?_
      intro k hOld hLast
      have hEq : k = owner := by
        simpa [acceptedOwners] using hLast
      exact hJust (hEq ▸ hOld)
  | _ => simpa [acceptedOwners] using hNodup

/- An entry about a connection comes after its accept. -/
theorem Justified.accepted
    {e : Obs}
    {owner : Int}
    (hJust : Justified log e)
    (hOwner : e.owner? = some owner) :
    (∃ fd, e = .accepted fd owner) ∨
      owner ∈ acceptedOwners log := by
  cases e with
  | accepted fd k =>
      injection hOwner with hEq
      exact Or.inl ⟨fd, by rw [hEq]⟩
  | called k call reply =>
      injection hOwner with hEq
      exact Or.inr (hEq ▸ hJust.1)
  | queued k m =>
      injection hOwner with hEq
      exact Or.inr (hEq ▸ hJust.1)
  | released fd => cases hOwner
  | _ =>
      injection hOwner with hEq
      exact Or.inr (hEq ▸ hJust)

/- Every resting order was submitted by its owner. -/
theorem replay_submitted
    (hTraced : Traced Justified log)
    {key : UInt32}
    {o : Order}
    (hOrder : (replay log).orders[key]? = some o) :
    SubmittedBy log o.owner key o := by
  revert key o
  refine Traced.induction
    (motive := fun log => ∀ {key : UInt32} {o : Order},
      (replay log).orders[key]? = some o →
        SubmittedBy log o.owner key o) ?_ ?_ hTraced
  · intro key o hOrder
    simp [replay, callsOf, Exchange.empty] at hOrder
  · intro log e _ ih hJust key o hOrder
    have hOld :
        ∀ q, (replay log).orders[key]? =
            some { o with remaining := q } →
          SubmittedBy (log ++ [e]) o.owner key o := by
      intro q hBefore
      rcases ih hBefore with ⟨qty, trades, hMem⟩
      exact ⟨qty, trades, List.mem_append_left _ hMem⟩
    cases e with
    | called owner call reply =>
        rw [replay_append_called] at hOrder
        rcases Exchange.step_rests hOrder with
          ⟨q, hBefore⟩ | ⟨qty, hCall, hKey⟩
        · exact hOld q hBefore
        · -- The order is the remainder of this very call.
          rcases hJust with ⟨_, hOwner, hReply, _⟩
          subst hCall
          change o.owner = owner at hOwner
          subst hOwner
          have hId :=
            hKey.trans (Exchange.submit_id (replay log)
              o.side o.inst qty o.price o.owner).symm
          refine ⟨qty,
            ((replay log).submit o.side o.inst qty o.price
              o.owner []).2.2, ?_⟩
          rw [hReply, hId]
          exact List.mem_append_right _
            (List.mem_singleton.mpr rfl)
    | _ =>
        rw [replay_append_of_no_calls log rfl] at hOrder
        exact hOld o.remaining hOrder

end SocketExchange

------------------------------------------------------------
-- Ownership
------------------------------------------------------------

namespace SocketExchange

variable {log : List Obs}

/- A reported trade is an execution of its two parties. -/
theorem Made.execution
    (hTraced : Traced Justified log)
    {t : Trade}
    (hMade : Made log t) :
    Execution log t t.buyerOwner t.sellerOwner := by
  rcases hMade with ⟨owner, call, id, trades, hMem, hTrade⟩
  rcases List.append_of_mem hMem with
    ⟨before, after, hSplit⟩
  rcases hTraced before _ after hSplit with
    ⟨_, hOwner, hReply, _⟩
  cases call with
  | cancel key k => cases hReply
  | submit side inst qty price k =>
      change k = owner at hOwner
      subst hOwner
      have hTrades :
          trades = ((replay before).submit side inst qty
            price k []).2.2 := by
        injection hReply
      have hTrade' := hTrades ▸ hTrade
      rcases Exchange.submit_fills hTrade' with
        ⟨key, o, hFills, hEq⟩
      have hBefore : Traced Justified before :=
        hTraced.prefix_of (hSplit ▸ List.prefix_append _ _)
      refine ⟨before, after, k, side, inst, qty, price, id,
        trades, key, o, hSplit, hTrade, hFills,
        replay_submitted hBefore hFills.1, ?_⟩
      rw [hEq]
      cases side <;> rfl

namespace Server

/- A buyer takes part of a seller's order. -/
def tradingSteps : List Step :=
  [.connects 5, .connects 6,
    .reads 5
      [.data ⟨ascii "LOGIN ann\nSELL JNST 5 100\n",
        by decide, by decide⟩]
      (fun _ => []),
    .reads 6
      [.data ⟨ascii "LOGIN bob\nBUY JNST 3 100\n",
        by decide, by decide⟩]
      (fun _ => [])]

theorem tradingSteps_legal :
    Machine.Permitted step Legal listening tradingSteps :=
  ⟨fun _ => ⟨by decide, by decide, trivial⟩,
    fun _ => ⟨by decide, by decide, trivial⟩,
    fun h => absurd h (by decide),
    fun h => absurd h (by decide), trivial⟩

/-
  Orders belong to the connection that submitted them, for
  ever. Over every run: owner ids are never handed out
  twice, and every entry of the history is about a
  connection accepted before; the exchange is what the calls
  made it; BOUGHT and SOLD are queued only on the connection
  that submitted the order they are about; and an order
  leaves the book only filled up by a trade, or by a CANCEL
  line of the connection that submitted it.
-/
theorem orders_stay_with_connection
    {s : Server}
    (hReach : Reachable s) :
    (acceptedOwners s.log).Nodup ∧
    (∀ (fd : Fd) (c : Conn), s.conns[fd]? = some c →
      Obs.accepted fd c.ownerId ∈ s.log) ∧
    (∀ pre e post owner, s.log = pre ++ e :: post →
      e.owner? = some owner →
        (∃ fd, e = .accepted fd owner) ∨
          owner ∈ acceptedOwners pre) ∧
    s.exch = replay s.log ∧
    (∀ (key : UInt32) (o : Order),
      s.exch.orders[key]? = some o →
        SubmittedBy s.log o.owner key o) ∧
    (∀ pre owner t post,
      (s.log = pre ++ .queued owner (.bought t) :: post →
        ∃ seller, Execution pre t owner seller) ∧
      (s.log = pre ++ .queued owner (.sold t) :: post →
        ∃ buyer, Execution pre t buyer owner)) ∧
    (∀ pre owner call reply post (key : UInt32)
        (o : Order),
      s.log = pre ++ .called owner call reply :: post →
      (replay pre).orders[key]? = some o →
      (∀ q, ((replay pre).step call).1.orders[key]? ≠
        some { o with remaining := q }) →
        (owner = o.owner ∧ call = .cancel key owner ∧
          ∃ text, pre.getLast? =
              some (.line owner text) ∧
            Requests (splitWs text) call) ∨
        ∃ side inst qty price id trades,
          call = .submit side inst qty price owner ∧
            reply = .submitted id trades ∧
            Exchange.fillTrade side inst price owner
              o.remaining o ∈ trades) := by
  have hHist := hReach.history
  refine ⟨acceptedOwners_nodup hHist.traced,
    hHist.conn_accepted, ?_, hHist.exch, ?_, ?_, ?_⟩
  · intro pre e post owner hSplit hOwner
    exact (hHist.traced pre e post hSplit).accepted hOwner
  · intro key o hOrder
    rw [hHist.exch] at hOrder
    exact replay_submitted hHist.traced hOrder
  · intro pre owner t post
    have hBefore :
        ∀ e, s.log = pre ++ e :: post →
          Traced Justified pre := by
      intro e hSplit
      exact hHist.traced.prefix_of
        (hSplit ▸ List.prefix_append _ _)
    constructor
    · intro hSplit
      rcases hHist.traced pre _ post hSplit with
        ⟨_, hParty, hMade⟩
      exact ⟨t.sellerOwner,
        hParty ▸ hMade.execution (hBefore _ hSplit)⟩
    · intro hSplit
      rcases hHist.traced pre _ post hSplit with
        ⟨_, hParty, hMade⟩
      exact ⟨t.buyerOwner,
        hParty ▸ hMade.execution (hBefore _ hSplit)⟩
  · intro pre owner call reply post key o hSplit hOrder
      hGone
    rcases hHist.traced pre _ post hSplit with
      ⟨_, hOwner, hReply, hLine⟩
    rcases Exchange.step_leaves hOrder hGone with
      hCancel | ⟨side, inst, qty, price, k, hSubmit, hFill⟩
    · have hSame : owner = o.owner := by
        rw [← hOwner, hCancel]
        rfl
      exact Or.inl ⟨hSame, by rw [hCancel, hSame], hLine⟩
    · subst hSubmit
      change k = owner at hOwner
      subst hOwner
      exact Or.inr ⟨side, inst, qty, price, _, _, rfl,
        hReply, hFill⟩

/- What is left of the first order is still the seller's. -/
theorem orders_stay_with_connection_trading :
    SubmittedBy
      (Machine.run step listening tradingSteps).log 1 0
      ⟨0, .sell, 0, 100, 2, 1⟩ :=
  (orders_stay_with_connection
    ⟨3, _, tradingSteps, tradingSteps_legal, rfl⟩).2.2.2.2.1
      0 ⟨0, .sell, 0, 100, 2, 1⟩ (by decide)

end Server

end SocketExchange

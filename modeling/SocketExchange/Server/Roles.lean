import SocketExchange.Server.History

/-
  A connection has one role for life.

  The role of a connection can be read off the history: it
  is what its first login or subscription made it. Every
  entry that needs a role comes when the history gives that
  role, and no later entry takes it away.

  Main declarations:
    * `roleOf`
    * `Permits`
    * `Server.Cast`
    * `Server.Cast.act`
    * `Server.roles_exclusive`
-/

------------------------------------------------------------
-- Roles In The History
------------------------------------------------------------

namespace SocketExchange

/- What an entry makes of the role of a connection. -/
def Obs.recast (owner : Int) (role : Role) : Obs → Role
| .login k _ => if k = owner then .trader else role
| .subscribed k _ _ =>
    if k = owner then .marketData else role
| _ => role

/- The role that the history gives a connection. -/
def roleOf (owner : Int) (log : List Obs) : Role :=
  log.foldl (Obs.recast owner) .unknown

/- The role of a connection that gets a message. -/
def Msg.Suits (role : Role) : Msg → Prop
| .ok => True
| .error _ => True
| .orderAccepted _ => role = .trader
| .orderCancelled _ => role = .trader
| .bought _ => role = .trader
| .sold _ => role = .trader
| .trade _ => role = .marketData

/- The role under which an entry is made. -/
def Permits (pre : List Obs) : Obs → Prop
| .login owner _ => roleOf owner pre = .unknown
| .subscribed owner _ _ => roleOf owner pre ≠ .trader
| .called owner _ _ => roleOf owner pre = .trader
| .queued owner m => m.Suits (roleOf owner pre)
| _ => True

/- Entries that leave every role as it is. -/
def KeepsRoles (es : List Obs) : Prop :=
  ∀ owner role, es.foldl (Obs.recast owner) role = role

variable {log : List Obs} {owner : Int}

theorem roleOf_snoc (e : Obs) :
    roleOf owner (log ++ [e]) =
      Obs.recast owner (roleOf owner log) e := by
  simp [roleOf, List.foldl_append]

theorem roleOf_append_of_keeps
    {es : List Obs}
    (hKeeps : KeepsRoles es) :
    roleOf owner (log ++ es) = roleOf owner log := by
  unfold roleOf
  rw [List.foldl_append]
  exact hKeeps owner _

theorem keepsRoles_of_forall
    {es : List Obs}
    (hAll :
      ∀ e ∈ es, ∀ owner role,
        Obs.recast owner role e = role) :
    KeepsRoles es := by
  intro owner role
  apply Traced.foldl_of_forall
  intro e he
  exact hAll e he owner

theorem OutputTail.keepsRoles
    {closing dead : Bool}
    {es : List Obs}
    (hTail : OutputTail owner closing dead es) :
    KeepsRoles es := by
  apply keepsRoles_of_forall
  exact hTail.forall_mem (fun _ _ _ => rfl)
    (fun _ _ _ _ => rfl)

/- A role is only ever given to a connection without one. -/
theorem Permits.changes
    {e : Obs}
    (hPermits : Permits log e)
    (hChange : roleOf owner (log ++ [e]) ≠ roleOf owner log) :
    roleOf owner log = .unknown ∧
      ((∃ name, e = .login owner name ∧
          roleOf owner (log ++ [e]) = .trader) ∨
        ∃ inst on, e = .subscribed owner inst on ∧
          roleOf owner (log ++ [e]) = .marketData) := by
  rw [roleOf_snoc] at hChange ⊢
  cases e with
  | login k name =>
      unfold Obs.recast at hChange ⊢
      dsimp only at hChange ⊢
      split at hChange
      · next hSame =>
          subst hSame
          exact ⟨hPermits,
            Or.inl ⟨name, rfl, if_pos rfl⟩⟩
      · exact absurd rfl hChange
  | subscribed k inst on =>
      unfold Obs.recast at hChange ⊢
      dsimp only at hChange ⊢
      split at hChange
      · next hSame =>
          subst hSame
          exact ⟨Role.eq_unknown hChange.symm hPermits,
            Or.inr ⟨inst, on, rfl, if_pos rfl⟩⟩
      · exact absurd rfl hChange
  | _ => exact absurd rfl hChange

/- The role of a connection is fixed once it has one. -/
theorem roleOf_fixed
    (hTraced : Traced Permits log)
    {pre : List Obs}
    (hPrefix : pre <+: log)
    (hKnown : roleOf owner pre ≠ .unknown) :
    roleOf owner log = roleOf owner pre := by
  revert pre
  refine Traced.induction
    (motive := fun log => ∀ {pre : List Obs}, pre <+: log →
      roleOf owner pre ≠ .unknown →
        roleOf owner log = roleOf owner pre) ?_ ?_ hTraced
  · intro pre hPrefix _
    rw [List.prefix_nil.mp hPrefix]
  · intro log e _ ih hPermits pre hPrefix hKnown
    rcases List.prefix_concat_iff.mp hPrefix with
      rfl | hOld
    · rfl
    · have hBefore := ih hOld hKnown
      rw [← hBefore]
      by_contra hChange
      rw [← hBefore] at hKnown
      exact hKnown (hPermits.changes hChange).1

end SocketExchange

------------------------------------------------------------
-- Every Action Keeps The Roles
------------------------------------------------------------

namespace SocketExchange

namespace Server

/- The history and the connections agree on the roles. -/
structure Cast (s : Server) : Prop where
  traced : Traced Permits s.log
  role :
    ∀ (fd : Fd) (c : Conn), s.conns[fd]? = some c →
      c.role = roleOf c.ownerId s.log
  unborn :
    ∀ owner, s.nextOwner ≤ owner →
      roleOf owner s.log = .unknown

theorem cast_init (lfd : Fd) (env : Env) :
    Cast (init lfd env) where
  traced := Traced.nil
  role := by
    intro fd c hConn
    simp [init] at hConn
  unborn := fun _ _ => rfl

variable {s s' : Server} {fd : Fd} {c c' : Conn}

/- Entries that keep the roles, and connections that do. -/
theorem Cast.extend
    {es : List Obs}
    (hCast : Cast s)
    (hLog : s'.log = s.log ++ es)
    (hTraced :
      Traced (fun pre e => Permits (s.log ++ pre) e) es)
    (hKeeps : KeepsRoles es)
    (hNext : s'.nextOwner = s.nextOwner)
    (hConns :
      ∀ (f : Fd) (d : Conn), s'.conns[f]? = some d →
        ∃ e, s.conns[f]? = some e ∧
          d.ownerId = e.ownerId ∧ d.role = e.role) :
    Cast s' where
  traced := by
    rw [hLog]
    exact hCast.traced.append hTraced
  role := by
    intro f d hd
    rcases hConns f d hd with ⟨e, he, hOwner, hRole⟩
    rw [hLog, roleOf_append_of_keeps hKeeps, hOwner, hRole]
    exact hCast.role f e he
  unborn := by
    intro owner hOwner
    rw [hLog, roleOf_append_of_keeps hKeeps]
    exact hCast.unborn owner (hNext ▸ hOwner)

/- Writing a connection under its owner id and role. -/
theorem roles_of_insert
    (hConn : s.conns[fd]? = some c)
    (hConns : s'.conns = s.conns.insert fd c')
    (hOwner : c'.ownerId = c.ownerId)
    (hRole : c'.role = c.role) :
    ∀ (f : Fd) (d : Conn), s'.conns[f]? = some d →
      ∃ e, s.conns[f]? = some e ∧
        d.ownerId = e.ownerId ∧ d.role = e.role := by
  intro f d hd
  rcases conn_of_insert hConns hd with
    ⟨rfl, rfl⟩ | ⟨_, hOld⟩
  · exact ⟨c, hConn, hOwner, hRole⟩
  · exact ⟨d, hOld, rfl, rfl⟩

/- One connection gets the role of the entry that is made. -/
theorem Cast.given
    {e : Obs}
    (hReg : Registry s)
    (hCast : Cast s)
    (hConn : s.conns[fd]? = some c)
    (hLog : s'.log = s.log ++ [e])
    (hPermits : Permits s.log e)
    (hOthers :
      ∀ k role, k ≠ c.ownerId → Obs.recast k role e = role)
    (hNext : s'.nextOwner = s.nextOwner)
    (hConns : s'.conns = s.conns.insert fd c')
    (hOwner : c'.ownerId = c.ownerId)
    (hRole : ∀ role, Obs.recast c.ownerId role e = c'.role) :
    Cast s' where
  traced := by
    rw [hLog]
    refine hCast.traced.append (Traced.singleton ?_)
    rw [List.append_nil]
    exact hPermits
  role := by
    intro f d hd
    rw [hLog, roleOf_snoc]
    rcases conn_of_insert hConns hd with
      ⟨_, rfl⟩ | ⟨hOther, hOld⟩
    · rw [hOwner, hRole]
    · have hApart : d.ownerId ≠ c.ownerId := by
        intro hSame
        exact hOther
          (hReg.owner_unique f fd d c hOld hConn hSame)
      rw [hOthers _ _ hApart]
      exact hCast.role f d hOld
  unborn := by
    intro owner hOld
    rw [hNext] at hOld
    have hRange := (hReg.owner_range fd c hConn).2
    rw [hLog, roleOf_snoc, hOthers owner _ (by omega)]
    exact hCast.unborn owner hOld

/- One entry that keeps the roles. -/
theorem Cast.extend_one
    {e : Obs}
    (hCast : Cast s)
    (hLog : s'.log = s.log ++ [e])
    (hPermits : Permits s.log e)
    (hKeeps : ∀ owner role, Obs.recast owner role e = role)
    (hNext : s'.nextOwner = s.nextOwner)
    (hConns :
      ∀ (f : Fd) (d : Conn), s'.conns[f]? = some d →
        ∃ e, s.conns[f]? = some e ∧
          d.ownerId = e.ownerId ∧ d.role = e.role) :
    Cast s' := by
  refine hCast.extend hLog (Traced.singleton ?_) hKeeps
    hNext hConns
  rw [List.append_nil]
  exact hPermits

/- The entries of a flush need no role. -/
theorem OutputTail.permits
    (pre : List Obs)
    {es : List Obs}
    {owner : Int}
    {closing dead : Bool}
    (hTail : OutputTail owner closing dead es) :
    Traced (fun more e => Permits (pre ++ more) e) es := by
  apply Traced.of_forall
  intro more
  exact hTail.forall_mem (fun _ => trivial)
    (fun _ _ => trivial)

theorem suits_of_addressed
    {m : Msg}
    (hAddressed : Addressed c m) :
    m.Suits c.role := by
  cases m with
  | ok => trivial
  | error reason => trivial
  | orderAccepted id => exact hAddressed
  | orderCancelled id => exact hAddressed
  | bought t => exact hAddressed.1
  | sold t => exact hAddressed.1
  | trade t => exact hAddressed.1

theorem Cast.serve
    {G : Guard}
    (hReg : Registry s)
    (hCast : Cast s)
    (hServe : Serve G s s') :
    Cast s' := by
  cases hServe with
  | @queue fd c m hConn hLive hAddressed _ _ =>
      rcases queued_log s fd hLive m with ⟨es, hLog, hTail⟩
      have hSuits := suits_of_addressed hAddressed
      rw [hCast.role fd c hConn] at hSuits
      have hFirst :
          Permits (s.log ++ []) (.queued c.ownerId m) := by
        rw [List.append_nil]
        exact hSuits
      have hRest :=
        OutputTail.permits
          (s.log ++ [.queued c.ownerId m]) hTail
      simp only [List.append_assoc] at hRest
      have hSame := Port.queue_same (Port.ofConn s c) m
      exact hCast.extend hLog
        (Traced.cons hFirst hRest)
        (fun owner role => hTail.keepsRoles owner role)
        (commit_nextOwner s fd _)
        (roles_of_insert hConn (commit_conns s fd _)
          hSame.ownerId hSame.role)
  | @flush fd c hConn hLive =>
      rcases flushed_log s fd hLive with ⟨es, hLog, hTail⟩
      have hSame := Port.flush_same (Port.ofConn s c)
      exact hCast.extend hLog
        (OutputTail.permits _ hTail) hTail.keepsRoles
        (commit_nextOwner s fd _)
        (roles_of_insert hConn (commit_conns s fd _)
          hSame.ownerId hSame.role)
  | closing hConn =>
      exact hCast.extend_one rfl trivial (fun _ _ => rfl)
        rfl (roles_of_insert hConn rfl rfl rfl)
  | line _ _ _ _ =>
      exact hCast.extend_one rfl trivial (fun _ _ => rfl)
        rfl (fun _ d hd => ⟨d, hd, rfl, rfl⟩)
  | overlong _ _ _ =>
      exact hCast.extend_one rfl trivial (fun _ _ => rfl)
        rfl (fun _ d hd => ⟨d, hd, rfl, rfl⟩)
  | @login fd c name hConn _ hRole _ _ _ =>
      refine hCast.given hReg hConn rfl ?_ ?_ rfl
        grantLogin_conns rfl ?_
      · exact (hCast.role fd c hConn).symm.trans hRole
      · intro k role hOther
        exact if_neg hOther.symm
      · intro role
        exact if_pos rfl
  | @subscribe fd c hConn _ hRole _ inst on =>
      have hConns :
          (s.grantSubscribe fd c inst on).conns =
            s.conns.insert fd
              { c with
                role := .marketData
                subs := Function.update c.subs inst on } :=
        rfl
      refine hCast.given hReg hConn rfl ?_ ?_ rfl hConns
        rfl ?_
      · intro hTrader
        exact hRole ((hCast.role fd c hConn).trans hTrader)
      · intro k role hOther
        exact if_neg hOther.symm
      · intro role
        exact if_pos rfl
  | @call fd c call text hConn _ hRole _ _ _ _ =>
      exact hCast.extend_one rfl
        ((hCast.role fd c hConn).symm.trans hRole)
        (fun _ _ => rfl) rfl
        (fun _ d hd => ⟨d, hd, rfl, rfl⟩)

theorem Cast.act
    {G : Guard}
    (hReg : Registry s)
    (hCast : Cast s)
    (hAct : Act G s s') :
    Cast s' := by
  cases hAct with
  | serve hServe => exact hCast.serve hReg hServe
  | @close fd c hConn _ why _ =>
      exact hCast.extend_one (commit_log s fd _) trivial
        (fun _ _ => rfl) (commit_nextOwner s fd _)
        (roles_of_insert hConn (commit_conns s fd _) rfl rfl)
  | input hConn _ =>
      exact hCast.extend (List.append_nil _).symm
        Traced.nil (fun _ _ => rfl) rfl
        (roles_of_insert hConn rfl rfl rfl)
  | @accept cfd hFresh _ =>
      have hNone := hReg.none_of_fresh hFresh
      have hSilent :
          ∀ owner,
            roleOf owner (s.acceptConn cfd).log =
              roleOf owner s.log := by
        intro owner
        exact roleOf_snoc _
      refine ⟨?_, ?_, ?_⟩
      · refine hCast.traced.append (Traced.singleton ?_)
        trivial
      · intro f d hd
        rw [hSilent]
        rcases conn_of_insert (acceptConn_conns hNone)
            hd with ⟨_, rfl⟩ | ⟨_, hOld⟩
        · exact (hCast.unborn _ (Int.le_refl _)).symm
        · exact hCast.role f d hOld
      · intro owner hOwner
        rw [hSilent]
        change s.nextOwner + 1 ≤ owner at hOwner
        exact hCast.unborn owner (by omega)
  | reap =>
      refine hCast.extend (reap_log s)
        (Traced.of_forall ?_) ?_ (reap_nextOwner s) ?_
      · intro pre e he
        rcases List.mem_map.mp he with ⟨f, _, rfl⟩
        trivial
      · apply keepsRoles_of_forall
        intro e he owner role
        rcases List.mem_map.mp he with ⟨f, _, rfl⟩
        rfl
      · intro f d hd
        exact ⟨d, conn_of_reap s hd, rfl, rfl⟩
  | answers _ =>
      exact hCast.extend (List.append_nil _).symm
        Traced.nil (fun _ _ => rfl) rfl
        (fun _ d hd => ⟨d, hd, rfl, rfl⟩)

end Server

end SocketExchange

------------------------------------------------------------
-- One Role For Life
------------------------------------------------------------

namespace SocketExchange

/-
  The connection submitted the order under this id, as a
  trader.
-/
def TraderSubmitted
    (log : List Obs)
    (owner : Int)
    (key : UInt32)
    (o : Order) : Prop :=
  ∃ pre qty trades post,
    log = pre ++
        .called owner
          (.submit o.side o.inst qty o.price owner)
          (.submitted key trades) :: post ∧
      roleOf owner pre = .trader

/-
  The trade was made between two orders that traders
  submitted: the later one when the trade was made, the
  earlier one before.
-/
def TradersMet (log : List Obs) (t : Trade) : Prop :=
  ∃ before after owner side inst qty price id trades key o,
    log = before ++
        .called owner (.submit side inst qty price owner)
          (.submitted id trades) :: after ∧
      roleOf owner before = .trader ∧
      t ∈ trades ∧
      Exchange.Fills (replay before)
        ((replay before).step
          (.submit side inst qty price owner)).1 t key o ∧
      TraderSubmitted before o.owner key o ∧
      (t.buyerOwner, t.sellerOwner) =
        match side with
        | .buy => (owner, o.owner)
        | .sell => (o.owner, owner)

variable {log : List Obs} {owner : Int}

theorem SubmittedBy.asTrader
    {key : UInt32}
    {o : Order}
    (hTraced : Traced Permits log)
    (hSubmitted : SubmittedBy log owner key o) :
    TraderSubmitted log owner key o := by
  rcases hSubmitted with ⟨qty, trades, hMem⟩
  rcases List.append_of_mem hMem with ⟨pre, post, hSplit⟩
  exact ⟨pre, qty, trades, post, hSplit,
    hTraced pre _ post hSplit⟩

theorem Execution.tradersMet
    {t : Trade}
    (hTraced : Traced Permits log)
    (hExec :
      Execution log t t.buyerOwner t.sellerOwner) :
    TradersMet log t := by
  rcases hExec with
    ⟨before, after, k, side, inst, qty, price, id, trades,
      key, o, hSplit, hTrade, hFills, hEarlier, hParties⟩
  have hBefore : Traced Permits before :=
    hTraced.prefix_of (hSplit ▸ List.prefix_append _ _)
  exact ⟨before, after, k, side, inst, qty, price, id,
    trades, key, o, hSplit, hTraced before _ after hSplit,
    hTrade, hFills, hEarlier.asTrader hBefore, hParties⟩

/- A message suits the role its connection has for life. -/
theorem suits_of_queued
    {m : Msg}
    (hTraced : Traced Permits log)
    (hMem : Obs.queued owner m ∈ log) :
    m.Suits (roleOf owner log) := by
  rcases List.append_of_mem hMem with ⟨pre, post, hSplit⟩
  have hThen : m.Suits (roleOf owner pre) :=
    hTraced pre _ post hSplit
  have hFixed :
      ∀ role, role ≠ .unknown → roleOf owner pre = role →
        roleOf owner log = role := by
    intro role hKnown hRole
    have hPrefix : pre <+: log :=
      hSplit ▸ List.prefix_append _ _
    rw [roleOf_fixed hTraced hPrefix (hRole ▸ hKnown)]
    exact hRole
  cases m with
  | ok => trivial
  | error reason => trivial
  | orderAccepted id => exact hFixed _ (by simp) hThen
  | orderCancelled id => exact hFixed _ (by simp) hThen
  | bought t => exact hFixed _ (by simp) hThen
  | sold t => exact hFixed _ (by simp) hThen
  | trade t => exact hFixed _ (by simp) hThen

namespace Server

theorem Reachable.cast
    {s : Server}
    (hReach : Reachable s) :
    Cast s := by
  apply hReach.of_acts Cast cast_init
  intro s s' hReg hCast hAct
  exact hCast.act hReg hAct

/-
  A connection has one role for life. In every reachable
  state its role is the one the history gives it, and it is
  still that one later in the run unless it was unknown. An
  entry changes the role of a connection only from unknown:
  a login to trader, a subscription to market data. Only
  market data connections have subscriptions. Every call,
  every resting order and both orders behind every trade
  came from a connection that was a trader then. No
  connection is told both of market trades and of orders of
  its own.
-/
theorem roles_exclusive
    {s : Server}
    (hReach : Reachable s) :
    (∀ (fd : Fd) (c : Conn), s.conns[fd]? = some c →
      c.role = roleOf c.ownerId s.log) ∧
    (∀ more, Machine.Permitted step Legal s more →
      ∀ (fd fd' : Fd) (c c' : Conn),
        s.conns[fd]? = some c →
        (Machine.run step s more).conns[fd']? = some c' →
        c'.ownerId = c.ownerId →
          c.role = .unknown ∨ c'.role = c.role) ∧
    (∀ pre e post owner, s.log = pre ++ e :: post →
      roleOf owner (pre ++ [e]) ≠ roleOf owner pre →
        roleOf owner pre = .unknown ∧
        ((∃ name, e = .login owner name ∧
            roleOf owner (pre ++ [e]) = .trader) ∨
          ∃ inst on, e = .subscribed owner inst on ∧
            roleOf owner (pre ++ [e]) = .marketData)) ∧
    (∀ (fd : Fd) (c : Conn), s.conns[fd]? = some c →
      c.role ≠ .marketData → c.subs = fun _ => false) ∧
    (∀ pre owner call reply post,
      s.log = pre ++ .called owner call reply :: post →
        call.owner = owner ∧
          owner ∈ acceptedOwners pre ∧
          roleOf owner pre = .trader) ∧
    (∀ (key : UInt32) (o : Order),
      s.exch.orders[key]? = some o →
        TraderSubmitted s.log o.owner key o) ∧
    (∀ t, Made s.log t → TradersMet s.log t) ∧
    (∀ owner t, Obs.queued owner (.trade t) ∈ s.log →
      ∀ id u,
        Obs.queued owner (.orderAccepted id) ∉ s.log ∧
          Obs.queued owner (.orderCancelled id) ∉ s.log ∧
          Obs.queued owner (.bought u) ∉ s.log ∧
          Obs.queued owner (.sold u) ∉ s.log) := by
  have hCast := hReach.cast
  have hHist := hReach.history
  refine ⟨hCast.role, ?_, ?_, hReach.registry.subs_false,
    ?_, ?_, ?_, ?_⟩
  · intro more hLegal fd fd' c c' hConn hConn' hOwner
    rcases hReach.run hLegal with ⟨hReach', hGrown⟩
    by_cases hKnown : c.role = .unknown
    · exact Or.inl hKnown
    · right
      rw [hCast.role fd c hConn] at hKnown ⊢
      rw [hReach'.cast.role fd' c' hConn', hOwner]
      exact roleOf_fixed hReach'.cast.traced hGrown hKnown
  · intro pre e post owner hSplit hChange
    exact (hCast.traced pre e post hSplit).changes hChange
  · intro pre owner call reply post hSplit
    rcases hHist.traced pre _ post hSplit with
      ⟨hAccepted, hOwner, _⟩
    exact ⟨hOwner, hAccepted,
      hCast.traced pre _ post hSplit⟩
  · intro key o hOrder
    rw [hHist.exch] at hOrder
    exact (replay_submitted hHist.traced hOrder).asTrader
      hCast.traced
  · intro t hMade
    exact (hMade.execution hHist.traced).tradersMet
      hCast.traced
  · intro owner t hTrade id u
    have hMarket : roleOf owner s.log = .marketData :=
      suits_of_queued hCast.traced hTrade
    have hNever :
        ∀ m : Msg, (m.Suits .marketData → False) →
          Obs.queued owner m ∉ s.log := by
      intro m hUnsuited hMem
      have hSuits := suits_of_queued hCast.traced hMem
      rw [hMarket] at hSuits
      exact hUnsuited hSuits
    refine ⟨hNever _ ?_, hNever _ ?_, hNever _ ?_,
      hNever _ ?_⟩
    · exact fun h => by cases h
    · exact fun h => by cases h
    · exact fun h => by cases h
    · exact fun h => by cases h

/- The trade of the two traders was made by traders. -/
theorem roles_exclusive_trading :
    TradersMet
      (Machine.run step listening tradingSteps).log
      ⟨0, 3, 100, 2, 1⟩ := by
  have hMade :
      Made (Machine.run step listening tradingSteps).log
        ⟨0, 3, 100, 2, 1⟩ :=
    ⟨2, .submit .buy 0 3 100 2, 1, [⟨0, 3, 100, 2, 1⟩],
      by decide, List.mem_singleton.mpr rfl⟩
  exact (roles_exclusive
    ⟨3, _, tradingSteps, tradingSteps_legal, rfl⟩
    ).2.2.2.2.2.2.1 _ hMade

end Server

end SocketExchange

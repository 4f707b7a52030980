import SocketExchange.Server.Notification

/-
  A connection that never logs in cannot influence anyone
  else.

  Two runs are compared that differ in what one connection
  `m` sends, reads and suffers, and in the order in which
  hash maps are walked. The observer is everyone else: it
  sees the accepts, the events of the other connections with
  the answers of their sockets, and the reaping of other
  connections. Runs that look the same to it end in the same
  exchange, the same registries and the same connections.

  Here: what the steps of `m` itself leave alone.

  Main declarations:
    * `Server.view`
    * `Server.Apart`
    * `Server.event_apart`, `Server.reap_apart`
-/

------------------------------------------------------------
-- The Observer
------------------------------------------------------------

namespace SocketExchange

/- What everyone but one connection sees of a step. -/
inductive Seen where
| accepts : List AcceptResult → Seen
| handles :
    KEvent → List RecvResult →
      (Fd → List SendResult) → Seen
| reaps : Seen

namespace Server

/- A connection other than `m` has this descriptor. -/
def isOther (m : Int) (s : Server) (fd : Fd) : Bool :=
  match s.conns[fd]? with
  | none => false
  | some c => c.ownerId != m

/- What the others see of a step, if they see it at all. -/
def view (m : Int) (s : Server) : Step → Option Seen
| .event ev a =>
    if ev.ident = s.lfd then some (.accepts a.accepts)
    else if s.isOther m ev.ident then
      some (.handles ev a.recvs
        (fun fd =>
          if s.isOther m fd then a.sends fd else []))
    else none
| .reap =>
    if s.dead.any (s.isOther m) then some .reaps else none

theorem isOther_eq_true_iff
    {m : Int}
    {s : Server}
    {fd : Fd} :
    s.isOther m fd = true ↔
      ∃ c, s.conns[fd]? = some c ∧ c.ownerId ≠ m := by
  unfold isOther
  cases hConn : s.conns[fd]? with
  | none => simp
  | some c => simp

/- Only an event of the listening socket shows accepts. -/
theorem view_eq_accepts
    {m : Int}
    {s : Server}
    {i : Step}
    {accepts : List AcceptResult}
    (hSeen : view m s i = some (.accepts accepts)) :
    ∃ ev a, i = .event ev a ∧ ev.ident = s.lfd ∧
      a.accepts = accepts := by
  unfold view at hSeen
  cases i with
  | event ev a =>
      dsimp only at hSeen
      split at hSeen
      · next hListen =>
          injection hSeen with hSeen
          injection hSeen with hSame
          exact ⟨ev, a, rfl, hListen, hSame⟩
      · split at hSeen
        · cases hSeen
        · cases hSeen
  | reap =>
      dsimp only at hSeen
      split at hSeen
      · cases hSeen
      · cases hSeen

/-
  An event that is seen is one of another connection, with
  its own answers and those of the other sockets.
-/
theorem view_eq_handles
    {m : Int}
    {s : Server}
    {i : Step}
    {ev : KEvent}
    {recvs : List RecvResult}
    {sends : Fd → List SendResult}
    (hSeen : view m s i = some (.handles ev recvs sends)) :
    ∃ a, i = .event ev a ∧ ev.ident ≠ s.lfd ∧
      s.isOther m ev.ident = true ∧ a.recvs = recvs ∧
      (fun fd =>
        if s.isOther m fd then a.sends fd else []) =
          sends := by
  unfold view at hSeen
  cases i with
  | event ev' a =>
      dsimp only at hSeen
      split at hSeen
      · cases hSeen
      · next hListen =>
          split at hSeen
          · next hIs =>
              injection hSeen with hSeen
              injection hSeen with hEv hRecvs hSends
              subst hEv
              exact ⟨a, rfl, hListen, hIs, hRecvs, hSends⟩
          · cases hSeen
  | reap =>
      dsimp only at hSeen
      split at hSeen
      · cases hSeen
      · cases hSeen

/- Only a reaping looks like one. -/
theorem view_eq_reaps
    {m : Int}
    {s : Server}
    {i : Step}
    (hSeen : view m s i = some .reaps) :
    i = .reap := by
  unfold view at hSeen
  cases i with
  | event ev a =>
      dsimp only at hSeen
      split at hSeen
      · cases hSeen
      · split at hSeen
        · cases hSeen
        · cases hSeen
  | reap => rfl

end Server

/- The port of a connection other than `m`. -/
def otherThan (m : Int) (p : Option Port) : Option Port :=
  p.filter fun p => p.conn.ownerId ≠ m

/- The port of `m` is out of sight. -/
theorem otherThan_of_eq
    {m : Int}
    {p : Port}
    (hIs : p.conn.ownerId = m) :
    otherThan m (some p) = none := by
  simp [otherThan, Option.filter_some, hIs]

/- Any other port is in sight. -/
theorem otherThan_of_ne
    {m : Int}
    {p : Port}
    (hNe : p.conn.ownerId ≠ m) :
    otherThan m (some p) = some p := by
  simp [otherThan, Option.filter_some, hNe]

theorem otherThan_eq_some_iff
    {m : Int}
    {p : Option Port}
    {q : Port} :
    otherThan m p = some q ↔
      p = some q ∧ q.conn.ownerId ≠ m := by
  simp [otherThan, Option.filter_eq_some_iff]

/- Hiding `m` commutes with what keeps the owner id. -/
theorem otherThan_map
    {m : Int}
    {F : Port → Port}
    (hOwner :
      ∀ p : Port, (F p).conn.ownerId = p.conn.ownerId)
    (p : Option Port) :
    otherThan m (p.map F) = (otherThan m p).map F := by
  cases p with
  | none => rfl
  | some p =>
      by_cases hIs : p.conn.ownerId = m
      · rw [Option.map_some, otherThan_of_eq hIs,
          otherThan_of_eq ((hOwner p).trans hIs)]
        rfl
      · have hNe : (F p).conn.ownerId ≠ m := by
          rw [hOwner p]
          exact hIs
        rw [Option.map_some, otherThan_of_ne hIs,
          otherThan_of_ne hNe]
        rfl

end SocketExchange

------------------------------------------------------------
-- What Operations Leave Alone
------------------------------------------------------------

namespace SocketExchange

namespace Server

/- The parts of the server that output never touches. -/
structure SameBooks (s s' : Server) : Prop where
  lfd : s'.lfd = s.lfd
  nextOwner : s'.nextOwner = s.nextOwner
  exch : s'.exch = s.exch

theorem SameBooks.refl (s : Server) : SameBooks s s :=
  ⟨rfl, rfl, rfl⟩

theorem SameBooks.trans
    {a b c : Server}
    (hab : SameBooks a b)
    (hbc : SameBooks b c) :
    SameBooks a c where
  lfd := hbc.lfd.trans hab.lfd
  nextOwner := hbc.nextOwner.trans hab.nextOwner
  exch := hbc.exch.trans hab.exch

/- Nor does writing a port back touch them. -/
theorem commit_sameBooks
    (s : Server)
    (fd : Fd)
    (p : Port) :
    SameBooks s (s.commit fd p) :=
  ⟨commit_lfd s fd p, commit_nextOwner s fd p,
    commit_exch s fd p⟩

variable {s : Server} {fd : Fd}

/- Each output function, and each teardown, leaves them. -/
theorem queueOut_sameBooks (m : Msg) :
    SameBooks s (s.queueOut fd m) := by
  refine queueOut_cases (P := SameBooks s) (.refl s) ?_
  intro c _ _
  exact commit_sameBooks s fd _

theorem tryFlush_sameBooks :
    SameBooks s (s.tryFlush fd) := by
  refine tryFlush_cases (P := SameBooks s) (.refl s) ?_
  intro c _ _
  exact commit_sameBooks s fd _

theorem closeConn_sameBooks (why : CloseCause) :
    SameBooks s (s.closeConn fd why) := by
  refine closeConn_cases (P := SameBooks s) (.refl s) ?_
  intro c _ _
  exact commit_sameBooks s fd _

/- So do the messages about one trade, and about many. -/
theorem notifyOwner_sameBooks
    (owner : Int)
    (m : Msg) :
    SameBooks s (s.notifyOwner owner m) := by
  unfold notifyOwner
  split
  · exact .refl s
  · split
    · exact .refl s
    · exact queueOut_sameBooks m

theorem publish_sameBooks (t : Trade) :
    SameBooks s (s.publish t) := by
  have hLoop :
      ∀ (fds : List Fd) (s : Server),
        SameBooks s
          (fds.foldl (notifySubscriber t) s) := by
    intro fds
    induction fds with
    | nil => exact fun s => .refl s
    | cons fd fds ih =>
        intro s
        refine SameBooks.trans ?_ (ih _)
        unfold notifySubscriber
        split
        · exact .refl s
        · split
          · exact queueOut_sameBooks _
          · exact .refl s
  exact ((notifyOwner_sameBooks _ _).trans
    (notifyOwner_sameBooks _ _)).trans (hLoop _ _)

theorem publishAll_sameBooks (trades : List Trade) :
    SameBooks s (trades.foldl publish s) := by
  induction trades generalizing s with
  | nil => exact .refl s
  | cons t trades ih => exact (publish_sameBooks t).trans ih

/- Flushing and closing keep the registries. -/
theorem Registry.tryFlush
    (hReg : Registry s)
    (fd : Fd) :
    Registry (s.tryFlush fd) := by
  have hServes : Serves Guard.none s (s.tryFlush fd) :=
    tryFlush_serves
  exact hReg.serves hServes

/- A teardown keeps what refers to connections right. -/
theorem Registry.closeConn
    (hReg : Registry s)
    (fd : Fd)
    (why : CloseCause) :
    Registry (s.closeConn fd why) := by
  refine closeConn_cases (P := Registry) hReg ?_
  intro c hConn hLive
  exact hReg.commit hConn hLive
    (Port.close_same (Port.ofConn s c) why)

end Server

end SocketExchange

------------------------------------------------------------
-- Writing One Record
------------------------------------------------------------

namespace SocketExchange

namespace Server

/- The record of one connection written, with entries. -/
structure Writes
    (s s' : Server)
    (fd : Fd)
    (c : Conn)
    (es : List Obs) : Prop where
  conns : s'.conns = s.conns.insert fd c
  log : s'.log = s.log ++ es
  sends : s'.env.sends = s.env.sends
  registry : Registry s'

variable {s : Server} {fd : Fd} {c : Conn}

/-
  Each small step of a handler writes one record: the
  closing mark, the buffer, an entry, a call, a role.
-/
theorem setClosing_writes
    (hReg : Registry s)
    (hConn : s.conns[fd]? = some c) :
    Writes s (s.setClosing fd) fd { c with closing := true }
      [.closing c.ownerId] := by
  have hServes : Serves Guard.none s (s.setClosing fd) :=
    setClosing_serves
  have hReg' := hReg.serves hServes
  unfold setClosing at hReg' ⊢
  rw [hConn] at hReg' ⊢
  exact ⟨rfl, rfl, rfl, hReg'⟩

/- The mark is nothing to the books. -/
theorem setClosing_sameBooks :
    SameBooks s (s.setClosing fd) := by
  unfold setClosing
  split
  · exact .refl s
  · exact ⟨rfl, rfl, rfl⟩

theorem input_writes
    (hReg : Registry s)
    (hConn : s.conns[fd]? = some c)
    (input : LineBuffer) :
    Writes s (s.setConn fd { c with input := input }) fd
      { c with input := input } [] := by
  have hAct :
      Act Guard.none s
        (s.setConn fd { c with input := input }) :=
    .input hConn input
  exact ⟨rfl, (List.append_nil _).symm, rfl, hReg.act hAct⟩

theorem note_writes
    (hReg : Registry s)
    (hConn : s.conns[fd]? = some c)
    (e : Obs) :
    Writes s (s.note e) fd c [e] :=
  ⟨(insert_getElem?_self hConn).symm, rfl, rfl,
    hReg.note _⟩

/- A call leaves the record alone: its reply is logged. -/
theorem call_writes
    (hReg : Registry s)
    (hConn : s.conns[fd]? = some c)
    (call : Call) :
    Writes s (s.callExchange c.ownerId call) fd c
      [.called c.ownerId call (s.exch.step call).2] :=
  ⟨(insert_getElem?_self hConn).symm, rfl, rfl,
    hReg.callExchange _ _⟩

theorem login_writes
    {name : Bytes}
    (hReg : Registry s)
    (hConn : s.conns[fd]? = some c)
    (hLive : c.dead = false)
    (hRole : c.role = .unknown)
    (hName : name ≠ [])
    (hFree : name ∉ s.usernames) :
    Writes s (s.grantLogin fd c name) fd
      { c with role := .trader, username := name }
      [.login c.ownerId name] :=
  ⟨rfl, rfl, rfl,
    hReg.login hConn hLive hRole hName hFree⟩

theorem subscribe_writes
    (hReg : Registry s)
    (hConn : s.conns[fd]? = some c)
    (hLive : c.dead = false)
    (hRole : c.role ≠ .trader)
    (inst : Fin 2)
    (on : Bool) :
    Writes s (s.grantSubscribe fd c inst on) fd
      { c with
        role := .marketData
        subs := Function.update c.subs inst on }
      [.subscribed c.ownerId inst on] := by
  have hServe :
      Serve Guard.none s (s.grantSubscribe fd c inst on) :=
    Serve.subscribe (G := Guard.none) hConn hLive hRole
      False.elim inst on
  exact ⟨rfl, rfl, rfl, hReg.serve hServe⟩

end Server

end SocketExchange

------------------------------------------------------------
-- Steps Of The Bystander
------------------------------------------------------------

namespace SocketExchange

namespace Server

/- The connection `m` is no trader. -/
def NoTrader (m : Int) (s : Server) : Prop :=
  ∀ (fd : Fd) (c : Conn), s.conns[fd]? = some c →
    c.ownerId = m → c.role ≠ .trader

/-
  From one state to the other nothing changed for anyone but
  `m`, which is still no trader.
-/
structure Apart (m : Int) (s s' : Server) : Prop where
  books : SameBooks s s'
  registry : Registry s'
  noTrader : NoTrader m s'
  ports :
    ∀ fd, otherThan m (s'.port? fd) =
      otherThan m (s.port? fd)

variable {m : Int} {s s' s'' : Server}
variable {fd : Fd} {c : Conn}

theorem Apart.refl
    (hReg : Registry s)
    (hNo : NoTrader m s) :
    Apart m s s :=
  ⟨.refl s, hReg, hNo, fun _ => rfl⟩

/- What `m` does in steps, it does in sum. -/
theorem Apart.trans
    (hFirst : Apart m s s')
    (hSecond : Apart m s' s'') :
    Apart m s s'' where
  books := hFirst.books.trans hSecond.books
  registry := hSecond.registry
  noTrader := hSecond.noTrader
  ports := fun fd =>
    (hSecond.ports fd).trans (hFirst.ports fd)

/- Writing one port keeps `m` from being a trader. -/
theorem NoTrader.of_port
    {q : Port}
    (hNo : NoTrader m s)
    (hPort :
      ∀ f, s'.port? f =
        if f = fd then some q else s.port? f)
    (hRole : q.conn.ownerId = m → q.conn.role ≠ .trader) :
    NoTrader m s' := by
  intro f d hd hIs
  have hPortD := port?_of_conn hd
  rw [hPort] at hPortD
  split at hPortD
  · injection hPortD with hEq
    rw [hEq] at hRole
    exact hRole hIs
  · exact hNo f d (conn_of_port? hPortD) hIs

/- An operation on the port of `m` alone. -/
theorem apart_of_port
    {q : Port}
    (hNo : NoTrader m s)
    (hConn : s.conns[fd]? = some c)
    (hOwner : c.ownerId = m)
    (hPort :
      ∀ f, s'.port? f =
        if f = fd then some q else s.port? f)
    (hSame : q.conn.ownerId = c.ownerId)
    (hRole : q.conn.role ≠ .trader)
    (hReg' : Registry s')
    (hBooks : SameBooks s s') :
    Apart m s s' where
  books := hBooks
  registry := hReg'
  noTrader := hNo.of_port hPort (fun _ => hRole)
  ports := by
    intro f
    rw [hPort]
    split
    · next hEq =>
        subst hEq
        rw [otherThan_of_eq (hSame.trans hOwner),
          port?_of_conn hConn, otherThan_of_eq hOwner]
    · rfl

/- Output on the connection of `m`, be it dead or not. -/
theorem apart_output
    {F : Port → Port}
    (hF : Port.Output F)
    (hNo : NoTrader m s)
    (hConn : s.conns[fd]? = some c)
    (hOwner : c.ownerId = m)
    (hPort :
      ∀ f, s'.port? f =
        if f = fd then (s.port? fd).map (·.whenLive F)
        else s.port? f)
    (hReg' : Registry s')
    (hBooks : SameBooks s s') :
    Apart m s s' := by
  have hSame :=
    Port.whenLive_same hF
      { conn := c
        sends := s.env.sends fd
        log := logOf c.ownerId s.log }
  refine apart_of_port hNo hConn hOwner ?_
    hSame.ownerId ?_ hReg' hBooks
  · intro f
    rw [hPort, port?_of_conn hConn, Option.map_some]
  · rw [hSame.role]
    exact hNo fd c hConn hOwner

/- Writing the record of `m`, with entries about it. -/
theorem apart_rewrite
    {c' : Conn}
    {es : List Obs}
    (hReg : Registry s)
    (hNo : NoTrader m s)
    (hConn : s.conns[fd]? = some c)
    (hOwner : c.ownerId = m)
    (hWrites : Writes s s' fd c' es)
    (hSame : c'.ownerId = c.ownerId)
    (hRole : c'.role ≠ .trader)
    (hAbout : ∀ e ∈ es, e.owner? = some c.ownerId)
    (hBooks : SameBooks s s') :
    Apart m s s' :=
  apart_of_port hNo hConn hOwner
    (port?_rewrite c' (s.env.sends fd) es hReg hConn
      hWrites.conns hSame hWrites.log hAbout
      (by simp [hWrites.sends]))
    hSame hRole hWrites.registry hBooks

section Spectator

variable (hReg : Registry s)
variable (hNo : NoTrader m s)
variable (hConn : s.conns[fd]? = some c)
variable (hOwner : c.ownerId = m)
include hReg hNo hConn hOwner

/- The output functions are such operations. -/
theorem apart_queueOut (msg : Msg) :
    Apart m s (s.queueOut fd msg) :=
  apart_output (Port.output_queue msg) hNo hConn
    hOwner (port?_queueOut hReg msg)
    (hReg.queueOut fd msg) (queueOut_sameBooks msg)

theorem apart_tryFlush :
    Apart m s (s.tryFlush fd) :=
  apart_output Port.output_flush hNo hConn hOwner
    (port?_tryFlush hReg) (hReg.tryFlush fd)
    tryFlush_sameBooks

theorem apart_closeConn (why : CloseCause) :
    Apart m s (s.closeConn fd why) :=
  apart_output (Port.output_close why) hNo hConn
    hOwner (port?_closeConn hReg why)
    (hReg.closeConn fd why) (closeConn_sameBooks why)

/- The closing mark of `m`. -/
theorem apart_setClosing :
    Apart m s (s.setClosing fd) :=
  apart_rewrite hReg hNo hConn hOwner
    (setClosing_writes hReg hConn) rfl
    (hNo fd c hConn hOwner) (by simp [Obs.owner?])
    setClosing_sameBooks

/- The input buffer of `m`. -/
theorem apart_input (input : LineBuffer) :
    Apart m s (s.setConn fd { c with input := input }) :=
  apart_rewrite hReg hNo hConn hOwner
    (input_writes hReg hConn input) rfl
    (hNo fd c hConn hOwner) (by simp) ⟨rfl, rfl, rfl⟩

/- Orders and cancels of no trader are refused. -/
theorem cmdOrder_apart
    (tk : List Bytes)
    (side : Side) :
    Apart m s (s.cmdOrder fd tk side) := by
  have hReply := apart_queueOut hReg hNo hConn hOwner
  have hRole := hNo fd c hConn hOwner
  unfold cmdOrder
  rw [hConn]
  dsimp only
  split
  · exact hReply _
  · next hNotMarket =>
      rw [if_pos (Role.eq_unknown hNotMarket hRole)]
      exact hReply _

/- A CANCEL is refused like an order: `m` is no trader. -/
theorem cmdCancel_apart (tk : List Bytes) :
    Apart m s (s.cmdCancel fd tk) := by
  have hReply := apart_queueOut hReg hNo hConn hOwner
  have hRole := hNo fd c hConn hOwner
  unfold cmdCancel
  rw [hConn]
  dsimp only
  split
  · exact hReply _
  · next hNotMarket =>
      rw [if_pos (Role.eq_unknown hNotMarket hRole)]
      exact hReply _

/- A subscription only makes `m` a market-data client. -/
theorem cmdSubscribe_apart
    (hLive : c.dead = false)
    (tk : List Bytes)
    (on : Bool) :
    Apart m s (s.cmdSubscribe fd tk on) := by
  have hReply := apart_queueOut hReg hNo hConn hOwner
  have hRole := hNo fd c hConn hOwner
  unfold cmdSubscribe
  rw [hConn]
  dsimp only
  rw [if_neg hRole]
  split
  · split
    · exact hReply _
    · next inst _ =>
        have hGrant :
            Apart m s (s.grantSubscribe fd c inst on) :=
          apart_rewrite hReg hNo hConn hOwner
            (subscribe_writes hReg hConn hLive hRole inst
              on) rfl (fun h => by cases h)
            (by simp [Obs.owner?]) ⟨rfl, rfl, rfl⟩
        exact hGrant.trans
          (apart_queueOut hGrant.registry hGrant.noTrader
            (getElem?_setConn_self _ _ _) hOwner _)
  · exact hReply _

/- A QUIT marks and flushes the connection of `m`. -/
theorem cmdQuit_apart :
    Apart m s (s.cmdQuit fd) := by
  have hClosing := apart_setClosing hReg hNo hConn hOwner
  have hServes : Serves Guard.none s (s.setClosing fd) :=
    setClosing_serves
  rcases hServes.keeps hConn with ⟨d, hd, hSame, _⟩
  exact hClosing.trans
    (apart_tryFlush hClosing.registry hClosing.noTrader hd
      (hSame.trans hOwner))

/- A LOGIN that is not in the history was refused. -/
theorem cmdLogin_apart
    {tk : List Bytes}
    (hLive : c.dead = false)
    (hNoLogin :
      ∀ name, Obs.login m name ∉ (s.cmdLogin fd tk).log) :
    Apart m s (s.cmdLogin fd tk) := by
  have hReply := apart_queueOut hReg hNo hConn hOwner
  have hRole := hNo fd c hConn hOwner
  unfold cmdLogin at hNoLogin ⊢
  rw [hConn] at hNoLogin ⊢
  dsimp only at hNoLogin ⊢
  split
  · next name =>
      dsimp only at hNoLogin
      by_cases hMarket : c.role = .marketData
      · rw [if_pos hMarket]
        exact hReply _
      rw [if_neg hMarket, if_neg hRole] at hNoLogin ⊢
      by_cases hTaken : name ∈ s.usernames
      · rw [if_pos hTaken]
        exact hReply _
      rw [if_neg hTaken] at hNoLogin
      have hReady :
          Ready Guard.none (s.grantLogin fd c name) fd
            { c with
              role := .trader
              username := name } :=
        ⟨by simp [grantLogin], hLive, False.elim⟩
      have hMore :=
        hReady.reply (m := .ok) rfl trivial trivial
      refine absurd (hMore.serves.log_grows.subset ?_)
        (hNoLogin name)
      rw [← hOwner]
      exact List.mem_append_right _
        (List.mem_singleton.mpr rfl)
  · exact hReply _

/-
  A command of a connection that is no trader and does not
  become one touches this connection only.
-/
theorem dispatch_apart
    {tk : List Bytes}
    (hLive : c.dead = false)
    (hNoLogin :
      ∀ name, Obs.login m name ∉ (s.dispatch fd tk).log) :
    Apart m s (s.dispatch fd tk) := by
  unfold dispatch at hNoLogin ⊢
  cases tk with
  | nil => exact Apart.refl hReg hNo
  | cons v fields =>
      dsimp only at hNoLogin ⊢
      split
      · next hVerb =>
          rw [if_pos hVerb] at hNoLogin
          exact cmdLogin_apart hReg hNo hConn hOwner hLive
            hNoLogin
      split
      · exact cmdOrder_apart hReg hNo hConn hOwner _ _
      split
      · exact cmdOrder_apart hReg hNo hConn hOwner _ _
      split
      · exact cmdCancel_apart hReg hNo hConn hOwner _
      split
      · exact cmdSubscribe_apart hReg hNo hConn hOwner hLive
          _ _
      split
      · exact cmdSubscribe_apart hReg hNo hConn hOwner hLive
          _ _
      split
      · exact cmdQuit_apart hReg hNo hConn hOwner
      · exact apart_queueOut hReg hNo hConn hOwner _

/- An entry about `m`. -/
theorem apart_note
    (e : Obs)
    (hAbout : e.owner? = some c.ownerId) :
    Apart m s (s.note e) :=
  apart_rewrite hReg hNo hConn hOwner
    (note_writes hReg hConn e) rfl (hNo fd c hConn hOwner)
    (List.forall_mem_singleton.mpr hAbout) ⟨rfl, rfl, rfl⟩

/- The line is noted, and then it is dispatched. -/
theorem handleLine_apart
    {line : Bytes}
    (hLive : c.dead = false)
    (hNoLogin :
      ∀ name, Obs.login m name ∉
        (s.handleLine fd line).log) :
    Apart m s (s.handleLine fd line) := by
  unfold handleLine at hNoLogin ⊢
  rw [hConn] at hNoLogin ⊢
  dsimp only at hNoLogin ⊢
  have hNote :=
    apart_note hReg hNo hConn hOwner
      (.line c.ownerId line) rfl
  exact hNote.trans
    (dispatch_apart hNote.registry hNote.noTrader hConn
      hOwner hLive hNoLogin)

end Spectator

/-
  All the lines of the buffer, by induction on the turns.
  What a LOGIN would have noted stays in the history, so
  none of the lines logged in.
-/
theorem drainLines_apart
    (fuel : Nat)
    (hReg : Registry s)
    (hNo : NoTrader m s)
    (hConn : s.conns[fd]? = some c)
    (hLive : c.dead = false)
    (hOwner : c.ownerId = m)
    (hNoLogin :
      ∀ name, Obs.login m name ∉
        (drainLines fd fuel s).1.log) :
    Apart m s (drainLines fd fuel s).1 := by
  induction fuel generalizing s c with
  | zero => exact Apart.refl hReg hNo
  | succ fuel ih =>
      unfold drainLines at hNoLogin ⊢
      rw [hConn] at hNoLogin ⊢
      dsimp only at hNoLogin ⊢
      have hReady : Ready Guard.none s fd c :=
        ⟨hConn, hLive, False.elim⟩
      cases hLine : c.input.nextLine with
      | needMore => exact Apart.refl hReg hNo
      | tooLong =>
          have hNote :=
            apart_note hReg hNo hConn hOwner
              (.overlong c.ownerId) rfl
          have hReply :=
            hNote.trans
              (apart_queueOut hNote.registry hNote.noTrader
                hConn hOwner (.error "line too long"))
          rcases hReady.tooLongReply.serves.keeps hConn
            with ⟨d, hd, hSame, _⟩
          exact hReply.trans
            (cmdQuit_apart hReply.registry hReply.noTrader
              hd (hSame.trans hOwner))
      | ok line rest =>
          have hTook := takeLine hReg hReady line rest
          have hInput :=
            apart_input hReg hNo hConn hOwner rest
          simp only [hLine] at hNoLogin ⊢
          -- The line did not log in, nor does what follows.
          have hNoLoginNow :
              ∀ name, Obs.login m name ∉
                ((s.setConn fd
                  { c with input := rest }).handleLine fd
                    line).log := by
            intro name hMem
            apply hNoLogin name
            split
            · exact hMem
            · next hNot =>
                rcases live_of_not_isDone hNot with
                  ⟨d, hd, hAlive, _⟩
                have hMore :=
                  drainLines_log fuel hTook.registry hd
                    hAlive
                exact hMore.subset hMem
          have hHandled :=
            hInput.trans
              (handleLine_apart hInput.registry
                hInput.noTrader (getElem?_setConn_self _ _ _)
                hOwner hLive hNoLoginNow)
          split
          · exact hHandled
          · next hNot =>
              rw [if_neg hNot] at hNoLogin
              rcases hTook.goes_on hNot with
                ⟨d, hd, hAlive, _, hSame, _⟩
              exact hHandled.trans
                (ih hHandled.registry hHandled.noTrader hd
                  hAlive (hSame.trans hOwner) hNoLogin)

/-
  All the answers of `recv`, by induction on them. Either
  the connection goes on with the next, or it returned.
-/
theorem recvLoop_apart
    {eof : Bool}
    (recvs : List RecvResult)
    (hReg : Registry s)
    (hNo : NoTrader m s)
    (hConn : s.conns[fd]? = some c)
    (hLive : c.dead = false)
    (hOwner : c.ownerId = m)
    (hNoLogin :
      ∀ name, Obs.login m name ∉
        (recvLoop fd eof recvs s).log) :
    Apart m s (recvLoop fd eof recvs s) := by
  have hClose :
      ∀ why, Apart m s (s.closeConn fd why) :=
    apart_closeConn hReg hNo hConn hOwner
  induction recvs generalizing s c with
  | nil =>
      unfold recvLoop
      split
      · exact hClose .eof
      · exact Apart.refl hReg hNo
  | cons r rs ih =>
      cases r with
      | data chunk =>
          have hData :=
            recvLoop_data_log eof chunk rs hReg hConn hLive
          have hGrow :=
            apart_input hReg hNo hConn hOwner
              (c.input.append chunk.bytes)
          have hNow :=
            getElem?_setConn_self s fd
              { c with
                input := c.input.append chunk.bytes }
          have hReceived :
              Apart m s (s.receive fd chunk.bytes).1 := by
            rw [receive_eq hConn]
            refine hGrow.trans
              (drainLines_apart _ hGrow.registry
                hGrow.noTrader hNow hLive hOwner ?_)
            intro name hMem
            rw [← receive_eq hConn] at hMem
            exact hNoLogin name (hData.subset hMem)
          rw [recvLoop_data] at hNoLogin ⊢
          split
          · exact hReceived
          · next hNot =>
              have hFlag := Bool.eq_false_of_not_eq_true hNot
              rw [if_neg hNot] at hNoLogin
              rcases receive_keeps hReg hConn hLive
                  hFlag with ⟨d, hd, hAlive, hSame⟩
              have hIs := hSame.trans hOwner
              exact hReceived.trans
                (ih hReceived.registry hReceived.noTrader hd
                  hAlive hIs hNoLogin
                  (apart_closeConn hReceived.registry
                    hReceived.noTrader hd hIs))
      | fin => exact hClose .fin
      | eintr =>
          exact ih hReg hNo hConn hLive hOwner hNoLogin
            hClose
      | eagain =>
          unfold recvLoop
          split
          · exact hClose .eof
          · exact Apart.refl hReg hNo
      | reset => exact hClose .recvError
      | error => exact hClose .recvError

/- An event that the others do not see. -/
theorem event_apart
    {ev : KEvent}
    {a : Answers}
    (hReg : Registry s)
    (hNo : NoTrader m s)
    (hUnseen : view m s (.event ev a) = none)
    (hNoLogin :
      ∀ name, Obs.login m name ∉
        (step s (.event ev a)).log) :
    Apart m (s.withAnswers a) (step s (.event ev a)) := by
  have hReg' := hReg.withAnswers a
  have hNo' : NoTrader m (s.withAnswers a) := hNo
  unfold view at hUnseen
  dsimp only at hUnseen
  by_cases hListen : ev.ident = s.lfd
  · rw [if_pos hListen] at hUnseen
    cases hUnseen
  · rw [if_neg hListen] at hUnseen
    split at hUnseen
    · cases hUnseen
    · next hNotOther =>
        have hOwner :
            ∀ c, s.conns[ev.ident]? = some c →
              c.ownerId = m := by
          intro c hConn
          by_contra hNe
          exact hNotOther
            (isOther_eq_true_iff.mpr ⟨c, hConn, hNe⟩)
        have hListen' :
            ¬ ev.ident = (s.withAnswers a).lfd := hListen
        unfold step onEvent at hNoLogin ⊢
        dsimp only at hNoLogin ⊢
        rw [if_neg hListen'] at hNoLogin ⊢
        cases hFilter : ev.filter with
        | read =>
            simp only [hFilter] at hNoLogin ⊢
            unfold onReadable at hNoLogin ⊢
            cases hFind :
                (s.withAnswers a).findLive ev.ident with
            | none => exact Apart.refl hReg' hNo'
            | some c =>
                rcases findLive_eq_some_iff.mp hFind with
                  ⟨hConn, hLive⟩
                simp only [hFind] at hNoLogin
                exact recvLoop_apart a.recvs hReg' hNo'
                  hConn hLive (hOwner c hConn) hNoLogin
        | write =>
            dsimp only
            unfold onWritable
            cases hFind :
                (s.withAnswers a).findLive ev.ident with
            | none => exact Apart.refl hReg' hNo'
            | some c =>
                rcases findLive_eq_some_iff.mp hFind with
                  ⟨hConn, _⟩
                exact apart_tryFlush hReg' hNo' hConn
                  (hOwner c hConn)

/- Reaping makes no trader. -/
theorem NoTrader.reap
    (hNo : NoTrader m s) :
    NoTrader m s.reap := by
  intro f d hd hIs
  exact hNo f d (conn_of_reap s hd) hIs

/- A reaping that the others do not see. -/
theorem reap_apart
    (hReg : Registry s)
    (hNo : NoTrader m s)
    (hUnseen : view m s .reap = none) :
    Apart m s s.reap where
  books := ⟨reap_lfd s, reap_nextOwner s, reap_exch s⟩
  registry := hReg.reap
  noTrader := hNo.reap
  ports := by
    intro f
    rw [port?_reap]
    split
    · next hDead =>
        -- The only connection that may be dead is `m`.
        rcases (hReg.dead_iff f).mp hDead with ⟨d, hd, _⟩
        have hIs : d.ownerId = m := by
          by_contra hNe
          have hAny : s.dead.any (s.isOther m) = true :=
            List.any_eq_true.mpr ⟨f, hDead,
              isOther_eq_true_iff.mpr ⟨d, hd, hNe⟩⟩
          unfold view at hUnseen
          dsimp only at hUnseen
          rw [if_pos hAny] at hUnseen
          cases hUnseen
        rw [port?_of_conn hd, otherThan_of_eq hIs]
        rfl
    · rfl

end Server

end SocketExchange

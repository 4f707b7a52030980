import SocketExchange.Server.Stream
import SocketExchange.Server.Turns
import SocketExchange.Service.Refinement

/-
  The server does what the service says.

  Every command of the handlers is an input of the service,
  and every turn of the server is an input at most, followed
  by the ends of the connections that the turn ended. So
  between two turns of any run, the server stands where the
  service stands after the inputs of its history: sockets
  that block, buffers that fill up and the order in which
  connections are walked change nothing but how much a
  connection that ends gets to see.

  Main declarations:
    * `Server.Serviced`, `Server.Advances`
    * `Server.dispatch_serviced`
    * `Server.Tracks.turn`
    * `Server.Settled.tracks`
    * `Server.server_refines_service`
-/

------------------------------------------------------------
-- Serviced Handling
------------------------------------------------------------

namespace SocketExchange

namespace Server

/-
  After some handling the server stands where the service
  stands after an input, and after those leave that the
  handling ended.
-/
def Serviced (s s' : Server) (v' : Service) : Prop :=
  ∃ es, s'.log = s.log ++ es ∧
    inputsOf es = (closedIn es).map .leave ∧
    Tracks s' (v'.after ((closedIn es).map .leave))

variable {s s' t : Server} {v v' : Service}
variable {fd : Fd} {c c' : Conn} {es : List Obs}

/- Some handling in front that is no input. -/
theorem Serviced.behind
    (hServiced : Serviced t s' v')
    (hLog : t.log = s.log ++ es)
    (hInputs : inputsOf es = [])
    (hClosed : closedIn es = []) :
    Serviced s s' v' := by
  rcases hServiced with ⟨fs, hRest, hIn, hRef⟩
  refine ⟨es ++ fs, ?_, ?_, ?_⟩
  · rw [hRest, hLog, List.append_assoc]
  · rw [inputsOf_append, closedIn_append, hInputs, hClosed,
      List.nil_append, List.nil_append, hIn]
  · rw [closedIn_append, hClosed, List.nil_append]
    exact hRef

/- Output that brings letters. -/
theorem Tracks.serviced
    {kind : Msg → Prop}
    {letters : Fd → Conn → List Msg}
    {mail : Party → List Msg}
    (hReg : Registry s)
    (hRef : Tracks s v)
    (hOut : Outputs kind s es s')
    (hPosted : Posted letters s es s')
    (hLetters :
      ∀ (f : Fd) (d : Conn) (p : Party),
        s.conns[f]? = some d → Mirrors d p →
          letters f d = mail p) :
    Serviced s s' (v.post mail) :=
  ⟨es, hOut.log, inputsOf_of_outgoing hOut.outgoing,
    hRef.posted hReg hOut hPosted hLetters⟩

/- One message to one connection, as one letter. -/
theorem only_eq_answer
    (hReg : Registry s)
    (hConn : s.conns[fd]? = some c)
    (m : Msg) :
    ∀ (f : Fd) (d : Conn) (p : Party),
      s.conns[f]? = some d → Mirrors d p →
        only fd m f d =
          if p.id = c.ownerId then [m] else [] := by
  intro f d p hd hP
  have hSame : f = fd ↔ p.id = c.ownerId := by
    rw [hP.id]
    constructor
    · rintro rfl
      rw [hConn] at hd
      injection hd with hd
      rw [hd]
    · exact hReg.owner_unique f fd d c hd hConn
  unfold only
  simp only [hSame]

theorem reply_serviced
    {m : Msg}
    (hReg : Registry s)
    (hRef : Tracks s v)
    (hConn : s.conns[fd]? = some c) :
    Serviced s (s.queueOut fd m)
      (v.answer c.ownerId m) := by
  have hQueued :
      ∃ es,
        Outputs (fun _ => True) s es (s.queueOut fd m) :=
    queueOut_outputs trivial
  rcases hQueued with ⟨es, hOut⟩
  exact hRef.serviced hReg hOut
    (queueOut_posted hReg m hOut.log)
    (only_eq_answer hReg hConn m)

/- A flush, which is no input. -/
theorem flush_serviced
    (hReg : Registry s)
    (hRef : Tracks s v) :
    Serviced s (s.tryFlush fd) v := by
  have hFlushed :
      ∃ es,
        Outputs (fun _ => False) s es (s.tryFlush fd) :=
    tryFlush_outputs
  rcases hFlushed with ⟨es, hOut⟩
  have hServiced :
      Serviced s (s.tryFlush fd) (v.post fun _ => []) :=
    hRef.serviced hReg hOut
      (tryFlush_posted hReg hOut.log) (fun _ _ _ _ _ => rfl)
  rwa [Service.post_none] at hServiced

theorem close_serviced
    (hReg : Registry s)
    (hRef : Tracks s v)
    (why : CloseCause) :
    Serviced s (s.closeConn fd why) v := by
  have hClosed :
      ∃ es,
        Outputs (fun _ => False) s es (s.closeConn fd why) :=
    closeConn_outputs why
  rcases hClosed with ⟨es, hOut⟩
  have hServiced :
      Serviced s (s.closeConn fd why)
        (v.post fun _ => []) :=
    hRef.serviced hReg hOut
      (closeConn_posted hReg why hOut.log)
      (fun _ _ _ _ _ => rfl)
  rwa [Service.post_none] at hServiced

theorem setClosing_eq
    (hConn : s.conns[fd]? = some c) :
    s.setClosing fd =
      (s.setConn fd { c with closing := true }).note
        (.closing c.ownerId) := by
  unfold setClosing
  rw [hConn]

theorem setClosing_registry
    (hReg : Registry s)
    (hConn : s.conns[fd]? = some c) :
    Registry (s.setClosing fd) := by
  rw [setClosing_eq hConn]
  exact hReg.serve (G := Guard.none) (.closing hConn)

/- Marking a connection is what its party says by QUIT. -/
theorem Tracks.closing
    (hReg : Registry s)
    (hRef : Tracks s v)
    (hConn : s.conns[fd]? = some c) :
    Tracks (s.setClosing fd)
      (v.amend c.ownerId Party.parting) := by
  rw [setClosing_eq hConn]
  refine hRef.rewrite hReg hConn rfl rfl rfl rfl
    (List.forall_mem_singleton.mpr trivial) (fun _ => rfl)
    (fun _ => ⟨rfl, rfl, rfl⟩) ?_
  intro p hP
  exact { hP with leaving := rfl }

end Server

end SocketExchange

------------------------------------------------------------
-- Commands
------------------------------------------------------------

namespace SocketExchange

namespace Server

/-
  The server stands where the service stands, and this is a
  live connection of it.
-/
structure Facing
    (s : Server)
    (v : Service)
    (fd : Fd)
    (c : Conn) : Prop where
  registry : Registry s
  history : History s
  tracks : Tracks s v
  conn : s.conns[fd]? = some c
  live : c.dead = false

variable {s : Server} {v : Service} {fd : Fd} {c : Conn}

/- A reply is all that happens. -/
theorem Facing.reply
    {m : Msg}
    (hFacing : Facing s v fd c) :
    Serviced s (s.queueOut fd m) (v.answer c.ownerId m) :=
  reply_serviced hFacing.registry hFacing.tracks
    hFacing.conn

/- A refusal is all that happens. -/
theorem Facing.error
    (hFacing : Facing s v fd c)
    (reason : String) :
    Serviced s (s.queueOut fd (.error reason))
      (v.answer c.ownerId (.error reason)) :=
  hFacing.reply

/- A party that logs in, and the reply. -/
theorem Facing.login
    {name : Bytes}
    (hFacing : Facing s v fd c)
    (hRole : c.role = .unknown)
    (hName : name ≠ [])
    (hFree : name ∉ s.usernames) :
    Serviced s ((s.grantLogin fd c name).queueOut fd .ok)
      (v.grant c.ownerId (.login name)) := by
  have hReg : Registry (s.grantLogin fd c name) :=
    hFacing.registry.login hFacing.conn hFacing.live hRole
      hName hFree
  have hRef :
      Tracks (s.grantLogin fd c name)
        (v.amend c.ownerId (Party.enrolled name)) := by
    refine hFacing.tracks.rewrite hFacing.registry
      hFacing.conn rfl rfl rfl rfl
      (List.forall_mem_singleton.mpr trivial)
      (fun _ => rfl) (fun _ => ⟨rfl, rfl, rfl⟩) ?_
    intro p hP
    exact { hP with role := rfl, name := rfl }
  have hConn :
      (s.grantLogin fd c name).conns[fd]? =
        some { c with role := .trader, username := name } :=
    by simp [grantLogin]
  have hReply := reply_serviced (m := .ok) hReg hRef hConn
  exact hReply.behind rfl rfl rfl

theorem Facing.subscribe
    (hFacing : Facing s v fd c)
    (hRole : c.role ≠ .trader)
    (inst : Fin 2)
    (on : Bool) :
    Serviced s
      ((s.grantSubscribe fd c inst on).queueOut fd .ok)
      (v.grant c.ownerId (.subscribe inst on)) := by
  have hOpen : Guard.none.Open c := False.elim
  have hServe :
      Serve Guard.none s (s.grantSubscribe fd c inst on) :=
    .subscribe hFacing.conn hFacing.live hRole hOpen inst on
  have hRef :
      Tracks (s.grantSubscribe fd c inst on)
        (v.amend c.ownerId (Party.listening inst on)) := by
    refine hFacing.tracks.rewrite hFacing.registry
      hFacing.conn rfl rfl rfl rfl
      (List.forall_mem_singleton.mpr trivial)
      (fun _ => rfl) (fun _ => ⟨rfl, rfl, rfl⟩) ?_
    intro p hP
    refine { hP with role := rfl, subs := ?_ }
    simp [Party.listening, hP.subs]
  have hReg := hFacing.registry.serve hServe
  have hNow :
      (s.grantSubscribe fd c inst on).conns[fd]? = _ :=
    getElem?_setConn_self _ _ _
  have hReply := reply_serviced (m := .ok) hReg hRef hNow
  exact hReply.behind rfl rfl rfl

/- An order, the letters about it, and who ends of them. -/
theorem Facing.order
    (hFacing : Facing s v fd c)
    (side : Side)
    (inst : Fin 2)
    (qty price : UInt32)
    (hRoom :
      submits
          (callsOf
            (s.acceptOrder fd c side inst qty price).log) <
        2 ^ 32) :
    Serviced s (s.acceptOrder fd c side inst qty price)
      (v.grant c.ownerId (.order side inst qty price)) := by
  rcases hReply :
      (s.exch.submit side inst qty price c.ownerId []).2
    with ⟨id, trades⟩
  rcases acceptOrder_posted fd hFacing.registry hReply
    with ⟨es, hOut, hPosted⟩
  have hCalls :
      callsOf (s.acceptOrder fd c side inst qty price).log =
        callsOf s.log ++
          [.submit side inst qty price c.ownerId] := by
    rw [hOut.log, callsOf_append,
      callsOf_of_ordinary
        (ordinary_of_outgoing hOut.outgoing)]
    simp [callExchange, callsOf]
  rw [hCalls] at hRoom
  have hAlike :=
    hFacing.tracks.reply_eq hFacing.history hRoom
  have hBoth :
      (v.book.submit side inst qty price c.ownerId []).2 =
        (id, trades) := by
    simp only [Exchange.step, Reference.step,
      Reply.submitted.injEq] at hAlike
    rw [← hReply]
    exact Prod.ext hAlike.1.symm hAlike.2.symm
  have hRef := hFacing.tracks.called c.ownerId hAlike
  have hLetters :
      ∀ (f : Fd) (d : Conn) (p : Party),
        s.conns[f]? = some d → Mirrors d p →
          orderLetters fd id trades f d =
            p.orderLetters c.ownerId id trades := by
    intro f d p hd hP
    have hSame : f = fd ↔ p.id = c.ownerId := by
      rw [hP.id]
      constructor
      · rintro rfl
        have hConn := hFacing.conn
        rw [hd] at hConn
        injection hConn with hConn
        rw [hConn]
      · exact hFacing.registry.owner_unique f fd d c hd
          hFacing.conn
    unfold orderLetters Party.orderLetters
    simp only [hSame]
    congr 2
    exact funext hP.letters
  have hServiced :=
    hRef.serviced (hFacing.registry.callExchange _ _) hOut
      hPosted hLetters
  have hGrant :
      v.grant c.ownerId (.order side inst qty price) =
        Service.post
          { v with
            book :=
              (v.book.step
                (.submit side inst qty price
                  c.ownerId)).1
            tape :=
              v.tape ++
                tradesOf [(v.book.step
                  (.submit side inst qty price
                    c.ownerId)).2] }
          (Party.orderLetters c.ownerId id trades) := by
    simp only [Service.grant, Reference.step, tradesOf,
      hBoth, List.append_nil]
  rw [hGrant]
  exact hServiced.behind rfl rfl rfl

theorem Facing.cancel
    (hFacing : Facing s v fd c)
    (id : UInt32)
    {m : Msg}
    (hReply :
      m = Service.cancelReply id
        (s.exch.cancel id c.ownerId).2)
    (hRoom : submits (callsOf s.log) < 2 ^ 32) :
    Serviced s
      ((s.callExchange c.ownerId
        (.cancel id c.ownerId)).queueOut fd m)
      (v.grant c.ownerId (.cancel id)) := by
  have hRoom' :
      submits
          (callsOf s.log ++ [.cancel id c.ownerId]) <
        2 ^ 32 := by
    rw [submits_append]
    simpa [submits] using hRoom
  have hAlike :=
    hFacing.tracks.reply_eq hFacing.history hRoom'
  have hRef := hFacing.tracks.called c.ownerId hAlike
  have hBoth :
      (s.exch.cancel id c.ownerId).2 =
        (v.book.cancel id c.ownerId).2 := by
    simpa only [Exchange.step, Reference.step,
      Reply.cancelled.injEq] using hAlike
  have hReg :=
    hFacing.registry.callExchange c.ownerId
      (.cancel id c.ownerId)
  have hNow :
      (s.callExchange c.ownerId
        (.cancel id c.ownerId)).conns[fd]? = some c :=
    hFacing.conn
  have hQueue := reply_serviced (m := m) hReg hRef hNow
  have hGrant :
      v.grant c.ownerId (.cancel id) =
        Service.answer
          { v with
            book :=
              (v.book.step (.cancel id c.ownerId)).1
            tape :=
              v.tape ++
                tradesOf [(v.book.step
                  (.cancel id c.ownerId)).2] }
          c.ownerId m := by
    simp only [Service.grant, Reference.step, tradesOf,
      hReply, hBoth, List.append_nil]
  rw [hGrant]
  exact hQueue.behind rfl rfl rfl

theorem cmdLogin_serviced
    {args : List Bytes}
    (hFacing : Facing s v fd c)
    (hFields : ∀ field ∈ args, field ≠ [])
    (verb : Bytes) :
    Serviced s (s.cmdLogin fd (verb :: args))
      (v.respond c.ownerId (v.judgeLogin c.role args)) := by
  unfold cmdLogin
  rw [hFacing.conn]
  dsimp only
  match args with
  | [] => exact hFacing.error "bad arguments"
  | _ :: _ :: _ =>
      exact hFacing.error "bad arguments"
  | [name] =>
      unfold Service.judgeLogin
      cases hRole : c.role with
      | marketData =>
          exact hFacing.error "not permitted for this client type"
      | trader =>
          exact hFacing.error "already logged in"
      | unknown =>
          have hTaken :=
            hFacing.tracks.taken_iff hFacing.registry
              hFacing.history name
          by_cases hIn : name ∈ s.usernames
          · simp only [hIn, hTaken.mpr hIn, if_true]
            exact hFacing.error "duplicate username"
          · have hNot : ¬ v.Taken name :=
              fun h => hIn (hTaken.mp h)
            simp only [hIn, hNot, if_false]
            exact hFacing.login hRole
              (hFields name (List.mem_singleton_self _)) hIn

theorem cmdOrder_serviced
    (hFacing : Facing s v fd c)
    (verb : Bytes)
    (args : List Bytes)
    (side : Side)
    (hRoom :
      submits
          (callsOf
            (s.cmdOrder fd (verb :: args) side).log) <
        2 ^ 32) :
    Serviced s (s.cmdOrder fd (verb :: args) side)
      (v.respond c.ownerId
        (Service.forTraders c.role
          (Service.judgeOrder side args))) := by
  unfold cmdOrder at hRoom ⊢
  rw [hFacing.conn] at hRoom ⊢
  dsimp only at hRoom ⊢
  unfold Service.forTraders
  cases hRole : c.role with
  | marketData =>
      exact hFacing.error "not permitted for this client type"
  | unknown =>
      exact hFacing.error "not logged in"
  | trader =>
      simp only [hRole, reduceCtorEq, if_false] at hRoom ⊢
      match args with
      | [] => exact hFacing.error "bad arguments"
      | [_] =>
          exact hFacing.error "bad arguments"
      | [_, _] =>
          exact hFacing.error "bad arguments"
      | _ :: _ :: _ :: _ :: _ =>
          exact hFacing.error "bad arguments"
      | [name, quantity, level] =>
          unfold Service.judgeOrder
          dsimp only at hRoom ⊢
          cases hInst : instrumentIndex name with
          | none =>
              exact hFacing.error "unknown instrument"
          | some inst =>
              simp only [hInst] at hRoom
              cases hQty :
                  parseU32 quantity kMinValue kMaxValue with
              | none =>
                  exact hFacing.error "bad quantity"
              | some qty =>
                  simp only [hQty] at hRoom
                  cases hPrice :
                      parseU32 level kMinValue
                        kMaxValue with
                  | none =>
                      exact hFacing.error "bad price"
                  | some price =>
                      simp only [hPrice] at hRoom
                      exact hFacing.order side inst qty
                        price hRoom

theorem cmdCancel_serviced
    (hFacing : Facing s v fd c)
    (verb : Bytes)
    (args : List Bytes)
    (hRoom : submits (callsOf s.log) < 2 ^ 32) :
    Serviced s (s.cmdCancel fd (verb :: args))
      (v.respond c.ownerId
        (Service.forTraders c.role
          (Service.judgeCancel args))) := by
  unfold cmdCancel
  rw [hFacing.conn]
  dsimp only
  unfold Service.forTraders
  cases hRole : c.role with
  | marketData =>
      exact hFacing.error "not permitted for this client type"
  | unknown =>
      exact hFacing.error "not logged in"
  | trader =>
      simp only [reduceCtorEq, if_false]
      match args with
      | [] => exact hFacing.error "bad arguments"
      | _ :: _ :: _ =>
          exact hFacing.error "bad arguments"
      | [text] =>
          unfold Service.judgeCancel
          dsimp only
          cases parseU32 text 0 kMaxOrderId with
          | none =>
              exact hFacing.error "bad order id"
          | some id =>
              dsimp only
              cases hReply :
                  (s.exch.cancel id c.ownerId).2 with
              | ok done =>
                  exact hFacing.cancel id
                    (by rw [hReply]; rfl) hRoom
              | error reason =>
                  exact hFacing.cancel id
                    (by rw [hReply]; rfl) hRoom

theorem cmdSubscribe_serviced
    (hFacing : Facing s v fd c)
    (verb : Bytes)
    (args : List Bytes)
    (on : Bool) :
    Serviced s (s.cmdSubscribe fd (verb :: args) on)
      (v.respond c.ownerId
        (Service.judgeSubscribe c.role on args)) := by
  unfold cmdSubscribe
  rw [hFacing.conn]
  dsimp only
  unfold Service.judgeSubscribe
  by_cases hRole : c.role = .trader
  · simp only [hRole, if_true]
    exact hFacing.error "not permitted for this client type"
  · simp only [hRole, if_false]
    cases args with
    | nil => exact hFacing.error "bad arguments"
    | cons name more =>
        cases more with
        | cons _ _ =>
            exact hFacing.error "bad arguments"
        | nil =>
            dsimp only
            cases instrumentIndex name with
            | none =>
                exact hFacing.error "unknown instrument"
            | some inst =>
                exact hFacing.subscribe hRole inst on

theorem cmdQuit_serviced
    (hFacing : Facing s v fd c) :
    Serviced s (s.cmdQuit fd)
      (v.grant c.ownerId .quit) := by
  have hClosing :=
    hFacing.tracks.closing hFacing.registry hFacing.conn
  have hFlush :
      Serviced (s.setClosing fd)
        ((s.setClosing fd).tryFlush fd) _ :=
    flush_serviced
      (setClosing_registry hFacing.registry hFacing.conn)
      hClosing
  have hLog :
      (s.setClosing fd).log =
        s.log ++ [.closing c.ownerId] := by
    rw [setClosing_eq hFacing.conn]
    rfl
  exact hFlush.behind hLog rfl rfl

/- Every line is answered as the service answers it. -/
theorem dispatch_serviced
    {tk : List Bytes}
    (hFacing : Facing s v fd c)
    (hFields : ∀ field ∈ tk, field ≠ [])
    (hRoom :
      submits (callsOf (s.dispatch fd tk).log) < 2 ^ 32)
    (hRoom' : submits (callsOf s.log) < 2 ^ 32) :
    Serviced s (s.dispatch fd tk)
      (v.settle c.ownerId c.role tk) := by
  cases tk with
  | nil => exact ⟨[], by simp [dispatch], rfl, hFacing.tracks⟩
  | cons verb args =>
      have hArgs : ∀ field ∈ args, field ≠ [] :=
        fun field h =>
          hFields field (List.mem_cons_of_mem _ h)
      unfold Service.settle Service.judge
      unfold dispatch at hRoom ⊢
      dsimp only at hRoom ⊢
      split
      · exact cmdLogin_serviced hFacing hArgs verb
      · next hLogin =>
          rw [if_neg hLogin] at hRoom
          split
          · next hBuy =>
              rw [if_pos hBuy] at hRoom
              exact cmdOrder_serviced hFacing verb args .buy
                hRoom
          · next hBuy =>
              rw [if_neg hBuy] at hRoom
              split
              · next hSell =>
                  rw [if_pos hSell] at hRoom
                  exact cmdOrder_serviced hFacing verb args
                    .sell hRoom
              · split
                · exact cmdCancel_serviced hFacing verb args
                    hRoom'
                · split
                  · exact cmdSubscribe_serviced hFacing verb
                      args true
                  · split
                    · exact cmdSubscribe_serviced hFacing
                        verb args false
                    · split
                      · exact cmdQuit_serviced hFacing
                      · exact hFacing.error "unknown command"

end Server

end SocketExchange

------------------------------------------------------------
-- Turns
------------------------------------------------------------

namespace SocketExchange

namespace Server

variable {s s' : Server} {v : Service}
variable {fd : Fd} {c : Conn} {es : List Obs}

/-
  A turn adds to the history one input at most, and after it
  the ends; and the server stands where the service stands
  after them.
-/
def Advances (s s' : Server) (v : Service) : Prop :=
  ∃ (es : List Obs) (front : List Input) (ks : List Int),
    s'.log = s.log ++ es ∧
    inputsOf es = front ++ ks.map .leave ∧
    front.length ≤ 1 ∧
    Tracks s' (v.after (inputsOf es))

/- The history of a state grows to that of the next. -/
theorem submits_calls_le
    (hGrows : s.log <+: s'.log) :
    submits (callsOf s.log) ≤ submits (callsOf s'.log) := by
  rcases hGrows with ⟨es, hLog⟩
  rw [← hLog, callsOf_append, submits_append]
  exact Nat.le_add_right _ _

/- What is no input to the service but for the ends. -/
theorem Serviced.advances
    (hServiced : Serviced s s' v) :
    Advances s s' v := by
  rcases hServiced with ⟨es, hLog, hInputs, hRef⟩
  exact ⟨es, [], closedIn es, hLog, hInputs, Nat.zero_le 1,
    hInputs ▸ hRef⟩

/- What is no input at all. -/
theorem advances_of_none
    (hLog : s'.log = s.log ++ es)
    (hInputs : inputsOf es = [])
    (hRef : Tracks s' v) :
    Advances s s' v := by
  refine ⟨es, [], [], hLog, hInputs, Nat.zero_le 1, ?_⟩
  rw [hInputs]
  exact hRef

theorem line_advances
    (hFacing : Facing s v fd c)
    (line : Bytes)
    (hRoom :
      submits (callsOf (s.handleLine fd line).log) <
        2 ^ 32) :
    Advances s (s.handleLine fd line) v := by
  have hReady : Ready Guard.none s fd c :=
    ⟨hFacing.conn, hFacing.live, False.elim⟩
  have hNoted :
      Facing (s.note (.line c.ownerId line)) v fd c :=
    { registry := hFacing.registry.note _
      history :=
        hFacing.history.serve
          (.line hFacing.conn hFacing.live hReady.mayRun
            line)
      tracks :=
        hFacing.tracks.noted rfl rfl
          (List.forall_mem_singleton.mpr trivial)
          (fun _ => rfl)
      conn := hFacing.conn
      live := hFacing.live }
  have hEq :
      s.handleLine fd line =
        (s.note (.line c.ownerId line)).dispatch fd
          (splitWs line) := by
    unfold handleLine
    rw [hFacing.conn]
  rw [hEq] at hRoom ⊢
  have hLess :=
    submits_calls_le
      (handleLine_serves hFacing.registry hReady
        line).log_grows
  rw [hEq] at hLess
  have hRoom' :
      submits
          (callsOf (s.note (.line c.ownerId line)).log) <
        2 ^ 32 := by
    have hCalls :
        callsOf (s.note (.line c.ownerId line)).log =
          callsOf s.log := by
      simp [note, callsOf]
    rw [hCalls]
    exact hLess.trans_lt hRoom
  rcases dispatch_serviced hNoted
      (fun _ => ne_nil_of_mem_splitWs) hRoom hRoom' with
    ⟨es, hLog, hInputs, hRef⟩
  -- The service says the line, and then some leave.
  have hSay :
      inputsOf (.line c.ownerId line :: es) =
        [.say c.ownerId line] ++
          (closedIn es).map .leave := by
    rw [← hInputs]
    rfl
  refine ⟨.line c.ownerId line :: es, _, _, ?_, hSay,
    Nat.le_refl 1, ?_⟩
  · rw [hLog]
    exact List.append_assoc _ _ _
  · rcases hFacing.tracks.party?_eq hFacing.registry
        hFacing.history hFacing.conn hFacing.live with
      ⟨p, hFind, hP⟩
    have hStep :
        v.step (.say c.ownerId line) =
          v.settle c.ownerId c.role (splitWs line) := by
      simp only [Service.step, hFind, hP.role]
    rw [hSay]
    change Tracks _
      (Service.after (v.step (.say c.ownerId line)) _)
    rw [hStep]
    exact hRef

/- An overlong line is noted, refused, and ends it. -/
theorem overlong_advances
    (hReg : Registry s)
    (hRef : Tracks s v)
    (hConn : s.conns[fd]? = some c)
    (hLive : c.dead = false) :
    Advances s
      (((s.refuseLong fd c).setClosing fd).tryFlush fd)
      v := by
  have hNoted :
      Tracks (s.note (.overlong c.ownerId)) v :=
    hRef.noted rfl rfl
      (List.forall_mem_singleton.mpr trivial)
      (fun _ => rfl)
  have hNotedReg := hReg.note (.overlong c.ownerId)
  have hNow :
      (s.note (.overlong c.ownerId)).conns[fd]? = some c :=
    hConn
  have hReply :=
    reply_serviced (m := .error "line too long") hNotedReg
      hNoted hNow
  rcases hReply with ⟨es, hFirst, hEnds, hQueued⟩
  -- The connection is marked, whether it ended or not.
  have hReg' : Registry (s.refuseLong fd c) :=
    hNotedReg.queueOut fd _
  have hConn' :
      (s.refuseLong fd c).conns[fd]? =
        some ((Port.ofConn (s.note (.overlong c.ownerId))
          c).queue (.error "line too long")).conn := by
    unfold refuseLong
    rw [queueOut_eq_commit hNow hLive, commit_conns,
      getElem?_insert_fd, if_pos rfl]
  have hOwner :
      ((Port.ofConn (s.note (.overlong c.ownerId)) c).queue
        (.error "line too long")).conn.ownerId = c.ownerId :=
    (Port.queue_same _ _).ownerId
  have hMarked := hQueued.closing hReg' hConn'
  rw [hOwner, Service.amend_after_leaves] at hMarked
  have hFlushed :
      Serviced _
        (((s.refuseLong fd c).setClosing fd).tryFlush fd)
        _ :=
    flush_serviced (setClosing_registry hReg' hConn') hMarked
  rcases hFlushed with ⟨fs, hLog, hInputs, hRefLast⟩
  have hSplit :
      inputsOf
          (.overlong c.ownerId :: es ++
            [.closing c.ownerId] ++ fs) =
        [.overlong c.ownerId] ++
          (closedIn es ++ closedIn fs).map .leave := by
    rw [inputsOf_append, inputsOf_append, hInputs,
      List.map_append, ← hEnds]
    simp [inputsOf, Obs.input?]
  refine ⟨.overlong c.ownerId :: es ++
      [.closing c.ownerId] ++ fs,
    [.overlong c.ownerId], closedIn es ++ closedIn fs, ?_,
    hSplit, Nat.le_refl 1, ?_⟩
  · have hMark :
        ((s.refuseLong fd c).setClosing fd).log =
          (s.refuseLong fd c).log ++
            [.closing c.ownerId] := by
      rw [setClosing_eq hConn', hOwner]
      rfl
    have hRefused :
        (s.refuseLong fd c).log =
          s.log ++ .overlong c.ownerId :: es := by
      rw [List.append_cons]
      exact hFirst
    rw [hLog, hMark, hRefused]
    simp only [List.append_assoc]
  · have hInto :
        v.after
            ([.overlong c.ownerId] ++
              (closedIn es ++ closedIn fs).map .leave) =
          (((v.answer c.ownerId
                (.error "line too long")).amend c.ownerId
              Party.parting).after
            ((closedIn es).map .leave)).after
              ((closedIn fs).map .leave) := by
      rw [List.map_append, ← Service.after_append]
      rfl
    rw [hSplit, hInto]
    exact hRefLast

theorem accept_advances
    {cfd : Fd}
    (hReg : Registry s)
    (hHist : History s)
    (hRef : Tracks s v)
    (hFresh : cfd ∉ s.env.opened) :
    Advances s (s.acceptConn cfd) v := by
  have hNone := hReg.none_of_fresh hFresh
  have hConns := acceptConn_conns hNone
  have hNew : s.nextOwner ∉ acceptedOwners s.log := by
    intro hMem
    have hLt := hHist.accepted_lt _ hMem
    omega
  have hPushed :
      ∀ k,
        pushedTo k (s.acceptConn cfd).log =
          pushedTo k s.log := by
    intro k
    simp [acceptConn, pushedTo]
  refine ⟨[.accepted cfd s.nextOwner],
    [.join s.nextOwner], [], rfl, rfl, Nat.le_refl 1, ?_⟩
  change Tracks _
    { v with
      parties := v.parties ++ [Party.fresh s.nextOwner] }
  refine ⟨?_, ?_, ?_, ?_⟩
  · simpa [acceptConn, callsOf] using hRef.book
  · simpa [acceptConn, repliesOf] using hRef.tape
  · simpa [acceptConn, acceptedOwners, Party.fresh]
      using hRef.ids
  · intro p hp
    rcases List.mem_append.mp hp with hOld | hLast
    · cases hRef.stands p hOld with
      | @here f d hHere hd hLive hP hMail =>
          have hNe : f ≠ cfd := by
            rintro rfl
            rw [hNone] at hd
            cases hd
          have hd' :
              (s.acceptConn cfd).conns[f]? = some d := by
            rw [getElem?_of_insert hConns, if_neg hNe, hd]
          exact .here hHere hd' hLive hP
            ((hPushed p.id).trans hMail)
      | gone hGone hNo hMail =>
          refine .gone hGone ?_ ((hPushed p.id).symm ▸ hMail)
          intro f d hd hOwner
          rcases conn_of_insert hConns hd with
            ⟨_, rfl⟩ | ⟨_, hBefore⟩
          · -- The newcomer has an owner id of its own.
            have hMem : p.id ∈ acceptedOwners s.log := by
              rw [← hRef.ids]
              exact List.mem_map_of_mem hOld
            rw [← hOwner] at hMem
            exact absurd hMem hNew
          · exact hNo f d hBefore hOwner
    · rw [List.mem_singleton.mp hLast]
      have hSilent : pushedTo s.nextOwner s.log = [] := by
        refine pushedTo_of_other ?_
        intro e he hOwner
        rcases List.append_of_mem he with
          ⟨pre, post, hSplit⟩
        have hJust := hHist.traced pre e post hSplit
        refine hNew ?_
        rw [hSplit, acceptedOwners_append]
        rcases hJust.accepted hOwner with
          ⟨f, rfl⟩ | hBefore
        · exact List.mem_append_right _
            (by simp [acceptedOwners])
        · exact List.mem_append_left _ hBefore
      have hConn :
          (s.acceptConn cfd).conns[cfd]? =
            some (Conn.fresh cfd s.nextOwner) := by
        rw [getElem?_of_insert hConns, if_pos rfl]
      exact .here rfl hConn rfl ⟨rfl, rfl, rfl, rfl, rfl⟩
        ((hPushed s.nextOwner).trans hSilent)

theorem reap_advances
    (hReg : Registry s)
    (hRef : Tracks s v) :
    Advances s s.reap v := by
  have hConn := hReg.toWaiting.conn_reap_iff
  have hInputs :
      inputsOf (s.dead.map Obs.released) = [] := by
    simp [inputsOf, Obs.input?]
  have hPushed :
      ∀ k, pushedTo k s.reap.log = pushedTo k s.log := by
    intro k
    rw [reap_log, pushedTo_append]
    simp [pushedTo]
  refine advances_of_none (reap_log s) hInputs ?_
  refine hRef.of_map (reap_log s) ?_ rfl rfl
    (List.map_id _).symm (fun _ => rfl) ?_
  · intro e he
    rcases List.mem_map.mp he with ⟨_, _, rfl⟩
    trivial
  · intro p _ hStands
    cases hStands with
    | here hHere hd hLive hP hMail =>
        exact .here hHere ((hConn _ _).mpr ⟨hd, hLive⟩)
          hLive hP ((hPushed p.id).trans hMail)
    | gone hGone hNo hMail =>
        refine .gone hGone ?_ ((hPushed p.id).symm ▸ hMail)
        intro f d hd
        exact hNo f d (conn_of_reap s hd)

/- Rewriting the input buffer is nothing to the service. -/
theorem Tracks.reads
    (hReg : Registry s)
    (hRef : Tracks s v)
    (hConn : s.conns[fd]? = some c)
    (input : LineBuffer) :
    Tracks (s.setConn fd { c with input := input }) v := by
  have hSame :
      Tracks (s.setConn fd { c with input := input })
        (v.amend c.ownerId id) :=
    hRef.rewrite hReg hConn rfl rfl rfl
      (List.append_nil _).symm (List.forall_mem_nil _)
      (fun _ => rfl) (fun _ => ⟨rfl, rfl, rfl⟩)
      (fun _ hP => { hP with })
  have hAmend : v.amend c.ownerId id = v := by
    simp [Service.amend]
  rwa [hAmend] at hSame

/- One turn of the server, and the inputs it stands for. -/
theorem Tracks.turn
    {given : List Reading}
    (hReg : Registry s)
    (hHist : History s)
    (hRef : Tracks s v)
    (hTurn : Turn s given s')
    (hRoom : submits (callsOf s'.log) < 2 ^ 32) :
    Advances s s' v := by
  cases hTurn with
  | read hConn _ bytes =>
      exact advances_of_none (List.append_nil _).symm rfl
        (hRef.reads hReg hConn _)
  | @line fd c line rest hConn hLive hLine =>
      have hAct :
          Act Guard.none s
            (s.setConn fd { c with input := rest }) :=
        .input hConn rest
      have hFacing :
          Facing (s.setConn fd { c with input := rest }) v
            fd { c with input := rest } :=
        { registry := hReg.act hAct
          history := hHist.act hReg hAct
          tracks := hRef.reads hReg hConn rest
          conn := getElem?_setConn_self _ _ _
          live := hLive }
      exact line_advances hFacing line hRoom
  | overlong hConn hLive _ =>
      exact overlong_advances hReg hRef hConn hLive
  | flush _ _ => exact (flush_serviced hReg hRef).advances
  | close _ _ why _ =>
      exact (close_serviced hReg hRef why).advances
  | accept hFresh _ =>
      exact accept_advances hReg hHist hRef hFresh
  | reap => exact reap_advances hReg hRef
  | answers a =>
      refine advances_of_none (List.append_nil _).symm rfl ?_
      exact hRef.noted rfl (List.append_nil _).symm
        (List.forall_mem_nil _) (fun _ => rfl)

/-
  Between two turns of any run, as long as the exchange does
  not run out of order ids, the server stands where the
  service stands after the inputs of its history.
-/
theorem Settled.tracks
    (hSettled : Settled s)
    (hRoom : submits (callsOf s.log) < 2 ^ 32) :
    Registry s ∧ History s ∧
      Tracks s (Service.start.after (inputsOf s.log)) := by
  have hInv :=
    hSettled.invariant
      (fun s => submits (callsOf s.log) < 2 ^ 32 →
        Tracks s (Service.start.after (inputsOf s.log)))
      (fun lfd env _ => tracks_init lfd env) ?_
  · exact ⟨hInv.1, hInv.2.1, hInv.2.2 hRoom⟩
  · intro s s' given hReg hHist hRef hTurn hRoom
    have hGrows := (hTurn.acts hReg).log_grows
    have hBefore :=
      hRef ((submits_calls_le hGrows).trans_lt hRoom)
    rcases hBefore.turn hReg hHist hTurn hRoom with
      ⟨es, _, _, hLog, _, _, hNext⟩
    rw [hLog, inputsOf_append, Service.after_append]
    exact hNext

theorem Settled.refines
    (hSettled : Settled s)
    (hRoom : submits (callsOf s.log) < 2 ^ 32) :
    Refines s (Service.start.after (inputsOf s.log)) := by
  rcases hSettled.tracks hRoom with ⟨hReg, hHist, hRef⟩
  exact hRef.refines hReg hHist hRoom

/-
  The server is the service. In every reachable state, as
  long as the exchange has ids left, it stands where the
  service stands after the inputs of its history; the bytes
  sent to a party are a first part of its letters, and those
  of a connection that lives are what was sent and what its
  buffer holds.
-/
theorem server_refines_service
    (hReach : Reachable s)
    (hRoom : submits (callsOf s.log) < 2 ^ 32) :
    let v := Service.start.after (inputsOf s.log)
    Refines s v ∧
    (∀ p ∈ v.parties,
      sentBytes p.id s.log <+: p.mail.flatMap Msg.text) ∧
    (∀ (fd : Fd) (c : Conn), s.conns[fd]? = some c →
      c.dead = false →
        ∃ p ∈ v.parties, p.gone = false ∧ Mirrors c p ∧
          sentBytes c.ownerId s.log ++ c.out.bytes =
            p.mail.flatMap Msg.text) := by
  intro v
  have hRef : Refines s v := hReach.settled.refines hRoom
  have hFlows := hReach.flows
  refine ⟨hRef, ?_, ?_⟩
  · intro p hp
    have hQueued :
        queuedBytes p.id s.log <+:
          p.mail.flatMap Msg.text := by
      have hMail : pushedTo p.id s.log <+: p.mail := by
        cases hRef.stands p hp with
        | here _ _ _ _ hMail =>
            rw [hMail]
        | gone _ _ hMail => exact hMail
      rcases hMail with ⟨more, hMore⟩
      refine ⟨more.flatMap Msg.text, ?_⟩
      unfold queuedBytes
      rw [← hMore, List.flatMap_append]
    exact (hFlows.sent p.id).trans hQueued
  · intro fd c hConn hLive
    rcases hRef.party_of hReach.registry hReach.history
        hConn hLive with ⟨p, hp, hHere, hP⟩
    refine ⟨p, hp, hHere, hP, ?_⟩
    have hMail : pushedTo c.ownerId s.log = p.mail := by
      cases hRef.stands p hp with
      | here _ _ _ _ hMail =>
          rw [← hP.id]
          exact hMail
      | gone hGone _ _ =>
          rw [hHere] at hGone
          cases hGone
    rw [hFlows.live fd c hConn hLive]
    unfold queuedBytes
    rw [hMail]

/- After two sessions, the service has the one trade too. -/
theorem server_refines_service_trading :
    (Service.start.after
      (inputsOf
        (Machine.run step listening
          tradingSteps).log)).tape =
      [⟨0, 3, 100, 2, 1⟩] := by
  have hReach :
      Reachable
        (Machine.run step listening tradingSteps) :=
    ⟨3, _, tradingSteps, tradingSteps_legal, rfl⟩
  rw [(server_refines_service hReach (by decide)).1.tape]
  decide

end Server

end SocketExchange

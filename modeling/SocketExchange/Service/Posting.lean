import SocketExchange.Server.Notification

/-
  What output comes to, in letters.

  Whatever the server queues, each live connection gets the
  letters that were meant for it, or it ends and got a first
  part of them. Output adds nothing else to the history, and
  nothing about a connection that has ended before.

  Main declarations:
    * `closedIn`
    * `Received`
    * `Server.Outputs`, `Server.Posted`
    * `Server.acceptOrder_posted`
-/

------------------------------------------------------------
-- Letters Received
------------------------------------------------------------

namespace SocketExchange

/- The owner ids of the connections that ended, in order. -/
def closedIn (log : List Obs) : List Int :=
  log.filterMap fun
    | .closed owner _ _ => some owner
    | _ => none

/-
  A connection got these letters; one that ended may have
  missed the last of them.
-/
inductive Received
    (owner : Int)
    (ms : List Msg) :
    Bool → List Obs → Prop where
| alive
    {es : List Obs}
    (hAll : pushedTo owner es = ms)
    (hOpen : owner ∉ closedIn es) :
    Received owner ms false es
| ended
    {es : List Obs}
    (hFirst : pushedTo owner es <+: ms)
    (hClosed : owner ∈ closedIn es) :
    Received owner ms true es

/- The closed owners of two logs are those of both. -/
theorem closedIn_append (log more : List Obs) :
    closedIn (log ++ more) = closedIn log ++ closedIn more :=
  List.filterMap_append

/- An owner is among them if its closing was logged. -/
theorem mem_closedIn
    {owner : Int}
    {log : List Obs} :
    owner ∈ closedIn log ↔
      ∃ why left, .closed owner why left ∈ log := by
  unfold closedIn
  rw [List.mem_filterMap]
  constructor
  · rintro ⟨e, he, hOwner⟩
    cases e with
    | closed k why left =>
        injection hOwner with hSame
        exact ⟨why, left, hSame ▸ he⟩
    | _ => cases hOwner
  · rintro ⟨why, left, he⟩
    exact ⟨_, he, rfl⟩

/- Only the entries about a connection tell what it got. -/
theorem pushedTo_logOf
    (owner : Int)
    (log : List Obs) :
    pushedTo owner (logOf owner log) =
      pushedTo owner log := by
  unfold pushedTo logOf
  rw [List.filterMap_filter]
  congr 1
  funext e
  cases e with
  | queued k m =>
      by_cases hEq : k = owner
      · simp [Obs.owner?, hEq]
      · simp [Obs.owner?, hEq]
  | _ => simp

/- The entries about one owner tell whether it is closed. -/
theorem mem_closedIn_logOf
    (owner : Int)
    (log : List Obs) :
    owner ∈ closedIn (logOf owner log) ↔
      owner ∈ closedIn log := by
  simp only [mem_closedIn, logOf, List.mem_filter]
  simp [Obs.owner?]

/- Nothing is pushed to whom no entry is about. -/
theorem pushedTo_of_other
    {owner : Int}
    {log : List Obs}
    (hOther : ∀ e ∈ log, e.owner? ≠ some owner) :
    pushedTo owner log = [] := by
  rw [← pushedTo_logOf]
  have hNone : logOf owner log = [] := by
    unfold logOf
    rw [List.filter_eq_nil_iff]
    intro e he
    simpa using hOther e he
  rw [hNone]
  rfl

namespace Received

variable {owner : Int} {ms ns : List Msg}
variable {dead : Bool} {es fs : List Obs}

/-
  What an owner received is told by the entries about it.
-/
theorem of_logOf
    (hReceived : Received owner ms dead (logOf owner es)) :
    Received owner ms dead es := by
  cases hReceived with
  | alive hAll hOpen =>
      rw [pushedTo_logOf] at hAll
      rw [mem_closedIn_logOf] at hOpen
      exact .alive hAll hOpen
  | ended hFirst hClosed =>
      rw [pushedTo_logOf] at hFirst
      rw [mem_closedIn_logOf] at hClosed
      exact .ended hFirst hClosed

/- What is received in two steps is received in both. -/
theorem append
    (hFirst : Received owner ms false es)
    (hSecond : Received owner ns dead fs) :
    Received owner (ms ++ ns) dead (es ++ fs) := by
  cases hFirst with
  | alive hAll hOpen =>
      cases hSecond with
      | alive hAll' hOpen' =>
          refine .alive ?_ ?_
          · rw [pushedTo_append, hAll, hAll']
          · rw [closedIn_append, List.mem_append]
            exact not_or.mpr ⟨hOpen, hOpen'⟩
      | ended hFirst' hClosed' =>
          refine .ended ?_ ?_
          · rw [pushedTo_append, hAll]
            exact (List.prefix_append_right_inj ms).mpr
              hFirst'
          · rw [closedIn_append]
            exact List.mem_append_right _ hClosed'

/- Whoever ended misses what comes later. -/
theorem misses
    (hReceived : Received owner ms true es)
    (ns : List Msg) :
    Received owner (ms ++ ns) true es := by
  cases hReceived with
  | ended hFirst hClosed =>
      exact .ended
        (hFirst.trans (List.prefix_append ms ns)) hClosed

end Received

/- A flush brings no letters. -/
theorem OutputTail.received
    {owner : Int}
    {closing dead : Bool}
    {es : List Obs}
    (hTail : OutputTail owner closing dead es) :
    Received owner [] dead es := by
  have hNone : SocketExchange.pushedTo owner es = [] :=
    OutputTail.pushedTo hTail
  have hFirst : SocketExchange.pushedTo owner es <+: [] :=
    List.prefix_nil.mpr hNone
  cases hTail with
  | alive wire => exact .alive hNone (by simp [closedIn])
  | failed wire left =>
      exact .ended hFirst (by simp [closedIn])
  | drained wire hClosing =>
      exact .ended hFirst (by simp [closedIn])
  | backlog =>
      exact .ended hFirst (by simp [closedIn])

namespace Port

/- What a port received from one state to another. -/
structure Gets
    (ms : List Msg)
    (p q : Port) : Prop where
  same : p.conn.SameIdentity q.conn
  received :
    ∃ es, q.log = p.log ++ es ∧
      Received p.conn.ownerId ms q.conn.dead es

/- A port on which nothing is done gets nothing. -/
theorem gets_refl
    {p : Port}
    (hLive : p.conn.dead = false) :
    Gets [] p p where
  same := Conn.SameIdentity.refl _
  received := by
    refine ⟨[], (List.append_nil _).symm, ?_⟩
    rw [hLive]
    exact .alive rfl (List.not_mem_nil)

/- Closing queues no message. -/
theorem gets_close
    (p : Port)
    (why : CloseCause) :
    Gets [] p (p.close why) where
  same := close_same p why
  received :=
    ⟨_, rfl, .ended (List.prefix_refl _)
      (by simp [closedIn])⟩

/- Nor does flushing. -/
theorem gets_flush
    {p : Port}
    (hLive : p.conn.dead = false) :
    Gets [] p p.flush where
  same := flush_same p
  received := by
    rcases flush_tail p hLive with ⟨es, hLog, hTail⟩
    exact ⟨es, hLog, OutputTail.received hTail⟩

/- Queueing hands the port one message. -/
theorem gets_queue
    {p : Port}
    (hLive : p.conn.dead = false)
    (m : Msg) :
    Gets [m] p (p.queue m) where
  same := queue_same p m
  received := by
    rcases queue_tail p m hLive with ⟨es, hLog, hTail⟩
    refine ⟨_, hLog, ?_⟩
    have hFirst :
        Received p.conn.ownerId [m] false
          [.queued p.conn.ownerId m] :=
      .alive (by simp [pushedTo]) (by simp [closedIn])
    exact hFirst.append (OutputTail.received hTail)

/-
  A list of messages is received up to the end of the
  connection.
-/
theorem gets_pushAll
    {p : Port}
    (hLive : p.conn.dead = false)
    (ms : List Msg) :
    Gets ms p (p.pushAll ms) := by
  induction ms generalizing p with
  | nil => exact gets_refl hLive
  | cons m ms ih =>
      have hPush : p.push m = p.queue m := by
        simp [push, whenLive, hLive]
      have hAll :
          p.pushAll (m :: ms) = (p.queue m).pushAll ms := by
        rw [← hPush]
        rfl
      have hSame := queue_same p m
      rcases (gets_queue hLive m).received with
        ⟨es, hLog, hFirst⟩
      rw [hAll]
      cases hDead : (p.queue m).conn.dead with
      | true =>
          -- The push ended the connection: nothing follows.
          rw [pushAll_of_dead hDead]
          rw [hDead] at hFirst
          refine ⟨hSame, es, hLog, ?_⟩
          rw [hDead]
          exact hFirst.misses ms
      | false =>
          rw [hDead] at hFirst
          have hNext := ih hDead
          rcases hNext.received with ⟨fs, hLog', hRest⟩
          rw [hSame.ownerId] at hRest
          refine ⟨hSame.trans hNext.same, es ++ fs, ?_,
            hFirst.append hRest⟩
          rw [hLog', hLog, List.append_assoc]

end Port

end SocketExchange

------------------------------------------------------------
-- Output On A Server
------------------------------------------------------------

namespace SocketExchange

/-
  Entries that output leaves behind: sends, ends, and
  messages of a kind.
-/
def Obs.Outgoing (kind : Msg → Prop) : Obs → Prop
| .queued _ m => kind m
| .sent _ _ => True
| .closed _ _ _ => True
| _ => False

namespace Server

/-
  Only output happened, on connections that were live, and
  no connection came or came back to life.
-/
structure Outputs
    (kind : Msg → Prop)
    (s : Server)
    (es : List Obs)
    (s' : Server) : Prop where
  log : s'.log = s.log ++ es
  outgoing : ∀ e ∈ es, e.Outgoing kind
  about :
    ∀ e ∈ es, ∃ (fd : Fd) (c : Conn),
      s.conns[fd]? = some c ∧ c.dead = false ∧
        e.owner? = some c.ownerId
  back :
    ∀ (fd : Fd) (d : Conn), s'.conns[fd]? = some d →
      ∃ c, s.conns[fd]? = some c ∧
        d.ownerId = c.ownerId ∧
        (c.dead = true → d.dead = true)

variable {kind : Msg → Prop} {s s' t : Server} {fd : Fd}
variable {es fs : List Obs}

theorem Outputs.refl (kind : Msg → Prop) (s : Server) :
    Outputs kind s [] s where
  log := (List.append_nil _).symm
  outgoing := List.forall_mem_nil _
  about := List.forall_mem_nil _
  back := fun _ d hd => ⟨d, hd, rfl, id⟩

/- Steps that only output compose. -/
theorem Outputs.trans
    (hFirst : Outputs kind s es t)
    (hSecond : Outputs kind t fs s') :
    Outputs kind s (es ++ fs) s' where
  log := by
    rw [hSecond.log, hFirst.log, List.append_assoc]
  outgoing :=
    List.forall_mem_append.mpr
      ⟨hFirst.outgoing, hSecond.outgoing⟩
  about := by
    refine List.forall_mem_append.mpr ⟨hFirst.about, ?_⟩
    intro e he
    rcases hSecond.about e he with
      ⟨fd, d, hd, hLive, hOwner⟩
    rcases hFirst.back fd d hd with ⟨c, hc, hSame, hDead⟩
    refine ⟨fd, c, hc, ?_, hSame ▸ hOwner⟩
    by_contra hNot
    rw [hDead (Bool.eq_true_of_not_eq_false hNot)] at hLive
    cases hLive
  back := by
    intro fd d hd
    rcases hSecond.back fd d hd with ⟨b, hb, hSame, hDead⟩
    rcases hFirst.back fd b hb with ⟨c, hc, hSame', hDead'⟩
    exact ⟨c, hc, hSame.trans hSame', hDead ∘ hDead'⟩

/- Writing back a live port that only put out. -/
theorem outputs_commit
    {c : Conn}
    {p : Port}
    (hConn : s.conns[fd]? = some c)
    (hLive : c.dead = false)
    (hSame : c.SameIdentity p.conn)
    (hOut : ∀ e ∈ p.log, e.Outgoing kind)
    (hAbout : ∀ e ∈ p.log, e.owner? = some c.ownerId) :
    Outputs kind s p.log (s.commit fd p) where
  log := commit_log s fd p
  outgoing := hOut
  about := fun e he => ⟨fd, c, hConn, hLive, hAbout e he⟩
  back := by
    intro f d hd
    rcases conn_of_insert (commit_conns s fd p) hd with
      ⟨rfl, rfl⟩ | ⟨_, hOld⟩
    · refine ⟨c, hConn, hSame.ownerId, ?_⟩
      intro hDead
      rw [hLive] at hDead
      cases hDead
    · exact ⟨d, hOld, rfl, id⟩

/- What follows a message on its port is output. -/
theorem tail_outgoing
    {owner : Int}
    {closing dead : Bool}
    (hTail : OutputTail owner closing dead es) :
    ∀ e ∈ es, e.Outgoing kind :=
  hTail.forall_mem (fun _ => trivial) (fun _ _ => trivial)

/- Queueing a message is output of its kind. -/
theorem queueOut_outputs
    {m : Msg}
    (hKind : kind m) :
    ∃ es, Outputs kind s es (s.queueOut fd m) := by
  refine queueOut_cases
    (P := fun s' => ∃ es, Outputs kind s es s')
    ⟨[], .refl kind s⟩ ?_
  intro c hConn hLive
  rcases Port.queue_tail (Port.ofConn s c) m hLive with
    ⟨es, hLog, hTail⟩
  refine ⟨_, outputs_commit hConn hLive
    (Port.queue_same (Port.ofConn s c) m) ?_
    ((Port.output_queue m).about _ hLive rfl)⟩
  rw [hLog]
  exact List.forall_mem_cons.mpr ⟨hKind, tail_outgoing hTail⟩

/- Flushing is output of any kind. -/
theorem tryFlush_outputs :
    ∃ es, Outputs kind s es (s.tryFlush fd) := by
  refine tryFlush_cases
    (P := fun s' => ∃ es, Outputs kind s es s')
    ⟨[], .refl kind s⟩ ?_
  intro c hConn hLive
  rcases Port.flush_tail (Port.ofConn s c) hLive with
    ⟨es, hLog, hTail⟩
  refine ⟨_, outputs_commit hConn hLive
    (Port.flush_same (Port.ofConn s c)) ?_
    (Port.output_flush.about _ hLive rfl)⟩
  rw [hLog]
  exact tail_outgoing hTail

/- So is closing. -/
theorem closeConn_outputs (why : CloseCause) :
    ∃ es, Outputs kind s es (s.closeConn fd why) := by
  refine closeConn_cases
    (P := fun s' => ∃ es, Outputs kind s es s')
    ⟨[], .refl kind s⟩ ?_
  intro c hConn hLive
  refine ⟨_, outputs_commit hConn hLive
    (Port.close_same (Port.ofConn s c) why) ?_
    ((Port.output_close why).about _ hLive rfl)⟩
  intro e he
  rw [List.mem_singleton.mp he]
  trivial

/- A report to an owner is output of its kind. -/
theorem notifyOwner_outputs
    {m : Msg}
    (hKind : kind m)
    (owner : Int) :
    ∃ es, Outputs kind s es (s.notifyOwner owner m) := by
  unfold notifyOwner
  split
  · exact ⟨[], .refl kind s⟩
  · split
    · exact ⟨[], .refl kind s⟩
    · exact queueOut_outputs hKind

/- So is a print to one subscriber. -/
theorem notifySubscriber_outputs
    {t : Trade}
    (hKind : kind (.trade t))
    (s : Server)
    (fd : Fd) :
    ∃ es, Outputs kind s es (notifySubscriber t s fd) := by
  unfold notifySubscriber
  split
  · exact ⟨[], .refl kind s⟩
  · split
    · exact queueOut_outputs hKind
    · exact ⟨[], .refl kind s⟩

/- A loop outputs what its turns do. -/
theorem foldl_outputs
    {α : Type}
    {f : Server → α → Server}
    (hEach : ∀ s a, ∃ es, Outputs kind s es (f s a))
    (as : List α)
    (s : Server) :
    ∃ es, Outputs kind s es (as.foldl f s) := by
  induction as generalizing s with
  | nil => exact ⟨[], .refl kind s⟩
  | cons a as ih =>
      rcases hEach s a with ⟨es, hFirst⟩
      rcases ih (f s a) with ⟨fs, hRest⟩
      exact ⟨es ++ fs, hFirst.trans hRest⟩

/- Hence publishing a trade only outputs prints of it. -/
theorem publish_outputs
    {t : Trade}
    (hKind : ∀ m : Msg, m.trade? = some t → kind m)
    (s : Server) :
    ∃ es, Outputs kind s es (s.publish t) := by
  rcases notifyOwner_outputs (s := s)
      (hKind (.bought t) rfl) t.buyerOwner with
    ⟨es, hBuyer⟩
  rcases notifyOwner_outputs
      (s := s.notifyOwner t.buyerOwner (.bought t))
      (hKind (.sold t) rfl) t.sellerOwner with
    ⟨fs, hSeller⟩
  rcases foldl_outputs
      (notifySubscriber_outputs (hKind (.trade t) rfl))
      _ _ with ⟨gs, hWalk⟩
  exact ⟨_, (hBuyer.trans hSeller).trans hWalk⟩

end Server

end SocketExchange

------------------------------------------------------------
-- Letters Posted
------------------------------------------------------------

namespace SocketExchange

namespace Server

/- Each live connection received its letters. -/
def Posted
    (letters : Fd → Conn → List Msg)
    (s : Server)
    (es : List Obs)
    (s' : Server) : Prop :=
  ∀ (fd : Fd) (c : Conn), s.conns[fd]? = some c →
    c.dead = false →
      ∃ d, s'.conns[fd]? = some d ∧ c.SameIdentity d ∧
        Received c.ownerId (letters fd c) d.dead es

variable {s s' : Server} {fd : Fd} {es : List Obs}

/- What every port got, the connections received. -/
theorem posted_of_ports
    {letters : Fd → Conn → List Msg}
    {F : Fd → Port → Port}
    (hLog : s'.log = s.log ++ es)
    (hPort : ∀ f, s'.port? f = (s.port? f).map (F f))
    (hGets :
      ∀ f p, p.conn.dead = false →
        Port.Gets (letters f p.conn) p (F f p)) :
    Posted letters s es s' := by
  intro f c hConn hLive
  have hAfter := hPort f
  rw [port?_of_conn hConn, Option.map_some] at hAfter
  have hGot := hGets f
    { conn := c
      sends := s.env.sends f
      log := logOf c.ownerId s.log } hLive
  generalize hq :
    F f
      { conn := c
        sends := s.env.sends f
        log := logOf c.ownerId s.log } = q
    at hAfter hGot
  have hConn' := conn_of_port? hAfter
  refine ⟨q.conn, hConn', hGot.same, ?_⟩
  rcases hGot.received with ⟨fs, hQLog, hReceived⟩
  -- The entries about the connection are those of its port.
  have hFs : logOf c.ownerId es = fs := by
    rw [port?_of_conn hConn'] at hAfter
    have hWhole := congrArg Port.log (Option.some.inj hAfter)
    dsimp only at hWhole
    rw [hGot.same.ownerId, hLog, logOf_append, hQLog]
      at hWhole
    exact List.append_cancel_left hWhole
  rw [← hFs] at hReceived
  exact hReceived.of_logOf

/- A message for one connection. -/
def only (fd : Fd) (m : Msg) (f : Fd) (_ : Conn) :
    List Msg :=
  if f = fd then [m] else []

/- Queueing posts its message to one descriptor. -/
theorem queueOut_posted
    (hReg : Registry s)
    (m : Msg)
    (hLog : (s.queueOut fd m).log = s.log ++ es) :
    Posted (only fd m) s es (s.queueOut fd m) := by
  refine posted_of_ports
    (F := fun f p => if f = fd then p.push m else p) hLog
    ?_ ?_
  · intro f
    rw [port?_queueOut hReg]
    split
    · next hEq => rw [hEq]
    · exact Option.map_id'.symm
  · intro f p hLive
    unfold only
    split
    · have hPush : p.push m = p.queue m := by
        simp [Port.push, Port.whenLive, hLive]
      rw [hPush]
      exact Port.gets_queue hLive m
    · exact Port.gets_refl hLive

/- Flushing posts nothing. -/
theorem tryFlush_posted
    (hReg : Registry s)
    (hLog : (s.tryFlush fd).log = s.log ++ es) :
    Posted (fun _ _ => []) s es (s.tryFlush fd) := by
  refine posted_of_ports
    (F := fun f p =>
      if f = fd then p.whenLive Port.flush else p) hLog
    ?_ ?_
  · intro f
    rw [port?_tryFlush hReg]
    split
    · next hEq => rw [hEq]
    · exact Option.map_id'.symm
  · intro f p hLive
    split
    · have hFlush : p.whenLive Port.flush = p.flush := by
        simp [Port.whenLive, hLive]
      rw [hFlush]
      exact Port.gets_flush hLive
    · exact Port.gets_refl hLive

/- Neither does closing. -/
theorem closeConn_posted
    (hReg : Registry s)
    (why : CloseCause)
    (hLog : (s.closeConn fd why).log = s.log ++ es) :
    Posted (fun _ _ => []) s es (s.closeConn fd why) := by
  refine posted_of_ports
    (F := fun f p =>
      if f = fd then p.whenLive (·.close why) else p) hLog
    ?_ ?_
  · intro f
    rw [port?_closeConn hReg]
    split
    · next hEq => rw [hEq]
    · exact Option.map_id'.symm
  · intro f p hLive
    split
    · have hClose :
          p.whenLive (·.close why) = p.close why := by
        simp [Port.whenLive, hLive]
      rw [hClose]
      exact Port.gets_close p why
    · exact Port.gets_refl hLive

/-
  The letters of an accepted order: the acceptance to the
  submitter, and to each what each trade means.
-/
def orderLetters
    (fd : Fd)
    (id : UInt32)
    (trades : List Trade)
    (f : Fd)
    (c : Conn) : List Msg :=
  (if f = fd then [.orderAccepted id] else []) ++
    trades.flatMap (messagesFor c)

/- The call of an accepted order, and then its letters. -/
theorem acceptOrder_posted
    (fd : Fd)
    {c : Conn}
    {side : Side}
    {inst : Fin 2}
    {qty price : UInt32}
    {id : UInt32}
    {trades : List Trade}
    (hReg : Registry s)
    (hReply :
      (s.exch.submit side inst qty price c.ownerId []).2 =
        (id, trades)) :
    ∃ es,
      Outputs (fun m => ∀ reason, m ≠ .error reason)
          (s.callExchange c.ownerId
            (.submit side inst qty price c.ownerId)) es
          (s.acceptOrder fd c side inst qty price) ∧
        Posted (orderLetters fd id trades)
          (s.callExchange c.ownerId
            (.submit side inst qty price c.ownerId)) es
          (s.acceptOrder fd c side inst qty price) := by
  have hId :
      (s.exch.submit side inst qty price c.ownerId []).2.1 =
        id := by
    rw [hReply]
  have hTrades :
      (s.exch.submit side inst qty price c.ownerId
        []).2.2 = trades := by
    rw [hReply]
  have hCalled :
      Registry (s.callExchange c.ownerId
        (.submit side inst qty price c.ownerId)) :=
    hReg.callExchange _ _
  have hOut :
      ∃ es, Outputs (fun m => ∀ reason, m ≠ .error reason)
        (s.callExchange c.ownerId
          (.submit side inst qty price c.ownerId)) es
        (s.acceptOrder fd c side inst qty price) := by
    unfold acceptOrder
    dsimp only
    have hEach :
        ∀ (u : Server) (t : Trade), ∃ es,
          Outputs (fun m => ∀ reason, m ≠ .error reason) u
            es (u.publish t) := by
      intro u t
      refine publish_outputs ?_ u
      intro m hTrade reason hError
      rw [hError] at hTrade
      cases hTrade
    have hAccepted
        (u : Server)
        (id : UInt32) :
        ∃ es,
          Outputs (fun m => ∀ reason, m ≠ .error reason) u
            es (u.queueOut fd (.orderAccepted id)) :=
      queueOut_outputs (fun _ h => by cases h)
    rcases hAccepted _ _ with ⟨es, hFirst⟩
    rcases foldl_outputs hEach _ _ with ⟨fs, hRest⟩
    exact ⟨es ++ fs, hFirst.trans hRest⟩
  rcases hOut with ⟨es, hOut⟩
  refine ⟨es, hOut, ?_⟩
  refine posted_of_ports
    (F := fun f p => p.pushAll (orderLetters fd id trades f
      p.conn)) hOut.log ?_ ?_
  · intro f
    rw [port?_acceptOrder side inst qty price hReg, hId,
      hTrades]
    rfl
  · intro f p hLive
    exact Port.gets_pushAll hLive _

end Server

end SocketExchange

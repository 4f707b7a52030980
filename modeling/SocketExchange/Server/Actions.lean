import SocketExchange.Server.Port

/-
  What the server can do, one action at a time.

  Every handler is a sequence of the actions of `Act`, each
  with the guard under which the source performs it. An
  invariant of the server is proved once per action and then
  holds across every handler. The pieces of `Move` are the
  same actions cut less finely, for what holds only between
  the pieces.

  Key definitions include:
    * `Addressed`, `Requests`
    * `Guard`
    * `Server.Serve`, `Server.Serves`
    * `Server.Act`, `Server.Acts`
    * `Server.Deed`, `Server.Move`

  Key theorems include:
    * `Server.Acts.invariant`, `Server.Moves.invariant`
    * `Server.getElem?_reap`
    * `Server.conn_of_reap`
-/

------------------------------------------------------------
-- Who A Message Is For
------------------------------------------------------------

namespace SocketExchange

/- A message that may be queued on this connection. -/
def Addressed (c : Conn) : Msg → Prop
| .ok => True
| .error _ => True
| .orderAccepted _ => c.role = .trader
| .orderCancelled _ => c.role = .trader
| .bought t => c.role = .trader ∧ c.ownerId = t.buyerOwner
| .sold t => c.role = .trader ∧ c.ownerId = t.sellerOwner
| .trade t =>
    c.role = .marketData ∧ c.subs t.inst = true ∧
      c.closing = false

/- The trade an execution message reports. -/
def Msg.trade? : Msg → Option Trade
| .bought t => some t
| .sold t => some t
| .trade t => some t
| _ => none

/- The three messages that report a trade. -/
theorem Msg.cases_of_trade
    {m : Msg}
    {t : Trade}
    (hTrade : m.trade? = some t) :
    m = .bought t ∨ m = .sold t ∨ m = .trade t := by
  cases m with
  | bought t' =>
      injection hTrade with hSame
      exact Or.inl (by rw [hSame])
  | sold t' =>
      injection hTrade with hSame
      exact Or.inr (Or.inl (by rw [hSame]))
  | trade t' =>
      injection hTrade with hSame
      exact Or.inr (Or.inr (by rw [hSame]))
  | _ => cases hTrade

/- The reasons that an ERROR message gives. -/
def reasons : List String :=
  ["line too long", "unknown command", "bad arguments",
    "not permitted for this client type",
    "already logged in", "duplicate username",
    "not logged in", "unknown instrument", "bad quantity",
    "bad price", "bad order id", "unknown order",
    "not your order"]

/- A message that the server has a text for. -/
def Msg.Plain : Msg → Prop
| .error reason => reason ∈ reasons
| _ => True

/- The trade was made by a call in the history. -/
def Made (log : List Obs) (t : Trade) : Prop :=
  ∃ owner call id trades,
    Obs.called owner call (.submitted id trades) ∈ log ∧
      t ∈ trades

/- A trade that was made stays made. -/
theorem Made.mono
    {log : List Obs}
    {t : Trade}
    (hMade : Made log t)
    (more : List Obs) :
    Made (log ++ more) t := by
  rcases hMade with ⟨owner, call, id, trades, hMem, hTrade⟩
  exact ⟨owner, call, id, trades,
    List.mem_append_left _ hMem, hTrade⟩

/- The owner a call is made for. -/
def Call.owner : Call → Int
| .submit _ _ _ _ owner => owner
| .cancel _ owner => owner

/- The command that enters an order on this side. -/
def Side.verb : Side → Bytes
| .buy => ascii "BUY"
| .sell => ascii "SELL"

/- The call that the fields of a line ask for. -/
def Requests (tk : List Bytes) : Call → Prop
| .submit side inst qty price _ =>
    ∃ name quantity level,
      tk = [side.verb, name, quantity, level] ∧
        instrumentIndex name = some inst ∧
        parseU32 quantity kMinValue kMaxValue = some qty ∧
        parseU32 level kMinValue kMaxValue = some price
| .cancel id _ =>
    ∃ text, tk = [ascii "CANCEL", text] ∧
      parseU32 text 0 kMaxOrderId = some id

end SocketExchange

------------------------------------------------------------
-- Actions
------------------------------------------------------------

namespace SocketExchange

/-
  What a run is known to spare its closing connections:
  those of `quiet` get no line handled; those of `patient`,
  judged by the history, are not torn down by the peer's end
  of stream while output is pending.
-/
structure Guard where
  quiet : Int → Prop
  patient : List Obs → Int → Prop

namespace Guard

/- Nothing is known. -/
def none : Guard where
  quiet := fun _ => False
  patient := fun _ _ => False

/- A line of this connection may be handled. -/
def Open (G : Guard) (c : Conn) : Prop :=
  G.quiet c.ownerId → c.closing = false

/- The end of the stream may tear this connection down. -/
def Ends (G : Guard) (log : List Obs) (c : Conn) : Prop :=
  G.patient log c.ownerId →
    c.closing = false ∨ c.out.pending = 0

end Guard

namespace Server

/- What handling one line can do. -/
inductive Serve (G : Guard) : Server → Server → Prop where
| queue
    {s : Server} {fd : Fd} {c : Conn} {m : Msg}
    (hConn : s.conns[fd]? = some c)
    (hLive : c.dead = false)
    (hAddressed : Addressed c m)
    (hMade : ∀ t, m.trade? = some t → Made s.log t)
    (hReply : m.trade? = none → G.Open c) :
    Serve G s (s.commit fd ((Port.ofConn s c).queue m))
| flush
    {s : Server} {fd : Fd} {c : Conn}
    (hConn : s.conns[fd]? = some c)
    (hLive : c.dead = false) :
    Serve G s (s.commit fd (Port.ofConn s c).flush)
| closing
    {s : Server} {fd : Fd} {c : Conn}
    (hConn : s.conns[fd]? = some c) :
    Serve G s
      ((s.setConn fd { c with closing := true }).note
        (.closing c.ownerId))
| line
    {s : Server} {fd : Fd} {c : Conn}
    (hConn : s.conns[fd]? = some c)
    (hLive : c.dead = false)
    (hOpen : G.Open c)
    (text : Bytes) :
    Serve G s (s.note (.line c.ownerId text))
| overlong
    {s : Server} {fd : Fd} {c : Conn}
    (hConn : s.conns[fd]? = some c)
    (hLive : c.dead = false)
    (hOpen : G.Open c) :
    Serve G s (s.note (.overlong c.ownerId))
| login
    {s : Server} {fd : Fd} {c : Conn} {name : Bytes}
    (hConn : s.conns[fd]? = some c)
    (hLive : c.dead = false)
    (hRole : c.role = .unknown)
    (hOpen : G.Open c)
    (hName : name ≠ [])
    (hFree : name ∉ s.usernames) :
    Serve G s (s.grantLogin fd c name)
| subscribe
    {s : Server} {fd : Fd} {c : Conn}
    (hConn : s.conns[fd]? = some c)
    (hLive : c.dead = false)
    (hRole : c.role ≠ .trader)
    (hOpen : G.Open c)
    (inst : Fin 2)
    (on : Bool) :
    Serve G s (s.grantSubscribe fd c inst on)
| call
    {s : Server} {fd : Fd} {c : Conn} {call : Call}
    {text : Bytes}
    (hConn : s.conns[fd]? = some c)
    (hLive : c.dead = false)
    (hRole : c.role = .trader)
    (hOpen : G.Open c)
    (hLine : s.log.getLast? = some (.line c.ownerId text))
    (hRequest : Requests (splitWs text) call)
    (hOwner : call.owner = c.ownerId) :
    Serve G s (s.callExchange c.ownerId call)

/- What the event loop can do. -/
inductive Act (G : Guard) : Server → Server → Prop where
| serve
    {s s' : Server}
    (hServe : Serve G s s') :
    Act G s s'
| close
    {s : Server} {fd : Fd} {c : Conn}
    (hConn : s.conns[fd]? = some c)
    (hLive : c.dead = false)
    (why : CloseCause)
    (hPeer :
      why = .recvError ∨
        (why = .fin ∨ why = .eof) ∧ G.Ends s.log c) :
    Act G s (s.commit fd ((Port.ofConn s c).close why))
| input
    {s : Server} {fd : Fd} {c : Conn}
    (hConn : s.conns[fd]? = some c)
    (input : LineBuffer) :
    Act G s (s.setConn fd { c with input := input })
| accept
    {s : Server} {cfd : Fd}
    (hFresh : cfd ∉ s.env.opened)
    (hListen : cfd ≠ s.lfd) :
    Act G s (s.acceptConn cfd)
| reap
    {s : Server} :
    Act G s s.reap
| answers
    {s : Server}
    (a : Answers) :
    Act G s (s.withAnswers a)

/-
  What handling one line can do, in whole pieces: a line
  together with the call it makes, QUIT together with its
  flush.
-/
inductive Deed (G : Guard) : Server → Server → Prop where
| queue
    {s : Server} {fd : Fd} {c : Conn} {m : Msg}
    (hConn : s.conns[fd]? = some c)
    (hLive : c.dead = false)
    (hAddressed : Addressed c m)
    (hMade : ∀ t, m.trade? = some t → Made s.log t)
    (hReply : m.trade? = none → G.Open c)
    (hPlain : m.Plain) :
    Deed G s (s.commit fd ((Port.ofConn s c).queue m))
| quit
    {s : Server} {fd : Fd} {c : Conn}
    (hConn : s.conns[fd]? = some c) :
    Deed G s ((s.setClosing fd).tryFlush fd)
| refuse
    {s : Server} {fd : Fd} {c : Conn}
    (hConn : s.conns[fd]? = some c)
    (hLive : c.dead = false)
    (hOpen : G.Open c)
    (text : Bytes)
    (hIdle :
      c.role = .trader →
        ∀ call, ¬ Requests (splitWs text) call) :
    Deed G s (s.note (.line c.ownerId text))
| overlong
    {s : Server} {fd : Fd} {c : Conn}
    (hConn : s.conns[fd]? = some c)
    (hLive : c.dead = false)
    (hOpen : G.Open c) :
    Deed G s (s.note (.overlong c.ownerId))
| login
    {s : Server} {fd : Fd} {c : Conn} {name : Bytes}
    (hConn : s.conns[fd]? = some c)
    (hLive : c.dead = false)
    (hRole : c.role = .unknown)
    (hOpen : G.Open c)
    (hName : name ≠ [])
    (hFree : name ∉ s.usernames) :
    Deed G s (s.grantLogin fd c name)
| subscribe
    {s : Server} {fd : Fd} {c : Conn}
    (hConn : s.conns[fd]? = some c)
    (hLive : c.dead = false)
    (hRole : c.role ≠ .trader)
    (hOpen : G.Open c)
    (inst : Fin 2)
    (on : Bool) :
    Deed G s (s.grantSubscribe fd c inst on)
| call
    {s : Server} {fd : Fd} {c : Conn} {call : Call}
    (hConn : s.conns[fd]? = some c)
    (hLive : c.dead = false)
    (hRole : c.role = .trader)
    (hOpen : G.Open c)
    (text : Bytes)
    (hRequest : Requests (splitWs text) call)
    (hOwner : call.owner = c.ownerId) :
    Deed G s
      ((s.note (.line c.ownerId text)).callExchange
        c.ownerId call)

/- What handling one event can do, in whole pieces. -/
inductive Move (G : Guard) : Server → Server → Prop where
| deed
    {s s' : Server}
    (hDeed : Deed G s s') :
    Move G s s'
| flush
    {s : Server} {fd : Fd} {c : Conn}
    (hConn : s.conns[fd]? = some c)
    (hLive : c.dead = false) :
    Move G s (s.commit fd (Port.ofConn s c).flush)
| close
    {s : Server} {fd : Fd} {c : Conn}
    (hConn : s.conns[fd]? = some c)
    (hLive : c.dead = false)
    (why : CloseCause)
    (hPeer :
      why = .recvError ∨
        (why = .fin ∨ why = .eof) ∧ G.Ends s.log c) :
    Move G s (s.commit fd ((Port.ofConn s c).close why))
| input
    {s : Server} {fd : Fd} {c : Conn}
    (hConn : s.conns[fd]? = some c)
    (input : LineBuffer) :
    Move G s (s.setConn fd { c with input := input })
| accept
    {s : Server} {cfd : Fd}
    (hFresh : cfd ∉ s.env.opened)
    (hListen : cfd ≠ s.lfd) :
    Move G s (s.acceptConn cfd)
| answers
    {s : Server}
    (a : Answers) :
    Move G s (s.withAnswers a)

/- Any number of actions. -/
abbrev Serves (G : Guard) : Server → Server → Prop :=
  Relation.ReflTransGen (Serve G)

/- Any number of actions one after the other. -/
abbrev Acts (G : Guard) : Server → Server → Prop :=
  Relation.ReflTransGen (Act G)

/- Any number of pieces. -/
abbrev Deeds (G : Guard) : Server → Server → Prop :=
  Relation.ReflTransGen (Deed G)

/- Any number of moves one after the other. -/
abbrev Moves (G : Guard) : Server → Server → Prop :=
  Relation.ReflTransGen (Move G)

/- Serving a connection is a run of actions. -/
theorem Serves.acts
    {G : Guard}
    {s s' : Server}
    (hServes : Serves G s s') :
    Acts G s s' := by
  induction hServes with
  | refl => exact .refl
  | tail _ hLast ih => exact ih.tail (.serve hLast)

/- A property kept by every action is kept by any number. -/
theorem Acts.invariant
    {G : Guard}
    (Inv : Server → Prop)
    (hAct : ∀ s s', Inv s → Act G s s' → Inv s')
    {s s' : Server}
    (hActs : Acts G s s')
    (hInit : Inv s) :
    Inv s' := by
  induction hActs with
  | refl => exact hInit
  | tail _ hLast ih => exact hAct _ _ ih hLast

/- What a move keeps, a run of moves keeps. -/
theorem Moves.invariant
    {G : Guard}
    (Inv : Server → Prop)
    (hMove : ∀ s s', Inv s → Move G s s' → Inv s')
    {s s' : Server}
    (hMoves : Moves G s s')
    (hInit : Inv s) :
    Inv s' := by
  induction hMoves with
  | refl => exact hInit
  | tail _ hLast ih => exact hMove _ _ ih hLast

end Server

end SocketExchange

------------------------------------------------------------
-- Committing A Port
------------------------------------------------------------

namespace SocketExchange

namespace Server

variable (s : Server) (fd : Fd) (p : Port)

@[simp] theorem commit_nextOwner :
    (s.commit fd p).nextOwner = s.nextOwner := by
  unfold commit
  split <;> rfl

@[simp] theorem commit_lfd :
    (s.commit fd p).lfd = s.lfd := by
  unfold commit
  split <;> rfl

@[simp] theorem commit_exch :
    (s.commit fd p).exch = s.exch := by
  unfold commit
  split <;> rfl

/- Writing a port back stores its record. -/
@[simp] theorem commit_conns :
    (s.commit fd p).conns =
      s.conns.insert fd p.conn := by
  unfold commit
  split <;> rfl

/- It appends the log of the port. -/
@[simp] theorem commit_log :
    (s.commit fd p).log = s.log ++ p.log := by
  unfold commit
  split <;> rfl

/- What a push adds to the history. -/
theorem queued_log
    {c : Conn}
    (hLive : c.dead = false)
    (m : Msg) :
    ∃ es,
      (s.commit fd ((Port.ofConn s c).queue m)).log =
          s.log ++ .queued c.ownerId m :: es ∧
        OutputTail c.ownerId c.closing
          ((Port.ofConn s c).queue m).conn.dead es := by
  rcases Port.queue_tail (Port.ofConn s c) m hLive with
    ⟨es, hLog, hTail⟩
  refine ⟨es, ?_, hTail⟩
  rw [commit_log, hLog]
  rfl

/- What a flush adds to the history. -/
theorem flushed_log
    {c : Conn}
    (hLive : c.dead = false) :
    ∃ es,
      (s.commit fd (Port.ofConn s c).flush).log =
          s.log ++ es ∧
        OutputTail c.ownerId c.closing
          (Port.ofConn s c).flush.conn.dead es := by
  rcases Port.flush_tail (Port.ofConn s c) hLive with
    ⟨es, hLog, hTail⟩
  refine ⟨es, ?_, hTail⟩
  rw [commit_log, hLog]
  rfl

/- It keeps the answers that are left. -/
@[simp] theorem commit_sends :
    (s.commit fd p).env.sends =
      Function.update s.env.sends p.conn.fd p.sends := by
  unfold commit
  split <;> rfl

/- A table after an insertion. -/
theorem getElem?_insert_fd
    (m : Std.ExtTreeMap Fd Conn)
    (a b : Fd)
    (c : Conn) :
    (m.insert a c)[b]? =
      if b = a then some c else m[b]? := by
  rw [Std.ExtTreeMap.getElem?_insert]
  by_cases hEq : b = a
  · simp [hEq]
  · have hNe : ¬ a = b := fun h => hEq h.symm
    simp [hEq, hNe]

/- A record that was set is found. -/
theorem getElem?_setConn_self (c : Conn) :
    (s.setConn fd c).conns[fd]? = some c := by
  simp [setConn]

/- The last record set is the one that stays. -/
theorem setConn_setConn (c c' : Conn) :
    (s.setConn fd c).setConn fd c' = s.setConn fd c' := by
  simp only [setConn, insert_insert_self]

end Server

end SocketExchange

------------------------------------------------------------
-- Accepting And Reaping
------------------------------------------------------------

namespace SocketExchange

namespace Server

/-
  A connection accepted on a free descriptor gets a fresh
  record.
-/
theorem acceptConn_conns
    {s : Server}
    {cfd : Fd}
    (hNone : s.conns[cfd]? = none) :
    (s.acceptConn cfd).conns =
      s.conns.insert cfd (Conn.fresh cfd s.nextOwner) := by
  ext1 f
  change (s.conns.insertIfNew cfd
    (Conn.fresh cfd s.nextOwner))[f]? = _
  rw [Std.ExtTreeMap.getElem?_insertIfNew,
    Std.ExtTreeMap.getElem?_insert]
  have hNew : cfd ∉ s.conns := by
    simpa using hNone
  by_cases hEq : cfd = f
  · simp [hEq ▸ hNew, hEq]
  · simp [hEq]

/- What closing one descriptor leaves alone, `reap` does. -/
theorem foldl_reapOne
    {α : Type}
    (f : Server → α)
    (hOne : ∀ s fd, f (reapOne s fd) = f s)
    (fds : List Fd)
    (s : Server) :
    f (fds.foldl reapOne s) = f s := by
  induction fds generalizing s with
  | nil => rfl
  | cons fd fds ih =>
      rw [List.foldl_cons, ih, hOne]

/- Reaping a list of descriptors empties their entries. -/
theorem getElem?_foldl_reapOne
    (fds : List Fd)
    (s : Server)
    (fd : Fd) :
    (fds.foldl reapOne s).conns[fd]? =
      if fd ∈ fds then none else s.conns[fd]? := by
  induction fds generalizing s with
  | nil => simp
  | cons a fds ih =>
      rw [List.foldl_cons, ih]
      simp only [reapOne, List.mem_cons,
        Std.ExtTreeMap.getElem?_erase, compare_eq_iff_eq]
      by_cases hEq : fd = a
      · simp [hEq]
      · have hNe : ¬ a = fd := fun h => hEq h.symm
        simp [hEq, hNe]

/- It closes the descriptors. -/
theorem mem_opened_foldl_reapOne
    (fds : List Fd)
    (s : Server)
    (fd : Fd) :
    fd ∈ (fds.foldl reapOne s).env.opened ↔
      fd ∈ s.env.opened ∧ fd ∉ fds := by
  induction fds generalizing s with
  | nil => simp
  | cons a fds ih =>
      rw [List.foldl_cons, ih]
      simp only [reapOne, Finset.mem_erase, List.mem_cons]
      tauto

/- It logs each release. -/
theorem foldl_reapOne_log
    (fds : List Fd)
    (s : Server) :
    (fds.foldl reapOne s).log =
      s.log ++ fds.map Obs.released := by
  induction fds generalizing s with
  | nil => simp
  | cons a fds ih =>
      rw [List.foldl_cons, ih]
      simp [reapOne]

variable (s : Server)

/- So reap leaves the connections that are not dead. -/
theorem getElem?_reap (fd : Fd) :
    s.reap.conns[fd]? =
      if fd ∈ s.dead then none else s.conns[fd]? :=
  getElem?_foldl_reapOne s.dead s fd

/- Reaping only takes connections away. -/
theorem conn_of_reap
    {fd : Fd}
    {c : Conn}
    (hConn : s.reap.conns[fd]? = some c) :
    s.conns[fd]? = some c := by
  rw [getElem?_reap] at hConn
  split at hConn
  · cases hConn
  · exact hConn

/- It keeps their descriptors open. -/
theorem mem_opened_reap (fd : Fd) :
    fd ∈ s.reap.env.opened ↔
      fd ∈ s.env.opened ∧ fd ∉ s.dead :=
  mem_opened_foldl_reapOne s.dead s fd

@[simp] theorem reap_nextOwner :
    s.reap.nextOwner = s.nextOwner :=
  foldl_reapOne Server.nextOwner (fun _ _ => rfl) s.dead s

@[simp] theorem reap_lfd : s.reap.lfd = s.lfd :=
  foldl_reapOne Server.lfd (fun _ _ => rfl) s.dead s

@[simp] theorem reap_exch : s.reap.exch = s.exch :=
  foldl_reapOne Server.exch (fun _ _ => rfl) s.dead s

@[simp] theorem reap_ownerFd :
    s.reap.ownerFd = s.ownerFd :=
  foldl_reapOne Server.ownerFd (fun _ _ => rfl) s.dead s

@[simp] theorem reap_usernames :
    s.reap.usernames = s.usernames :=
  foldl_reapOne Server.usernames (fun _ _ => rfl) s.dead s

@[simp] theorem reap_sends :
    s.reap.env.sends = s.env.sends :=
  foldl_reapOne (fun s => s.env.sends) (fun _ _ => rfl)
    s.dead s

@[simp] theorem reap_dead : s.reap.dead = [] := rfl

/- It logs what it released. -/
@[simp] theorem reap_log :
    s.reap.log = s.log ++ s.dead.map Obs.released :=
  foldl_reapOne_log s.dead s

end Server

end SocketExchange

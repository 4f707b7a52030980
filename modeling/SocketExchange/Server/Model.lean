import SocketExchange.Machine.Run
import SocketExchange.Wire.Protocol

/-
  The exchange server (`server.cpp`): one thread, one event
  loop over non-blocking sockets.

  A reference `Conn& c` of the source is the key under which
  the connection sits in `conns_`. The answers of the kernel
  to `accept`, `recv` and `send`, and the iteration order of
  the hash map `conns_`, come with each event and are
  otherwise unconstrained. An answer list that runs out
  means that the call would block.

  `next_owner_` is an `int` in the source. It counts without
  a bound here: past `INT_MAX` the increment has no defined
  behaviour in the source, so those runs say nothing about
  the program.

  `Server.log` is history only: what was accepted, handled,
  queued, sent and closed, in order. No handler reads it.

  Key definitions include:
    * `Conn`, `Server`
    * `Server.queueOut`, `Server.tryFlush`
    * `Server.closeConn`, `Server.reap`
    * `Server.handleLine`
    * `Server.onReadable`
    * `Server.step`
    * `Server.Legal`
-/

------------------------------------------------------------
-- Connections And The Kernel
------------------------------------------------------------

namespace SocketExchange

/- A file descriptor number. -/
abbrev Fd := Int

inductive Role where
| unknown : Role
| trader : Role
| marketData : Role
deriving DecidableEq, Repr

structure Conn where
  fd : Fd
  ownerId : Int
  role : Role
  username : Bytes
  subs : Fin 2 → Bool
  input : LineBuffer
  out : OutBuffer
  writeEnabled : Bool
  closing : Bool
  dead : Bool

/- A connection as `on_accept` creates it. -/
def Conn.fresh (fd : Fd) (ownerId : Int) : Conn where
  fd := fd
  ownerId := ownerId
  role := .unknown
  username := []
  subs := fun _ => false
  input := LineBuffer.empty
  out := OutBuffer.empty
  writeEnabled := false
  closing := false
  dead := false

/- What one `send` returns. -/
inductive SendResult where
| sent : Nat → SendResult
| eintr : SendResult
| eagain : SendResult
| error : SendResult
deriving DecidableEq, Repr

/- The bytes of one successful `recv` into `tmp[4096]`. -/
structure Chunk where
  bytes : Bytes
  ne_nil : bytes ≠ []
  length_le : bytes.length ≤ 4096

/- What one `recv` returns. -/
inductive RecvResult where
| data : Chunk → RecvResult
| fin : RecvResult
| eintr : RecvResult
| eagain : RecvResult
| reset : RecvResult
| error : RecvResult

/- What one `accept` returns. -/
inductive AcceptResult where
| conn : Fd → AcceptResult
| eagain : AcceptResult
| eintr : AcceptResult
| aborted : AcceptResult
| outOfFds : AcceptResult
| error : AcceptResult
deriving DecidableEq, Repr

/- An order in which a hash map can be walked. -/
structure IterOrder where
  walk : List Fd → List Fd
  perm : ∀ keys, (walk keys).Perm keys

/-
  What surrounds the process: the connection descriptors
  that are open, the answers to the coming `send` calls, and
  the iteration order of `conns_`.
-/
structure Env where
  opened : Finset Fd
  sends : Fd → List SendResult
  order : IterOrder

end SocketExchange

------------------------------------------------------------
-- Server State
------------------------------------------------------------

namespace SocketExchange

/- Which call of `close_conn` ended a connection. -/
inductive CloseCause where
| drained : CloseCause
| sendError : CloseCause
| backlog : CloseCause
| fin : CloseCause
| eof : CloseCause
| recvError : CloseCause
deriving DecidableEq, Repr

/- One entry of the history, by the owner id concerned. -/
inductive Obs where
| accepted : Fd → Int → Obs
| line : Int → Bytes → Obs
| overlong : Int → Obs
| login : Int → Bytes → Obs
| subscribed : Int → Fin 2 → Bool → Obs
| called : Int → Call → Reply → Obs
| closing : Int → Obs
| queued : Int → Msg → Obs
| sent : Int → Bytes → Obs
| closed : Int → CloseCause → Nat → Obs
| released : Fd → Obs
deriving DecidableEq

structure Server where
  lfd : Fd
  nextOwner : Int
  conns : Std.ExtTreeMap Fd Conn
  ownerFd : Std.ExtTreeMap Int Fd
  usernames : Finset Bytes
  dead : List Fd
  exch : Exchange
  env : Env
  log : List Obs

namespace Server

/- The server right after `init`. -/
def init (lfd : Fd) (env : Env) : Server where
  lfd := lfd
  nextOwner := 1
  conns := ∅
  ownerFd := ∅
  usernames := ∅
  dead := []
  exch := Exchange.empty
  env := { env with opened := ∅ }
  log := []

/- Write through a reference to a connection. -/
def setConn (s : Server) (fd : Fd) (c : Conn) : Server :=
  { s with conns := s.conns.insert fd c }

/- Record history. -/
def note (s : Server) (o : Obs) : Server :=
  { s with log := s.log ++ [o] }

/- The answers left for the `send` calls on a descriptor. -/
def setSends
    (s : Server)
    (fd : Fd)
    (sends : List SendResult) : Server :=
  { s with
    env :=
      { s.env with
        sends := Function.update s.env.sends fd sends } }

def findLive (s : Server) (fd : Fd) : Option Conn :=
  match s.conns[fd]? with
  | none => none
  | some c => if c.dead then none else some c

end Server

end SocketExchange

------------------------------------------------------------
-- Teardown
------------------------------------------------------------

namespace SocketExchange

namespace Server

/- Give up a username, if there is one. -/
def releaseName
    (usernames : Finset Bytes)
    (name : Bytes) : Finset Bytes :=
  if name = [] then usernames else usernames.erase name

/-
  Mark a connection dead and release its name and its owner
  entry. The descriptor is closed in `reap`. The cause goes
  to the history only.
-/
def closeConn
    (s : Server)
    (fd : Fd)
    (why : CloseCause) : Server :=
  match s.conns[fd]? with
  | none => s
  | some c =>
      if c.dead then s
      else
        { s with
          conns := s.conns.insert fd { c with dead := true }
          usernames := releaseName s.usernames c.username
          ownerFd := s.ownerFd.erase c.ownerId
          dead := s.dead ++ [c.fd]
          log :=
            s.log ++
              [.closed c.ownerId why c.out.pending] }

/- Close one dead descriptor and erase its connection. -/
def reapOne (s : Server) (fd : Fd) : Server :=
  { s with
    conns := s.conns.erase fd
    env :=
      { s.env with opened := s.env.opened.erase fd }
    log := s.log ++ [.released fd] }

def reap (s : Server) : Server :=
  { s.dead.foldl reapOne s with dead := [] }

end Server

end SocketExchange

------------------------------------------------------------
-- Writing
------------------------------------------------------------

namespace SocketExchange

def kMaxOutBytes : Nat := 8 * 1024 * 1024

/- How the flush loop was left. -/
inductive FlushExit where
| drained : FlushExit
| blocked : FlushExit
| failed : FlushExit
deriving DecidableEq, Repr

structure FlushResult where
  exit : FlushExit
  out : OutBuffer
  sends : List SendResult
  wire : Bytes

/-
  The loop of `try_flush`: send until the buffer is empty,
  `send` would block, or it fails. A result of zero bytes is
  treated as a failure. `wire` is what `send` accepted.
-/
def flushLoop :
    List SendResult → OutBuffer → FlushResult
| [], out =>
    { exit := if out.isEmpty then .drained else .blocked
      out := out, sends := [], wire := [] }
| r :: rs, out =>
    if out.isEmpty then
      { exit := .drained, out := out
        sends := r :: rs, wire := [] }
    else
      match r with
      | .sent n =>
          if 0 < n then
            let rest := flushLoop rs (out.consume n)
            { rest with
              wire := out.bytes.take n ++ rest.wire }
          else
            { exit := .failed, out := out
              sends := rs, wire := [] }
      | .eintr => flushLoop rs out
      | .eagain =>
          { exit := .blocked, out := out
            sends := rs, wire := [] }
      | .error =>
          { exit := .failed, out := out
            sends := rs, wire := [] }

namespace Server

def tryFlush (s : Server) (fd : Fd) : Server :=
  match s.conns[fd]? with
  | none => s
  | some c =>
      if c.dead then s
      else
        let r := flushLoop (s.env.sends c.fd) c.out
        let s :=
          (s.setSends c.fd r.sends).note
            (.sent c.ownerId r.wire)
        match r.exit with
        | .blocked =>
            s.setConn fd
              { c with out := r.out, writeEnabled := true }
        | .failed =>
            (s.setConn fd { c with out := r.out }).closeConn
              fd .sendError
        | .drained =>
            let c :=
              { c with out := r.out, writeEnabled := false }
            if c.closing then
              (s.setConn fd c).closeConn fd .drained
            else
              s.setConn fd c

/-
  Queue a message and flush. A backlog over the cap drops
  the connection and its buffer.
-/
def queueOut (s : Server) (fd : Fd) (m : Msg) : Server :=
  match s.conns[fd]? with
  | none => s
  | some c =>
      if c.dead then s
      else
        let out := c.out.push m.text
        let s := s.note (.queued c.ownerId m)
        if out.pending > kMaxOutBytes then
          (s.setConn fd
            { c with out := out.clear }).closeConn
              fd .backlog
        else
          (s.setConn fd { c with out := out }).tryFlush fd

end Server

end SocketExchange

------------------------------------------------------------
-- Publishing
------------------------------------------------------------

namespace SocketExchange

namespace Server

/- Report a fill to the trader who owns the order, if live. -/
def notifyOwner
    (s : Server)
    (owner : Int)
    (m : Msg) : Server :=
  match s.ownerFd[owner]? with
  | none => s
  | some fd =>
      match s.findLive fd with
      | none => s
      | some _ => s.queueOut fd m

/- One turn of the loop over `conns_` in `publish`. -/
def notifySubscriber
    (t : Trade)
    (s : Server)
    (fd : Fd) : Server :=
  match s.conns[fd]? with
  | none => s
  | some c =>
      if c.role = .marketData ∧ c.subs t.inst = true ∧
          c.closing = false ∧ c.dead = false then
        s.queueOut fd (.trade t)
      else s

def publish (s : Server) (t : Trade) : Server :=
  let s := s.notifyOwner t.buyerOwner (.bought t)
  let s := s.notifyOwner t.sellerOwner (.sold t)
  (s.env.order.walk s.conns.keys).foldl
    (notifySubscriber t) s

end Server

end SocketExchange

------------------------------------------------------------
-- Commands
------------------------------------------------------------

namespace SocketExchange

namespace Server

/- `c.closing = true`. -/
def setClosing (s : Server) (fd : Fd) : Server :=
  match s.conns[fd]? with
  | none => s
  | some c =>
      (s.setConn fd { c with closing := true }).note
        (.closing c.ownerId)

/- What a successful LOGIN writes. -/
def grantLogin
    (s : Server)
    (fd : Fd)
    (c : Conn)
    (name : Bytes) : Server :=
  { s with
    conns :=
      s.conns.insert fd
        { c with role := .trader, username := name }
    usernames := insert name s.usernames
    ownerFd := s.ownerFd.insert c.ownerId c.fd
    log := s.log ++ [Obs.login c.ownerId name] }

def cmdLogin
    (s : Server)
    (fd : Fd)
    (tk : List Bytes) : Server :=
  match s.conns[fd]? with
  | none => s
  | some c =>
      match tk with
      | [_, name] =>
          if c.role = .marketData then
            s.queueOut fd
              (.error "not permitted for this client type")
          else if c.role = .trader then
            s.queueOut fd (.error "already logged in")
          else if name ∈ s.usernames then
            s.queueOut fd (.error "duplicate username")
          else
            (s.grantLogin fd c name).queueOut fd .ok
      | _ => s.queueOut fd (.error "bad arguments")

/- Call the exchange for the connection with this owner id. -/
def callExchange
    (s : Server)
    (owner : Int)
    (call : Call) : Server :=
  { s with
    exch := (s.exch.step call).1
    log :=
      s.log ++
        [Obs.called owner call (s.exch.step call).2] }

/- An order past every validation gate. -/
def acceptOrder
    (s : Server)
    (fd : Fd)
    (c : Conn)
    (side : Side)
    (inst : Fin 2)
    (qty price : UInt32) : Server :=
  let r := s.exch.submit side inst qty price c.ownerId []
  let s :=
    s.callExchange c.ownerId
      (.submit side inst qty price c.ownerId)
  r.2.2.foldl publish
    (s.queueOut fd (.orderAccepted r.2.1))

def cmdOrder
    (s : Server)
    (fd : Fd)
    (tk : List Bytes)
    (side : Side) : Server :=
  match s.conns[fd]? with
  | none => s
  | some c =>
      if c.role = .marketData then
        s.queueOut fd
          (.error "not permitted for this client type")
      else if c.role = .unknown then
        s.queueOut fd (.error "not logged in")
      else
        match tk with
        | [_, name, quantity, level] =>
            match instrumentIndex name with
            | none =>
                s.queueOut fd (.error "unknown instrument")
            | some inst =>
                match parseU32 quantity kMinValue
                    kMaxValue with
                | none =>
                    s.queueOut fd (.error "bad quantity")
                | some qty =>
                    match parseU32 level kMinValue
                        kMaxValue with
                    | none =>
                        s.queueOut fd (.error "bad price")
                    | some price =>
                        s.acceptOrder fd c side inst qty
                          price
        | _ => s.queueOut fd (.error "bad arguments")

def cmdCancel
    (s : Server)
    (fd : Fd)
    (tk : List Bytes) : Server :=
  match s.conns[fd]? with
  | none => s
  | some c =>
      if c.role = .marketData then
        s.queueOut fd
          (.error "not permitted for this client type")
      else if c.role = .unknown then
        s.queueOut fd (.error "not logged in")
      else
        match tk with
        | [_, text] =>
            match parseU32 text 0 kMaxOrderId with
            | none => s.queueOut fd (.error "bad order id")
            | some id =>
                let r := s.exch.cancel id c.ownerId
                let s :=
                  s.callExchange c.ownerId
                    (.cancel id c.ownerId)
                match r.2 with
                | .ok _ => s.queueOut fd (.orderCancelled id)
                | .error err => s.queueOut fd (.error err)
        | _ => s.queueOut fd (.error "bad arguments")

/- What a successful SUBSCRIBE or UNSUBSCRIBE writes. -/
def grantSubscribe
    (s : Server)
    (fd : Fd)
    (c : Conn)
    (inst : Fin 2)
    (on : Bool) : Server :=
  (s.setConn fd
    { c with
      role := .marketData
      subs := Function.update c.subs inst on }).note
    (.subscribed c.ownerId inst on)

def cmdSubscribe
    (s : Server)
    (fd : Fd)
    (tk : List Bytes)
    (on : Bool) : Server :=
  match s.conns[fd]? with
  | none => s
  | some c =>
      if c.role = .trader then
        s.queueOut fd
          (.error "not permitted for this client type")
      else
        match tk with
        | [_, name] =>
            match instrumentIndex name with
            | none =>
                s.queueOut fd (.error "unknown instrument")
            | some inst =>
                (s.grantSubscribe fd c inst on).queueOut
                  fd .ok
        | _ => s.queueOut fd (.error "bad arguments")

def cmdQuit (s : Server) (fd : Fd) : Server :=
  (s.setClosing fd).tryFlush fd

/- The commands, by their first field. -/
def dispatch
    (s : Server)
    (fd : Fd)
    (tk : List Bytes) : Server :=
  match tk with
  | [] => s
  | v :: _ =>
      if v = ascii "LOGIN" then s.cmdLogin fd tk
      else if v = ascii "BUY" then s.cmdOrder fd tk .buy
      else if v = ascii "SELL" then s.cmdOrder fd tk .sell
      else if v = ascii "CANCEL" then s.cmdCancel fd tk
      else if v = ascii "SUBSCRIBE" then
        s.cmdSubscribe fd tk true
      else if v = ascii "UNSUBSCRIBE" then
        s.cmdSubscribe fd tk false
      else if v = ascii "QUIT" then s.cmdQuit fd
      else s.queueOut fd (.error "unknown command")

def handleLine
    (s : Server)
    (fd : Fd)
    (line : Bytes) : Server :=
  match s.conns[fd]? with
  | none => s
  | some c =>
      (s.note (.line c.ownerId line)).dispatch fd
        (splitWs line)

end Server

end SocketExchange

------------------------------------------------------------
-- Reading
------------------------------------------------------------

namespace SocketExchange

namespace Server

/- The connection is dead or closing. -/
def isDone (s : Server) (fd : Fd) : Bool :=
  match s.conns[fd]? with
  | none => true
  | some c => c.dead || c.closing

/- What a line over the length limit is answered. -/
def refuseLong
    (s : Server)
    (fd : Fd)
    (c : Conn) : Server :=
  (s.note (.overlong c.ownerId)).queueOut fd
    (.error "line too long")

/-
  The inner loop of `on_readable`, over the lines of the
  buffer. The flag says that the handler returned. Every
  line shortens the buffer, which bounds the turns.
-/
def drainLines
    (fd : Fd) :
    Nat → Server → Server × Bool
| 0, s => (s, false)
| fuel + 1, s =>
    match s.conns[fd]? with
    | none => (s, true)
    | some c =>
        match c.input.nextLine with
        | .needMore => (s, false)
        | .tooLong =>
            (((s.refuseLong fd c).setClosing fd).tryFlush fd,
              true)
        | .ok line rest =>
            let s := s.setConn fd { c with input := rest }
            let s := s.handleLine fd line
            if s.isDone fd then (s, true)
            else drainLines fd fuel s

/- `c.in.append(tmp, n)` and the drain loop behind it. -/
def receive
    (s : Server)
    (fd : Fd)
    (bytes : Bytes) : Server × Bool :=
  match s.conns[fd]? with
  | none => (s, true)
  | some c =>
      let input := c.input.append bytes
      drainLines fd (input.size + 1)
        (s.setConn fd { c with input := input })

/- The receive loop of `on_readable`. -/
def recvLoop
    (fd : Fd)
    (eof : Bool) :
    List RecvResult → Server → Server
| [], s => if eof then s.closeConn fd .eof else s
| .data chunk :: rs, s =>
    match s.receive fd chunk.bytes with
    | (s, true) => s
    | (s, false) => recvLoop fd eof rs s
| .fin :: _, s => s.closeConn fd .fin
| .eintr :: rs, s => recvLoop fd eof rs s
| .eagain :: _, s =>
    if eof then s.closeConn fd .eof else s
| .reset :: _, s => s.closeConn fd .recvError
| .error :: _, s => s.closeConn fd .recvError

def onReadable
    (s : Server)
    (fd : Fd)
    (eof : Bool)
    (recvs : List RecvResult) : Server :=
  match s.findLive fd with
  | none => s
  | some _ => recvLoop fd eof recvs s

def onWritable (s : Server) (fd : Fd) : Server :=
  match s.findLive fd with
  | none => s
  | some _ => s.tryFlush fd

end Server

end SocketExchange

------------------------------------------------------------
-- Accepting
------------------------------------------------------------

namespace SocketExchange

namespace Server

/- Enter one accepted descriptor. -/
def acceptConn (s : Server) (cfd : Fd) : Server :=
  { s with
    nextOwner := s.nextOwner + 1
    conns :=
      s.conns.insertIfNew cfd (Conn.fresh cfd s.nextOwner)
    env :=
      { s.env with opened := insert cfd s.env.opened }
    log := s.log ++ [.accepted cfd s.nextOwner] }

/- Accept until the backlog is drained or `accept` fails. -/
def onAccept : List AcceptResult → Server → Server
| [], s => s
| .conn cfd :: rs, s => onAccept rs (s.acceptConn cfd)
| .eintr :: rs, s => onAccept rs s
| .aborted :: rs, s => onAccept rs s
| .eagain :: _, s => s
| .outOfFds :: _, s => s
| .error :: _, s => s

end Server

end SocketExchange

------------------------------------------------------------
-- The Event Loop
------------------------------------------------------------

namespace SocketExchange

inductive Filter where
| read : Filter
| write : Filter
deriving DecidableEq, Repr

/- An event as `kevent` reports it. -/
structure KEvent where
  ident : Fd
  filter : Filter
  eof : Bool
deriving DecidableEq, Repr

/- The kernel's answers while one event is handled. -/
structure Answers where
  accepts : List AcceptResult
  recvs : List RecvResult
  sends : Fd → List SendResult
  order : IterOrder

/- What the loop does next. -/
inductive Step where
| event : KEvent → Answers → Step
| reap : Step

namespace Server

/- The environment as it stands while an event is handled. -/
def withAnswers (s : Server) (a : Answers) : Server :=
  { s with
    env :=
      { s.env with sends := a.sends, order := a.order } }

/- Hand one event of the batch to its handler. -/
def onEvent
    (s : Server)
    (ev : KEvent)
    (a : Answers) : Server :=
  let s := s.withAnswers a
  if ev.ident = s.lfd then onAccept a.accepts s
  else
    match ev.filter with
    | .read => s.onReadable ev.ident ev.eof a.recvs
    | .write => s.onWritable ev.ident

def step (s : Server) : Step → Server
| .event ev a => s.onEvent ev a
| .reap => s.reap

/-
  One turn of `run`: the events of a batch in order, then
  `reap`.
-/
def batchSteps
    (batch : List (KEvent × Answers)) : List Step :=
  batch.map (fun e => .event e.1 e.2) ++ [.reap]

/- The event loop over the batches `kevent` returns. -/
def eventLoop
    (s : Server)
    (batches : List (List (KEvent × Answers))) : Server :=
  Machine.run step s (batches.flatMap batchSteps)

end Server

end SocketExchange

------------------------------------------------------------
-- Legal Steps
------------------------------------------------------------

namespace SocketExchange

namespace Server

/- `accept` returns a descriptor that is not open. -/
def AcceptsFresh : List AcceptResult → Server → Prop
| [], _ => True
| .conn cfd :: rs, s =>
    cfd ∉ s.env.opened ∧ cfd ≠ s.lfd ∧
      AcceptsFresh rs (s.acceptConn cfd)
| .eintr :: rs, s => AcceptsFresh rs s
| .aborted :: rs, s => AcceptsFresh rs s
| .eagain :: _, _ => True
| .outOfFds :: _, _ => True
| .error :: _, _ => True

/- What the kernel promises of a step. -/
def Legal (s : Server) : Step → Prop
| .event ev a =>
    ev.ident = s.lfd → AcceptsFresh a.accepts s
| .reap => True

/- The states of runs from a fresh server. -/
def Reachable (s : Server) : Prop :=
  ∃ lfd env steps,
    Machine.Permitted step Legal (init lfd env) steps ∧
      s = Machine.run step (init lfd env) steps

/- The states between the turns of the loop among them. -/
theorem eventLoop_reachable
    {lfd : Fd}
    {env : Env}
    {batches : List (List (KEvent × Answers))}
    (hLegal :
      Machine.Permitted step Legal (init lfd env)
        (batches.flatMap batchSteps)) :
    Reachable ((init lfd env).eventLoop batches) :=
  ⟨lfd, env, batches.flatMap batchSteps, hLegal, rfl⟩

end Server

end SocketExchange

import SocketExchange.Server.Bystander

/-
  Two runs that differ in one connection only.

  Servers that agree on everyone but the bystander `m` still
  agree after an event of another connection, or an accept,
  or a reaping. Together with what the steps of `m` leave
  alone this is an unwinding argument: `m` influences no one
  as long as it does not log in.

  Main declarations:
    * `Server.Agree`, `Server.Alike`
    * `Server.Agree.dispatch`
    * `Server.unseen_alike`, `Server.seen_alike`
    * `Server.bystander_cannot_interfere`
-/

------------------------------------------------------------
-- Servers That Differ In One Connection
------------------------------------------------------------

namespace SocketExchange

namespace Server

/- Two servers that differ in `m` alone, no trader in both. -/
structure Agree (m : Int) (s t : Server) : Prop where
  registry : Registry s
  noTrader : NoTrader m s
  apart : Apart m s t

/- Equal books are equal both ways. -/
theorem SameBooks.symm
    {s t : Server}
    (hSame : SameBooks s t) :
    SameBooks t s where
  lfd := hSame.lfd.symm
  nextOwner := hSame.nextOwner.symm
  exch := hSame.exch.symm

variable {m : Int} {s s' t t' u : Server}
variable {fd : Fd} {c : Conn}

/- Agreement goes both ways. -/
theorem Agree.symm
    (hAgree : Agree m s t) :
    Agree m t s where
  registry := hAgree.apart.registry
  noTrader := hAgree.apart.noTrader
  apart :=
    { books := hAgree.apart.books.symm
      registry := hAgree.registry
      noTrader := hAgree.noTrader
      ports := fun f => (hAgree.apart.ports f).symm }

/- Agreement composes. -/
theorem Agree.trans
    (hFirst : Agree m s t)
    (hSecond : Agree m t u) :
    Agree m s u where
  registry := hFirst.registry
  noTrader := hFirst.noTrader
  apart := hFirst.apart.trans hSecond.apart

/- The others have the same ports in both servers. -/
theorem Agree.port
    (hAgree : Agree m s t)
    (hConn : s.conns[fd]? = some c)
    (hOther : c.ownerId ≠ m) :
    t.port? fd =
      some
        { conn := c
          sends := s.env.sends fd
          log := logOf c.ownerId s.log } := by
  have hPorts := hAgree.apart.ports fd
  rw [port?_of_conn hConn, otherThan_of_ne hOther]
    at hPorts
  exact (otherThan_eq_some_iff.mp hPorts).1

/-
  The two servers hold the same record of every other
  connection.
-/
theorem Agree.conn
    (hAgree : Agree m s t)
    (hConn : s.conns[fd]? = some c)
    (hOther : c.ownerId ≠ m) :
    t.conns[fd]? = some c :=
  conn_of_port? (hAgree.port hConn hOther)

/- The same descriptors belong to others. -/
theorem Agree.isOther
    (hAgree : Agree m s t)
    (fd : Fd) :
    t.isOther m fd = s.isOther m fd := by
  rw [Bool.eq_iff_iff, isOther_eq_true_iff,
    isOther_eq_true_iff]
  constructor
  · rintro ⟨c, hConn, hOther⟩
    exact ⟨c, hAgree.symm.conn hConn hOther, hOther⟩
  · rintro ⟨c, hConn, hOther⟩
    exact ⟨c, hAgree.conn hConn hOther, hOther⟩

/- A live trader is not `m`, so it is in both servers. -/
theorem Agree.liveTrader
    (hAgree : Agree m s t)
    (hTrader : s.LiveTrader fd c) :
    t.LiveTrader fd c := by
  have hOther : c.ownerId ≠ m := fun hIs =>
    hAgree.noTrader fd c hTrader.conn hIs hTrader.role
  exact ⟨hAgree.conn hTrader.conn hOther, hTrader.live,
    hTrader.role⟩

/- The registries speak of live traders only. -/
theorem Agree.usernames
    (hAgree : Agree m s t) :
    t.usernames = s.usernames := by
  have hHalf :
      ∀ {a b : Server}, Agree m a b →
        a.usernames ⊆ b.usernames := by
    intro a b hAgree name hName
    rcases hAgree.registry.name_sound name hName with
      ⟨fd, c, hTrader, rfl⟩
    exact hAgree.apart.registry.name_complete fd c
      (hAgree.liveTrader hTrader)
  exact (hHalf hAgree.symm).antisymm (hHalf hAgree)

/- Owner ids lead to the same descriptors. -/
theorem Agree.ownerFd
    (hAgree : Agree m s t) :
    t.ownerFd = s.ownerFd := by
  have hHalf :
      ∀ {a b : Server}, Agree m a b →
        ∀ (owner : Int) (fd : Fd),
          a.ownerFd[owner]? = some fd →
            b.ownerFd[owner]? = some fd := by
    intro a b hAgree owner fd hEntry
    rcases hAgree.registry.owner_sound owner fd hEntry with
      ⟨c, hTrader, rfl⟩
    exact hAgree.apart.registry.owner_complete fd c
      (hAgree.liveTrader hTrader)
  ext1 owner
  apply Option.ext
  intro fd
  exact ⟨hHalf hAgree.symm owner fd, hHalf hAgree owner fd⟩

end Server

end SocketExchange

------------------------------------------------------------
-- Operations On Both Servers
------------------------------------------------------------

namespace SocketExchange

namespace Server

variable {m : Int} {s s' t t' : Server}
variable {fd : Fd} {c : Conn}

/- Both servers did to their books what they did. -/
theorem SameBooks.both
    (hSame : SameBooks s t)
    (hLeft : SameBooks s s')
    (hRight : SameBooks t t') :
    SameBooks s' t' :=
  (hLeft.symm.trans hSame).trans hRight

/- The same port written in both servers. -/
theorem Agree.write
    {q : Port}
    (hAgree : Agree m s t)
    (hLeft :
      ∀ f, s'.port? f =
        if f = fd then some q else s.port? f)
    (hRight :
      ∀ f, t'.port? f =
        if f = fd then some q else t.port? f)
    (hRole : q.conn.ownerId = m → q.conn.role ≠ .trader)
    (hReg : Registry s')
    (hReg' : Registry t')
    (hBooks : SameBooks s' t') :
    Agree m s' t' where
  registry := hReg
  noTrader := hAgree.noTrader.of_port hLeft hRole
  apart :=
    { books := hBooks
      registry := hReg'
      noTrader :=
        hAgree.apart.noTrader.of_port hRight hRole
      ports := by
        intro f
        rw [hLeft, hRight]
        split
        · rfl
        · exact hAgree.apart.ports f }

/-
  Output on another connection, told by what it leaves on
  the ports, keeps agreement.
-/
theorem Agree.output
    {F : Port → Port}
    (hF : Port.Output F)
    (hAgree : Agree m s t)
    (hConn : s.conns[fd]? = some c)
    (hOther : c.ownerId ≠ m)
    (hLeft :
      ∀ f, s'.port? f =
        if f = fd then (s.port? fd).map (·.whenLive F)
        else s.port? f)
    (hRight :
      ∀ f, t'.port? f =
        if f = fd then (t.port? fd).map (·.whenLive F)
        else t.port? f)
    (hReg : Registry s')
    (hReg' : Registry t')
    (hBooks : SameBooks s' t') :
    Agree m s' t' := by
  rw [port?_of_conn hConn] at hLeft
  rw [hAgree.port hConn hOther] at hRight
  have hSame :=
    Port.whenLive_same hF
      { conn := c
        sends := s.env.sends fd
        log := logOf c.ownerId s.log }
  exact hAgree.write hLeft hRight
    (fun hIs => absurd (hSame.ownerId.symm.trans hIs) hOther)
    hReg hReg' hBooks

/- So queueing a message does. -/
theorem Agree.queueOut
    (hAgree : Agree m s t)
    (hConn : s.conns[fd]? = some c)
    (hOther : c.ownerId ≠ m)
    (msg : Msg) :
    Agree m (s.queueOut fd msg) (t.queueOut fd msg) :=
  hAgree.output (Port.output_queue msg) hConn hOther
    (port?_queueOut hAgree.registry msg)
    (port?_queueOut hAgree.apart.registry msg)
    (hAgree.registry.queueOut fd msg)
    (hAgree.apart.registry.queueOut fd msg)
    (hAgree.apart.books.both (queueOut_sameBooks msg)
      (queueOut_sameBooks msg))

/- So does flushing. -/
theorem Agree.tryFlush
    (hAgree : Agree m s t)
    (hConn : s.conns[fd]? = some c)
    (hOther : c.ownerId ≠ m) :
    Agree m (s.tryFlush fd) (t.tryFlush fd) :=
  hAgree.output Port.output_flush hConn hOther
    (port?_tryFlush hAgree.registry)
    (port?_tryFlush hAgree.apart.registry)
    (hAgree.registry.tryFlush fd)
    (hAgree.apart.registry.tryFlush fd)
    (hAgree.apart.books.both tryFlush_sameBooks
      tryFlush_sameBooks)

/- So does closing. -/
theorem Agree.closeConn
    (hAgree : Agree m s t)
    (hConn : s.conns[fd]? = some c)
    (hOther : c.ownerId ≠ m)
    (why : CloseCause) :
    Agree m (s.closeConn fd why) (t.closeConn fd why) :=
  hAgree.output (Port.output_close why) hConn hOther
    (port?_closeConn hAgree.registry why)
    (port?_closeConn hAgree.apart.registry why)
    (hAgree.registry.closeConn fd why)
    (hAgree.apart.registry.closeConn fd why)
    (hAgree.apart.books.both (closeConn_sameBooks why)
      (closeConn_sameBooks why))

/- The same record written in both servers. -/
theorem Agree.rewrite
    {c' : Conn}
    {es : List Obs}
    (hAgree : Agree m s t)
    (hConn : s.conns[fd]? = some c)
    (hOther : c.ownerId ≠ m)
    (hLeft : Writes s s' fd c' es)
    (hRight : Writes t t' fd c' es)
    (hOwner : c'.ownerId = c.ownerId)
    (hAbout : ∀ e ∈ es, e.owner? = some c.ownerId)
    (hBooks : SameBooks s' t') :
    Agree m s' t' := by
  have hPort := hAgree.port hConn hOther
  have hSends : t.env.sends fd = s.env.sends fd := by
    rw [port?_of_conn (hAgree.conn hConn hOther)] at hPort
    injection hPort with hPort
    injection hPort
  have hLog :
      logOf c.ownerId t.log = logOf c.ownerId s.log := by
    rw [port?_of_conn (hAgree.conn hConn hOther)] at hPort
    injection hPort with hPort
    injection hPort
  have hLeftPort :=
    port?_rewrite c' (s.env.sends fd) es hAgree.registry
      hConn hLeft.conns hOwner hLeft.log hAbout
      (by simp [hLeft.sends])
  have hRightPort :=
    port?_rewrite c' (t.env.sends fd) es
      hAgree.apart.registry (hAgree.conn hConn hOther)
      hRight.conns hOwner hRight.log hAbout
      (by simp [hRight.sends])
  rw [hSends, hLog] at hRightPort
  exact hAgree.write hLeftPort hRightPort
    (fun hIs => absurd (hOwner.symm.trans hIs) hOther)
    hLeft.registry hRight.registry hBooks

/- Publishing, whatever the order of the walks. -/
theorem Agree.publishAll
    (hAgree : Agree m s t)
    (trades : List Trade) :
    Agree m (trades.foldl publish s)
      (trades.foldl publish t) := by
  have hSame :
      ∀ p : Port, p.conn.SameIdentity
        (p.pushAll
          (trades.flatMap (messagesFor p.conn))).conn :=
    fun p => Port.pushAll_same p _
  have hNo :
      ∀ {a : Server}, Registry a → NoTrader m a →
        NoTrader m (trades.foldl publish a) := by
    intro a hReg hNo f d hd hIs
    have hPort := port?_of_conn hd
    rw [(port?_publishAll trades hReg f).2] at hPort
    rcases Option.map_eq_some_iff.mp hPort with
      ⟨p, hp, hEq⟩
    have hIdentity := hSame p
    rw [hEq] at hIdentity
    rw [hIdentity.role]
    exact hNo f p.conn (conn_of_port? hp)
      (hIdentity.ownerId.symm.trans hIs)
  exact
    { registry :=
        (port?_publishAll trades hAgree.registry s.lfd).1
      noTrader := hNo hAgree.registry hAgree.noTrader
      apart :=
        { books :=
            hAgree.apart.books.both
              (publishAll_sameBooks trades)
              (publishAll_sameBooks trades)
          registry :=
            (port?_publishAll trades
              hAgree.apart.registry t.lfd).1
          noTrader :=
            hNo hAgree.apart.registry hAgree.apart.noTrader
          ports := by
            intro f
            rw [(port?_publishAll trades
                hAgree.apart.registry f).2,
              (port?_publishAll trades
                hAgree.registry f).2,
              otherThan_map (fun p => (hSame p).ownerId),
              otherThan_map (fun p => (hSame p).ownerId),
              hAgree.apart.ports f] } }

end Server

end SocketExchange

------------------------------------------------------------
-- Handlers On Both Servers
------------------------------------------------------------

namespace SocketExchange

namespace Server

variable {m : Int} {s t : Server} {fd : Fd} {c : Conn}

/- Marking another connection to close keeps it. -/
theorem Agree.setClosing
    (hAgree : Agree m s t)
    (hConn : s.conns[fd]? = some c)
    (hOther : c.ownerId ≠ m) :
    Agree m (s.setClosing fd) (t.setClosing fd) :=
  hAgree.rewrite hConn hOther
    (setClosing_writes hAgree.registry hConn)
    (setClosing_writes hAgree.apart.registry
      (hAgree.conn hConn hOther)) rfl
    (by simp [Obs.owner?])
    (hAgree.apart.books.both setClosing_sameBooks
      setClosing_sameBooks)

/- And so does changing its input. -/
theorem Agree.input
    (hAgree : Agree m s t)
    (hConn : s.conns[fd]? = some c)
    (hOther : c.ownerId ≠ m)
    (input : LineBuffer) :
    Agree m (s.setConn fd { c with input := input })
      (t.setConn fd { c with input := input }) :=
  hAgree.rewrite hConn hOther
    (input_writes hAgree.registry hConn input)
    (input_writes hAgree.apart.registry
      (hAgree.conn hConn hOther) input) rfl (by simp)
    (hAgree.apart.books.both ⟨rfl, rfl, rfl⟩
      ⟨rfl, rfl, rfl⟩)

/- The books agree, so the calls and their replies do. -/
theorem Agree.callExchange
    (hAgree : Agree m s t)
    (hConn : s.conns[fd]? = some c)
    (hOther : c.ownerId ≠ m)
    (call : Call) :
    Agree m (s.callExchange c.ownerId call)
      (t.callExchange c.ownerId call) := by
  have hExch := hAgree.apart.books.exch
  have hRight :=
    call_writes hAgree.apart.registry
      (hAgree.conn hConn hOther) call
  rw [hExch] at hRight
  refine hAgree.rewrite hConn hOther
    (call_writes hAgree.registry hConn call) hRight rfl
    (by simp [Obs.owner?]) ?_
  refine ⟨hAgree.apart.books.lfd,
    hAgree.apart.books.nextOwner, ?_⟩
  unfold Server.callExchange
  rw [hExch]

/- Both servers accept the same order. -/
theorem Agree.acceptOrder
    (hAgree : Agree m s t)
    (hConn : s.conns[fd]? = some c)
    (hOther : c.ownerId ≠ m)
    (side : Side)
    (inst : Fin 2)
    (qty price : UInt32) :
    Agree m (s.acceptOrder fd c side inst qty price)
      (t.acceptOrder fd c side inst qty price) := by
  unfold Server.acceptOrder
  dsimp only
  rw [hAgree.apart.books.exch]
  exact ((hAgree.callExchange hConn hOther _).queueOut hConn
    hOther _).publishAll _

/-
  The two answer a LOGIN of another connection in the same
  way.
-/
theorem Agree.cmdLogin
    {tk : List Bytes}
    (hAgree : Agree m s t)
    (hConn : s.conns[fd]? = some c)
    (hLive : c.dead = false)
    (hOther : c.ownerId ≠ m)
    (hFields : ∀ field ∈ tk, field ≠ []) :
    Agree m (s.cmdLogin fd tk) (t.cmdLogin fd tk) := by
  have hConn' := hAgree.conn hConn hOther
  have hReply := hAgree.queueOut hConn hOther
  unfold Server.cmdLogin
  rw [hConn, hConn', hAgree.usernames]
  dsimp only
  split
  · next name =>
      split
      · exact hReply _
      split
      · exact hReply _
      split
      · exact hReply _
      rename_i hMarket hTrader hTaken
      have hRole : c.role = .unknown :=
        Role.eq_unknown hMarket hTrader
      have hName : name ≠ [] := hFields name (by simp)
      have hGrant :=
        hAgree.rewrite hConn hOther
          (login_writes hAgree.registry hConn hLive hRole
            hName hTaken)
          (login_writes hAgree.apart.registry hConn' hLive
            hRole hName (hAgree.usernames ▸ hTaken)) rfl
          (by simp [Obs.owner?])
          (hAgree.apart.books.both ⟨rfl, rfl, rfl⟩
            ⟨rfl, rfl, rfl⟩)
      exact hGrant.queueOut
        (getElem?_setConn_self s fd _) hOther _
  · exact hReply _

/- A BUY or SELL as well. -/
theorem Agree.cmdOrder
    (hAgree : Agree m s t)
    (hConn : s.conns[fd]? = some c)
    (hOther : c.ownerId ≠ m)
    (tk : List Bytes)
    (side : Side) :
    Agree m (s.cmdOrder fd tk side)
      (t.cmdOrder fd tk side) := by
  have hReply := hAgree.queueOut hConn hOther
  unfold Server.cmdOrder
  rw [hConn, hAgree.conn hConn hOther]
  dsimp only
  split
  · exact hReply _
  split
  · exact hReply _
  split
  · next v name quantity level =>
      cases hInst : instrumentIndex name with
      | none => exact hReply _
      | some inst =>
          cases hQty :
              parseU32 quantity kMinValue kMaxValue with
          | none => exact hReply _
          | some qty =>
              cases hPrice :
                  parseU32 level kMinValue kMaxValue with
              | none => exact hReply _
              | some price =>
                  exact hAgree.acceptOrder hConn hOther side
                    inst qty price
  · exact hReply _

/- A CANCEL too. -/
theorem Agree.cmdCancel
    (hAgree : Agree m s t)
    (hConn : s.conns[fd]? = some c)
    (hOther : c.ownerId ≠ m)
    (tk : List Bytes) :
    Agree m (s.cmdCancel fd tk) (t.cmdCancel fd tk) := by
  have hReply := hAgree.queueOut hConn hOther
  unfold Server.cmdCancel
  rw [hConn, hAgree.conn hConn hOther,
    hAgree.apart.books.exch]
  dsimp only
  split
  · exact hReply _
  split
  · exact hReply _
  split
  · next v text =>
      cases hId : parseU32 text 0 kMaxOrderId with
      | none => exact hReply _
      | some id =>
          have hCalled :=
            hAgree.callExchange hConn hOther
              (.cancel id c.ownerId)
          have hAnswer := hCalled.queueOut hConn hOther
          dsimp only
          cases (s.exch.cancel id c.ownerId).2 with
          | ok _ => exact hAnswer _
          | error err => exact hAnswer _
  · exact hReply _

/- And so a SUBSCRIBE or UNSUBSCRIBE. -/
theorem Agree.cmdSubscribe
    (hAgree : Agree m s t)
    (hConn : s.conns[fd]? = some c)
    (hLive : c.dead = false)
    (hOther : c.ownerId ≠ m)
    (tk : List Bytes)
    (on : Bool) :
    Agree m (s.cmdSubscribe fd tk on)
      (t.cmdSubscribe fd tk on) := by
  have hConn' := hAgree.conn hConn hOther
  have hReply := hAgree.queueOut hConn hOther
  unfold Server.cmdSubscribe
  rw [hConn, hConn']
  dsimp only
  split
  · exact hReply _
  rename_i hTrader
  split
  · next v name =>
      cases hInst : instrumentIndex name with
      | none => exact hReply _
      | some inst =>
          have hGrant :=
            hAgree.rewrite hConn hOther
              (subscribe_writes hAgree.registry hConn hLive
                hTrader inst on)
              (subscribe_writes hAgree.apart.registry hConn'
                hLive hTrader inst on) rfl
              (by simp [Obs.owner?])
              (hAgree.apart.books.both ⟨rfl, rfl, rfl⟩
                ⟨rfl, rfl, rfl⟩)
          exact hGrant.queueOut
            (getElem?_setConn_self s fd _) hOther _
  · exact hReply _

/- The closing of a connection, and the flush behind it. -/
theorem Agree.cmdQuit
    (hAgree : Agree m s t)
    (hConn : s.conns[fd]? = some c)
    (hOther : c.ownerId ≠ m) :
    Agree m (s.cmdQuit fd) (t.cmdQuit fd) := by
  have hServes : Serves Guard.none s (s.setClosing fd) :=
    setClosing_serves
  rcases hServes.keeps hConn with ⟨d, hd, hSame, _⟩
  exact (hAgree.setClosing hConn hOther).tryFlush hd
    (hSame ▸ hOther)

/- A command of another connection is the same in both. -/
theorem Agree.dispatch
    {tk : List Bytes}
    (hAgree : Agree m s t)
    (hConn : s.conns[fd]? = some c)
    (hLive : c.dead = false)
    (hOther : c.ownerId ≠ m)
    (hFields : ∀ field ∈ tk, field ≠ []) :
    Agree m (s.dispatch fd tk) (t.dispatch fd tk) := by
  unfold Server.dispatch
  cases tk with
  | nil => exact hAgree
  | cons v fields =>
      dsimp only
      split
      · exact hAgree.cmdLogin hConn hLive hOther hFields
      split
      · exact hAgree.cmdOrder hConn hOther _ _
      split
      · exact hAgree.cmdOrder hConn hOther _ _
      split
      · exact hAgree.cmdCancel hConn hOther _
      split
      · exact hAgree.cmdSubscribe hConn hLive hOther _ _
      split
      · exact hAgree.cmdSubscribe hConn hLive hOther _ _
      split
      · exact hAgree.cmdQuit hConn hOther
      · exact hAgree.queueOut hConn hOther _

/- An entry about another connection. -/
theorem Agree.note
    (hAgree : Agree m s t)
    (hConn : s.conns[fd]? = some c)
    (hOther : c.ownerId ≠ m)
    (e : Obs)
    (hOwner : e.owner? = some c.ownerId) :
    Agree m (s.note e) (t.note e) :=
  hAgree.rewrite hConn hOther
    (note_writes hAgree.registry hConn e)
    (note_writes hAgree.apart.registry
      (hAgree.conn hConn hOther) e) rfl
    (by simp [hOwner])
    (hAgree.apart.books.both ⟨rfl, rfl, rfl⟩
      ⟨rfl, rfl, rfl⟩)

/- Hence any line of another connection keeps agreement. -/
theorem Agree.handleLine
    (hAgree : Agree m s t)
    (hConn : s.conns[fd]? = some c)
    (hLive : c.dead = false)
    (hOther : c.ownerId ≠ m)
    (line : Bytes) :
    Agree m (s.handleLine fd line)
      (t.handleLine fd line) := by
  have hConn' := hAgree.conn hConn hOther
  unfold Server.handleLine
  rw [hConn, hConn']
  dsimp only
  have hNoted :=
    hAgree.note hConn hOther (.line c.ownerId line)
      (by simp [Obs.owner?])
  exact hNoted.dispatch hConn hLive hOther
    (fun _ => ne_nil_of_mem_splitWs)

/- The drain loop also returns in both or in none. -/
theorem Agree.drainLines
    (fuel : Nat)
    (hAgree : Agree m s t)
    (hConn : s.conns[fd]? = some c)
    (hLive : c.dead = false)
    (hOther : c.ownerId ≠ m) :
    Agree m (drainLines fd fuel s).1
        (drainLines fd fuel t).1 ∧
      (drainLines fd fuel t).2 =
        (drainLines fd fuel s).2 := by
  induction fuel generalizing s t c with
  | zero => exact ⟨hAgree, rfl⟩
  | succ fuel ih =>
      unfold Server.drainLines
      rw [hConn, hAgree.conn hConn hOther]
      dsimp only
      have hReady : Ready Guard.none s fd c :=
        ⟨hConn, hLive, False.elim⟩
      cases hLine : c.input.nextLine with
      | needMore => exact ⟨hAgree, rfl⟩
      | tooLong =>
          rcases hReady.tooLongReply.serves.keeps hConn
            with ⟨d, hd, hSame, _⟩
          have hNoted :=
            hAgree.note hConn hOther (.overlong c.ownerId)
              rfl
          have hReply :=
            hNoted.queueOut hConn hOther
              (.error "line too long")
          exact ⟨hReply.cmdQuit hd (hSame ▸ hOther), rfl⟩
      | ok line rest =>
          have hHandled :=
            (hAgree.input hConn hOther rest).handleLine
              (getElem?_setConn_self s fd _) hLive hOther
              line
          rcases (takeLine hAgree.registry hReady line
              rest).kept with ⟨d, hd, hSame, _⟩
          have hStill : d.ownerId ≠ m := hSame ▸ hOther
          have hd' := hHandled.conn hd hStill
          simp only [isDone, hd, hd']
          cases hDone : d.dead || d.closing with
          | true => exact ⟨hHandled, rfl⟩
          | false =>
              have hAlive : d.dead = false :=
                (Bool.or_eq_false_iff.mp hDone).1
              exact ih hHandled hd hAlive hStill

/- They take the same lines out of the same bytes. -/
theorem Agree.receive
    (hAgree : Agree m s t)
    (hConn : s.conns[fd]? = some c)
    (hLive : c.dead = false)
    (hOther : c.ownerId ≠ m)
    (bytes : Bytes) :
    Agree m (s.receive fd bytes).1
        (t.receive fd bytes).1 ∧
      (t.receive fd bytes).2 = (s.receive fd bytes).2 := by
  rw [receive_eq hConn,
    receive_eq (hAgree.conn hConn hOther)]
  exact (hAgree.input hConn hOther _).drainLines _
    (getElem?_setConn_self s fd _) hLive hOther

/- They read the same chunks. -/
theorem Agree.recvLoop
    {eof : Bool}
    (recvs : List RecvResult)
    (hAgree : Agree m s t)
    (hConn : s.conns[fd]? = some c)
    (hLive : c.dead = false)
    (hOther : c.ownerId ≠ m) :
    Agree m (recvLoop fd eof recvs s)
      (recvLoop fd eof recvs t) := by
  induction recvs generalizing s t c with
  | nil =>
      unfold Server.recvLoop
      split
      · exact hAgree.closeConn hConn hOther .eof
      · exact hAgree
  | cons r rs ih =>
      have hClose := hAgree.closeConn hConn hOther
      cases r with
      | data chunk =>
          rcases hAgree.receive hConn hLive hOther
              chunk.bytes with ⟨hReceived, hFlags⟩
          rw [recvLoop_data, recvLoop_data, hFlags]
          split
          · exact hReceived
          · next hNot =>
              have hFlag := Bool.eq_false_of_not_eq_true hNot
              rcases receive_keeps hAgree.registry hConn
                  hLive hFlag with ⟨d, hd, hAlive, hSame⟩
              exact ih hReceived hd hAlive (hSame ▸ hOther)
      | fin => exact hClose .fin
      | eintr => exact ih hAgree hConn hLive hOther
      | eagain =>
          unfold Server.recvLoop
          split
          · exact hClose .eof
          · exact hAgree
      | reset => exact hClose .recvError
      | error => exact hClose .recvError

end Server

end SocketExchange

------------------------------------------------------------
-- Steps On Both Servers
------------------------------------------------------------

namespace SocketExchange

/- The kernel has nothing to say. -/
def Answers.silence : Answers where
  accepts := []
  recvs := []
  sends := fun _ => []
  order := .sorted

namespace Server

/- Agreement between events, when no answers are pending. -/
def Alike (m : Int) (s t : Server) : Prop :=
  Agree m (s.withAnswers .silence) (t.withAnswers .silence)

variable {m : Int} {s t u : Server} {fd : Fd} {c : Conn}

/- New answers are given to the ports of others. -/
theorem otherThan_withAnswers
    (s : Server)
    (a : Answers)
    (f : Fd) :
    otherThan m ((s.withAnswers a).port? f) =
      (otherThan m (s.port? f)).map
        fun p => { p with sends := a.sends f } := by
  have hPort :
      (s.withAnswers a).port? f =
        (s.port? f).map
          fun p => { p with sends := a.sends f } := by
    unfold port?
    rw [Option.map_map]
    rfl
  rw [hPort]
  apply otherThan_map
  exact fun _ => rfl

/- The answers for the others have to be the same. -/
theorem Agree.answers
    {a b : Answers}
    (hAgree : Agree m s t)
    (hSends :
      ∀ f, s.isOther m f = true →
        b.sends f = a.sends f) :
    Agree m (s.withAnswers a) (t.withAnswers b) where
  registry := hAgree.registry.withAnswers a
  noTrader := hAgree.noTrader
  apart :=
    { books :=
        hAgree.apart.books.both ⟨rfl, rfl, rfl⟩
          ⟨rfl, rfl, rfl⟩
      registry := hAgree.apart.registry.withAnswers b
      noTrader := hAgree.apart.noTrader
      ports := by
        intro f
        rw [otherThan_withAnswers, otherThan_withAnswers,
          hAgree.apart.ports f]
        cases hPort : otherThan m (s.port? f) with
        | none => rfl
        | some p =>
            rcases otherThan_eq_some_iff.mp hPort with
              ⟨hp, hOther⟩
            have hIs :=
              isOther_eq_true_iff.mpr
                ⟨p.conn, conn_of_port? hp, hOther⟩
            simp only [Option.map_some, hSends f hIs] }

/- Servers that agree are alike. -/
theorem Agree.alike
    (hAgree : Agree m s t) :
    Alike m s t :=
  hAgree.answers (fun _ _ => rfl)

/- Being alike goes both ways. -/
theorem Alike.symm
    (hAlike : Alike m s t) :
    Alike m t s :=
  Agree.symm hAlike

/- Both servers have their registries right. -/
theorem Alike.registry
    (hAlike : Alike m s t) :
    Registry s :=
  (Agree.registry hAlike).of_eq rfl rfl rfl rfl rfl rfl

/- The bystander trades on neither. -/
theorem Alike.noTrader
    (hAlike : Alike m s t) :
    NoTrader m s := by
  have hNo := Agree.noTrader hAlike
  exact hNo

/- The records of the other connections are equal. -/
theorem Alike.conn
    (hAlike : Alike m s t)
    (hConn : s.conns[fd]? = some c)
    (hOther : c.ownerId ≠ m) :
    t.conns[fd]? = some c := by
  have hBoth := Agree.conn hAlike hConn hOther
  exact hBoth

/- The answers of an event, the same for the others. -/
theorem Alike.answers
    {a b : Answers}
    (hAlike : Alike m s t)
    (hSends :
      ∀ f, s.isOther m f = true →
        b.sends f = a.sends f) :
    Agree m (s.withAnswers a) (t.withAnswers b) := by
  have hAnswers := Agree.answers hAlike hSends
  exact hAnswers

/- The descriptors of others are the same. -/
theorem Alike.isOther
    (hAlike : Alike m s t)
    (fd : Fd) :
    t.isOther m fd = s.isOther m fd := by
  have hBoth := Agree.isOther hAlike fd
  exact hBoth

/- Being alike composes. -/
theorem Alike.trans
    (hFirst : Alike m s t)
    (hSecond : Alike m t u) :
    Alike m s u :=
  Agree.trans hFirst hSecond

/- A step that the others do not see changes nothing. -/
theorem unseen_alike
    {i : Step}
    (hReg : Registry s)
    (hNo : NoTrader m s)
    (hUnseen : view m s i = none)
    (hNoLogin :
      ∀ name, Obs.login m name ∉ (step s i).log) :
    Alike m s (step s i) := by
  cases i with
  | event ev a =>
      have hAgree :
          Agree m (s.withAnswers a)
            (step s (.event ev a)) :=
        ⟨hReg.withAnswers a, hNo,
          event_apart hReg hNo hUnseen hNoLogin⟩
      exact hAgree.alike
  | reap =>
      have hAgree : Agree m s s.reap :=
        ⟨hReg, hNo, reap_apart hReg hNo hUnseen⟩
      exact hAgree.alike

/- An event of another connection, with the same answers. -/
theorem Agree.event
    {ev : KEvent}
    {a b : Answers}
    (hAgree : Agree m (s.withAnswers a) (t.withAnswers b))
    (hRecvs : b.recvs = a.recvs)
    (hConn : s.conns[ev.ident]? = some c)
    (hOther : c.ownerId ≠ m)
    (hListen : ev.ident ≠ s.lfd) :
    Agree m (step s (.event ev a))
      (step t (.event ev b)) := by
  have hConn' : t.conns[ev.ident]? = some c :=
    hAgree.conn hConn hOther
  have hLfd : t.lfd = s.lfd := hAgree.apart.books.lfd
  have hListen' : ¬ ev.ident = t.lfd := hLfd ▸ hListen
  unfold step onEvent
  dsimp only [withAnswers] at hAgree ⊢
  rw [if_neg hListen, if_neg hListen', hRecvs]
  unfold onReadable onWritable findLive
  dsimp only
  rw [hConn, hConn']
  dsimp only
  cases hDead : c.dead with
  | true => cases ev.filter <;> exact hAgree
  | false =>
      cases ev.filter with
      | read =>
          exact hAgree.recvLoop a.recvs hConn hDead hOther
      | write => exact hAgree.tryFlush hConn hOther

/- Nothing is known about a connection to come. -/
theorem History.logOf_nextOwner
    (hHist : History s) :
    logOf s.nextOwner s.log = [] := by
  unfold logOf
  rw [List.filter_eq_nil_iff]
  intro e he hIs
  rcases List.append_of_mem he with ⟨pre, post, hSplit⟩
  have hJust := hHist.traced pre e post hSplit
  have hAccepted :
      s.nextOwner ∈ acceptedOwners s.log := by
    rw [hSplit, acceptedOwners_append]
    rcases hJust.accepted (of_decide_eq_true hIs) with
      ⟨cfd, rfl⟩ | hBefore
    · exact List.mem_append_right _ List.mem_cons_self
    · exact List.mem_append_left _ hBefore
  have hLt := hHist.accepted_lt _ hAccepted
  omega

/- The port of an accepted connection. -/
theorem port?_acceptConn
    {cfd : Fd}
    (hReg : Registry s)
    (hHist : History s)
    (hFresh : cfd ∉ s.env.opened)
    (f : Fd) :
    ((s.acceptConn cfd).withAnswers .silence).port? f =
      if f = cfd then
        some
          { conn := Conn.fresh cfd s.nextOwner
            sends := []
            log := [.accepted cfd s.nextOwner] }
      else (s.withAnswers .silence).port? f := by
  have hNone := hReg.none_of_fresh hFresh
  have hAbout :
      ∀ e ∈ [Obs.accepted cfd s.nextOwner],
        e.owner? = some s.nextOwner := by
    simp [Obs.owner?]
  unfold port?
  dsimp only [withAnswers]
  rw [acceptConn_conns hNone, getElem?_insert_fd]
  change Option.map (fun c : Conn =>
    ({ conn := c
       sends := []
       log :=
        logOf c.ownerId
          (s.log ++ [.accepted cfd s.nextOwner]) } :
      Port)) _ = _
  split
  · rw [Option.map_some]
    dsimp only [Conn.fresh]
    rw [logOf_append, hHist.logOf_nextOwner,
      logOf_of_about hAbout, List.nil_append]
  · cases hConn : s.conns[f]? with
    | none => rfl
    | some d =>
        have hRange := hReg.owner_range f d hConn
        have hNe : d.ownerId ≠ s.nextOwner := by omega
        simp only [Option.map_some]
        rw [logOf_append, logOf_of_other hAbout hNe,
          List.append_nil]
        rfl

/- Both accept the same new connection. -/
theorem Alike.accept
    {cfd : Fd}
    (hAlike : Alike m s t)
    (hLeft : History s)
    (hRight : History t)
    (hFresh : cfd ∉ s.env.opened)
    (hFresh' : cfd ∉ t.env.opened) :
    Alike m (s.acceptConn cfd) (t.acceptConn cfd) := by
  have hReg := hAlike.registry
  have hReg' := hAlike.symm.registry
  have hOwner : t.nextOwner = s.nextOwner :=
    (Agree.apart hAlike).books.nextOwner
  have hLeftPort := port?_acceptConn hReg hLeft hFresh
  have hRightPort := port?_acceptConn hReg' hRight hFresh'
  rw [hOwner] at hRightPort
  refine Agree.write hAlike hLeftPort hRightPort
    (fun _ h => by cases h) ?_ ?_ ?_
  · exact (hReg.accept hFresh).withAnswers _
  · exact (hReg'.accept hFresh').withAnswers _
  · refine ⟨(Agree.apart hAlike).books.lfd, ?_,
      (Agree.apart hAlike).books.exch⟩
    change t.nextOwner + 1 = s.nextOwner + 1
    rw [hOwner]

/- The same for as many as there are. -/
theorem Alike.onAccept
    {accepts : List AcceptResult}
    (hAlike : Alike m s t)
    (hLeft : History s)
    (hRight : History t)
    (hFresh : AcceptsFresh accepts s)
    (hFresh' : AcceptsFresh accepts t) :
    Alike m (onAccept accepts s) (onAccept accepts t) := by
  induction accepts generalizing s t with
  | nil => exact hAlike
  | cons r rs ih =>
      cases r with
      | conn cfd =>
          have hEnter :
              ∀ {a : Server}, Registry a → History a →
                AcceptsFresh (.conn cfd :: rs) a →
                  History (a.acceptConn cfd) := by
            intro a hReg hHist hFresh
            have hAct : Act Guard.none a (a.acceptConn cfd) :=
              .accept hFresh.1 hFresh.2.1
            exact hHist.act hReg hAct
          exact ih
            (hAlike.accept hLeft hRight hFresh.1 hFresh'.1)
            (hEnter hAlike.registry hLeft hFresh)
            (hEnter hAlike.symm.registry hRight hFresh')
            hFresh.2.2 hFresh'.2.2
      | eagain => exact hAlike
      | eintr => exact ih hAlike hLeft hRight hFresh hFresh'
      | aborted =>
          exact ih hAlike hLeft hRight hFresh hFresh'
      | outOfFds => exact hAlike
      | error => exact hAlike

/- Reaping, when the dead among the others are the same. -/
theorem Agree.reap
    (hAgree : Agree m s t) :
    Agree m s.reap t.reap where
  registry := hAgree.registry.reap
  noTrader := hAgree.noTrader.reap
  apart :=
    { books :=
        hAgree.apart.books.both
          ⟨reap_lfd s, reap_nextOwner s, reap_exch s⟩
          ⟨reap_lfd t, reap_nextOwner t, reap_exch t⟩
      registry := hAgree.apart.registry.reap
      noTrader := hAgree.apart.noTrader.reap
      ports := by
        intro f
        have hNone :
            ∀ (a : Server),
              otherThan m (a.port? f) = none →
                otherThan m (a.reap.port? f) = none := by
          intro a hNot
          rw [port?_reap]
          split
          · rfl
          · exact hNot
        cases hPort : otherThan m (s.port? f) with
        | none =>
            have hPort' := hAgree.apart.ports f
            rw [hPort] at hPort'
            rw [hNone s hPort, hNone t hPort']
        | some p =>
            rcases otherThan_eq_some_iff.mp hPort with
              ⟨hp, hOther⟩
            have hConn := conn_of_port? hp
            have hConn' := hAgree.conn hConn hOther
            have hDead : f ∈ t.dead ↔ f ∈ s.dead := by
              rw [hAgree.apart.registry.dead_iff,
                hAgree.registry.dead_iff, hConn, hConn']
            rw [port?_reap, port?_reap, if_congr hDead rfl rfl]
            split
            · rfl
            · exact hAgree.apart.ports f }

/- Reaping does not ask the sockets. -/
theorem reap_withAnswers
    (s : Server)
    (a : Answers) :
    (s.withAnswers a).reap = s.reap.withAnswers a := by
  have hLoop :
      ∀ (fds : List Fd) (s : Server),
        fds.foldl reapOne (s.withAnswers a) =
          (fds.foldl reapOne s).withAnswers a := by
    intro fds
    induction fds with
    | nil => exact fun _ => rfl
    | cons fd fds ih => exact fun s => ih (reapOne s fd)
  unfold Server.reap
  change { s.dead.foldl reapOne (s.withAnswers a) with
    dead := [] } = _
  rw [hLoop]
  rfl

/- Two steps that look the same to the others. -/
theorem seen_alike
    {i j : Step}
    {v : Seen}
    (hAlike : Alike m s t)
    (hLeft : History s)
    (hRight : History t)
    (hLegal : Legal s i)
    (hLegal' : Legal t j)
    (hSeen : view m s i = some v)
    (hSeen' : view m t j = some v) :
    Alike m (step s i) (step t j) := by
  cases v with
  | accepts l =>
      rcases view_eq_accepts hSeen with
        ⟨ev, a, rfl, hListen, rfl⟩
      rcases view_eq_accepts hSeen' with
        ⟨ev', b, rfl, hListen', hSame⟩
      have hFresh := hLegal hListen
      have hFresh' := hLegal' hListen'
      unfold step onEvent
      dsimp only [withAnswers]
      rw [if_pos hListen, if_pos hListen', hSame]
      have hReg := hAlike.registry
      have hReg' := hAlike.symm.registry
      have hAct : Act Guard.none s (s.withAnswers a) :=
        .answers a
      have hAct' : Act Guard.none t (t.withAnswers b) :=
        .answers b
      rw [hSame] at hFresh'
      exact Alike.onAccept hAlike (hLeft.act hReg hAct)
        (hRight.act hReg' hAct') (hFresh.withAnswers a)
        (hFresh'.withAnswers b)
  | handles ev recvs sends =>
      rcases view_eq_handles hSeen with
        ⟨a, rfl, hListen, hIs, rfl, hSends⟩
      rcases view_eq_handles hSeen' with
        ⟨b, rfl, _, _, hRecvs, hSends'⟩
      rcases isOther_eq_true_iff.mp hIs with
        ⟨c, hConn, hOther⟩
      have hAnswers :
          Agree m (s.withAnswers a) (t.withAnswers b) := by
        refine hAlike.answers ?_
        intro f hf
        have hf' : t.isOther m f = true :=
          (hAlike.isOther f).trans hf
        have hEq := congrFun (hSends'.trans hSends.symm) f
        rwa [if_pos hf', if_pos hf] at hEq
      exact (hAnswers.event hRecvs hConn hOther
        hListen).alike
  | reaps =>
      have hReap := view_eq_reaps hSeen
      have hReap' := view_eq_reaps hSeen'
      subst hReap hReap'
      have hBoth := Agree.reap hAlike
      rw [reap_withAnswers, reap_withAnswers] at hBoth
      exact hBoth

end Server

end SocketExchange

------------------------------------------------------------
-- The Bystander
------------------------------------------------------------

namespace SocketExchange

namespace Server

variable {m : Int} {s : Server}

/- The kernel keeps its word and `m` does not log in. -/
structure Spectates
    (m : Int)
    (s : Server)
    (i : Step) : Prop where
  legal : Legal s i
  history : History s
  noLogin : ∀ name, Obs.login m name ∉ (step s i).log

/- No login at the end means none on the way. -/
theorem spectates_of_no_login
    {lfd : Fd}
    {env : Env}
    {steps : List Step}
    (hLegal :
      Machine.Permitted step Legal (init lfd env) steps)
    (hNoLogin :
      ∀ name, Obs.login m name ∉
        (Machine.run step (init lfd env) steps).log) :
    Machine.Permitted step (Spectates m) (init lfd env)
      steps := by
  have hStep :
      ∀ s i, Registry s ∧ History s → Legal s i →
        Acts Guard.none s (step s i) := by
    intro s i hInv hLegal
    exact step_acts hInv.1 hLegal (Guard.none_spares s i)
  refine (Machine.permitted_of_good
    (fun s => Registry s ∧ History s)
    (fun s => ∀ name, Obs.login m name ∉ s.log)
    ?_ ?_ ⟨registry_init lfd env, history_init lfd env⟩
    hLegal hNoLogin).2
  · intro s i hInv hLegal
    refine Acts.invariant
      (fun s => Registry s ∧ History s) ?_
      (hStep s i hInv hLegal) hInv
    rintro a b ⟨hReg, hHist⟩ hAct
    exact ⟨hReg.act hAct, hHist.act hReg hAct⟩
  · intro s i hInv hLegal hNone
    have hMore := (hStep s i hInv hLegal).log_grows
    exact ⟨fun name hMem => hNone name (hMore.subset hMem),
      hLegal, hInv.2, hNone⟩

/- The empty servers differ in nothing. -/
theorem alike_init
    (m : Int)
    (lfd : Fd)
    (env env' : Env) :
    Alike m (init lfd env) (init lfd env') := by
  have hReg :
      ∀ env, Registry
        ((init lfd env).withAnswers .silence) :=
    fun env => (registry_init lfd env).withAnswers _
  have hNo :
      ∀ env, NoTrader m
        ((init lfd env).withAnswers .silence) := by
    intro env f d hd
    simp [init, withAnswers] at hd
  exact ⟨hReg env, hNo env,
    ⟨⟨rfl, rfl, rfl⟩, hReg env', hNo env', fun _ => rfl⟩⟩

/- A trader fills one of its own orders. -/
def tradingRead : Step :=
  .reads 6
    [.data
      ⟨ascii "LOGIN ann\nSELL IMCT 5 9\nBUY IMCT 3 9\n",
        by decide, by decide⟩]
    (fun _ => [])

/- The bystander listens in, on a slow connection. -/
def listeningSteps : List Step :=
  [.connects 5, .connects 6,
    .reads 5
      [.data ⟨ascii "SUBSCRIBE IMCT\n", by decide,
        by decide⟩]
      (fun _ => [.sent 1, .eagain]),
    tradingRead]

/- The bystander leaves before the others start. -/
def leavingSteps : List Step :=
  [.connects 5, .connects 6, .reads 5 [.fin] (fun _ => []),
    .reap, tradingRead]

/-
  The rest of the world sees a read on another connection in
  full.
-/
theorem view_reads
    {fd : Fd}
    {recvs : List RecvResult}
    (hListen : fd ≠ s.lfd)
    (hIs : s.isOther m fd = true) :
    view m s (.reads fd recvs (fun _ => [])) =
      some (.handles ⟨fd, .read, false⟩ recvs
        (fun _ => [])) := by
  simp [view, Step.reads, hListen, hIs]

/- The others cannot tell the two runs apart. -/
theorem views_listening_leaving :
    Machine.views step (view 1) listening listeningSteps =
      Machine.views step (view 1) listening
        leavingSteps := by
  have hTrading :
      ∀ s : Server, s.lfd = 3 → s.isOther 1 6 = true →
        view 1 s tradingRead =
          some (.handles ⟨6, .read, false⟩ _
            (fun _ => [])) :=
    fun s hLfd hIs => view_reads (by rw [hLfd]; decide) hIs
  unfold listeningSteps leavingSteps
  simp only [Machine.views]
  rw [hTrading _ (by decide) (by decide),
    hTrading _ (by decide) (by decide)]
  rfl

/- The entry of a login of one connection. -/
def isLoginOf (m : Int) : Obs → Bool
| .login owner _ => owner == m
| _ => false

/- There is none of them if a search finds none. -/
theorem no_login_of_any
    {log : List Obs}
    (hNone : log.any (isLoginOf m) = false) :
    ∀ name, Obs.login m name ∉ log := by
  intro name hMem
  have hNot := List.any_eq_false.mp hNone _ hMem
  simp [isLoginOf] at hNot

/-
  A connection that never logs in influences no one else.
  Take two runs that the others cannot tell apart: the same
  accepts, the same events and socket answers for every
  other connection, in the same order. Whatever `m` does in
  either run, the exchange, the registries and every other
  connection, with all that was queued on it, end the same.
-/
theorem bystander_cannot_interfere
    {m : Int}
    {lfd : Fd}
    {env env' : Env}
    {steps steps' : List Step}
    (hLegal :
      Machine.Permitted step Legal (init lfd env) steps)
    (hLegal' :
      Machine.Permitted step Legal (init lfd env') steps')
    (hViews :
      Machine.views step (view m) (init lfd env) steps =
        Machine.views step (view m) (init lfd env') steps')
    (hNoLogin :
      ∀ name, Obs.login m name ∉
        (Machine.run step (init lfd env) steps).log)
    (hNoLogin' :
      ∀ name, Obs.login m name ∉
        (Machine.run step (init lfd env') steps').log) :
    let s := Machine.run step (init lfd env) steps
    let t := Machine.run step (init lfd env') steps'
    s.exch = t.exch ∧
      s.usernames = t.usernames ∧
      s.ownerFd = t.ownerFd ∧
      (∀ (fd : Fd) (c : Conn), c.ownerId ≠ m →
        (s.conns[fd]? = some c ↔ t.conns[fd]? = some c)) ∧
      (∀ (fd : Fd) (c : Conn), s.conns[fd]? = some c →
        c.ownerId ≠ m →
          logOf c.ownerId s.log =
            logOf c.ownerId t.log) := by
  intro s t
  have hAlike : Alike m s t := by
    refine Machine.unwinding ?_ ?_ ?_
      (alike_init m lfd env env')
      (spectates_of_no_login hLegal hNoLogin)
      (spectates_of_no_login hLegal' hNoLogin') hViews
    · intro s t i hAlike hSpec hUnseen
      exact (unseen_alike hAlike.registry
        hAlike.noTrader hUnseen
        hSpec.noLogin).symm.trans hAlike
    · intro s t i hAlike hSpec hUnseen
      exact hAlike.trans
        (unseen_alike hAlike.symm.registry
          hAlike.symm.noTrader hUnseen
          hSpec.noLogin)
    · intro s t i j v hAlike hSpec hSpec' hSeen hSeen'
      exact seen_alike hAlike hSpec.history hSpec'.history
        hSpec.legal hSpec'.legal hSeen hSeen'
  refine ⟨(Agree.apart hAlike).books.exch.symm,
    (Agree.usernames hAlike).symm,
    (Agree.ownerFd hAlike).symm, ?_, ?_⟩
  · intro fd c hOther
    exact ⟨fun hConn => hAlike.conn hConn hOther,
      fun hConn => hAlike.symm.conn hConn hOther⟩
  · intro fd c hConn hOther
    have hPort := Agree.port hAlike hConn hOther
    rw [port?_of_conn (Agree.conn hAlike hConn hOther)]
      at hPort
    injection hPort with hPort
    injection hPort with _ _ hLog
    exact hLog.symm

/- The bystander is there in one run and gone in the other. -/
theorem bystander_cannot_interfere_leaving :
    let s := Machine.run step listening listeningSteps
    let t := Machine.run step listening leavingSteps
    s.exch = t.exch ∧ s.usernames = t.usernames ∧
      s.isOther 2 5 = true ∧ t.isOther 2 5 = false := by
  have hLegal :
      Machine.Permitted step Legal listening
        listeningSteps :=
    ⟨fun _ => ⟨by decide, by decide, trivial⟩,
      fun _ => ⟨by decide, by decide, trivial⟩,
      fun h => absurd h (by decide),
      fun h => absurd h (by decide), trivial⟩
  have hLegal' :
      Machine.Permitted step Legal listening leavingSteps :=
    ⟨fun _ => ⟨by decide, by decide, trivial⟩,
      fun _ => ⟨by decide, by decide, trivial⟩,
      fun h => absurd h (by decide), trivial,
      fun h => absurd h (by decide), trivial⟩
  have hSame :=
    bystander_cannot_interfere hLegal hLegal'
      views_listening_leaving
      (no_login_of_any (by decide))
      (no_login_of_any (by decide))
  exact ⟨hSame.1, hSame.2.1, by decide, by decide⟩

end Server

end SocketExchange

import SocketExchange.Server.Closing

/-
  How much input a connection holds.

  The drain loop stops when no line is left, and then the
  buffer is short; or it returns with the connection dead or
  closing, and leaves what it had. As long as a closing
  connection is sent nothing more, one chunk on top of the
  limit is the most that is ever held. But `on_readable`
  does not look at `closing`: it appends a chunk of up to
  4096 bytes to the buffer of a closing connection too,
  takes one line off and returns.

  Main declarations:
    * `Withheld`
    * `Server.Contained`
    * `Server.recvLoop_contained`
    * `Server.inbound_bounded`
    * `Server.flood_overruns`
-/

------------------------------------------------------------
-- What A Connection Holds
------------------------------------------------------------

namespace SocketExchange

namespace LineBuffer

/- A buffer without a line is within the limit. -/
theorem size_le_of_needMore
    {b : LineBuffer}
    (hMore : b.nextLine = .needMore) :
    b.size ≤ kMaxLine := by
  unfold nextLine at hMore
  split at hMore
  · split at hMore
    · cases hMore
    · next hShort => exact Nat.le_of_not_lt hShort
  · cases hMore

/- An append adds the bytes it brings. -/
theorem size_append
    (b : LineBuffer)
    (bytes : Bytes) :
    (b.append bytes).size = b.size + bytes.length :=
  List.length_append

end LineBuffer

/-
  What a live connection holds between two events: at most
  the limit and one chunk, and no line unless it is closing.
-/
def Conn.Held (c : Conn) : Prop :=
  c.dead = false →
    c.input.size ≤ LineBuffer.kMaxLine + 4096 ∧
      (c.closing = false → c.input.nextLine = .needMore)

/- A fresh connection holds no bytes. -/
theorem Conn.held_fresh (fd : Fd) (ownerId : Int) :
    (Conn.fresh fd ownerId).Held :=
  fun _ => ⟨Nat.zero_le _, fun _ => rfl⟩

/- A dead one is not asked for any bound. -/
theorem Conn.held_of_dead
    {c : Conn}
    (hDead : c.dead = true) :
    c.Held := by
  intro hLive
  rw [hDead] at hLive
  cases hLive

/- A later state of a connection that was sent nothing. -/
structure Conn.Older (c d : Conn) : Prop where
  input : d.input = c.input
  dead : d.dead = false → c.dead = false
  closing : d.closing = false → c.closing = false

/- A connection that got older still keeps the bound. -/
theorem Conn.Older.held
    {c d : Conn}
    (hOlder : c.Older d)
    (hHeld : c.Held) :
    d.Held := by
  intro hLive
  rcases hHeld (hOlder.dead hLive) with ⟨hSize, hDrained⟩
  rw [hOlder.input]
  exact ⟨hSize, fun hOpen => hDrained (hOlder.closing hOpen)⟩

/- A step on a port makes its connection older. -/
theorem Conn.SameIdentity.older
    {c d : Conn}
    (hSame : c.SameIdentity d)
    (hLive : c.dead = false) :
    c.Older d :=
  ⟨hSame.input, fun _ => hLive,
    fun h => hSame.closing.symm.trans h⟩

end SocketExchange

------------------------------------------------------------
-- Handling Lines Brings No Input
------------------------------------------------------------

namespace SocketExchange

namespace Server

variable {G : Guard} {s s' : Server} {fd : Fd} {c c' : Conn}

/- Every connection was there before, with its input. -/
def Ages (s s' : Server) : Prop :=
  ∀ (f : Fd) (d : Conn), s'.conns[f]? = some d →
    ∃ e, s.conns[f]? = some e ∧ e.Older d

theorem Ages.refl (s : Server) : Ages s s :=
  fun _ d hd => ⟨d, hd, rfl, id, id⟩

/- Ageing composes. -/
theorem Ages.trans
    {s'' : Server}
    (hFirst : Ages s s')
    (hSecond : Ages s' s'') :
    Ages s s'' := by
  intro f d hd
  rcases hSecond f d hd with ⟨e, he, hLater⟩
  rcases hFirst f e he with ⟨g, hg, hEarlier⟩
  exact ⟨g, hg, hLater.input.trans hEarlier.input,
    fun h => hEarlier.dead (hLater.dead h),
    fun h => hEarlier.closing (hLater.closing h)⟩

/- Writing back an older record ages the server. -/
theorem ages_of_insert
    (hConn : s.conns[fd]? = some c)
    (hConns : s'.conns = s.conns.insert fd c')
    (hOlder : c.Older c') :
    Ages s s' := by
  intro f d hd
  rcases conn_of_insert hConns hd with
    ⟨rfl, rfl⟩ | ⟨_, hOld⟩
  · exact ⟨c, hConn, hOlder⟩
  · exact ⟨d, hOld, rfl, id, id⟩

/- Every step of a handler ages it. -/
theorem Serve.ages
    (hServe : Serve G s s') :
    Ages s s' := by
  cases hServe with
  | @queue fd c m hConn hLive _ _ _ =>
      exact ages_of_insert hConn (commit_conns s fd _)
        ((Port.queue_same (Port.ofConn s c) m).older hLive)
  | @flush fd c hConn hLive =>
      exact ages_of_insert hConn (commit_conns s fd _)
        ((Port.flush_same (Port.ofConn s c)).older hLive)
  | @closing fd c hConn =>
      have hConns :
          (s.setConn fd { c with closing := true }).conns =
            s.conns.insert fd { c with closing := true } :=
        rfl
      exact ages_of_insert hConn hConns
        ⟨rfl, id, fun h => by cases h⟩
  | line _ _ _ _ => exact .refl s
  | overlong _ _ _ => exact .refl s
  | login hConn _ _ _ _ _ =>
      exact ages_of_insert hConn grantLogin_conns
        ⟨rfl, id, id⟩
  | @subscribe fd c hConn _ _ _ inst on =>
      have hConns :
          (s.grantSubscribe fd c inst on).conns =
            s.conns.insert fd
              { c with
                role := .marketData
                subs := Function.update c.subs inst on } :=
        rfl
      exact ages_of_insert hConn hConns ⟨rfl, id, id⟩
  | call _ _ _ _ _ _ _ => exact .refl s

/- And so does a run of them. -/
theorem Serves.ages
    (hServes : Serves G s s') :
    Ages s s' := by
  induction hServes with
  | refl => exact .refl s
  | tail _ hLast ih => exact ih.trans hLast.ages

end Server

end SocketExchange

------------------------------------------------------------
-- Reading Leaves No Line
------------------------------------------------------------

namespace SocketExchange

/- The receive loop gets bytes. -/
def delivers : List RecvResult → Bool
| [] => false
| .data _ :: _ => true
| .eintr :: rs => delivers rs
| .fin :: _ => false
| .eagain :: _ => false
| .reset :: _ => false
| .error :: _ => false

namespace Server

variable {s s' : Server} {fd : Fd} {c c' : Conn}

/- All connections keep the bound. -/
def Contained (s : Server) : Prop :=
  ∀ (f : Fd) (d : Conn), s.conns[f]? = some d → d.Held

/- Ageing keeps them contained. -/
theorem Ages.contained
    (hAges : Ages s s')
    (hInv : Contained s) :
    Contained s' := by
  intro f d hd
  rcases hAges f d hd with ⟨e, he, hOlder⟩
  exact hOlder.held (hInv f e he)

/- All connections but the one that is being read. -/
def Others (fd : Fd) (s : Server) : Prop :=
  ∀ (f : Fd) (d : Conn), f ≠ fd →
    s.conns[f]? = some d → d.Held

/- In particular all but one. -/
theorem Contained.others
    (hInv : Contained s)
    (fd : Fd) :
    Others fd s :=
  fun f d _ hd => hInv f d hd

/- Writing back the one leaves the others. -/
theorem Others.insert
    (hOthers : Others fd s)
    (hConns : s'.conns = s.conns.insert fd c') :
    Others fd s' := by
  intro f d hOther hd
  rcases conn_of_insert hConns hd with
    ⟨hSame, _⟩ | ⟨_, hOld⟩
  · exact absurd hSame hOther
  · exact hOthers f d hOther hOld

/- And so does ageing. -/
theorem Others.ages
    (hOthers : Others fd s)
    (hAges : Ages s s') :
    Others fd s' := by
  intro f d hOther hd
  rcases hAges f d hd with ⟨e, he, hOlder⟩
  exact hOlder.held (hOthers f e hOther he)

/- With the one under the bound, all are. -/
theorem Others.contained
    (hOthers : Others fd s)
    (hOwn : ∀ d, s.conns[fd]? = some d → d.Held) :
    Contained s := by
  intro f d hd
  by_cases hSame : f = fd
  · subst hSame
    exact hOwn d hd
  · exact hOthers f d hSame hd

/- A connection that is set to close and flushed. -/
theorem quit_closing
    {d : Conn}
    (hd :
      ((s.setClosing fd).tryFlush fd).conns[fd]? =
        some d) :
    d.closing = true := by
  cases hConn : s.conns[fd]? with
  | none =>
      rw [quit_of_none hConn, hConn] at hd
      cases hd
  | some c =>
      have hNow :
          (s.setClosing fd).conns[fd]? =
            some { c with closing := true } := by
        simp [setClosing, hConn, setConn, note]
      have hAges :
          Serves Guard.none (s.setClosing fd)
            ((s.setClosing fd).tryFlush fd) :=
        tryFlush_serves
      rcases hAges.ages fd d hd with ⟨e, he, hOlder⟩
      rw [hNow] at he
      injection he with he
      subst he
      by_contra hOpen
      have hWas :=
        hOlder.closing (Bool.eq_false_iff.mpr hOpen)
      cases hWas

/- A line that is too long leaves the buffer, and closes. -/
theorem tooLong_contained
    (hConn : s.conns[fd]? = some c)
    (hLive : c.dead = false)
    (hOthers : Others fd s)
    (hSize : c.input.size ≤ LineBuffer.kMaxLine + 4096) :
    Contained
      (((s.refuseLong fd c).setClosing fd).tryFlush fd) := by
  have hReady : Ready Guard.none s fd c :=
    ⟨hConn, hLive, False.elim⟩
  have hAges := hReady.tooLong.serves.ages
  apply (hOthers.ages hAges).contained
  intro d hd _
  rcases hAges fd d hd with ⟨e, he, hOlder⟩
  rw [hConn] at he
  injection he with he
  subst he
  rw [hOlder.input]
  refine ⟨hSize, ?_⟩
  intro hOpen
  rw [quit_closing hd] at hOpen
  cases hOpen

/- Handling a line takes it off the buffer, and no more. -/
theorem takeLine_spec
    (hReg : Registry s)
    (hConn : s.conns[fd]? = some c)
    (hLive : c.dead = false)
    (hOthers : Others fd s)
    (line : Bytes)
    (rest : LineBuffer) :
    let s' :=
      (s.setConn fd { c with input := rest }).handleLine fd
        line
    Registry s' ∧ Others fd s' ∧
      ∀ d, s'.conns[fd]? = some d → d.input = rest := by
  have hTake :
      Act Guard.none s
        (s.setConn fd { c with input := rest }) :=
    .input hConn rest
  have hTaken :
      (s.setConn fd { c with input := rest }).conns =
        s.conns.insert fd { c with input := rest } := rfl
  have hNow :=
    getElem?_setConn_self s fd { c with input := rest }
  have hReg' := hReg.act hTake
  have hReady :
      Ready Guard.none
        (s.setConn fd { c with input := rest }) fd
        { c with input := rest } :=
    ⟨hNow, hLive, False.elim⟩
  have hServes := handleLine_serves hReg' hReady line
  refine ⟨hReg'.serves hServes,
    (hOthers.insert hTaken).ages hServes.ages, ?_⟩
  intro d hd
  rcases hServes.ages fd d hd with ⟨e, he, hOlder⟩
  rw [hNow] at he
  injection he with he
  subst he
  exact hOlder.input

/-
  The drain loop puts the connection right again: it stops
  with no line left, or with the connection dead or closing
  and what is left of the buffer it began with.
-/
theorem drainLines_contained
    (fuel : Nat)
    (hReg : Registry s)
    (hConn : s.conns[fd]? = some c)
    (hLive : c.dead = false)
    (hOthers : Others fd s)
    (hSize : c.input.size ≤ LineBuffer.kMaxLine + 4096)
    (hFuel : c.input.size < fuel) :
    Contained (drainLines fd fuel s).1 := by
  induction fuel generalizing s c with
  | zero => omega
  | succ fuel ih =>
      unfold drainLines
      rw [hConn]
      dsimp only
      cases hLine : c.input.nextLine with
      | needMore =>
          apply hOthers.contained
          intro d hd
          rw [hConn] at hd
          injection hd with hd
          subst hd
          exact fun _ => ⟨hSize, fun _ => hLine⟩
      | tooLong =>
          exact tooLong_contained hConn hLive hOthers hSize
      | ok line rest =>
          have hShorter := LineBuffer.size_lt_of_nextLine hLine
          rcases takeLine_spec hReg hConn hLive hOthers line
              rest with ⟨hReg', hOthers', hInput⟩
          dsimp only
          split
          · next hDone =>
              apply hOthers'.contained
              intro d hd hAlive
              rw [hInput d hd]
              refine ⟨by omega, ?_⟩
              intro hOpen
              simp [isDone, hd, hAlive, hOpen] at hDone
          · next hNot =>
              rcases live_of_not_isDone hNot with
                ⟨d, hd, hAlive, _⟩
              have hLess : d.input.size < c.input.size := by
                rw [hInput d hd]
                exact hShorter
              exact ih hReg' hd hAlive hOthers' (by omega)
                (by omega)

/- Receiving on an open connection keeps the bound. -/
theorem receive_contained
    (chunk : Chunk)
    (hReg : Registry s)
    (hInv : Contained s)
    (hConn : s.conns[fd]? = some c)
    (hLive : c.dead = false)
    (hOpen : c.closing = false) :
    Contained (s.receive fd chunk.bytes).1 := by
  have hShort :=
    LineBuffer.size_le_of_needMore
      ((hInv fd c hConn hLive).2 hOpen)
  have hChunk := chunk.length_le
  have hSize := c.input.size_append chunk.bytes
  have hGrow :
      Act Guard.none s
        (s.setConn fd
          { c with input := c.input.append chunk.bytes }) :=
    .input hConn _
  have hGrown :
      (s.setConn fd
          { c with
            input := c.input.append chunk.bytes }).conns =
        s.conns.insert fd
          { c with input := c.input.append chunk.bytes } :=
    rfl
  rw [receive_eq hConn]
  apply drainLines_contained _ (hReg.act hGrow)
    (getElem?_setConn_self s fd _) hLive
    ((hInv.others fd).insert hGrown)
  · change (c.input.append chunk.bytes).size ≤ _
    omega
  · exact Nat.lt_succ_self _

/- So does closing one. -/
theorem closeConn_contained
    (why : CloseCause)
    (hInv : Contained s)
    (hConn : s.conns[fd]? = some c)
    (hLive : c.dead = false) :
    Contained (s.closeConn fd why) := by
  rw [closeConn_eq_commit hConn hLive]
  have hConns :=
    commit_conns s fd ((Port.ofConn s c).close why)
  apply ((hInv.others fd).insert hConns).contained
  intro d hd
  rcases conn_of_insert hConns hd with
    ⟨_, rfl⟩ | ⟨hOther, _⟩
  · exact Conn.held_of_dead rfl
  · exact absurd rfl hOther

/- And so does the loop that does both. -/
theorem recvLoop_contained
    {eof : Bool}
    (recvs : List RecvResult)
    (hReg : Registry s)
    (hInv : Contained s)
    (hConn : s.conns[fd]? = some c)
    (hLive : c.dead = false)
    (hOpen : c.closing = false ∨ delivers recvs = false) :
    Contained (recvLoop fd eof recvs s) := by
  induction recvs generalizing s c with
  | nil =>
      unfold recvLoop
      split
      · exact closeConn_contained .eof hInv hConn hLive
      · exact hInv
  | cons r rs ih =>
      cases r with
      | data chunk =>
          have hGoing : c.closing = false :=
            hOpen.resolve_right (by simp [delivers])
          have hNext :=
            receive_contained chunk hReg hInv hConn hLive
              hGoing
          have hMoves :
              Moves Guard.none s
                (s.receive fd chunk.bytes).1 :=
            receive_moves hReg hConn hLive
              (Or.inl False.elim)
          have hRegNext := hReg.moves hMoves
          rw [recvLoop_data]
          split
          · exact hNext
          · next hNot =>
              have hFlag := Bool.eq_false_of_not_eq_true hNot
              -- The connection went on, and is not closing.
              have hStill :
                  ∃ d, (s.receive fd
                      chunk.bytes).1.conns[fd]? = some d ∧
                    d.dead = false ∧ d.closing = false := by
                rcases receive_going hConn hFlag with
                  ⟨hSame, _⟩ | hLater
                · rw [hSame]
                  exact ⟨_, getElem?_setConn_self s fd _,
                    hLive, hGoing⟩
                · exact hLater
              rcases hStill with ⟨d, hd, hAlive, hOpen'⟩
              exact ih hRegNext hNext hd hAlive
                (Or.inl hOpen')
      | fin => exact closeConn_contained .fin hInv hConn hLive
      | eintr => exact ih hReg hInv hConn hLive hOpen
      | eagain =>
          unfold recvLoop
          split
          · exact closeConn_contained .eof hInv hConn hLive
          · exact hInv
      | reset =>
          exact closeConn_contained .recvError hInv hConn
            hLive
      | error =>
          exact closeConn_contained .recvError hInv hConn
            hLive

end Server

end SocketExchange

------------------------------------------------------------
-- Runs
------------------------------------------------------------

namespace SocketExchange

namespace Server

/- The step delivers no bytes to a closing connection. -/
def Withheld (s : Server) : Step → Prop
| .event ev a =>
    ev.ident ≠ s.lfd → ev.filter = .read →
      ∀ c, s.findLive ev.ident = some c →
        c.closing = true → delivers a.recvs = false
| .reap => True

variable {s : Server}

/- Accepted connections hold nothing yet. -/
theorem onAccept_contained
    (accepts : List AcceptResult)
    (hInv : Contained s) :
    Contained (onAccept accepts s) := by
  induction accepts generalizing s with
  | nil => exact hInv
  | cons r rs ih =>
      cases r with
      | conn cfd =>
          apply ih
          intro f d hd
          change (s.conns.insertIfNew cfd _)[f]? =
            some d at hd
          rw [Std.ExtTreeMap.getElem?_insertIfNew] at hd
          split at hd
          · injection hd with hd
            subst hd
            exact Conn.held_fresh cfd s.nextOwner
          · exact hInv f d hd
      | eagain => exact hInv
      | eintr => exact ih hInv
      | aborted => exact ih hInv
      | outOfFds => exact hInv
      | error => exact hInv

/-
  So a step that brings no bytes to a closing connection
  keeps the bound.
-/
theorem step_contained
    {i : Step}
    (hReg : Registry s)
    (hInv : Contained s)
    (hWithheld : Withheld s i) :
    Contained (step s i) := by
  cases i with
  | reap =>
      intro f d hd
      exact hInv f d (conn_of_reap s hd)
  | event ev a =>
      have hInv' : Contained (s.withAnswers a) := hInv
      unfold step onEvent
      dsimp only
      split
      · exact onAccept_contained a.accepts hInv'
      · next hOther =>
          split
          · next hRead =>
              unfold onReadable
              split
              · exact hInv'
              · next c hFind =>
                  rcases findLive_eq_some_iff.mp hFind with
                    ⟨hConn, hLive⟩
                  apply recvLoop_contained a.recvs
                    (hReg.withAnswers a) hInv' hConn hLive
                  cases hClosing : c.closing with
                  | false => exact Or.inl rfl
                  | true =>
                      exact Or.inr
                        (hWithheld hOther hRead c hFind
                          hClosing)
          · unfold onWritable
            split
            · exact hInv'
            · have hServes :
                  Serves Guard.none (s.withAnswers a)
                    ((s.withAnswers a).tryFlush
                      ev.ident) :=
                tryFlush_serves
              exact hServes.ages.contained hInv'

/-
  In every run in which no closing connection is sent more
  bytes, a live connection never holds more than the length
  limit and one chunk of input.
-/
theorem inbound_bounded
    {lfd : Fd}
    {env : Env}
    {steps : List Step}
    (hLegal :
      Machine.Permitted step Legal (init lfd env) steps)
    (hWithheld :
      Machine.Permitted step Withheld (init lfd env) steps)
    {fd : Fd}
    {c : Conn}
    (hConn :
      (Machine.run step (init lfd env) steps).conns[fd]? =
        some c)
    (hLive : c.dead = false) :
    c.input.size ≤ LineBuffer.kMaxLine + 4096 := by
  have hBoth :
      Machine.Permitted step
        (fun s i => Legal s i ∧ Withheld s i)
        (init lfd env) steps :=
    Machine.permitted_and.mpr ⟨hLegal, hWithheld⟩
  have hInit : Contained (init lfd env) := by
    intro f d hd
    simp [init] at hd
  have hInv :
      Registry (Machine.run step (init lfd env) steps) ∧
        Contained
          (Machine.run step (init lfd env) steps) := by
    refine Machine.run_invariant
      (fun s => Registry s ∧ Contained s) ?_
      ⟨registry_init lfd env, hInit⟩ hBoth
    rintro s i ⟨hReg, hInv⟩ ⟨hLegal, hWithheld⟩
    have hActs :=
      step_acts hReg hLegal (Guard.none_spares s i)
    exact ⟨hActs.invariant Registry
        (fun _ _ hReg hAct => hReg.act hAct) hReg,
      step_contained hReg hInv hWithheld⟩
  exact (hInv.2 fd c hConn hLive).1

/- A QUIT whose output is blocked, and more behind it. -/
def hurriedSteps : List Step :=
  [.connects 5,
    .reads 5
      [.data
        ⟨ascii "LOGIN kim\nBUY JNST 1 1\nQUIT\nSELL JN",
          by decide, by decide⟩]
      (fun _ => [.sent 3])]

/- What came behind the QUIT is held, and nothing more. -/
theorem inbound_bounded_blocked :
    ∃ c,
      (Machine.run step listening
          hurriedSteps).conns[(5 : Fd)]? = some c ∧
      c.dead = false ∧ c.input.buf = ascii "SELL JN" ∧
      c.input.size ≤ LineBuffer.kMaxLine + 4096 := by
  have hSeen :
      ((Machine.run step listening
          hurriedSteps).conns[(5 : Fd)]?).map
        (fun c => (c.dead, c.input.buf)) =
          some (false, ascii "SELL JN") := by
    decide
  have hLegal :
      Machine.Permitted step Legal listening hurriedSteps :=
    ⟨fun _ => ⟨by decide, by decide, trivial⟩,
      fun h => absurd h (by decide), trivial⟩
  rcases Option.map_eq_some_iff.mp hSeen with
    ⟨c, hConn, hIs⟩
  rcases Prod.mk.inj hIs with ⟨hLive, hHeld⟩
  refine ⟨c, hConn, hLive, hHeld,
    inbound_bounded hLegal
      ⟨fun h => absurd rfl h, ?_, trivial⟩ hConn hLive⟩
  intro _ _ c hFind hClosing
  have hFlag :
      ((step listening (.connects 5)).findLive 5).map
        Conn.closing = some false := by
    decide
  have hSome :=
    hFlag.symm.trans
      (congrArg (Option.map Conn.closing) hFind)
  rw [Option.map_some, hClosing] at hSome
  cases hSome

end Server

end SocketExchange

------------------------------------------------------------
-- A Flood Behind A QUIT
------------------------------------------------------------

namespace SocketExchange

namespace Server

/- A chunk of empty lines. -/
def emptyLines : Chunk where
  bytes := List.replicate 4096 newline
  ne_nil := by
    intro hNil
    have hLength := congrArg List.length hNil
    rw [List.length_replicate] at hLength
    exact absurd hLength (by decide)
  length_le := by rw [List.length_replicate]

/- A read event that brings them. -/
def flood : Step :=
  .reads 5 [.data emptyLines] (fun _ => [])

/- The closing connection holds this many empty lines. -/
structure Flooded
    (n : Nat)
    (s : Server)
    (c : Conn) : Prop where
  lfd : s.lfd = 3
  conn : s.conns[(5 : Fd)]? = some c
  live : c.dead = false
  closing : c.closing = true
  lines : c.input.buf = List.replicate n newline

variable {n : Nat} {s : Server} {fd : Fd} {c : Conn}

/- An empty line is noted, and that is all. -/
theorem handleLine_nil
    (hConn : s.conns[fd]? = some c) :
    s.handleLine fd [] = s.note (.line c.ownerId []) := by
  unfold handleLine
  rw [hConn]
  rfl

/- The next of the blank lines is taken out. -/
theorem Flooded.nextLine
    (hFlooded : Flooded n s c) :
    (c.input.append emptyLines.bytes).nextLine =
      .ok [] ⟨List.replicate (n + 4095) newline⟩ := by
  have hBuf :
      (c.input.append emptyLines.bytes).buf =
        newline :: List.replicate (n + 4095) newline := by
    simp only [LineBuffer.append, emptyLines,
      hFlooded.lines, List.replicate_append_replicate]
    rfl
  unfold LineBuffer.nextLine
  rw [hBuf]
  simp [List.findIdx?_cons, LineBuffer.stripCr]

/- The chunk is appended and one empty line is handled. -/
theorem Flooded.receive
    (hFlooded : Flooded n s c) :
    s.receive 5 emptyLines.bytes =
      ((s.setConn 5
            { c with
              input :=
                ⟨List.replicate (n + 4095) newline⟩ }).note
          (.line c.ownerId []), true) := by
  rw [receive_eq hFlooded.conn]
  unfold drainLines
  rw [getElem?_setConn_self]
  dsimp only
  rw [hFlooded.nextLine]
  dsimp only
  rw [setConn_setConn,
    handleLine_nil (getElem?_setConn_self s 5 _), if_pos]
  simp [isDone, note, setConn, hFlooded.closing]

/- Each event adds a chunk and takes one byte off. -/
theorem Flooded.step
    (hFlooded : Flooded n s c) :
    ∃ d, Flooded (n + 4095) (step s flood) d := by
  have hOther : (5 : Fd) ≠ s.lfd := by
    rw [hFlooded.lfd]
    decide
  have hFind : s.findLive 5 = some c :=
    findLive_eq_some_iff.mpr
      ⟨hFlooded.conn, hFlooded.live⟩
  have hAnswered :
      ∀ a : Answers, Flooded n (s.withAnswers a) c :=
    fun a => ⟨hFlooded.lfd, hFlooded.conn, hFlooded.live,
      hFlooded.closing, hFlooded.lines⟩
  unfold flood Step.reads
  rw [step_read hOther rfl hFind]
  unfold recvLoop
  dsimp only
  rw [(hAnswered _).receive]
  exact ⟨{ c with
      input := ⟨List.replicate (n + 4095) newline⟩ },
    hFlooded.lfd, getElem?_setConn_self _ 5 _,
    hFlooded.live, hFlooded.closing, rfl⟩

/- Every turn leaves 4095 bytes more. -/
theorem Flooded.run
    (hFlooded : Flooded n s c)
    (turns : Nat) :
    Machine.Permitted Server.step Legal s
        (List.replicate turns flood) ∧
      ∃ d, Flooded (n + 4095 * turns)
        (Machine.run Server.step s
          (List.replicate turns flood)) d := by
  induction turns generalizing n s c with
  | zero => exact ⟨trivial, c, hFlooded⟩
  | succ turns ih =>
      rcases hFlooded.step with ⟨d, hNext⟩
      rcases ih hNext with ⟨hLegal, e, hLater⟩
      have hCount :
          n + 4095 + 4095 * turns =
            n + 4095 * (turns + 1) := by
        omega
      rw [hCount] at hLater
      refine ⟨⟨?_, hLegal⟩, e, hLater⟩
      intro hListen
      rw [hFlooded.lfd] at hListen
      exact absurd hListen (by decide)

/- The closing client sends eighteen chunks more. -/
def floodSteps : List Step :=
  quitSteps [.eagain] ++ List.replicate 18 flood

/- Its connection, live and closing, holds too much. -/
theorem flood_overruns :
    Machine.Permitted step Legal listening floodSteps ∧
      ∃ c,
        (Machine.run step listening
            floodSteps).conns[(5 : Fd)]? = some c ∧
          c.dead = false ∧
          LineBuffer.kMaxLine + 4096 < c.input.size := by
  have hSeen :
      ((Machine.run step listening
          (quitSteps [.eagain])).conns[(5 : Fd)]?).map
        (fun c => (c.dead, c.closing, c.input.buf)) =
      some (false, true, []) := by
    decide
  rcases Option.map_eq_some_iff.mp hSeen with
    ⟨c, hConn, hFields⟩
  injection hFields with hLive hFields
  injection hFields with hClosing hLines
  have hFlooded :
      Flooded 0
        (Machine.run step listening
          (quitSteps [.eagain])) c :=
    ⟨by decide, hConn, hLive, hClosing, hLines⟩
  rcases hFlooded.run 18 with ⟨hLegal, d, hLater⟩
  unfold floodSteps
  rw [Machine.run_append]
  refine ⟨Machine.permitted_append.mpr
    ⟨quitSteps_legal _, hLegal⟩, d, hLater.conn,
    hLater.live, ?_⟩
  have hSize : d.input.size = 4095 * 18 := by
    unfold LineBuffer.size
    rw [hLater.lines, List.length_replicate]
  rw [hSize]
  decide

end Server

end SocketExchange

import SocketExchange.Server.History

/-
  Closing connections: what QUIT and an overlong line leave
  to happen.

  `closing` is meant to stop the connection: drain `out`,
  then close. `on_readable` does not look at it, so a read
  event that brings another line has it executed, and one
  that brings the end of the stream tears the connection
  down with output pending. The theorems say that nothing
  else goes wrong: the two promises are kept exactly in the
  runs without such a read.

  Main declarations:
    * `QuietAfterClosing`, `DrainsAfterQuit`
    * `Server.BringsNoLine`, `Server.BringsNoEnd`
    * `Server.quietAfterClosing_iff`
    * `Server.drainsAfterQuit_iff`
-/

------------------------------------------------------------
-- The Two Promises
------------------------------------------------------------

namespace SocketExchange

/-
  The entry shows a line of the connection at work: the line
  itself, what it changes, or the reply to it.
-/
def Obs.Executes (owner : Int) : Obs → Prop
| .line k _ => k = owner
| .overlong k => k = owner
| .login k _ => k = owner
| .subscribed k _ _ => k = owner
| .called k _ _ => k = owner
| .queued k m => k = owner ∧ m.trade? = none
| _ => False

/- Nothing of the connection is executed once it closes. -/
def QuietAfterClosing (owner : Int) : List Obs → Prop :=
  Traced fun pre e =>
    e.Executes owner → Obs.closing owner ∉ pre

/- A QUIT of the connection has been handled. -/
def Quitted (owner : Int) (log : List Obs) : Prop :=
  ∃ pre text post,
    log = pre ++ .line owner text :: .closing owner ::
        post ∧
      (splitWs text).head? = some (ascii "QUIT")

/-
  After its QUIT the connection dies only with an empty
  buffer, of a failing `send` or `recv`, or over the cap.
-/
def DrainsAfterQuit (owner : Int) : List Obs → Prop :=
  Traced fun pre e =>
    ∀ why left, e = .closed owner why left →
      Quitted owner pre →
        left = 0 ∨ why = .sendError ∨ why = .recvError ∨
          why = .backlog

theorem Quitted.closing_mem
    {owner : Int}
    {log : List Obs}
    (hQuit : Quitted owner log) :
    Obs.closing owner ∈ log := by
  rcases hQuit with ⟨pre, text, post, hLog, _⟩
  simp [hLog]

namespace Server

/-
  A read of this connection, once it is closing, brings no
  line.
-/
def BringsNoLine
    (owner : Int)
    (s : Server) : Step → Prop
| .event ev a =>
    ev.ident ≠ s.lfd → ev.filter = .read →
      ∀ c, s.findLive ev.ident = some c →
        c.ownerId = owner → c.closing = true →
          c.input.reachesLine a.recvs = false
| .reap => True

/-
  A read of this connection, once its QUIT was handled and
  while output is pending, does not come to the end of the
  stream.
-/
def BringsNoEnd
    (owner : Int)
    (s : Server) : Step → Prop
| .event ev a =>
    ev.ident ≠ s.lfd → ev.filter = .read →
      ∀ c, s.findLive ev.ident = some c →
        c.ownerId = owner → Quitted owner s.log →
          0 < c.out.pending →
            c.input.reachesEnd ev.eof a.recvs = false
| .reap => True

end Server

end SocketExchange

------------------------------------------------------------
-- The Closing Flag And The History
------------------------------------------------------------

namespace SocketExchange

namespace Server

/- The flag is set exactly when the history says so. -/
structure ClosingMarked (s : Server) : Prop where
  flag_iff :
    ∀ (fd : Fd) (c : Conn), s.conns[fd]? = some c →
      (c.closing = true ↔ Obs.closing c.ownerId ∈ s.log)
  known :
    ∀ owner, Obs.closing owner ∈ s.log →
      owner < s.nextOwner

variable {s s' : Server} {fd : Fd} {c : Conn}

theorem closingMarked_init (lfd : Fd) (env : Env) :
    ClosingMarked (init lfd env) where
  flag_iff := by
    intro fd c hConn
    simp [init] at hConn
  known := by
    intro owner hMem
    cases hMem

theorem ClosingMarked.extend
    {es : List Obs}
    (hMark : ClosingMarked s)
    (hLog : s'.log = s.log ++ es)
    (hNone : ∀ owner, Obs.closing owner ∉ es)
    (hNext : s'.nextOwner = s.nextOwner)
    (hConns :
      ∀ (f : Fd) (d : Conn), s'.conns[f]? = some d →
        ∃ e, s.conns[f]? = some e ∧
          d.ownerId = e.ownerId ∧ d.closing = e.closing) :
    ClosingMarked s' where
  flag_iff := by
    intro f d hd
    rcases hConns f d hd with ⟨e, he, hOwner, hFlag⟩
    rw [hLog, hOwner, hFlag, hMark.flag_iff f e he]
    simp [hNone]
  known := by
    intro owner hMem
    rw [hLog] at hMem
    rw [hNext]
    exact hMark.known owner (by simpa [hNone] using hMem)

theorem flags_of_insert
    {c' : Conn}
    (hConn : s.conns[fd]? = some c)
    (hConns : s'.conns = s.conns.insert fd c')
    (hOwner : c'.ownerId = c.ownerId)
    (hFlag : c'.closing = c.closing) :
    ∀ (f : Fd) (d : Conn), s'.conns[f]? = some d →
      ∃ e, s.conns[f]? = some e ∧
        d.ownerId = e.ownerId ∧ d.closing = e.closing := by
  intro f d hd
  rcases conn_of_insert hConns hd with
    ⟨rfl, rfl⟩ | ⟨_, hOld⟩
  · exact ⟨c, hConn, hOwner, hFlag⟩
  · exact ⟨d, hOld, rfl, rfl⟩

theorem OutputTail.no_closing
    {owner : Int}
    {closing dead : Bool}
    {es : List Obs}
    (hTail : OutputTail owner closing dead es)
    (k : Int) :
    Obs.closing k ∉ es := by
  intro hMem
  rcases hTail.mem hMem with ⟨_, h⟩ | ⟨_, _, h⟩
  · cases h
  · cases h

theorem ClosingMarked.serve
    {G : Guard}
    (hReg : Registry s)
    (hMark : ClosingMarked s)
    (hServe : Serve G s s') :
    ClosingMarked s' := by
  cases hServe with
  | @queue fd c m hConn hLive _ _ _ =>
      rcases queued_log s fd hLive m with ⟨es, hLog, hTail⟩
      have hSame := Port.queue_same (Port.ofConn s c) m
      refine hMark.extend hLog
        ?_ (commit_nextOwner s fd _)
        (flags_of_insert hConn (commit_conns s fd _)
          hSame.ownerId hSame.closing)
      intro k hMem
      rcases List.mem_cons.mp hMem with hFirst | hRest
      · cases hFirst
      · exact OutputTail.no_closing hTail k hRest
  | @flush fd c hConn hLive =>
      rcases flushed_log s fd hLive with ⟨es, hLog, hTail⟩
      have hSame := Port.flush_same (Port.ofConn s c)
      exact hMark.extend hLog
        (OutputTail.no_closing hTail)
        (commit_nextOwner s fd _)
        (flags_of_insert hConn (commit_conns s fd _)
          hSame.ownerId hSame.closing)
  | @closing fd c hConn =>
      have hLog :
          ∀ k, Obs.closing k ∈
              s.log ++ [Obs.closing c.ownerId] ↔
            Obs.closing k ∈ s.log ∨ k = c.ownerId := by
        intro k
        simp
      constructor
      · intro f d hd
        change _ ↔ Obs.closing d.ownerId ∈ s.log ++ [_]
        change (s.conns.insert fd _)[f]? = some d at hd
        rw [hLog]
        rw [getElem?_insert_fd] at hd
        split at hd
        · injection hd with hd
          subst hd
          simp
        · next hNe =>
            -- Another connection has another owner id.
            have hOther : d.ownerId ≠ c.ownerId :=
              fun hSame => hNe
                (hReg.owner_unique f fd d c hd hConn hSame)
            rw [hMark.flag_iff f d hd]
            simp [hOther]
      · intro k hMem
        change k < s.nextOwner
        rcases (hLog k).mp hMem with hOld | rfl
        · exact hMark.known k hOld
        · exact (hReg.owner_range fd c hConn).2
  | line _ _ _ _ =>
      exact hMark.extend rfl (by simp) rfl
        (fun _ d hd => ⟨d, hd, rfl, rfl⟩)
  | overlong _ _ _ =>
      exact hMark.extend rfl (by simp) rfl
        (fun _ d hd => ⟨d, hd, rfl, rfl⟩)
  | login hConn _ _ _ _ _ =>
      exact hMark.extend rfl (by simp) rfl
        (flags_of_insert hConn rfl rfl rfl)
  | subscribe hConn _ _ _ _ _ =>
      exact hMark.extend rfl (by simp) rfl
        (flags_of_insert hConn rfl rfl rfl)
  | call _ _ _ _ _ _ _ =>
      exact hMark.extend rfl (by simp) rfl
        (fun _ d hd => ⟨d, hd, rfl, rfl⟩)

theorem ClosingMarked.act
    {G : Guard}
    (hReg : Registry s)
    (hMark : ClosingMarked s)
    (hAct : Act G s s') :
    ClosingMarked s' := by
  cases hAct with
  | serve hServe => exact hMark.serve hReg hServe
  | @close fd c hConn hLive why _ =>
      exact hMark.extend (commit_log s fd _)
        (by simp [Port.close, Port.ofConn])
        (commit_nextOwner s fd _)
        (flags_of_insert hConn (commit_conns s fd _)
          rfl rfl)
  | input hConn _ =>
      exact hMark.extend (List.append_nil _).symm
        (by simp) rfl (flags_of_insert hConn rfl rfl rfl)
  | @accept cfd hFresh _ =>
      have hNone := hReg.none_of_fresh hFresh
      have hLog :
          ∀ k, Obs.closing k ∈ (s.acceptConn cfd).log ↔
            Obs.closing k ∈ s.log := by
        intro k
        change _ ∈ s.log ++ [_] ↔ _
        simp
      constructor
      · intro f d hd
        rw [hLog]
        rcases conn_of_insert (acceptConn_conns hNone)
            hd with ⟨_, rfl⟩ | ⟨_, hOld⟩
        · constructor
          · intro hFlag
            cases hFlag
          · intro hMem
            have hLt := hMark.known _ hMem
            exact absurd hLt (Int.lt_irrefl _)
        · exact hMark.flag_iff f d hOld
      · intro k hMem
        have hLt := hMark.known k ((hLog k).mp hMem)
        change k < s.nextOwner + 1
        omega
  | reap =>
      refine hMark.extend (reap_log s) (by simp)
        (reap_nextOwner s) ?_
      intro f d hd
      exact ⟨d, conn_of_reap s hd, rfl, rfl⟩
  | answers _ =>
      exact hMark.extend (List.append_nil _).symm
        (by simp) rfl (fun _ d hd => ⟨d, hd, rfl, rfl⟩)

end Server

end SocketExchange

------------------------------------------------------------
-- Runs That Spare The Connection
------------------------------------------------------------

namespace SocketExchange

namespace Server

variable {s s' : Server} {owner : Int}

/- A connection whose line may be handled is not closing. -/
theorem not_closing_of_open
    {G : Guard}
    {fd : Fd}
    {c : Conn}
    (hMark : ClosingMarked s)
    (hConn : s.conns[fd]? = some c)
    (hOpen : G.Open c)
    (hQuiet : G.quiet owner)
    (hOwner : c.ownerId = owner) :
    Obs.closing owner ∉ s.log := by
  subst hOwner
  intro hMem
  have hFlag := (hMark.flag_iff fd c hConn).mpr hMem
  rw [hOpen hQuiet] at hFlag
  cases hFlag

theorem quiet_entry
    {G : Guard}
    {fd : Fd}
    {c : Conn}
    {e : Obs}
    (hQuiet : G.quiet owner)
    (hMark : ClosingMarked s)
    (hOld : QuietAfterClosing owner s.log)
    (hConn : s.conns[fd]? = some c)
    (hOpen : G.Open c)
    (hOwn : e.Executes owner → c.ownerId = owner) :
    QuietAfterClosing owner (s.log ++ [e]) := by
  refine hOld.append (Traced.singleton ?_)
  intro hExec
  rw [List.append_nil]
  exact not_closing_of_open hMark hConn hOpen hQuiet
    (hOwn hExec)

theorem quiet_serve
    {G : Guard}
    (hQuiet : G.quiet owner)
    (hMark : ClosingMarked s)
    (hOld : QuietAfterClosing owner s.log)
    (hServe : Serve G s s') :
    QuietAfterClosing owner s'.log := by
  -- The entries of a flush execute nothing.
  have hTail :
      ∀ {k : Int} {closing dead : Bool} {es : List Obs}
        (before : List Obs → List Obs),
        OutputTail k closing dead es →
          Traced (fun more e => e.Executes owner →
            Obs.closing owner ∉ before more) es := by
    intro k closing dead es before hTail
    apply Traced.of_forall
    intro more e he hExec
    rcases hTail.mem he with ⟨_, rfl⟩ | ⟨_, _, rfl⟩
    · cases hExec
    · cases hExec
  cases hServe with
  | @queue fd c m hConn hLive _ _ hReply =>
      rcases queued_log s fd hLive m with ⟨es, hLog, hEs⟩
      rw [hLog]
      refine hOld.append (Traced.cons ?_ ?_)
      · rintro ⟨hOwner, hNone⟩
        rw [List.append_nil]
        exact not_closing_of_open hMark hConn
          (hReply hNone) hQuiet hOwner
      · exact hTail
          (fun more => s.log ++ .queued c.ownerId m :: more)
          hEs
  | @flush fd c hConn hLive =>
      rcases flushed_log s fd hLive with ⟨es, hLog, hEs⟩
      rw [hLog]
      exact hOld.append
        (hTail (fun more => s.log ++ more) hEs)
  | closing _ =>
      exact hOld.append (Traced.singleton False.elim)
  | line hConn _ hOpen _ =>
      exact quiet_entry (s := s) hQuiet hMark hOld hConn hOpen
        id
  | overlong hConn _ hOpen =>
      exact quiet_entry (s := s) hQuiet hMark hOld hConn hOpen
        id
  | login hConn _ _ hOpen _ _ =>
      exact quiet_entry (s := s) hQuiet hMark hOld hConn hOpen
        id
  | subscribe hConn _ _ hOpen _ _ =>
      exact quiet_entry (s := s) hQuiet hMark hOld hConn hOpen
        id
  | call hConn _ _ hOpen _ _ _ =>
      exact quiet_entry (s := s) hQuiet hMark hOld hConn hOpen
        id

theorem quiet_act
    {G : Guard}
    (hQuiet : G.quiet owner)
    (hMark : ClosingMarked s)
    (hOld : QuietAfterClosing owner s.log)
    (hAct : Act G s s') :
    QuietAfterClosing owner s'.log := by
  cases hAct with
  | serve hServe =>
      exact quiet_serve hQuiet hMark hOld hServe
  | close _ _ _ _ =>
      rw [commit_log]
      exact hOld.append (Traced.singleton False.elim)
  | input _ _ => exact hOld
  | accept _ _ =>
      exact hOld.append (Traced.singleton False.elim)
  | reap =>
      rw [reap_log]
      refine hOld.append (Traced.of_forall ?_)
      intro pre e he hExec
      rcases List.mem_map.mp he with ⟨f, _, rfl⟩
      cases hExec
  | answers _ => exact hOld

/- Output activity ends a connection in a permitted way. -/
theorem OutputTail.closed_cause
    {k : Int}
    {closing dead : Bool}
    {es : List Obs}
    {why : CloseCause}
    {left : Nat}
    (hTail : OutputTail k closing dead es)
    (hMem : Obs.closed owner why left ∈ es) :
    left = 0 ∨ why = .sendError ∨ why = .recvError ∨
      why = .backlog := by
  cases hTail <;> simp at hMem <;> simp [hMem]

theorem drains_act
    {G : Guard}
    (hPatient :
      ∀ log, Quitted owner log → G.patient log owner)
    (hMark : ClosingMarked s)
    (hOld : DrainsAfterQuit owner s.log)
    (hAct : Act G s s') :
    DrainsAfterQuit owner s'.log := by
  have hTail :
      ∀ {k : Int} {closing dead : Bool} {es : List Obs}
        (before : List Obs → List Obs),
        OutputTail k closing dead es →
          Traced (fun more e => ∀ why left,
            e = .closed owner why left →
              Quitted owner (before more) →
                left = 0 ∨ why = .sendError ∨
                  why = .recvError ∨ why = .backlog)
            es := by
    intro k closing dead es before hTail
    apply Traced.of_forall
    rintro more e he why left rfl _
    exact OutputTail.closed_cause hTail he
  have hPlain :
      ∀ e, (∀ why left, e ≠ .closed owner why left) →
        DrainsAfterQuit owner (s.log ++ [e]) := by
    intro e hNot
    refine hOld.append (Traced.singleton ?_)
    intro why left hEq
    exact absurd hEq (hNot why left)
  cases hAct with
  | serve hServe =>
      cases hServe with
      | @queue fd c m hConn hLive _ _ hReply =>
          rcases queued_log s fd hLive m with
            ⟨es, hLog, hEs⟩
          rw [hLog]
          refine hOld.append (Traced.cons ?_ ?_)
          · intro why left hEq
            cases hEq
          · exact hTail
              (fun more =>
                s.log ++ .queued c.ownerId m :: more) hEs
      | @flush fd c hConn hLive =>
          rcases flushed_log s fd hLive with ⟨es, hLog, hEs⟩
          rw [hLog]
          exact hOld.append
            (hTail (fun more => s.log ++ more) hEs)
      | closing _ => exact hPlain _ (by simp)
      | line _ _ _ _ => exact hPlain _ (by simp)
      | overlong _ _ _ => exact hPlain _ (by simp)
      | login _ _ _ _ _ _ => exact hPlain _ (by simp)
      | subscribe _ _ _ _ _ _ => exact hPlain _ (by simp)
      | call _ _ _ _ _ _ _ => exact hPlain _ (by simp)
  | @close fd c hConn hLive why hPeer =>
      rw [commit_log]
      refine hOld.append (Traced.singleton ?_)
      intro why' left hEq hQuit
      rw [List.append_nil] at hQuit
      injection hEq with hOwner hWhy hLeft
      subst hWhy hLeft
      rcases hPeer with rfl | ⟨_, hEnds⟩
      · simp
      · -- The history says closing, so nothing is pending.
        change c.ownerId = owner at hOwner
        subst hOwner
        have hFlag :=
          (hMark.flag_iff fd c hConn).mpr hQuit.closing_mem
        rcases hEnds (hPatient s.log hQuit) with
          hNot | hEmpty
        · rw [hNot] at hFlag
          cases hFlag
        · exact Or.inl hEmpty
  | input _ _ => exact hOld
  | accept _ _ => exact hPlain _ (by simp)
  | reap =>
      rw [reap_log]
      refine hOld.append (Traced.of_forall ?_)
      intro pre e he why left hEq
      rcases List.mem_map.mp he with ⟨f, _, rfl⟩
      cases hEq
  | answers _ => exact hOld

end Server

end SocketExchange

------------------------------------------------------------
-- Reads That Break The Promises
------------------------------------------------------------

namespace SocketExchange

namespace Server

variable {s : Server} {fd : Fd} {c : Conn}

/- A buffer with something to take has it executed. -/
theorem drainLines_executes
    (fuel : Nat)
    (hReg : Registry s)
    (hConn : s.conns[fd]? = some c)
    (hLive : c.dead = false)
    (hLine : c.input.nextLine ≠ .needMore) :
    ∃ e : Obs, e.Executes c.ownerId ∧
      s.log ++ [e] <+:
        (drainLines fd (fuel + 1) s).1.log := by
  unfold drainLines
  rw [hConn]
  dsimp only
  cases hNext : c.input.nextLine with
  | needMore => exact absurd hNext hLine
  | tooLong =>
      have hReady : Ready Guard.none s fd c :=
        ⟨hConn, hLive, False.elim⟩
      have hRest :
          Deeds Guard.none (s.note (.overlong c.ownerId))
            (((s.refuseLong fd c).setClosing fd).tryFlush
              fd) :=
        hReady.longReply.trans quit_deeds
      exact ⟨.overlong c.ownerId, rfl,
        hRest.serves.log_grows⟩
  | ok line rest =>
      have hReady : Ready Guard.none s fd c :=
        ⟨hConn, hLive, False.elim⟩
      have hTook := takeLine hReg hReady line rest
      refine ⟨.line c.ownerId line, rfl, ?_⟩
      dsimp only
      split
      · exact hTook.logged
      · next hNot =>
          rcases live_of_not_isDone hNot with
            ⟨d, hd, hAlive, _⟩
          have hMore :=
            drainLines_log fuel hTook.registry hd hAlive
          exact hTook.logged.trans hMore

theorem recvLoop_executes
    (eof : Bool)
    (recvs : List RecvResult)
    (hReg : Registry s)
    (hConn : s.conns[fd]? = some c)
    (hLive : c.dead = false)
    (hReach : c.input.reachesLine recvs = true) :
    ∃ e : Obs, e.Executes c.ownerId ∧
      s.log ++ [e] <+: (recvLoop fd eof recvs s).log := by
  induction recvs generalizing s c with
  | nil => cases hReach
  | cons r rs ih =>
      cases r with
      | data chunk =>
          have hGrow :
              Act Guard.none s
                (s.setConn fd
                  { c with
                    input :=
                      c.input.append chunk.bytes }) :=
            .input hConn _
          have hNow :=
            getElem?_setConn_self s fd
              { c with
                input := c.input.append chunk.bytes }
          by_cases hMore :
              (c.input.append chunk.bytes).nextLine =
                .needMore
          · unfold recvLoop
            rw [receive_of_needMore hConn hMore]
            simp only [LineBuffer.reachesLine, hMore]
              at hReach
            have hLater :=
              ih (hReg.act hGrow) hNow hLive hReach
            exact hLater
          · rcases drainLines_executes
                (c.input.append chunk.bytes).size
                (hReg.act hGrow) hNow hLive hMore with
              ⟨e, hExec, hLog⟩
            rw [← receive_eq hConn] at hLog
            exact ⟨e, hExec, hLog.trans
              (recvLoop_data_log eof chunk rs hReg hConn
                hLive)⟩
      | eintr => exact ih hReg hConn hLive hReach
      | fin => cases hReach
      | eagain => cases hReach
      | reset => cases hReach
      | error => cases hReach

/- At the end of the stream the connection is torn down. -/
theorem recvLoop_ends
    {eof : Bool}
    (recvs : List RecvResult)
    (hConn : s.conns[fd]? = some c)
    (hLive : c.dead = false)
    (hReach : c.input.reachesEnd eof recvs = true) :
    ∃ why, (why = .fin ∨ why = .eof) ∧
      (recvLoop fd eof recvs s).log =
        s.log ++
          [.closed c.ownerId why c.out.pending] := by
  have hClose :
      ∀ why, (s.closeConn fd why).log =
        s.log ++
          [.closed c.ownerId why c.out.pending] := by
    intro why
    rw [closeConn_eq_commit hConn hLive, commit_log]
    rfl
  induction recvs generalizing s c with
  | nil =>
      change eof = true at hReach
      subst hReach
      exact ⟨.eof, Or.inr rfl, hClose .eof⟩
  | cons r rs ih =>
      cases r with
      | data chunk =>
          have hNow :=
            getElem?_setConn_self s fd
              { c with
                input := c.input.append chunk.bytes }
          cases hMore :
              (c.input.append chunk.bytes).nextLine with
          | needMore =>
              unfold recvLoop
              rw [receive_of_needMore hConn hMore]
              simp only [LineBuffer.reachesEnd, hMore]
                at hReach
              have hLater := ih hNow hLive hReach ?_
              · exact hLater
              · intro why
                rw [closeConn_eq_commit hNow hLive,
                  commit_log]
                rfl
          | ok line rest =>
              simp [LineBuffer.reachesEnd, hMore] at hReach
          | tooLong =>
              simp [LineBuffer.reachesEnd, hMore] at hReach
      | fin => exact ⟨.fin, Or.inl rfl, hClose .fin⟩
      | eintr => exact ih hConn hLive hReach hClose
      | eagain =>
          change eof = true at hReach
          subst hReach
          exact ⟨.eof, Or.inr rfl, hClose .eof⟩
      | reset => cases hReach
      | error => cases hReach

/- A read event of a live connection is its receive loop. -/
theorem step_read
    {ev : KEvent}
    {a : Answers}
    (hOther : ev.ident ≠ s.lfd)
    (hRead : ev.filter = .read)
    (hFind : s.findLive ev.ident = some c) :
    step s (.event ev a) =
      recvLoop ev.ident ev.eof a.recvs
        (s.withAnswers a) := by
  have hFind' :
      (s.withAnswers a).findLive ev.ident = some c := hFind
  have hOther' :
      ¬ ev.ident = (s.withAnswers a).lfd := hOther
  unfold step onEvent
  dsimp only
  rw [if_neg hOther', hRead]
  dsimp only
  unfold onReadable
  rw [hFind']

end Server

end SocketExchange

------------------------------------------------------------
-- Exactly Those Runs
------------------------------------------------------------

namespace SocketExchange

namespace Server

section Runs

variable {lfd : Fd} {env : Env} {steps : List Step}

/- What both directions know of the states of a run. -/
structure Marked (s : Server) : Prop where
  registry : Registry s
  marked : ClosingMarked s

theorem marked_init (lfd : Fd) (env : Env) :
    Marked (init lfd env) where
  registry := registry_init lfd env
  marked := closingMarked_init lfd env

theorem Marked.step_none
    {s : Server}
    {i : Step}
    (hMarked : Marked s)
    (hLegal : Legal s i) :
    Marked (step s i) ∧ s.log <+: (step s i).log := by
  have hActs :=
    step_acts hMarked.registry hLegal
      (Guard.none_spares s i)
  refine ⟨?_, hActs.log_grows⟩
  refine Acts.invariant Marked ?_ hActs hMarked
  intro a b h hAct
  exact ⟨h.registry.act hAct,
    h.marked.act h.registry hAct⟩

/-
  A promise that a step breaks stays broken: when it holds
  at the end, every step was one that keeps it.
-/
theorem permitted_of_traced
    {P : List Obs → Obs → Prop}
    {allowed : Server → Step → Prop}
    (hBack :
      ∀ s i, Marked s → Legal s i →
        Traced P (step s i).log → allowed s i)
    (hLegal :
      Machine.Permitted step Legal (init lfd env) steps)
    (hTraced :
      Traced P (Machine.run step (init lfd env) steps).log) :
    Machine.Permitted step allowed (init lfd env) steps := by
  refine (Machine.permitted_of_good Marked
    (fun s => Traced P s.log)
    (fun s i hMarked hLegal =>
      (hMarked.step_none hLegal).1) ?_
    (marked_init lfd env) hLegal hTraced).2
  intro s i hMarked hLegal hNext
  exact ⟨hNext.prefix_of (hMarked.step_none hLegal).2,
    hBack s i hMarked hLegal hNext⟩

/- A promise that the actions keep is kept by the run. -/
theorem run_traced
    {G : Guard}
    {P : List Obs → Obs → Prop}
    (hAct :
      ∀ s s', ClosingMarked s → Traced P s.log →
        Act G s s' → Traced P s'.log)
    (hLegal :
      Machine.Permitted step Legal (init lfd env) steps)
    (hSpares :
      Machine.Permitted step G.Spares (init lfd env)
        steps) :
    Traced P
      (Machine.run step (init lfd env) steps).log := by
  refine (run_acts_invariant (G := G)
    (fun s => ClosingMarked s ∧ Traced P s.log)
    ⟨closingMarked_init lfd env, Traced.nil⟩ ?_ hLegal
    hSpares).2.2
  rintro s s' hReg ⟨hMark, hOld⟩ hNext
  exact ⟨hMark.act hReg hNext, hAct s s' hMark hOld hNext⟩

/-
  A closing connection stays quiet in exactly the runs in
  which no read brings it another line.
-/
theorem quietAfterClosing_iff
    (owner : Int)
    (hLegal :
      Machine.Permitted step Legal (init lfd env) steps) :
    QuietAfterClosing owner
        (Machine.run step (init lfd env) steps).log ↔
      Machine.Permitted step (BringsNoLine owner)
        (init lfd env) steps := by
  constructor
  · intro hQuiet
    refine permitted_of_traced ?_ hLegal hQuiet
    intro s i hMarked _ hNext
    cases i with
    | reap => trivial
    | event ev a =>
        intro hOther hRead c hFind hOwner hClosing
        by_contra hReach
        rw [Bool.not_eq_false] at hReach
        rcases findLive_eq_some_iff.mp hFind with
          ⟨hConn, hLive⟩
        rw [step_read hOther hRead hFind] at hNext
        have hReg : Registry (s.withAnswers a) :=
          hMarked.registry.act
            (G := Guard.none) (.answers a)
        rcases recvLoop_executes ev.eof a.recvs hReg hConn
            hLive hReach with ⟨e, hExec, more, hLog⟩
        -- The entry stands behind the mark of closing.
        have hBefore :=
          hNext s.log e more (by rw [← hLog]; simp; rfl)
            (hOwner ▸ hExec)
        have hMark :=
          (hMarked.marked.flag_iff _ c hConn).mp hClosing
        exact hBefore (hOwner ▸ hMark)
  · intro hBrings
    let G : Guard :=
      { quiet := fun k => k = owner
        patient := fun _ _ => False }
    have hSpares :
        Machine.Permitted step G.Spares (init lfd env)
          steps := by
      refine Machine.permitted_mono ?_ hBrings
      intro s i hNo
      cases i with
      | reap => trivial
      | event ev a =>
          intro hOther hRead c hFind hClosing
          exact ⟨fun hOwner =>
            hNo hOther hRead c hFind hOwner hClosing,
            False.elim⟩
    refine run_traced (G := G) ?_ hLegal hSpares
    intro s s' hMark hOld hAct
    exact quiet_act rfl hMark hOld hAct

/-
  One client logs in, enters an order and quits; its socket
  takes the OK and then blocks. The next read event brings
  nothing.
-/
def quitSteps (last : List RecvResult) : List Step :=
  [.connects 5,
    .reads 5
      [.data
        ⟨ascii "LOGIN ann\nBUY JNST 1 1\nQUIT\n",
          by decide, by decide⟩]
      (fun _ => [.sent 3]),
    .reads 5 last (fun _ => [])]

theorem quitSteps_legal (last : List RecvResult) :
    Machine.Permitted step Legal listening
      (quitSteps last) :=
  ⟨fun _ => ⟨by decide, by decide, trivial⟩,
    fun h => absurd h (by decide),
    fun h => absurd h (by decide), trivial⟩

theorem quietAfterClosing_iff_blocked :
    QuietAfterClosing 1
      (Machine.run step listening
        (quitSteps [.eagain])).log := by
  refine (quietAfterClosing_iff 1
    (quitSteps_legal [.eagain])).mpr
    ⟨fun h => absurd rfl h, ?_, fun _ _ _ _ _ _ => rfl,
      trivial⟩
  intro _ _ c hFind _ hClosing
  have hFlag :
      ((step listening (.connects 5)).findLive 5).map
        Conn.closing = some false := by
    decide
  have hSome :=
    hFlag.symm.trans
      (congrArg (Option.map Conn.closing) hFind)
  rw [Option.map_some, hClosing] at hSome
  cases hSome

/- One more order, behind the QUIT. -/
def lateOrder : List RecvResult :=
  [.data ⟨ascii "BUY JNST 2 2\n", by decide, by decide⟩]

/- An order sent behind the QUIT is executed. -/
theorem quit_then_order_executed :
    Machine.Permitted step Legal listening
        (quitSteps lateOrder) ∧
      ¬ QuietAfterClosing 1
        (Machine.run step listening
          (quitSteps lateOrder)).log := by
  refine ⟨quitSteps_legal lateOrder, ?_⟩
  intro hQuiet
  refine hQuiet
    ((Machine.run step listening
      (quitSteps lateOrder)).log.take 12)
    (.line 1 (ascii "BUY JNST 2 2"))
    ((Machine.run step listening
      (quitSteps lateOrder)).log.drop 13) ?_ rfl ?_
  · decide
  · decide

/-
  A connection drains after its QUIT in exactly the runs in
  which no read comes to the end of its stream while output
  is pending.
-/
theorem drainsAfterQuit_iff
    (owner : Int)
    (hLegal :
      Machine.Permitted step Legal (init lfd env) steps) :
    DrainsAfterQuit owner
        (Machine.run step (init lfd env) steps).log ↔
      Machine.Permitted step (BringsNoEnd owner)
        (init lfd env) steps := by
  constructor
  · intro hDrains
    refine permitted_of_traced ?_ hLegal hDrains
    intro s i hMarked _ hNext
    cases i with
    | reap => trivial
    | event ev a =>
        intro hOther hRead c hFind hOwner hQuit hPending
        by_contra hReach
        rw [Bool.not_eq_false] at hReach
        rcases findLive_eq_some_iff.mp hFind with
          ⟨hConn, hLive⟩
        rw [step_read hOther hRead hFind] at hNext
        have hConn' :
            (s.withAnswers a).conns[ev.ident]? = some c :=
          hConn
        rcases recvLoop_ends a.recvs hConn' hLive
            hReach with ⟨why, hPeer, hLog⟩
        -- The peer's end of stream is no excuse.
        have hCause :=
          hNext s.log _ [] hLog why c.out.pending
            (by rw [hOwner]) hQuit
        rcases hPeer with rfl | rfl
        · simp at hCause
          omega
        · simp at hCause
          omega
  · intro hBrings
    let G : Guard :=
      { quiet := fun _ => False
        patient := fun log k =>
          k = owner ∧ Quitted owner log }
    have hSpares :
        Machine.Permitted step G.Spares (init lfd env)
          steps := by
      refine Machine.permitted_mono ?_ hBrings
      intro s i hNo
      cases i with
      | reap => trivial
      | event ev a =>
          intro hOther hRead c hFind _
          exact ⟨False.elim, fun hQuit hPending =>
            hNo hOther hRead c hFind hQuit.1 hQuit.2
              hPending⟩
    refine run_traced (G := G) ?_ hLegal hSpares
    intro s s' hMark hOld hAct
    exact drains_act (G := G) (fun _ hQuit => ⟨rfl, hQuit⟩)
      hMark hOld hAct

theorem drainsAfterQuit_iff_blocked :
    DrainsAfterQuit 1
      (Machine.run step listening
        (quitSteps [.eagain])).log := by
  refine (drainsAfterQuit_iff 1
    (quitSteps_legal [.eagain])).mpr
    ⟨fun h => absurd rfl h, ?_,
      fun _ _ _ _ _ _ _ => rfl, trivial⟩
  intro _ _ c _ _ hQuit
  have hNot :
      Obs.closing 1 ∉
        (step listening (.connects 5)).log := by
    decide
  exact absurd hQuit.closing_mem hNot

/- The peer's FIN behind the QUIT discards the output. -/
theorem quit_then_fin_discards :
    Machine.Permitted step Legal listening
        (quitSteps [.fin]) ∧
      ¬ DrainsAfterQuit 1
        (Machine.run step listening
          (quitSteps [.fin])).log := by
  refine ⟨quitSteps_legal _, ?_⟩
  intro hDrains
  have hCause :=
    hDrains
      ((Machine.run step listening
        (quitSteps [.fin])).log.take 12)
      (.closed 1 .fin 17) [] (by decide) .fin 17 rfl
      ⟨(Machine.run step listening
          (quitSteps [.fin])).log.take 9,
        ascii "QUIT", [.sent 1 []], by decide, by decide⟩
  simp at hCause

end Runs

end Server

end SocketExchange

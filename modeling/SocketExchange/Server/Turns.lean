import SocketExchange.Machine.Trail
import SocketExchange.Server.Local

/-
  The server, one line at a time.

  An event is a sequence of turns: bytes are read into a
  buffer, a line is taken off it and handled, a connection is
  flushed, closed or accepted. Between two turns no handler
  is under way, so this is where a specification of whole
  lines can be compared with the server. What the turns read
  is their label.

  Main declarations:
    * `Server.Turn`, `Server.Turns`
    * `Server.intake`
    * `Server.event_turns`
    * `Server.run_turns`
-/

------------------------------------------------------------
-- Turns
------------------------------------------------------------

namespace SocketExchange

/- Bytes that one `recv` gave to a connection. -/
abbrev Reading := Int × Bytes

namespace Server

/- What an event does, in whole lines. -/
inductive Turn : Server → List Reading → Server → Prop where
| read
    {s : Server} {fd : Fd} {c : Conn}
    (hConn : s.conns[fd]? = some c)
    (hLive : c.dead = false)
    (bytes : Bytes) :
    Turn s [(c.ownerId, bytes)]
      (s.setConn fd
        { c with input := c.input.append bytes })
| line
    {s : Server} {fd : Fd} {c : Conn}
    {line : Bytes} {rest : LineBuffer}
    (hConn : s.conns[fd]? = some c)
    (hLive : c.dead = false)
    (hLine : c.input.nextLine = .ok line rest) :
    Turn s []
      ((s.setConn fd { c with input := rest }).handleLine
        fd line)
| overlong
    {s : Server} {fd : Fd} {c : Conn}
    (hConn : s.conns[fd]? = some c)
    (hLive : c.dead = false)
    (hLine : c.input.nextLine = .tooLong) :
    Turn s []
      (((s.refuseLong fd c).setClosing fd).tryFlush fd)
| flush
    {s : Server} {fd : Fd} {c : Conn}
    (hConn : s.conns[fd]? = some c)
    (hLive : c.dead = false) :
    Turn s [] (s.tryFlush fd)
| close
    {s : Server} {fd : Fd} {c : Conn}
    (hConn : s.conns[fd]? = some c)
    (hLive : c.dead = false)
    (why : CloseCause)
    (hPeer : why = .recvError ∨ why = .fin ∨ why = .eof) :
    Turn s [] (s.closeConn fd why)
| accept
    {s : Server} {cfd : Fd}
    (hFresh : cfd ∉ s.env.opened)
    (hListen : cfd ≠ s.lfd) :
    Turn s [] (s.acceptConn cfd)
| reap
    {s : Server} :
    Turn s [] s.reap
| answers
    {s : Server}
    (a : Answers) :
    Turn s [] (s.withAnswers a)

/- Any number of turns, with all that they read. -/
abbrev Turns : Server → List Reading → Server → Prop :=
  Machine.Trail Turn

/- Turns are made of the actions of the server. -/
theorem Turn.acts
    {s s' : Server}
    {given : List Reading}
    (hReg : Registry s)
    (hTurn : Turn s given s') :
    Acts Guard.none s s' := by
  cases hTurn with
  | read hConn hLive bytes => exact .single (.input hConn _)
  | line hConn hLive hLine =>
      have hReady : Ready Guard.none s _ _ :=
        ⟨hConn, hLive, False.elim⟩
      exact (takeLine hReg hReady _ _).moves.acts
  | overlong hConn hLive hLine =>
      have hReady : Ready Guard.none s _ _ :=
        ⟨hConn, hLive, False.elim⟩
      exact hReady.tooLong.serves.acts
  | flush hConn hLive =>
      rw [tryFlush_eq_commit hConn hLive]
      exact .single (.serve (.flush hConn hLive))
  | close hConn hLive why hPeer =>
      rw [closeConn_eq_commit hConn hLive]
      refine .single (.close hConn hLive why ?_)
      rcases hPeer with hError | hEnd
      · exact Or.inl hError
      · exact Or.inr ⟨hEnd, False.elim⟩
  | accept hFresh hListen =>
      exact .single (.accept hFresh hListen)
  | reap => exact .single .reap
  | answers a => exact .single (.answers a)

theorem Turn.registry
    {s s' : Server}
    {given : List Reading}
    (hReg : Registry s)
    (hTurn : Turn s given s') :
    Registry s' :=
  (hTurn.acts hReg).invariant Registry
    (fun _ _ hReg hAct => hReg.act hAct) hReg

theorem Turns.registry
    {s s' : Server}
    {given : List Reading}
    (hReg : Registry s)
    (hTurns : Turns s given s') :
    Registry s' :=
  hTurns.keeps Registry
    (fun _ _ _ hReg hTurn => hTurn.registry hReg) hReg

end Server

end SocketExchange

------------------------------------------------------------
-- Events As Turns
------------------------------------------------------------

namespace SocketExchange

namespace Server

/-
  What the receive loop reads for a connection: every chunk
  up to the one whose lines end the loop.
-/
def recvIntake
    (fd : Fd)
    (owner : Int) :
    List RecvResult → Server → List Reading
| [], _ => []
| .data chunk :: rs, s =>
    (owner, chunk.bytes) ::
      match s.receive fd chunk.bytes with
      | (_, true) => []
      | (s, false) => recvIntake fd owner rs s
| .fin :: _, _ => []
| .eintr :: rs, s => recvIntake fd owner rs s
| .eagain :: _, _ => []
| .reset :: _, _ => []
| .error :: _, _ => []

/- What a step reads. -/
def intake (s : Server) : Step → List Reading
| .event ev a =>
    if ev.ident = s.lfd then []
    else
      match ev.filter, s.findLive ev.ident with
      | .read, some c =>
          recvIntake ev.ident c.ownerId a.recvs
            (s.withAnswers a)
      | _, _ => []
| .reap => []

variable {s : Server} {fd : Fd} {c : Conn}

theorem drainLines_turns
    (fuel : Nat)
    (hReg : Registry s)
    (hConn : s.conns[fd]? = some c)
    (hLive : c.dead = false) :
    Turns s [] (drainLines fd fuel s).1 := by
  induction fuel generalizing s c with
  | zero => exact .refl
  | succ fuel ih =>
      unfold drainLines
      simp only [hConn]
      cases hLine : c.input.nextLine with
      | needMore => exact .refl
      | tooLong => exact .single (.overlong hConn hLive hLine)
      | ok line rest =>
          have hTurn : Turn s [] _ := .line hConn hLive hLine
          have hReady : Ready Guard.none s fd c :=
            ⟨hConn, hLive, False.elim⟩
          have hTook := takeLine hReg hReady line rest
          dsimp only
          split
          · exact .single hTurn
          · next hNot =>
              rcases hTook.goes_on hNot with ⟨d, hd, hAlive, _⟩
              exact .head hTurn (ih hTook.registry hd hAlive)

theorem receive_turns
    (bytes : Bytes)
    (hReg : Registry s)
    (hConn : s.conns[fd]? = some c)
    (hLive : c.dead = false) :
    Turns s [(c.ownerId, bytes)]
      (s.receive fd bytes).1 := by
  have hRead : Turn s [(c.ownerId, bytes)] _ :=
    .read hConn hLive bytes
  have hDrain :=
    drainLines_turns ((c.input.append bytes).size + 1)
      (hRead.registry hReg) (getElem?_setConn_self s fd _)
      hLive
  rw [receive_eq hConn]
  simpa using (Machine.Trail.single hRead).trans hDrain

/- A close by the peer, as a turn. -/
theorem closed_turns
    (hConn : s.conns[fd]? = some c)
    (hLive : c.dead = false)
    {why : CloseCause}
    (hPeer : why = .recvError ∨ why = .fin ∨ why = .eof) :
    Turns s [] (s.closeConn fd why) :=
  .single (.close hConn hLive why hPeer)

theorem recvLoop_turns
    {eof : Bool}
    (recvs : List RecvResult)
    (hReg : Registry s)
    (hConn : s.conns[fd]? = some c)
    (hLive : c.dead = false) :
    Turns s (recvIntake fd c.ownerId recvs s)
      (recvLoop fd eof recvs s) := by
  have hBlocked :
      Turns s [] (if eof then s.closeConn fd .eof else s) := by
    split
    · exact closed_turns hConn hLive (by simp)
    · exact .refl
  -- The loop goes on as long as the connection does.
  induction recvs generalizing s c with
  | nil => exact hBlocked
  | cons r rs ih =>
      cases r with
      | data chunk =>
          have hTurns :=
            receive_turns chunk.bytes hReg hConn hLive
          have hKeeps :
              (s.receive fd chunk.bytes).2 = false →
                ∃ d,
                  (s.receive fd chunk.bytes).1.conns[fd]? =
                    some d ∧
                  d.dead = false ∧ d.ownerId = c.ownerId :=
            receive_keeps hReg hConn hLive
          have hNext := hTurns.registry hReg
          rw [recvLoop_data]
          unfold recvIntake
          generalize s.receive fd chunk.bytes = r
            at hTurns hKeeps hNext ⊢
          rcases r with ⟨t, done⟩
          cases done with
          | true => simpa using hTurns
          | false =>
              rcases hKeeps rfl with ⟨d, hd, hAlive, hOwner⟩
              have hEnd :
                  Turns t []
                    (if eof then t.closeConn fd .eof
                      else t) := by
                split
                · exact closed_turns hd hAlive (by simp)
                · exact .refl
              have hRest := ih hNext hd hAlive hEnd
              rw [hOwner] at hRest
              simpa using hTurns.trans hRest
      | fin => exact closed_turns hConn hLive (by simp)
      | eintr => exact ih hReg hConn hLive hBlocked
      | eagain => exact hBlocked
      | reset => exact closed_turns hConn hLive (by simp)
      | error => exact closed_turns hConn hLive (by simp)

theorem onAccept_turns
    {accepts : List AcceptResult}
    (hFresh : AcceptsFresh accepts s) :
    Turns s [] (onAccept accepts s) := by
  induction accepts generalizing s with
  | nil => exact .refl
  | cons r rs ih =>
      cases r with
      | conn cfd =>
          rcases hFresh with ⟨hNew, hListen, hRest⟩
          exact .head (.accept hNew hListen) (ih hRest)
      | eagain => exact .refl
      | eintr => exact ih hFresh
      | aborted => exact ih hFresh
      | outOfFds => exact .refl
      | error => exact .refl

/- An event is a sequence of turns that read its intake. -/
theorem event_turns
    {ev : KEvent}
    {a : Answers}
    (hReg : Registry s)
    (hLegal : Legal s (.event ev a)) :
    Turns s (s.intake (.event ev a)) (s.onEvent ev a) := by
  have hAnswers : Turn s [] (s.withAnswers a) := .answers a
  have hNext := hAnswers.registry hReg
  refine .head hAnswers ?_
  unfold onEvent intake
  dsimp only
  by_cases hListen : ev.ident = s.lfd
  · have hListen' : ev.ident = (s.withAnswers a).lfd :=
      hListen
    rw [if_pos hListen, if_pos hListen']
    exact onAccept_turns ((hLegal hListen).withAnswers a)
  · have hListen' : ¬ ev.ident = (s.withAnswers a).lfd :=
      hListen
    rw [if_neg hListen, if_neg hListen']
    have hSame :
        (s.withAnswers a).findLive ev.ident =
          s.findLive ev.ident := rfl
    unfold onReadable onWritable
    rw [hSame]
    cases hFind : s.findLive ev.ident with
    | none => cases ev.filter <;> exact .refl
    | some c =>
        rcases findLive_eq_some_iff.mp hFind with
          ⟨hConn, hLive⟩
        cases ev.filter with
        | read =>
            exact recvLoop_turns a.recvs hNext hConn hLive
        | write => exact .single (.flush hConn hLive)

theorem step_turns
    {i : Step}
    (hReg : Registry s)
    (hLegal : Legal s i) :
    Turns s (s.intake i) (step s i) := by
  cases i with
  | reap => exact .single .reap
  | event ev a => exact event_turns hReg hLegal

end Server

end SocketExchange

------------------------------------------------------------
-- Runs As Turns
------------------------------------------------------------

namespace SocketExchange

namespace Server

/- All that a run reads. -/
def readings (s : Server) (steps : List Step) : List Reading :=
  Machine.emitted step intake s steps

/- A run is a sequence of turns that read its readings. -/
theorem run_turns
    {s : Server}
    {steps : List Step}
    (hReg : Registry s)
    (hLegal : Machine.Permitted step Legal s steps) :
    Turns s (s.readings steps) (Machine.run step s steps) := by
  refine Machine.run_trail Registry ?_ hReg hLegal
  intro t i hReg hLegal
  have hTurns := step_turns hReg hLegal
  exact ⟨hTurns, hTurns.registry hReg⟩

/-
  A state between two turns of some run: every state between
  two steps is one, and so is the state in front of a line.
-/
def Settled (s : Server) : Prop :=
  ∃ lfd env given, Turns (init lfd env) given s

theorem Reachable.settled
    {s : Server}
    (hReach : Reachable s) :
    Settled s := by
  rcases hReach with ⟨lfd, env, steps, hLegal, rfl⟩
  exact ⟨lfd, env, _,
    run_turns (registry_init lfd env) hLegal⟩

/- What holds at first and every turn keeps, given the
  registries and the history. -/
theorem Settled.invariant
    {s : Server}
    (Inv : Server → Prop)
    (hInit : ∀ lfd env, Inv (init lfd env))
    (hTurn :
      ∀ s s' given, Registry s → History s → Inv s →
        Turn s given s' → Inv s')
    (hSettled : Settled s) :
    Registry s ∧ History s ∧ Inv s := by
  rcases hSettled with ⟨lfd, env, given, hTurns⟩
  refine hTurns.keeps
    (fun s => Registry s ∧ History s ∧ Inv s) ?_
    ⟨registry_init lfd env, history_init lfd env,
      hInit lfd env⟩
  intro s s' given hInv hStep
  rcases hInv with ⟨hReg, hHist, hInv⟩
  refine ⟨hStep.registry hReg, ?_,
    hTurn s s' given hReg hHist hInv hStep⟩
  have hBoth :=
    (hStep.acts hReg).invariant
      (fun s => Registry s ∧ History s)
      (fun a b hInv hAct =>
        ⟨hInv.1.act hAct, hInv.2.act hInv.1 hAct⟩)
      ⟨hReg, hHist⟩
  exact hBoth.2

end Server

end SocketExchange

import SocketExchange.Server.Inbound
import SocketExchange.Server.Turns
import SocketExchange.Service.Posting
import SocketExchange.Wire.Chunks

/-
  What is received is handled, line by line.

  The lines that the handlers were given on a connection are
  the lines of the bytes it was sent, in order and none
  twice. While it is live and not closing, they are all of
  them whenever the server sleeps: what its buffer holds is
  the beginning of a line that has not ended.

  Main declarations:
    * `handledLines`, `receivedBytes`
    * `Server.Intake`
    * `Server.Intake.turn`
    * `Server.Drained`
    * `Server.received_is_handled`
-/

------------------------------------------------------------
-- Lines In The History
------------------------------------------------------------

namespace SocketExchange

/- The lines handled on a connection, in order. -/
def handledLines (k : Int) (log : List Obs) : List Bytes :=
  log.filterMap fun
    | .line owner text =>
        if owner = k then some text else none
    | _ => none

/- The bytes received on a connection. -/
def receivedBytes (k : Int) (given : List Reading) : Bytes :=
  given.flatMap fun r => if r.1 = k then r.2 else []

/- Both grow with the history, and with what is read. -/
theorem handledLines_append
    (k : Int)
    (log more : List Obs) :
    handledLines k (log ++ more) =
      handledLines k log ++ handledLines k more :=
  List.filterMap_append

theorem receivedBytes_append
    (k : Int)
    (given more : List Reading) :
    receivedBytes k (given ++ more) =
      receivedBytes k given ++ receivedBytes k more :=
  List.flatMap_append

/- What others were sent is not among it. -/
theorem receivedBytes_of_old
    {k : Int}
    {given : List Reading}
    (hOld : ∀ r ∈ given, r.1 ≠ k) :
    receivedBytes k given = [] := by
  unfold receivedBytes
  rw [List.flatMap_eq_nil_iff]
  intro r hr
  exact if_neg (hOld r hr)

namespace Server

/- No line was handled between the two states. -/
def Wordless (s s' : Server) : Prop :=
  ∀ k, handledLines k s'.log = handledLines k s.log

variable {s s' s'' : Server} {fd : Fd} {c : Conn}

theorem Wordless.refl (s : Server) : Wordless s s :=
  fun _ => rfl

/- Two steps without a line are without a line. -/
theorem Wordless.trans
    (hFirst : Wordless s s')
    (hSecond : Wordless s' s'') :
    Wordless s s'' :=
  fun k => (hSecond k).trans (hFirst k)

/- It is the history that says so. -/
theorem wordless_of_log
    {es : List Obs}
    (hLog : s'.log = s.log ++ es)
    (hNone : ∀ e ∈ es, ∀ k text, e ≠ .line k text) :
    Wordless s s' := by
  intro k
  have hNil : handledLines k es = [] := by
    apply List.filterMap_eq_nil_iff.mpr
    intro e he
    cases e with
    | line owner text =>
        exact absurd rfl (hNone _ he owner text)
    | _ => rfl
  rw [hLog, handledLines_append, hNil, List.append_nil]

/- Output is no line. -/
theorem Outputs.wordless
    {kind : Msg → Prop}
    {es : List Obs}
    (hOutputs : Outputs kind s es s') :
    Wordless s s' := by
  apply wordless_of_log hOutputs.log
  rintro e he k text rfl
  exact hOutputs.outgoing _ he

/- The output functions handle no line. -/
theorem queueOut_wordless (m : Msg) :
    Wordless s (s.queueOut fd m) := by
  have hOut :
      ∃ es, Outputs (fun _ => True) s es (s.queueOut fd m) :=
    queueOut_outputs trivial
  rcases hOut with ⟨_, hOutputs⟩
  exact hOutputs.wordless

theorem tryFlush_wordless :
    Wordless s (s.tryFlush fd) := by
  have hOut :
      ∃ es, Outputs (fun _ => True) s es (s.tryFlush fd) :=
    tryFlush_outputs
  rcases hOut with ⟨_, hOutputs⟩
  exact hOutputs.wordless

theorem closeConn_wordless (why : CloseCause) :
    Wordless s (s.closeConn fd why) := by
  have hOut :
      ∃ es,
        Outputs (fun _ => True) s es (s.closeConn fd why) :=
    closeConn_outputs why
  rcases hOut with ⟨_, hOutputs⟩
  exact hOutputs.wordless

/- Nor do entries of any other kind. -/
theorem note_wordless
    {e : Obs}
    (hNone : ∀ k text, e ≠ .line k text)
    (hLog : s'.log = s.log ++ [e]) :
    Wordless s s' := by
  apply wordless_of_log hLog
  intro a ha
  rw [List.mem_singleton.mp ha]
  exact hNone

/- Refusing an overlong line is handling none. -/
theorem refuseLong_wordless (c : Conn) :
    Wordless s (s.refuseLong fd c) := by
  have hNote :
      Wordless s (s.note (.overlong c.ownerId)) :=
    note_wordless (fun _ _ h => by cases h) rfl
  exact hNote.trans (queueOut_wordless _)

theorem setClosing_wordless :
    Wordless s (s.setClosing fd) := by
  unfold setClosing
  split
  · exact .refl s
  · exact note_wordless (fun _ _ h => by cases h) rfl

theorem callExchange_wordless
    (owner : Int)
    (call : Call) :
    Wordless s (s.callExchange owner call) :=
  note_wordless (fun _ _ h => by cases h) rfl

/-
  An order is accepted: a call, a reply, and the trades
  published one by one.
-/
theorem acceptOrder_wordless
    (side : Side)
    (inst : Fin 2)
    (qty price : UInt32) :
    Wordless s (s.acceptOrder fd c side inst qty price) := by
  have hPublish
      (ts : List Trade)
      (t : Server) :
      Wordless t (ts.foldl publish t) := by
    have hEach :
        ∀ (u : Server) (x : Trade),
          ∃ es, Outputs (fun _ => True) u es (u.publish x) :=
      fun u _ => publish_outputs (fun _ _ => trivial) u
    rcases foldl_outputs hEach ts t with ⟨_, hOutputs⟩
    exact hOutputs.wordless
  have hCall :=
    callExchange_wordless (s := s) c.ownerId
      (.submit side inst qty price c.ownerId)
  exact (hCall.trans (queueOut_wordless _)).trans
    (hPublish _ _)

/-
  No command handles a line of its own: each replies, and
  changes what it is granted.
-/
theorem cmdLogin_wordless (tk : List Bytes) :
    Wordless s (s.cmdLogin fd tk) := by
  unfold cmdLogin
  split
  · exact .refl s
  · next c _ =>
      split
      · next name =>
          split
          · exact queueOut_wordless _
          split
          · exact queueOut_wordless _
          split
          · exact queueOut_wordless _
          · have hGrant :
                Wordless s (s.grantLogin fd c name) :=
              note_wordless (fun _ _ h => by cases h) rfl
            exact hGrant.trans (queueOut_wordless _)
      · exact queueOut_wordless _

theorem cmdOrder_wordless
    (tk : List Bytes)
    (side : Side) :
    Wordless s (s.cmdOrder fd tk side) := by
  unfold cmdOrder
  split
  · exact .refl s
  split
  · exact queueOut_wordless _
  split
  · exact queueOut_wordless _
  split
  · split
    · exact queueOut_wordless _
    split
    · exact queueOut_wordless _
    split
    · exact queueOut_wordless _
    · exact acceptOrder_wordless _ _ _ _
  · exact queueOut_wordless _

theorem cmdCancel_wordless (tk : List Bytes) :
    Wordless s (s.cmdCancel fd tk) := by
  unfold cmdCancel
  split
  · exact .refl s
  split
  · exact queueOut_wordless _
  split
  · exact queueOut_wordless _
  split
  · split
    · exact queueOut_wordless _
    · dsimp only
      split
      · exact (callExchange_wordless _ _).trans
          (queueOut_wordless _)
      · exact (callExchange_wordless _ _).trans
          (queueOut_wordless _)
  · exact queueOut_wordless _

theorem cmdSubscribe_wordless
    (tk : List Bytes)
    (on : Bool) :
    Wordless s (s.cmdSubscribe fd tk on) := by
  unfold cmdSubscribe
  split
  · exact .refl s
  · next c _ =>
      split
      · exact queueOut_wordless _
      split
      · split
        · exact queueOut_wordless _
        · next inst _ =>
            have hGrant :
                Wordless s (s.grantSubscribe fd c inst on) :=
              note_wordless (fun _ _ h => by cases h) rfl
            exact hGrant.trans (queueOut_wordless _)
      · exact queueOut_wordless _

/- Whatever the first field is. -/
theorem dispatch_wordless (tk : List Bytes) :
    Wordless s (s.dispatch fd tk) := by
  unfold dispatch
  split
  · exact .refl s
  split
  · exact cmdLogin_wordless _
  split
  · exact cmdOrder_wordless _ _
  split
  · exact cmdOrder_wordless _ _
  split
  · exact cmdCancel_wordless _
  split
  · exact cmdSubscribe_wordless _ _
  split
  · exact cmdSubscribe_wordless _ _
  split
  · exact setClosing_wordless.trans tryFlush_wordless
  · exact queueOut_wordless _

/- Handling a line is one line in the history. -/
theorem handledLines_handleLine
    (hConn : s.conns[fd]? = some c)
    (line : Bytes)
    (k : Int) :
    handledLines k (s.handleLine fd line).log =
      handledLines k s.log ++
        if c.ownerId = k then [line] else [] := by
  unfold handleLine
  rw [hConn]
  dsimp only
  rw [dispatch_wordless _ k]
  change handledLines k (s.log ++ [.line c.ownerId line]) = _
  rw [handledLines_append]
  congr 1
  by_cases hOwner : c.ownerId = k
  · simp [handledLines, hOwner]
  · simp [handledLines, hOwner]

end Server

end SocketExchange

------------------------------------------------------------
-- What Is Left Of What Was Received
------------------------------------------------------------

namespace SocketExchange

open LineBuffer

/- A line that comes off a buffer, as it was in it. -/
theorem buf_of_nextLine
    {b rest : LineBuffer}
    {line : Bytes}
    (hLine : b.nextLine = .ok line rest) :
    ∃ raw, newline ∉ raw ∧ line = stripCr raw ∧
      b.buf = raw ++ newline :: rest.buf := by
  by_cases hMem : newline ∈ b.buf
  · rcases List.eq_append_cons_of_mem hMem with
      ⟨raw, later, hBuf, hFree⟩
    have hTaken := nextLine_of_line hFree later
    rw [← hBuf, hLine] at hTaken
    injection hTaken with hText hRest
    exact ⟨raw, hFree, hText, hRest ▸ hBuf⟩
  · exact absurd hLine (nextLine_ne_ok hMem)

/- Of these bytes, all the lines but `rest` were handled. -/
def Consumed
    (k : Int)
    (log : List Obs)
    (bytes rest : Bytes) : Prop :=
  ∃ raw, (∀ p ∈ raw, newline ∉ p) ∧
    bytes = Cut.join newline raw ++ rest ∧
    handledLines k log = raw.map stripCr

variable {k : Int} {log more : List Obs}
variable {bytes rest : Bytes}

/- More bytes come in behind the rest. -/
theorem Consumed.receive
    (hConsumed : Consumed k log bytes rest)
    (chunk : Bytes) :
    Consumed k log (bytes ++ chunk) (rest ++ chunk) := by
  rcases hConsumed with ⟨raw, hFree, hBytes, hHandled⟩
  refine ⟨raw, hFree, ?_, hHandled⟩
  rw [hBytes, List.append_assoc]

/- The next line is taken off the rest and handled. -/
theorem Consumed.handle
    {raw later : Bytes}
    (hConsumed :
      Consumed k log bytes (raw ++ newline :: later))
    (hFree : newline ∉ raw)
    (hLine :
      handledLines k more =
        handledLines k log ++ [stripCr raw]) :
    Consumed k more bytes later := by
  rcases hConsumed with ⟨raws, hRaws, hBytes, hHandled⟩
  refine ⟨raws ++ [raw], ?_, ?_, ?_⟩
  · intro p hp
    rcases List.mem_append.mp hp with hOld | hLast
    · exact hRaws p hOld
    · rw [List.mem_singleton.mp hLast]
      exact hFree
  · rw [hBytes, Cut.join_append]
    simp [Cut.join]
  · rw [hLine, hHandled, List.map_append]
    rfl

/- Nothing is handled, and nothing taken. -/
theorem Consumed.wordless
    (hConsumed : Consumed k log bytes rest)
    (hSame : handledLines k more = handledLines k log) :
    Consumed k more bytes rest := by
  rcases hConsumed with ⟨raw, hFree, hBytes, hHandled⟩
  exact ⟨raw, hFree, hBytes, hSame.trans hHandled⟩

/- The lines handled are the first of those received. -/
theorem Consumed.first
    (hConsumed : Consumed k log bytes rest) :
    handledLines k log <+:
      (Cut.pieces newline bytes).map stripCr := by
  rcases hConsumed with ⟨raw, hFree, rfl, hHandled⟩
  rw [hHandled, (Cut.pieces_join_append hFree rest).1,
    List.map_append]
  exact List.prefix_append _ _

/- When nothing but part of a line is left, they are all. -/
theorem Consumed.all
    (hConsumed : Consumed k log bytes rest)
    (hNone : newline ∉ rest) :
    handledLines k log =
        (Cut.pieces newline bytes).map stripCr ∧
      rest = Cut.rest newline bytes := by
  rcases hConsumed with ⟨raw, hFree, rfl, hHandled⟩
  rcases Cut.pieces_join_append hFree rest with
    ⟨hPieces, hRest⟩
  rw [hHandled, hPieces, hRest, Cut.pieces_of_not_mem hNone,
    Cut.rest_of_not_mem hNone, List.append_nil]
  exact ⟨rfl, rfl⟩

end SocketExchange

------------------------------------------------------------
-- Turn By Turn
------------------------------------------------------------

namespace SocketExchange

namespace Server

/-
  Every connection was handled lines of what it was sent; a
  live one has the rest of it in its buffer.
-/
structure Intake
    (s : Server)
    (given : List Reading) : Prop where
  old : ∀ r ∈ given, r.1 < s.nextOwner
  each :
    ∀ k, ∃ rest,
      Consumed k s.log (receivedBytes k given) rest
  live :
    ∀ (fd : Fd) (c : Conn), s.conns[fd]? = some c →
      c.dead = false →
        Consumed c.ownerId s.log
          (receivedBytes c.ownerId given) c.input.buf

/- Nothing was read and nothing handled. -/
theorem intake_init (lfd : Fd) (env : Env) :
    Intake (init lfd env) [] where
  old := List.forall_mem_nil _
  each := fun _ => ⟨[], [], List.forall_mem_nil _, rfl, rfl⟩
  live := by
    intro fd c hConn
    simp [init] at hConn

variable {s s' : Server} {fd : Fd} {c : Conn}
variable {given more : List Reading}

/- Owner ids are never taken back. -/
theorem Act.nextOwner_le
    {G : Guard}
    (hAct : Act G s s') :
    s.nextOwner ≤ s'.nextOwner := by
  cases hAct with
  | serve hServe =>
      cases hServe with
      | queue _ _ _ _ _ => exact (commit_nextOwner s _ _).ge
      | flush _ _ => exact (commit_nextOwner s _ _).ge
      | closing _ => exact le_refl _
      | line _ _ _ _ => exact le_refl _
      | overlong _ _ _ => exact le_refl _
      | login _ _ _ _ _ _ => exact le_refl _
      | subscribe _ _ _ _ _ _ => exact le_refl _
      | call _ _ _ _ _ _ _ => exact le_refl _
  | close _ _ _ _ => exact (commit_nextOwner s _ _).ge
  | input _ _ => exact le_refl _
  | accept _ _ => exact (Int.lt_succ s.nextOwner).le
  | reap => exact (reap_nextOwner s).ge
  | answers _ => exact le_refl _

/- Nor are they by any number of actions. -/
theorem Acts.nextOwner_le
    {G : Guard}
    (hActs : Acts G s s') :
    s.nextOwner ≤ s'.nextOwner :=
  hActs.invariant (fun t => s.nextOwner ≤ t.nextOwner)
    (fun _ _ hLe hAct => hLe.trans hAct.nextOwner_le)
    (le_refl _)

/- Turns that take no line off a buffer and read nothing. -/
theorem Intake.wordless
    (hIntake : Intake s given)
    (hWordless : Wordless s s')
    (hNext : s.nextOwner ≤ s'.nextOwner)
    (hBack :
      ∀ (f : Fd) (d : Conn), s'.conns[f]? = some d →
        d.dead = false →
          (s.nextOwner ≤ d.ownerId ∧ d.input.buf = []) ∨
            ∃ e, s.conns[f]? = some e ∧ e.dead = false ∧
              e.ownerId = d.ownerId ∧ e.input = d.input) :
    Intake s' given where
  old := fun r hr => (hIntake.old r hr).trans_le hNext
  each := by
    intro k
    rcases hIntake.each k with ⟨rest, hConsumed⟩
    exact ⟨rest, hConsumed.wordless (hWordless k)⟩
  live := by
    intro f d hd hLive
    rcases hBack f d hd hLive with
      ⟨hLate, hEmpty⟩ | ⟨e, he, hAlive, hOwner, hInput⟩
    · -- A newcomer was sent nothing yet.
      have hNone : receivedBytes d.ownerId given = [] := by
        apply receivedBytes_of_old
        intro r hr hIs
        have hLt := hIntake.old r hr
        omega
      rcases hIntake.each d.ownerId with
        ⟨rest, raw, hFree, hBytes, hHandled⟩
      rw [hNone] at hBytes
      have hNil := List.append_eq_nil_iff.mp hBytes.symm
      rw [hNone, hEmpty]
      refine ⟨raw, hFree, ?_, (hWordless _).trans hHandled⟩
      rw [hNil.1]
      rfl
    · rw [← hOwner, ← hInput]
      exact (hIntake.live f e he hAlive).wordless
        (hWordless _)

/- A turn of handlers that serve whom they have. -/
theorem Intake.serves
    {G : Guard}
    (hIntake : Intake s given)
    (hWordless : Wordless s s')
    (hServes : Serves G s s') :
    Intake s' given := by
  refine hIntake.wordless hWordless
    hServes.acts.nextOwner_le ?_
  intro f d hd hLive
  rcases hServes.ages f d hd with ⟨e, he, hOlder⟩
  rcases hServes.keeps he with ⟨d', hd', hOwner, hInput⟩
  rw [hd] at hd'
  injection hd' with hd'
  subst hd'
  exact Or.inr
    ⟨e, he, hOlder.dead hLive, hOwner.symm, hInput.symm⟩

/- Bytes arrive. -/
theorem Intake.read
    (hReg : Registry s)
    (hIntake : Intake s given)
    (hConn : s.conns[fd]? = some c)
    (hLive : c.dead = false)
    (bytes : Bytes) :
    Intake
      (s.setConn fd { c with input := c.input.append bytes })
      (given ++ [(c.ownerId, bytes)]) := by
  have hOwn :
      receivedBytes c.ownerId [(c.ownerId, bytes)] =
        bytes := by
    simp [receivedBytes]
  have hOther :
      ∀ k, c.ownerId ≠ k →
        receivedBytes k (given ++ [(c.ownerId, bytes)]) =
          receivedBytes k given := by
    intro k hNe
    rw [receivedBytes_append,
      receivedBytes_of_old
        (List.forall_mem_singleton.mpr hNe),
      List.append_nil]
  refine ⟨?_, ?_, ?_⟩
  · intro r hr
    rcases List.mem_append.mp hr with hOld | hLast
    · exact hIntake.old r hOld
    · rw [List.mem_singleton.mp hLast]
      exact (hReg.owner_range fd c hConn).2
  · intro k
    rcases hIntake.each k with ⟨rest, hConsumed⟩
    rw [receivedBytes_append]
    exact ⟨_, hConsumed.receive _⟩
  · intro f d hd hAlive
    rcases conn_of_insert
        (show (s.setConn fd
          { c with input := c.input.append bytes }).conns =
            s.conns.insert fd _ from rfl) hd with
      ⟨rfl, rfl⟩ | ⟨hNe, hOld⟩
    · have hConsumed := hIntake.live f c hConn hLive
      rw [receivedBytes_append, hOwn]
      exact hConsumed.receive bytes
    · have hApart : c.ownerId ≠ d.ownerId := by
        intro hSame
        exact hNe
          (hReg.owner_unique f fd d c hOld hConn hSame.symm)
      rw [hOther _ hApart]
      exact hIntake.live f d hOld hAlive

/- A line is taken off and handled. -/
theorem Intake.line
    {line : Bytes}
    {rest : LineBuffer}
    (hReg : Registry s)
    (hIntake : Intake s given)
    (hConn : s.conns[fd]? = some c)
    (hLive : c.dead = false)
    (hLine : c.input.nextLine = .ok line rest) :
    Intake
      ((s.setConn fd { c with input := rest }).handleLine fd
        line) given := by
  rcases buf_of_nextLine hLine with
    ⟨raw, hFree, rfl, hBuf⟩
  have hAct :
      Act Guard.none s
        (s.setConn fd { c with input := rest }) :=
    .input hConn rest
  have hReg' := hReg.act hAct
  have hTaken :
      (s.setConn fd { c with input := rest }).conns =
        s.conns.insert fd { c with input := rest } := rfl
  have hNow :=
    getElem?_setConn_self s fd { c with input := rest }
  have hServes :=
    handleLine_serves hReg'
      (⟨hNow, hLive, False.elim⟩ : Ready Guard.none _ fd _)
      (LineBuffer.stripCr raw)
  have hHandled :=
    handledLines_handleLine hNow (LineBuffer.stripCr raw)
  have hOwn :
      handledLines c.ownerId
          ((s.setConn fd { c with input := rest }).handleLine
            fd (LineBuffer.stripCr raw)).log =
        handledLines c.ownerId s.log ++
          [LineBuffer.stripCr raw] := by
    rw [hHandled, if_pos rfl]
    rfl
  have hOther :
      ∀ k, c.ownerId ≠ k →
        handledLines k
            ((s.setConn fd
              { c with input := rest }).handleLine fd
                (LineBuffer.stripCr raw)).log =
          handledLines k s.log := by
    intro k hNe
    rw [hHandled, if_neg hNe, List.append_nil]
    rfl
  have hMine := hIntake.live fd c hConn hLive
  rw [hBuf] at hMine
  refine ⟨?_, ?_, ?_⟩
  · intro r hr
    exact (hIntake.old r hr).trans_le
      hServes.acts.nextOwner_le
  · intro k
    by_cases hEq : c.ownerId = k
    · subst hEq
      exact ⟨rest.buf, hMine.handle hFree hOwn⟩
    · rcases hIntake.each k with ⟨left, hConsumed⟩
      exact ⟨left, hConsumed.wordless (hOther k hEq)⟩
  · intro f d hd hAlive
    rcases hServes.ages f d hd with ⟨e, he, hOlder⟩
    rcases hServes.keeps he with ⟨d', hd', hOwner, hInput⟩
    rw [hd] at hd'
    injection hd' with hd'
    subst hd'
    rw [hOwner, hInput]
    rcases conn_of_insert hTaken he with
      ⟨_, rfl⟩ | ⟨hNe, hOld⟩
    · exact hMine.handle hFree hOwn
    · have hApart : c.ownerId ≠ e.ownerId := by
        intro hSame
        exact hNe
          (hReg.owner_unique f fd e c hOld hConn hSame.symm)
      exact (hIntake.live f e hOld
        (hOlder.dead hAlive)).wordless (hOther _ hApart)

/- Every kind of turn. -/
theorem Intake.turn
    {more : List Reading}
    (hReg : Registry s)
    (hIntake : Intake s given)
    (hTurn : Turn s more s') :
    Intake s' (given ++ more) := by
  cases hTurn with
  | read hConn hLive bytes =>
      exact hIntake.read hReg hConn hLive bytes
  | line hConn hLive hLine =>
      rw [List.append_nil]
      exact hIntake.line hReg hConn hLive hLine
  | overlong hConn hLive _ =>
      have hReady : Ready Guard.none s _ _ :=
        ⟨hConn, hLive, False.elim⟩
      rw [List.append_nil]
      exact hIntake.serves
        (((refuseLong_wordless _).trans
          setClosing_wordless).trans tryFlush_wordless)
        hReady.tooLong.serves
  | @flush fd c hConn hLive =>
      have hServes :
          Serves Guard.none s (s.tryFlush fd) :=
        tryFlush_serves
      rw [List.append_nil]
      exact hIntake.serves tryFlush_wordless hServes
  | @close fd c hConn hLive why hPeer =>
      rw [List.append_nil]
      have hWordless : Wordless s (s.closeConn fd why) :=
        closeConn_wordless why
      rw [closeConn_eq_commit hConn hLive] at hWordless ⊢
      refine hIntake.wordless hWordless
        (commit_nextOwner s _ _).ge ?_
      intro f d hd hAlive
      rcases conn_of_insert (commit_conns s fd _) hd with
        ⟨rfl, rfl⟩ | ⟨_, hOld⟩
      · cases hAlive
      · exact Or.inr ⟨d, hOld, hAlive, rfl, rfl⟩
  | @accept cfd hFresh hListen =>
      rw [List.append_nil]
      have hNone := hReg.none_of_fresh hFresh
      refine hIntake.wordless
        (note_wordless (fun _ _ h => by cases h) rfl)
        (Int.lt_succ s.nextOwner).le ?_
      intro f d hd hAlive
      rcases conn_of_insert (acceptConn_conns hNone) hd with
        ⟨_, rfl⟩ | ⟨_, hOld⟩
      · exact Or.inl ⟨le_refl _, rfl⟩
      · exact Or.inr ⟨d, hOld, hAlive, rfl, rfl⟩
  | reap =>
      rw [List.append_nil]
      refine hIntake.wordless
        (wordless_of_log (reap_log s) ?_)
        (reap_nextOwner s).ge ?_
      · rintro e he k text rfl
        rcases List.mem_map.mp he with ⟨_, _, hIs⟩
        cases hIs
      · intro f d hd hAlive
        exact Or.inr
          ⟨d, conn_of_reap s hd, hAlive, rfl, rfl⟩
  | answers a =>
      rw [List.append_nil]
      exact hIntake.wordless (.refl s) (le_refl _)
        (fun _ d hd hAlive =>
          Or.inr ⟨d, hd, hAlive, rfl, rfl⟩)

/- Between any two turns, of whatever was read so far. -/
theorem Turns.intake
    {lfd : Fd}
    {env : Env}
    (hTurns : Turns (init lfd env) given s) :
    Intake s given := by
  have hBoth :
      Registry s ∧ Intake s ([] ++ given) :=
    hTurns.invariant
      (fun s given => Registry s ∧ Intake s given)
      (fun _ _ _ _ hInv hTurn =>
        ⟨hTurn.registry hInv.1, hInv.2.turn hInv.1 hTurn⟩)
      ⟨registry_init lfd env, intake_init lfd env⟩
  exact hBoth.2

end Server

end SocketExchange

------------------------------------------------------------
-- The Buffers While The Server Sleeps
------------------------------------------------------------

namespace SocketExchange

/- No line is left in the buffer, unless it is to close. -/
def Conn.Drained (c : Conn) : Prop :=
  c.dead = false → c.closing = false →
    newline ∉ c.input.buf

namespace Server

variable {s s' : Server} {fd : Fd} {c : Conn}

/- All connections are drained, but for one. -/
def DrainedBut (fd : Fd) (s : Server) : Prop :=
  ∀ (f : Fd) (d : Conn), f ≠ fd →
    s.conns[f]? = some d → d.Drained

/- All connections are drained. -/
def Drained (s : Server) : Prop :=
  ∀ (f : Fd) (d : Conn), s.conns[f]? = some d → d.Drained

/- The one may be written at will. -/
theorem DrainedBut.of_conns
    {c' : Conn}
    (hBut : DrainedBut fd s)
    (hConns : s'.conns = s.conns.insert fd c') :
    DrainedBut fd s' := by
  intro f d hOther hd
  rcases conn_of_insert hConns hd with
    ⟨hSame, _⟩ | ⟨_, hOld⟩
  · exact absurd hSame hOther
  · exact hBut f d hOther hOld

/-
  Output leaves the buffers alone, and what it marks or ends
  need not be drained any more.
-/
theorem DrainedBut.ages
    (hBut : DrainedBut fd s)
    (hAges : Ages s s') :
    DrainedBut fd s' := by
  intro f d hOther hd hLive hOpen
  rcases hAges f d hd with ⟨e, he, hOlder⟩
  rw [hOlder.input]
  exact hBut f e hOther he (hOlder.dead hLive)
    (hOlder.closing hOpen)

/- When the one is drained as well, all are. -/
theorem DrainedBut.drained
    (hBut : DrainedBut fd s)
    (hOwn : ∀ d, s.conns[fd]? = some d → d.Drained) :
    Drained s := by
  intro f d hd
  by_cases hSame : f = fd
  · subst hSame
    exact hOwn d hd
  · exact hBut f d hSame hd

theorem Drained.but
    (hInv : Drained s)
    (fd : Fd) :
    DrainedBut fd s :=
  fun f d _ hd => hInv f d hd

theorem Drained.ages
    (hInv : Drained s)
    (hAges : Ages s s') :
    Drained s' := by
  intro f d hd hLive hOpen
  rcases hAges f d hd with ⟨e, he, hOlder⟩
  rw [hOlder.input]
  exact hInv f e he (hOlder.dead hLive)
    (hOlder.closing hOpen)

/- The drain loop stops for want of a line, or for good. -/
theorem drainLines_exhausts
    (fuel : Nat)
    (hReg : Registry s)
    (hConn : s.conns[fd]? = some c)
    (hLive : c.dead = false)
    (hBut : DrainedBut fd s)
    (hFuel : c.input.size < fuel) :
    Drained (drainLines fd fuel s).1 := by
  induction fuel generalizing s c with
  | zero => omega
  | succ fuel ih =>
      have hReady : Ready Guard.none s fd c :=
        ⟨hConn, hLive, False.elim⟩
      have hMine :
          newline ∉ c.input.buf → Drained s := by
        intro hFree
        apply hBut.drained
        intro d hd _ _
        rw [hConn] at hd
        injection hd with hd
        exact hd ▸ hFree
      unfold drainLines
      rw [hConn]
      dsimp only
      cases hLine : c.input.nextLine with
      | needMore =>
          apply hMine
          intro hMem
          rcases List.eq_append_cons_of_mem hMem with
            ⟨raw, later, hBuf, hFree⟩
          have hOk :=
            LineBuffer.nextLine_of_line hFree later
          rw [← hBuf] at hOk
          cases hOk.symm.trans hLine
      | tooLong =>
          apply (hBut.ages hReady.tooLong.serves.ages).drained
          intro d hd _ hOpen
          rw [quit_closing hd] at hOpen
          cases hOpen
      | ok line rest =>
          have hShorter := LineBuffer.size_lt_of_nextLine hLine
          have hTook := takeLine hReg hReady line rest
          have hAct :
              Act Guard.none s
                (s.setConn fd { c with input := rest }) :=
            .input hConn rest
          have hNow :=
            getElem?_setConn_self s fd
              { c with input := rest }
          have hServes :=
            handleLine_serves (hReg.act hAct)
              (⟨hNow, hLive, False.elim⟩ :
                Ready Guard.none _ fd _) line
          have hBut' :
              DrainedBut fd
                (s.setConn fd { c with input := rest }) :=
            hBut.of_conns rfl
          dsimp only
          split
          · next hDone =>
              apply (hBut'.ages hServes.ages).drained
              intro d hd hAlive hOpen
              simp [isDone, hd, hAlive, hOpen] at hDone
          · next hNot =>
              rcases hTook.goes_on hNot with
                ⟨d, hd, hAlive, _, _, hInput⟩
              refine ih hTook.registry hd hAlive
                (hBut'.ages hServes.ages) ?_
              rw [hInput]
              omega

/- A chunk is appended, and its lines taken off again. -/
theorem receive_drained
    (bytes : Bytes)
    (hReg : Registry s)
    (hInv : Drained s)
    (hConn : s.conns[fd]? = some c)
    (hLive : c.dead = false) :
    Drained (s.receive fd bytes).1 := by
  have hGrow :
      Act Guard.none s
        (s.setConn fd
          { c with input := c.input.append bytes }) :=
    .input hConn _
  rw [receive_eq hConn]
  exact drainLines_exhausts _ (hReg.act hGrow)
    (getElem?_setConn_self s fd _) hLive
    ((hInv.but fd).of_conns rfl) (Nat.lt_succ_self _)

/- A teardown leaves no live connection undrained. -/
theorem closeConn_drained
    (why : CloseCause)
    (hInv : Drained s)
    (hConn : s.conns[fd]? = some c)
    (hLive : c.dead = false) :
    Drained (s.closeConn fd why) := by
  rw [closeConn_eq_commit hConn hLive]
  intro f d hd
  rcases conn_of_insert (commit_conns s fd _) hd with
    ⟨_, rfl⟩ | ⟨_, hOld⟩
  · exact fun hAlive => by cases hAlive
  · exact hInv f d hOld

/-
  By induction on the answers: after each chunk all is
  drained, and the loop goes on or returns.
-/
theorem recvLoop_drained
    {eof : Bool}
    (recvs : List RecvResult)
    (hReg : Registry s)
    (hInv : Drained s)
    (hConn : s.conns[fd]? = some c)
    (hLive : c.dead = false) :
    Drained (recvLoop fd eof recvs s) := by
  have hBlocked
      {t : Server}
      {d : Conn}
      (hInv : Drained t)
      (hd : t.conns[fd]? = some d)
      (hAlive : d.dead = false) :
      Drained (if eof then t.closeConn fd .eof else t) := by
    split
    · exact closeConn_drained .eof hInv hd hAlive
    · exact hInv
  induction recvs generalizing s c with
  | nil => exact hBlocked hInv hConn hLive
  | cons r rs ih =>
      cases r with
      | data chunk =>
          have hNext :=
            receive_drained chunk.bytes hReg hInv hConn hLive
          have hTurns :=
            receive_turns chunk.bytes hReg hConn hLive
          rw [recvLoop_data]
          split
          · exact hNext
          · next hNot =>
              rcases receive_keeps hReg hConn hLive
                  (Bool.eq_false_of_not_eq_true hNot) with
                ⟨d, hd, hAlive, _⟩
              exact ih (hTurns.registry hReg) hNext hd hAlive
      | fin => exact closeConn_drained .fin hInv hConn hLive
      | eintr => exact ih hReg hInv hConn hLive
      | eagain => exact hBlocked hInv hConn hLive
      | reset =>
          exact closeConn_drained .recvError hInv hConn hLive
      | error =>
          exact closeConn_drained .recvError hInv hConn hLive

/- A connection begins with an empty buffer. -/
theorem onAccept_drained
    (accepts : List AcceptResult)
    (hInv : Drained s) :
    Drained (onAccept accepts s) := by
  induction accepts generalizing s with
  | nil => exact hInv
  | cons r rs ih =>
      cases r with
      | conn cfd =>
          apply ih
          intro f d hd
          change (s.conns.insertIfNew cfd _)[f]? =
            some d at hd
          rw [Std.ExtTreeMap.getElem?_insertIfNew] at hd
          split at hd
          · injection hd with hd
            subst hd
            exact fun _ _ => List.not_mem_nil
          · exact hInv f d hd
      | eagain => exact hInv
      | eintr => exact ih hInv
      | aborted => exact ih hInv
      | outOfFds => exact hInv
      | error => exact hInv

/- So every step of the server leaves all drained. -/
theorem step_drained
    {i : Step}
    (hReg : Registry s)
    (hInv : Drained s) :
    Drained (step s i) := by
  cases i with
  | reap => exact fun f d hd => hInv f d (conn_of_reap s hd)
  | event ev a =>
      have hInv' : Drained (s.withAnswers a) := hInv
      unfold step onEvent
      dsimp only
      split
      · exact onAccept_drained a.accepts hInv'
      · split
        · unfold onReadable
          split
          · exact hInv'
          · next c hFind =>
              rcases findLive_eq_some_iff.mp hFind with
                ⟨hConn, hLive⟩
              exact recvLoop_drained a.recvs
                (hReg.withAnswers a) hInv' hConn hLive
        · unfold onWritable
          split
          · exact hInv'
          · have hServes :
                Serves Guard.none (s.withAnswers a)
                  ((s.withAnswers a).tryFlush ev.ident) :=
              tryFlush_serves
            exact hInv'.ages hServes.ages

/- And so it is whenever the server goes to sleep. -/
theorem Reachable.drained
    (hReach : Reachable s) :
    Drained s := by
  rcases hReach with ⟨lfd, env, steps, hLegal, rfl⟩
  have hBoth :
      Registry (Machine.run step (init lfd env) steps) ∧
        Drained (Machine.run step (init lfd env) steps) := by
    refine Machine.run_invariant
      (fun s => Registry s ∧ Drained s) ?_
      ⟨registry_init lfd env, ?_⟩ hLegal
    · rintro s i ⟨hReg, hInv⟩ hLegal
      exact ⟨(step_turns hReg hLegal).registry hReg,
        step_drained hReg hInv⟩
    · intro f d hd
      simp [init] at hd
  exact hBoth.2

/-
  What is received is handled. Over every run, the lines the
  handlers were given on a connection are, in order, the
  first lines of all the bytes received on it; and whenever
  the server sleeps, a connection that is live and not
  closing was handled every complete line, and holds nothing
  but the beginning of the next one.
-/
theorem received_is_handled
    {lfd : Fd}
    {env : Env}
    {steps : List Step}
    (hLegal :
      Machine.Permitted step Legal (init lfd env) steps) :
    let s := Machine.run step (init lfd env) steps
    let given := (init lfd env).readings steps
    (∀ k,
      handledLines k s.log <+:
        (Cut.pieces newline (receivedBytes k given)).map
          LineBuffer.stripCr) ∧
    (∀ (fd : Fd) (c : Conn), s.conns[fd]? = some c →
      c.dead = false → c.closing = false →
        handledLines c.ownerId s.log =
            (Cut.pieces newline
              (receivedBytes c.ownerId given)).map
                LineBuffer.stripCr ∧
          c.input.buf =
            Cut.rest newline
              (receivedBytes c.ownerId given)) := by
  intro s given
  have hReach : Reachable s :=
    ⟨lfd, env, steps, hLegal, rfl⟩
  have hIntake : Intake s given :=
    (run_turns (registry_init lfd env) hLegal).intake
  constructor
  · intro k
    rcases hIntake.each k with ⟨rest, hConsumed⟩
    exact hConsumed.first
  · intro fd c hConn hLive hOpen
    exact (hIntake.live fd c hConn hLive).all
      (hReach.drained fd c hConn hLive hOpen)

/- The two lines of the seller, as they were received. -/
theorem received_is_handled_trading :
    handledLines 1
        (Machine.run step listening tradingSteps).log <+:
      [ascii "LOGIN ann", ascii "SELL JNST 5 100"] := by
  have hLines :
      (Cut.pieces newline
          (receivedBytes 1
            (listening.readings tradingSteps))).map
        LineBuffer.stripCr =
        [ascii "LOGIN ann", ascii "SELL JNST 5 100"] := by
    decide +kernel
  rw [← hLines]
  exact (received_is_handled tradingSteps_legal).1 1

end Server

end SocketExchange

import SocketExchange.Server.Model

/-
  Output activity is local to one connection.

  A port is a connection with the answers its socket will
  give and what happened on it so far. Closing, flushing and
  queueing are functions of the port alone; the server
  around it only writes the result back and, when the
  connection died, releases its name and owner entry. This
  is what lets every connection be followed on its own while
  handlers touch many of them.

  Key definitions include:
    * `Port.close`, `Port.flush`, `Port.queue`
    * `OutputTail`
    * `Server.writing`, `Server.commit`

  Key theorems include:
    * `Server.closeConn_eq_commit`
    * `Server.tryFlush_eq_commit`
    * `Server.queueOut_eq_commit`
    * `Server.cases_of_live`
-/

------------------------------------------------------------
-- Ports
------------------------------------------------------------

namespace SocketExchange

/-
  A connection, the answers its next `send` calls will get,
  and its history since it was taken up.
-/
structure Port where
  conn : Conn
  sends : List SendResult
  log : List Obs

namespace Port

/- The port of a connection of a server. -/
def ofConn (s : Server) (c : Conn) : Port where
  conn := c
  sends := s.env.sends c.fd
  log := []

/- `close_conn`, as seen by a live connection. -/
def close (p : Port) (why : CloseCause) : Port where
  conn := { p.conn with dead := true }
  sends := p.sends
  log :=
    p.log ++
      [.closed p.conn.ownerId why p.conn.out.pending]

/- `try_flush`, as seen by a live connection. -/
def flush (p : Port) : Port :=
  let r := flushLoop p.sends p.conn.out
  let log := p.log ++ [.sent p.conn.ownerId r.wire]
  match r.exit with
  | .blocked =>
      { conn :=
          { p.conn with
            out := r.out, writeEnabled := true }
        sends := r.sends
        log := log }
  | .failed =>
      close
        { conn := { p.conn with out := r.out }
          sends := r.sends
          log := log }
        .sendError
  | .drained =>
      let q : Port :=
        { conn :=
            { p.conn with
              out := r.out, writeEnabled := false }
          sends := r.sends
          log := log }
      if p.conn.closing then q.close .drained else q

/- `queue_out`, as seen by a live connection. -/
def queue (p : Port) (m : Msg) : Port :=
  let out := p.conn.out.push m.text
  let log := p.log ++ [.queued p.conn.ownerId m]
  if out.pending > kMaxOutBytes then
    close
      { conn := { p.conn with out := out.clear }
        sends := p.sends
        log := log }
      .backlog
  else
    flush
      { conn := { p.conn with out := out }
        sends := p.sends
        log := log }

end Port

end SocketExchange

------------------------------------------------------------
-- What Output Activity Leaves Alone
------------------------------------------------------------

namespace SocketExchange

/-
  Two states of a connection that differ in its output
  buffer, its write interest and its liveness only.
-/
structure Conn.SameIdentity (c c' : Conn) : Prop where
  fd : c'.fd = c.fd
  ownerId : c'.ownerId = c.ownerId
  role : c'.role = c.role
  username : c'.username = c.username
  subs : c'.subs = c.subs
  input : c'.input = c.input
  closing : c'.closing = c.closing

namespace Conn.SameIdentity

theorem refl (c : Conn) : c.SameIdentity c :=
  ⟨rfl, rfl, rfl, rfl, rfl, rfl, rfl⟩

/-
  What one piece of output leaves alone and the next does
  too, both do.
-/
theorem trans
    {a b c : Conn}
    (hab : a.SameIdentity b)
    (hbc : b.SameIdentity c) :
    a.SameIdentity c where
  fd := hbc.fd.trans hab.fd
  ownerId := hbc.ownerId.trans hab.ownerId
  role := hbc.role.trans hab.role
  username := hbc.username.trans hab.username
  subs := hbc.subs.trans hab.subs
  input := hbc.input.trans hab.input
  closing := hbc.closing.trans hab.closing

end Conn.SameIdentity

namespace Port

/- Closing, flushing and queueing leave the rest alone. -/
theorem close_same (p : Port) (why : CloseCause) :
    p.conn.SameIdentity (p.close why).conn :=
  ⟨rfl, rfl, rfl, rfl, rfl, rfl, rfl⟩

theorem flush_same (p : Port) :
    p.conn.SameIdentity p.flush.conn := by
  unfold flush
  dsimp only
  split
  · exact ⟨rfl, rfl, rfl, rfl, rfl, rfl, rfl⟩
  · exact ⟨rfl, rfl, rfl, rfl, rfl, rfl, rfl⟩
  · split <;> exact ⟨rfl, rfl, rfl, rfl, rfl, rfl, rfl⟩

theorem queue_same (p : Port) (m : Msg) :
    p.conn.SameIdentity (p.queue m).conn := by
  unfold queue
  dsimp only
  split
  · exact ⟨rfl, rfl, rfl, rfl, rfl, rfl, rfl⟩
  · refine Conn.SameIdentity.trans ?_ (flush_same _)
    exact ⟨rfl, rfl, rfl, rfl, rfl, rfl, rfl⟩

end Port

end SocketExchange

------------------------------------------------------------
-- How Output Activity Ends
------------------------------------------------------------

namespace SocketExchange

/-
  What one flush, or one push over the cap, leaves in the
  history of a connection, and whether the connection died
  of it. Only a closing connection dies of a drained buffer.
-/
inductive OutputTail
    (owner : Int)
    (closing : Bool) :
    Bool → List Obs → Prop where
| alive
    (wire : Bytes) :
    OutputTail owner closing false [.sent owner wire]
| failed
    (wire : Bytes)
    (left : Nat) :
    OutputTail owner closing true
      [.sent owner wire, .closed owner .sendError left]
| drained
    (wire : Bytes)
    (hClosing : closing = true) :
    OutputTail owner closing true
      [.sent owner wire, .closed owner .drained 0]
| backlog :
    OutputTail owner closing true
      [.closed owner .backlog 0]

/- Bytes sent and ends are all there is. -/
theorem OutputTail.mem
    {owner : Int}
    {closing dead : Bool}
    {es : List Obs}
    {e : Obs}
    (hTail : OutputTail owner closing dead es)
    (hMem : e ∈ es) :
    (∃ wire, e = .sent owner wire) ∨
      ∃ why left, e = .closed owner why left := by
  cases hTail with
  | alive wire =>
      exact Or.inl ⟨wire, List.mem_singleton.mp hMem⟩
  | failed wire left =>
      rcases List.mem_cons.mp hMem with hSent | hClosed
      · exact Or.inl ⟨wire, hSent⟩
      · exact Or.inr ⟨_, _, List.mem_singleton.mp hClosed⟩
  | drained wire _ =>
      rcases List.mem_cons.mp hMem with hSent | hClosed
      · exact Or.inl ⟨wire, hSent⟩
      · exact Or.inr ⟨_, _, List.mem_singleton.mp hClosed⟩
  | backlog =>
      exact Or.inr ⟨_, _, List.mem_singleton.mp hMem⟩

/- What holds of every send and of every end. -/
theorem OutputTail.forall_mem
    {P : Obs → Prop}
    {owner : Int}
    {closing dead : Bool}
    {es : List Obs}
    (hTail : OutputTail owner closing dead es)
    (hSent : ∀ wire, P (.sent owner wire))
    (hClosed : ∀ why left, P (.closed owner why left)) :
    ∀ e ∈ es, P e := by
  intro e he
  rcases hTail.mem he with ⟨wire, rfl⟩ | ⟨why, left, rfl⟩
  · exact hSent wire
  · exact hClosed why left

/- How the flush loop ends says whether bytes are left. -/
theorem flushLoop_exit
    (sends : List SendResult)
    (out : OutBuffer) :
    ((flushLoop sends out).exit = .drained →
        (flushLoop sends out).out.isEmpty = true) ∧
      ((flushLoop sends out).exit = .blocked →
        (flushLoop sends out).out.isEmpty = false) := by
  induction sends generalizing out with
  | nil =>
      unfold flushLoop
      split
      · next hEmpty => exact ⟨fun _ => hEmpty, nofun⟩
      · next hFull =>
          exact ⟨nofun, fun _ =>
            Bool.eq_false_of_not_eq_true hFull⟩
  | cons r rs ih =>
      unfold flushLoop
      split
      · next hEmpty => exact ⟨fun _ => hEmpty, nofun⟩
      · next hFull =>
          cases r with
          | sent n =>
              dsimp only
              split
              · exact ih (out.consume n)
              · exact ⟨nofun, nofun⟩
          | eintr => exact ih out
          | eagain =>
              exact ⟨nofun, fun _ =>
                Bool.eq_false_of_not_eq_true hFull⟩
          | error => exact ⟨nofun, nofun⟩

/- The loop that drained the buffer left nothing in it. -/
theorem pending_of_drained
    {sends : List SendResult}
    {out : OutBuffer}
    (hExit : (flushLoop sends out).exit = .drained) :
    (flushLoop sends out).out.pending = 0 :=
  (OutBuffer.isEmpty_iff _).mp
    ((flushLoop_exit sends out).1 hExit)

namespace Port

/- A flush leaves a tail, and the port is dead by it. -/
theorem flush_tail
    (p : Port)
    (hLive : p.conn.dead = false) :
    ∃ es, p.flush.log = p.log ++ es ∧
      OutputTail p.conn.ownerId p.conn.closing
        p.flush.conn.dead es := by
  unfold flush
  dsimp only
  split
  · refine ⟨_, rfl, ?_⟩
    rw [hLive]
    exact .alive _
  · refine ⟨_, ?_, .failed
      (flushLoop p.sends p.conn.out).wire
      (flushLoop p.sends p.conn.out).out.pending⟩
    simp [close]
  · next hDrained =>
      have hEmpty := pending_of_drained hDrained
      split
      · next hClosing =>
          refine ⟨_, ?_, .drained
            (flushLoop p.sends p.conn.out).wire hClosing⟩
          simp [close, hEmpty]
      · refine ⟨_, rfl, ?_⟩
        rw [hLive]
        exact .alive _

/- So does a push, behind the message that was queued. -/
theorem queue_tail
    (p : Port)
    (m : Msg)
    (hLive : p.conn.dead = false) :
    ∃ es,
      (p.queue m).log =
          p.log ++ .queued p.conn.ownerId m :: es ∧
        OutputTail p.conn.ownerId p.conn.closing
          (p.queue m).conn.dead es := by
  unfold queue
  dsimp only
  split
  · refine ⟨_, ?_, .backlog⟩
    simp [close, OutBuffer.clear, OutBuffer.pending,
      OutBuffer.len]
  · rcases flush_tail
        { conn :=
            { p.conn with out := p.conn.out.push m.text }
          sends := p.sends
          log := p.log ++ [.queued p.conn.ownerId m] }
        hLive with ⟨es, hLog, hTail⟩
    refine ⟨es, ?_, hTail⟩
    rw [hLog]
    simp

end Port

end SocketExchange

------------------------------------------------------------
-- Writing A Port Back
------------------------------------------------------------

namespace SocketExchange

/- A key written twice has the later value. -/
theorem insert_insert_self
    {κ ν : Type}
    [Ord κ] [Std.TransOrd κ] [Std.LawfulEqOrd κ]
    (m : Std.ExtTreeMap κ ν)
    (k : κ)
    (v w : ν) :
    (m.insert k v).insert k w = m.insert k w := by
  ext1 a
  simp only [Std.ExtTreeMap.getElem?_insert]
  split <;> rfl

/- Writing what is there changes nothing. -/
theorem insert_getElem?_self
    {κ ν : Type}
    [Ord κ] [Std.TransOrd κ] [Std.LawfulEqOrd κ]
    {m : Std.ExtTreeMap κ ν}
    {k : κ}
    {v : ν}
    (hLookup : m[k]? = some v) :
    m.insert k v = m := by
  ext1 a
  rw [Std.ExtTreeMap.getElem?_insert]
  split
  · next hEq =>
      have hKey : k = a := Std.LawfulEqCmp.eq_of_compare hEq
      rw [← hKey, hLookup]
  · rfl

namespace Server

/- Write a port back without looking at its liveness. -/
def writing (s : Server) (fd : Fd) (p : Port) : Server :=
  { s with
    conns := s.conns.insert fd p.conn
    env :=
      { s.env with
        sends :=
          Function.update s.env.sends p.conn.fd p.sends }
    log := s.log ++ p.log }

/-
  Write back a port that was live before: a connection that
  died gives up its name and its owner entry and waits to be
  reaped.
-/
def commit (s : Server) (fd : Fd) (p : Port) : Server :=
  if p.conn.dead then
    { s.writing fd p with
      usernames := releaseName s.usernames p.conn.username
      ownerFd := s.ownerFd.erase p.conn.ownerId
      dead := s.dead ++ [p.conn.fd] }
  else
    s.writing fd p

/- A port written back untouched is no change. -/
theorem writing_ofConn
    {s : Server}
    {fd : Fd}
    {c : Conn}
    (hConn : s.conns[fd]? = some c) :
    s.writing fd (Port.ofConn s c) = s := by
  simp [writing, Port.ofConn, insert_getElem?_self hConn]

theorem getElem?_writing_self
    (s : Server)
    (fd : Fd)
    (p : Port) :
    (s.writing fd p).conns[fd]? = some p.conn := by
  simp [writing]

/-
  The functions of the server, on a port that was just
  written back: they act on the port, and commit it. The
  live connection of a state is such a port.
-/
theorem closeConn_writing
    (s : Server)
    (fd : Fd)
    (p : Port)
    (why : CloseCause)
    (hLive : p.conn.dead = false) :
    (s.writing fd p).closeConn fd why =
      s.commit fd (p.close why) := by
  unfold closeConn
  rw [getElem?_writing_self]
  simp [hLive, commit, Port.close, writing,
    insert_insert_self]

/-
  The flush loop runs on the port; each of its exits is one
  of the branches of `flush`.
-/
theorem tryFlush_writing
    (s : Server)
    (fd : Fd)
    (p : Port)
    (hLive : p.conn.dead = false) :
    (s.writing fd p).tryFlush fd =
      s.commit fd p.flush := by
  unfold tryFlush Port.flush
  rw [getElem?_writing_self]
  have hSends :
      (s.writing fd p).env.sends p.conn.fd = p.sends := by
    simp [writing]
  simp only [hLive, hSends, Bool.false_eq_true, if_false]
  -- The state on every exit is a port written back.
  have hState :
      ∀ c : Conn, c.fd = p.conn.fd →
        (((s.writing fd p).setSends p.conn.fd
            (flushLoop p.sends p.conn.out).sends).note
            (.sent p.conn.ownerId
              (flushLoop p.sends
                p.conn.out).wire)).setConn fd c =
          s.writing fd
            { conn := c
              sends :=
                (flushLoop p.sends p.conn.out).sends
              log :=
                p.log ++
                  [.sent p.conn.ownerId
                    (flushLoop p.sends
                      p.conn.out).wire] } := by
    intro c hFd
    simp [writing, setSends, note, setConn, hFd,
      insert_insert_self]
  cases (flushLoop p.sends p.conn.out).exit with
  | blocked =>
      dsimp only
      rw [hState _ (by rfl)]
      simp [commit]
  | failed =>
      dsimp only
      rw [hState _ (by rfl)]
      exact closeConn_writing _ _ _ _ rfl
  | drained =>
      dsimp only
      by_cases hClosing : p.conn.closing = true
      · rw [if_pos hClosing, if_pos hClosing,
          hState _ (by rfl)]
        exact closeConn_writing _ _ _ _ rfl
      · rw [if_neg hClosing, if_neg hClosing,
          hState _ (by rfl)]
        simp [commit]

/- Over the cap the connection ends, else it is flushed. -/
theorem queueOut_writing
    (s : Server)
    (fd : Fd)
    (p : Port)
    (m : Msg)
    (hLive : p.conn.dead = false) :
    (s.writing fd p).queueOut fd m =
      s.commit fd (p.queue m) := by
  unfold queueOut Port.queue
  rw [getElem?_writing_self]
  simp only [hLive, Bool.false_eq_true, if_false]
  have hState :
      ∀ c : Conn, c.fd = p.conn.fd →
        ((s.writing fd p).note
            (.queued p.conn.ownerId m)).setConn fd c =
          s.writing fd
            { conn := c
              sends := p.sends
              log :=
                p.log ++ [.queued p.conn.ownerId m] } := by
    intro c hFd
    simp [writing, note, setConn, hFd, insert_insert_self]
  split
  · rw [hState _ (by rfl)]
    exact closeConn_writing _ _ _ _ rfl
  · rw [hState _ (by rfl)]
    exact tryFlush_writing _ _ _ rfl

section Live

variable {s : Server} {fd : Fd} {c : Conn}

/- On a live connection each of them works on its port. -/
theorem closeConn_eq_commit
    (hConn : s.conns[fd]? = some c)
    (hLive : c.dead = false)
    (why : CloseCause) :
    s.closeConn fd why =
      s.commit fd ((Port.ofConn s c).close why) := by
  conv_lhs => rw [← writing_ofConn hConn]
  exact closeConn_writing s fd (Port.ofConn s c) why hLive

theorem tryFlush_eq_commit
    (hConn : s.conns[fd]? = some c)
    (hLive : c.dead = false) :
    s.tryFlush fd =
      s.commit fd (Port.ofConn s c).flush := by
  conv_lhs => rw [← writing_ofConn hConn]
  exact tryFlush_writing s fd (Port.ofConn s c) hLive

theorem queueOut_eq_commit
    (hConn : s.conns[fd]? = some c)
    (hLive : c.dead = false)
    (m : Msg) :
    s.queueOut fd m =
      s.commit fd ((Port.ofConn s c).queue m) := by
  conv_lhs => rw [← writing_ofConn hConn]
  exact queueOut_writing s fd (Port.ofConn s c) m hLive

end Live

section Dead

variable {s : Server} {fd : Fd}

/- What `find_live` finds is there, and live. -/
theorem findLive_eq_some_iff
    {c : Conn} :
    s.findLive fd = some c ↔
      s.conns[fd]? = some c ∧ c.dead = false := by
  unfold findLive
  cases hConn : s.conns[fd]? with
  | none => simp
  | some d =>
      cases hDead : d.dead with
      | true =>
          simp [hDead]
          rintro rfl
          exact hDead
      | false =>
          simp [hDead]
          rintro rfl
          exact hDead

/- Nothing happens on a connection that is not live. -/
theorem closeConn_of_not_live
    (hNone : s.findLive fd = none)
    (why : CloseCause) :
    s.closeConn fd why = s := by
  unfold findLive at hNone
  unfold closeConn
  cases hConn : s.conns[fd]? with
  | none => rfl
  | some c =>
      simp only [hConn] at hNone
      split at hNone
      · next hDead => simp [hDead]
      · cases hNone

theorem tryFlush_of_not_live
    (hNone : s.findLive fd = none) :
    s.tryFlush fd = s := by
  unfold findLive at hNone
  unfold tryFlush
  cases hConn : s.conns[fd]? with
  | none => rfl
  | some c =>
      simp only [hConn] at hNone
      split at hNone
      · next hDead => simp [hDead]
      · cases hNone

theorem queueOut_of_not_live
    (hNone : s.findLive fd = none)
    (m : Msg) :
    s.queueOut fd m = s := by
  unfold findLive at hNone
  unfold queueOut
  cases hConn : s.conns[fd]? with
  | none => rfl
  | some c =>
      simp only [hConn] at hNone
      split at hNone
      · next hDead => simp [hDead]
      · cases hNone

end Dead

section Cases

variable {s : Server} {fd : Fd} {P : Server → Prop}

/-
  What only acts on a live connection does nothing, or
  writes back the port of one.
-/
theorem cases_of_live
    {t : Server}
    {p : Conn → Port}
    (hNone : s.findLive fd = none → t = s)
    (hSome :
      ∀ c, s.conns[fd]? = some c → c.dead = false →
        t = s.commit fd (p c))
    (hIdle : P s)
    (hActs :
      ∀ c, s.conns[fd]? = some c → c.dead = false →
        P (s.commit fd (p c))) :
    P t := by
  cases hFind : s.findLive fd with
  | none =>
      rw [hNone hFind]
      exact hIdle
  | some c =>
      rcases findLive_eq_some_iff.mp hFind with
        ⟨hConn, hLive⟩
      rw [hSome c hConn hLive]
      exact hActs c hConn hLive

/-
  The rule, for each function that acts on one connection.
-/
theorem closeConn_cases
    {why : CloseCause}
    (hIdle : P s)
    (hActs :
      ∀ c, s.conns[fd]? = some c → c.dead = false →
        P (s.commit fd ((Port.ofConn s c).close why))) :
    P (s.closeConn fd why) :=
  cases_of_live
    (fun hNone => closeConn_of_not_live hNone why)
    (fun _ hConn hLive =>
      closeConn_eq_commit hConn hLive why)
    hIdle hActs

theorem tryFlush_cases
    (hIdle : P s)
    (hActs :
      ∀ c, s.conns[fd]? = some c → c.dead = false →
        P (s.commit fd (Port.ofConn s c).flush)) :
    P (s.tryFlush fd) :=
  cases_of_live tryFlush_of_not_live
    (fun _ hConn hLive => tryFlush_eq_commit hConn hLive)
    hIdle hActs

theorem queueOut_cases
    {m : Msg}
    (hIdle : P s)
    (hActs :
      ∀ c, s.conns[fd]? = some c → c.dead = false →
        P (s.commit fd ((Port.ofConn s c).queue m))) :
    P (s.queueOut fd m) :=
  cases_of_live
    (fun hNone => queueOut_of_not_live hNone m)
    (fun _ hConn hLive => queueOut_eq_commit hConn hLive m)
    hIdle hActs

end Cases

end Server

end SocketExchange

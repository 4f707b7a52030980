import SocketExchange.Server.Notification
import SocketExchange.Wire.Queue

/-
  The output stream of a connection is a queue.

  What `send` accepted on a connection, followed by what its
  buffer still holds, is what was queued on it. The offset
  of the buffer, its compaction and the flush loop move the
  border between the two and nothing else; a connection that
  is torn down keeps what was sent so far.

  Main declarations:
    * `sentBytes`, `queuedBytes`
    * `flushLoop_bytes`
    * `Port.flush_drains`, `Port.queue_drains`
    * `Server.Flows`
    * `Server.Flows.act`
-/

------------------------------------------------------------
-- The Flush Loop
------------------------------------------------------------

namespace SocketExchange

/- The flush loop moves bytes from the buffer to the wire. -/
theorem flushLoop_bytes
    (sends : List SendResult)
    (out : OutBuffer) :
    (flushLoop sends out).wire ++
        (flushLoop sends out).out.bytes =
      out.bytes := by
  induction sends generalizing out with
  | nil => rfl
  | cons r rs ih =>
      unfold flushLoop
      split
      · rfl
      · cases r with
        | sent n =>
            dsimp only
            split
            · dsimp only
              rw [List.append_assoc, ih,
                OutBuffer.bytes_consume,
                List.take_append_drop]
            · rfl
        | eintr => exact ih out
        | eagain => rfl
        | error => rfl

end SocketExchange

------------------------------------------------------------
-- The Stream In The History
------------------------------------------------------------

namespace SocketExchange

/- The bytes that `send` accepted on a connection. -/
def sentBytes (owner : Int) (log : List Obs) : Bytes :=
  log.flatMap fun
    | .sent k wire => if k = owner then wire else []
    | _ => []

/- The bytes of the messages queued on a connection. -/
def queuedBytes (owner : Int) (log : List Obs) : Bytes :=
  (pushedTo owner log).flatMap Msg.text

/- Entries that leave the stream of a connection alone. -/
structure Silent (owner : Int) (es : List Obs) : Prop where
  sent : sentBytes owner es = []
  queued : queuedBytes owner es = []

variable {owner k : Int} {log es : List Obs}

/-
  The bytes sent in two logs are those of the one and those
  of the other.
-/
theorem sentBytes_append :
    sentBytes owner (log ++ es) =
      sentBytes owner log ++ sentBytes owner es :=
  List.flatMap_append

/- The same for bytes queued. -/
theorem queuedBytes_append :
    queuedBytes owner (log ++ es) =
      queuedBytes owner log ++ queuedBytes owner es := by
  unfold queuedBytes
  rw [pushedTo_append, List.flatMap_append]

/- Silent entries send nothing. -/
theorem Silent.sentBytes
    (hSilent : Silent owner es) :
    sentBytes owner (log ++ es) = sentBytes owner log := by
  rw [sentBytes_append, hSilent.sent, List.append_nil]

/- They queue nothing. -/
theorem Silent.queuedBytes
    (hSilent : Silent owner es) :
    queuedBytes owner (log ++ es) =
      queuedBytes owner log := by
  rw [queuedBytes_append, hSilent.queued, List.append_nil]

/- A release is silent. -/
theorem silent_released (fds : List Fd) :
    Silent owner (fds.map Obs.released) := by
  constructor
  · simp [SocketExchange.sentBytes]
  · simp [SocketExchange.queuedBytes, pushedTo]

/- Output of one connection is silent for the others. -/
theorem OutputTail.silent
    {closing dead : Bool}
    (hTail : OutputTail k closing dead es)
    (hOther : k ≠ owner) :
    Silent owner es where
  sent := by
    cases hTail <;>
      simp [SocketExchange.sentBytes, hOther]
  queued := by
    unfold SocketExchange.queuedBytes
    rw [hTail.pushedTo]
    rfl

end SocketExchange

------------------------------------------------------------
-- One Port
------------------------------------------------------------

namespace SocketExchange

/-
  Of these bytes the entries send a first part. A connection
  that lives on holds the rest.
-/
structure Drains
    (bytes : Bytes)
    (c : Conn)
    (es : List Obs) : Prop where
  sent : sentBytes c.ownerId es <+: bytes
  live :
    c.dead = false →
      sentBytes c.ownerId es ++ c.out.bytes = bytes

namespace Port

/- An entry of bytes sent counts its bytes. -/
theorem sentBytes_sent (owner : Int) (wire : Bytes) :
    sentBytes owner [.sent owner wire] = wire := by
  simp [sentBytes]

/- Whatever the exit, flushing sends from the front. -/
theorem flush_bytes (p : Port) :
    sentBytes p.conn.ownerId p.flush.log ++
        p.flush.conn.out.bytes =
      sentBytes p.conn.ownerId p.log ++
        p.conn.out.bytes := by
  have hSent :
      sentBytes p.conn.ownerId
            (p.log ++ [.sent p.conn.ownerId
              (flushLoop p.sends p.conn.out).wire]) ++
          (flushLoop p.sends p.conn.out).out.bytes =
        sentBytes p.conn.ownerId p.log ++
          p.conn.out.bytes := by
    rw [sentBytes_append, sentBytes_sent, List.append_assoc,
      flushLoop_bytes]
  have hClosed :
      ∀ why left,
        Silent p.conn.ownerId
          [.closed p.conn.ownerId why left] :=
    fun _ _ => ⟨rfl, rfl⟩
  unfold flush
  dsimp only
  split
  · exact hSent
  · unfold close
    dsimp only
    rw [(hClosed _ _).sentBytes]
    exact hSent
  · split
    · unfold close
      dsimp only
      rw [(hClosed _ _).sentBytes]
      exact hSent
    · exact hSent

/- A flush sends from the front of the queue. -/
theorem flush_drains
    (p : Port)
    (hLive : p.conn.dead = false) :
    ∃ es, p.flush.log = p.log ++ es ∧
      OutputTail p.conn.ownerId p.conn.closing
        p.flush.conn.dead es ∧
      Drains p.conn.out.bytes p.flush.conn es := by
  rcases flush_tail p hLive with ⟨es, hLog, hTail⟩
  have hBytes := flush_bytes p
  rw [hLog, sentBytes_append, List.append_assoc] at hBytes
  have hRest := List.append_cancel_left hBytes
  refine ⟨es, hLog, hTail, ?_⟩
  constructor
  · rw [(flush_same p).ownerId, ← hRest]
    exact List.prefix_append _ _
  · intro _
    rw [(flush_same p).ownerId]
    exact hRest

/- So does queueing, after it has appended the message. -/
theorem queue_drains
    (p : Port)
    (m : Msg)
    (hLive : p.conn.dead = false) :
    ∃ es,
      (p.queue m).log =
          p.log ++ .queued p.conn.ownerId m :: es ∧
        OutputTail p.conn.ownerId p.conn.closing
          (p.queue m).conn.dead es ∧
        Drains (p.conn.out.bytes ++ m.text)
          (p.queue m).conn es := by
  unfold queue
  dsimp only
  split
  · -- Over the cap: the buffer is dropped, nothing is sent.
    refine ⟨_, ?_, .backlog, ?_⟩
    · simp [close, OutBuffer.clear, OutBuffer.pending,
        OutBuffer.len]
    · constructor
      · exact List.nil_prefix
      · intro hDead
        cases hDead
  · rcases flush_drains
        { conn :=
            { p.conn with out := p.conn.out.push m.text }
          sends := p.sends
          log := p.log ++ [.queued p.conn.ownerId m] }
        hLive with ⟨es, hLog, hTail, hDrains⟩
    rw [OutBuffer.bytes_push] at hDrains
    refine ⟨es, ?_, hTail, hDrains⟩
    rw [hLog]
    simp

end Port

end SocketExchange

------------------------------------------------------------
-- Every Action Keeps The Streams
------------------------------------------------------------

namespace SocketExchange

namespace Server

/-
  On every connection what was sent is a first part of what
  was queued; on a live one the buffer holds the rest.
-/
structure Flows (s : Server) : Prop where
  sent :
    ∀ owner,
      sentBytes owner s.log <+: queuedBytes owner s.log
  live :
    ∀ (fd : Fd) (c : Conn), s.conns[fd]? = some c →
      c.dead = false →
        sentBytes c.ownerId s.log ++ c.out.bytes =
          queuedBytes c.ownerId s.log
  unborn :
    ∀ owner, s.nextOwner ≤ owner → Silent owner s.log

/- Nothing is sent or queued at the start. -/
theorem flows_init (lfd : Fd) (env : Env) :
    Flows (init lfd env) where
  sent := fun _ => List.prefix_refl _
  live := by
    intro fd c hConn
    simp [init] at hConn
  unborn := fun _ _ => ⟨rfl, rfl⟩

variable {s s' : Server} {fd : Fd} {c c' : Conn}

/- Entries that send and queue nothing. -/
theorem Flows.extend
    {es : List Obs}
    (hFlows : Flows s)
    (hLog : s'.log = s.log ++ es)
    (hSilent : ∀ owner, Silent owner es)
    (hNext : s.nextOwner ≤ s'.nextOwner)
    (hConns :
      ∀ (f : Fd) (d : Conn), s'.conns[f]? = some d →
        d.dead = false →
          sentBytes d.ownerId s.log ++ d.out.bytes =
            queuedBytes d.ownerId s.log) :
    Flows s' where
  sent := by
    intro owner
    rw [hLog, (hSilent owner).sentBytes,
      (hSilent owner).queuedBytes]
    exact hFlows.sent owner
  live := by
    intro f d hd hLive
    rw [hLog, (hSilent _).sentBytes,
      (hSilent _).queuedBytes]
    exact hConns f d hd hLive
  unborn := by
    intro owner hOwner
    have hOld := hFlows.unborn owner (by omega)
    constructor
    · rw [hLog, (hSilent owner).sentBytes]
      exact hOld.sent
    · rw [hLog, (hSilent owner).queuedBytes]
      exact hOld.queued

/- Writing a connection with its owner id and its buffer. -/
theorem Flows.of_insert
    (hFlows : Flows s)
    (hConn : s.conns[fd]? = some c)
    (hConns : s'.conns = s.conns.insert fd c')
    (hOwner : c'.ownerId = c.ownerId)
    (hOut : c'.out = c.out)
    (hDead : c'.dead = false → c.dead = false)
    (f : Fd)
    (d : Conn)
    (hNew : s'.conns[f]? = some d)
    (hLive : d.dead = false) :
    sentBytes d.ownerId s.log ++ d.out.bytes =
      queuedBytes d.ownerId s.log := by
  rcases conn_of_insert hConns hNew with
    ⟨_, rfl⟩ | ⟨_, hOld⟩
  · rw [hOwner, hOut]
    exact hFlows.live fd c hConn (hDead hLive)
  · exact hFlows.live f d hOld hLive

/- Output on one connection. -/
theorem Flows.commit
    {p : Port}
    (bytes : Bytes)
    (hReg : Registry s)
    (hFlows : Flows s)
    (hConn : s.conns[fd]? = some c)
    (hLive : c.dead = false)
    (hOwner : p.conn.ownerId = c.ownerId)
    (hOthers :
      ∀ owner, c.ownerId ≠ owner → Silent owner p.log)
    (hQueued : queuedBytes c.ownerId p.log = bytes)
    (hDrains : Drains (c.out.bytes ++ bytes) p.conn p.log) :
    Flows (s.commit fd p) := by
  have hBefore := hFlows.live fd c hConn hLive
  have hSent := hDrains.sent
  have hRest := hDrains.live
  rw [hOwner] at hSent hRest
  constructor
  · intro owner
    rw [commit_log]
    by_cases hSame : c.ownerId = owner
    · subst hSame
      rw [sentBytes_append, queuedBytes_append, ← hBefore,
        hQueued, List.append_assoc]
      exact (List.prefix_append_right_inj _).mpr hSent
    · have hSilent := hOthers owner hSame
      rw [hSilent.sentBytes, hSilent.queuedBytes]
      exact hFlows.sent owner
  · intro f d hd hAlive
    rw [commit_log]
    rcases conn_of_insert (commit_conns s fd p) hd with
      ⟨_, rfl⟩ | ⟨hOther, hOld⟩
    · rw [hOwner, sentBytes_append, queuedBytes_append,
        ← hBefore, hQueued, List.append_assoc,
        hRest hAlive, List.append_assoc]
    · have hApart : c.ownerId ≠ d.ownerId := by
        intro hSame
        exact hOther (hReg.owner_unique f fd d c hOld
          hConn hSame.symm)
      have hSilent := hOthers _ hApart
      rw [hSilent.sentBytes, hSilent.queuedBytes]
      exact hFlows.live f d hOld hAlive
  · intro owner hNext
    rw [commit_nextOwner] at hNext
    have hRange := (hReg.owner_range fd c hConn).2
    have hOld := hFlows.unborn owner hNext
    have hSilent := hOthers owner (by omega)
    constructor
    · rw [commit_log, hSilent.sentBytes]
      exact hOld.sent
    · rw [commit_log, hSilent.queuedBytes]
      exact hOld.queued

/- A message and the flush that follows it. -/
theorem Flows.queue
    (hReg : Registry s)
    (hFlows : Flows s)
    (hConn : s.conns[fd]? = some c)
    (hLive : c.dead = false)
    (m : Msg) :
    Flows (s.commit fd ((Port.ofConn s c).queue m)) := by
  rcases Port.queue_drains (Port.ofConn s c) m hLive with
    ⟨es, hLog, hTail, hDrains⟩
  change _ = [] ++ .queued c.ownerId m :: es at hLog
  rw [List.nil_append, ← List.singleton_append] at hLog
  have hSame :=
    (Port.queue_same (Port.ofConn s c) m).ownerId
  have hFirst :
      ∀ owner, sentBytes owner [.queued c.ownerId m] = [] :=
    fun _ => rfl
  refine Flows.commit m.text hReg hFlows hConn hLive hSame
    ?_ ?_ ?_
  · intro owner hOther
    have hSilent := hTail.silent hOther
    rw [hLog]
    constructor
    · rw [sentBytes_append, hFirst]
      exact hSilent.sent
    · rw [queuedBytes_append, hSilent.queued]
      simp [queuedBytes, pushedTo, hOther]
  · rw [hLog, queuedBytes_append]
    unfold queuedBytes
    rw [hTail.pushedTo]
    simp [pushedTo]
  · have hSent :
        ∀ owner,
          sentBytes owner ((Port.ofConn s c).queue m).log =
            sentBytes owner es := by
      intro owner
      rw [hLog, sentBytes_append, hFirst, List.nil_append]
    constructor
    · rw [hSent]
      exact hDrains.sent
    · rw [hSent]
      exact hDrains.live

/- Flushing a connection keeps the account. -/
theorem Flows.flush
    (hReg : Registry s)
    (hFlows : Flows s)
    (hConn : s.conns[fd]? = some c)
    (hLive : c.dead = false) :
    Flows (s.commit fd (Port.ofConn s c).flush) := by
  rcases Port.flush_drains (Port.ofConn s c) hLive with
    ⟨es, hLog, hTail, hDrains⟩
  change _ = [] ++ es at hLog
  rw [List.nil_append] at hLog
  have hSame := (Port.flush_same (Port.ofConn s c)).ownerId
  refine Flows.commit [] hReg hFlows hConn hLive hSame
    ?_ ?_ ?_
  · intro owner hOther
    rw [hLog]
    exact hTail.silent hOther
  · rw [hLog]
    unfold queuedBytes
    rw [hTail.pushedTo]
    rfl
  · rw [hLog, List.append_nil]
    exact hDrains

/- So does every step of a handler. -/
theorem Flows.serve
    {G : Guard}
    (hReg : Registry s)
    (hFlows : Flows s)
    (hServe : Serve G s s') :
    Flows s' := by
  have hLe := Int.le_refl s.nextOwner
  cases hServe with
  | queue hConn hLive _ _ _ =>
      exact hFlows.queue hReg hConn hLive _
  | flush hConn hLive => exact hFlows.flush hReg hConn hLive
  | closing hConn =>
      exact hFlows.extend rfl (fun _ => ⟨rfl, rfl⟩) hLe
        (hFlows.of_insert hConn rfl rfl rfl id)
  | line _ _ _ _ =>
      exact hFlows.extend rfl (fun _ => ⟨rfl, rfl⟩) hLe
        hFlows.live
  | overlong _ _ _ =>
      exact hFlows.extend rfl (fun _ => ⟨rfl, rfl⟩) hLe
        hFlows.live
  | login hConn _ _ _ _ _ =>
      exact hFlows.extend rfl (fun _ => ⟨rfl, rfl⟩) hLe
        (hFlows.of_insert hConn rfl rfl rfl id)
  | subscribe hConn _ _ _ _ _ =>
      exact hFlows.extend rfl (fun _ => ⟨rfl, rfl⟩) hLe
        (hFlows.of_insert hConn rfl rfl rfl id)
  | call _ _ _ _ _ _ _ =>
      exact hFlows.extend rfl (fun _ => ⟨rfl, rfl⟩) hLe
        hFlows.live

/- So does every action of the server. -/
theorem Flows.act
    {G : Guard}
    (hReg : Registry s)
    (hFlows : Flows s)
    (hAct : Act G s s') :
    Flows s' := by
  have hLe := Int.le_refl s.nextOwner
  cases hAct with
  | serve hServe => exact hFlows.serve hReg hServe
  | @close fd c hConn hLive why _ =>
      apply hFlows.extend (commit_log s fd _)
        (fun _ => ⟨rfl, rfl⟩)
      · rw [commit_nextOwner]
      · apply hFlows.of_insert hConn (commit_conns s fd _)
          rfl rfl
        intro hDead
        cases hDead
  | input hConn _ =>
      exact hFlows.extend (List.append_nil _).symm
        (fun _ => ⟨rfl, rfl⟩) hLe
        (hFlows.of_insert hConn rfl rfl rfl id)
  | @accept cfd hFresh _ =>
      have hNone := hReg.none_of_fresh hFresh
      have hNew := hFlows.unborn s.nextOwner hLe
      have hLog :
          (s.acceptConn cfd).log =
            s.log ++ [.accepted cfd s.nextOwner] := rfl
      apply hFlows.extend hLog (fun _ => ⟨rfl, rfl⟩)
      · change s.nextOwner ≤ s.nextOwner + 1
        omega
      · intro f d hd hAlive
        rcases conn_of_insert (acceptConn_conns hNone)
            hd with ⟨_, rfl⟩ | ⟨_, hOld⟩
        · -- A new connection has an owner id never used.
          change sentBytes s.nextOwner s.log ++ [] =
            queuedBytes s.nextOwner s.log
          rw [hNew.sent, hNew.queued, List.append_nil]
        · exact hFlows.live f d hOld hAlive
  | reap =>
      apply hFlows.extend (reap_log s)
        (fun _ => silent_released _)
      · rw [reap_nextOwner]
      · intro f d hd hAlive
        exact hFlows.live f d (conn_of_reap s hd) hAlive
  | answers _ =>
      exact hFlows.extend (List.append_nil _).symm
        (fun _ => ⟨rfl, rfl⟩) hLe hFlows.live

/- Hence it holds in every reachable state. -/
theorem Reachable.flows
    (hReach : Reachable s) :
    Flows s := by
  apply hReach.of_acts Flows flows_init
  intro s s' hReg hFlows hAct
  exact hFlows.act hReg hAct

end Server

end SocketExchange

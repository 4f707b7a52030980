import SocketExchange.Server.Stream

/-
  How much output a connection holds.

  The cap of `queue_out` counts the bytes that are not sent
  yet, and the buffer keeps what was sent only up to an
  offset of 4096: so the buffer of a connection never grows
  beyond the cap and that offset. A connection is dropped
  for its backlog by a push that takes the unsent bytes over
  the cap, and is left with an empty buffer.

  Main declarations:
    * `OutBuffer.Bounded`
    * `Overflows`
    * `Server.Capped`
    * `Server.outbound_bounded`
-/

------------------------------------------------------------
-- The Buffer
------------------------------------------------------------

namespace SocketExchange

namespace OutBuffer

/- Within the cap, and compacted. -/
structure Bounded (b : OutBuffer) : Prop where
  pending : b.pending ≤ kMaxOutBytes
  off : b.off ≤ 4096

theorem bounded_empty : Bounded empty :=
  ⟨Nat.zero_le _, Nat.zero_le _⟩

theorem off_consume_le (b : OutBuffer) (n : Nat) :
    (b.consume n).off ≤ 4096 := by
  unfold consume
  split
  · exact Nat.zero_le _
  · split
    · exact Nat.zero_le _
    · next hSmall => exact Nat.le_of_not_lt hSmall

/- What the source holds, sent bytes included. -/
theorem Bounded.data_length_le
    {b : OutBuffer}
    (hBounded : Bounded b) :
    b.data.length ≤ kMaxOutBytes + 4096 := by
  have hPending := hBounded.pending
  have hOff := hBounded.off
  unfold OutBuffer.pending OutBuffer.len at hPending
  omega

end OutBuffer

theorem flushLoop_off
    {out : OutBuffer}
    (hOff : out.off ≤ 4096)
    (sends : List SendResult) :
    (flushLoop sends out).out.off ≤ 4096 := by
  induction sends generalizing out with
  | nil => exact hOff
  | cons r rs ih =>
      unfold flushLoop
      split
      · exact hOff
      · cases r with
        | sent n =>
            dsimp only
            split
            · exact ih (out.off_consume_le n)
            · exact hOff
        | eintr => exact ih hOff
        | eagain => exact hOff
        | error => exact hOff

/- Flushing keeps a bounded buffer bounded. -/
theorem flushLoop_bounded
    {out : OutBuffer}
    (hBounded : out.Bounded)
    (sends : List SendResult) :
    (flushLoop sends out).out.Bounded where
  pending := by
    have hBytes :=
      congrArg List.length (flushLoop_bytes sends out)
    have hPending := hBounded.pending
    rw [OutBuffer.pending_eq] at hPending ⊢
    rw [List.length_append] at hBytes
    omega
  off := flushLoop_off hBounded.off sends

namespace Port

theorem flush_out (p : Port) :
    p.flush.conn.out = (flushLoop p.sends p.conn.out).out := by
  unfold flush
  dsimp only
  split
  · rfl
  · rfl
  · split
    · rfl
    · rfl

theorem flush_bounded
    (p : Port)
    (hBounded : p.conn.out.Bounded) :
    p.flush.conn.out.Bounded := by
  rw [flush_out]
  exact flushLoop_bounded hBounded p.sends

/- A push over the cap clears the buffer. -/
theorem queue_bounded
    (p : Port)
    (hBounded : p.conn.out.Bounded)
    (m : Msg) :
    (p.queue m).conn.out.Bounded := by
  unfold queue
  dsimp only
  split
  · exact OutBuffer.bounded_empty
  · next hFits =>
      apply flush_bounded
      exact ⟨Nat.le_of_not_lt hFits, hBounded.off⟩

end Port

end SocketExchange

------------------------------------------------------------
-- Drops For Backlog
------------------------------------------------------------

namespace SocketExchange

/-
  A connection is dropped for its backlog right after a push
  that took what was queued and not sent over the cap, and
  with nothing left in its buffer.
-/
def Overflows (pre : List Obs) : Obs → Prop
| .closed owner .backlog left =>
    left = 0 ∧
      ∃ before m, pre = before ++ [.queued owner m] ∧
        kMaxOutBytes + (sentBytes owner pre).length <
          (queuedBytes owner pre).length
| _ => True

/- Not a drop for backlog. -/
def Obs.Calm : Obs → Prop
| .closed _ .backlog _ => False
| _ => True

theorem Obs.Calm.overflows
    {e : Obs}
    (hCalm : e.Calm)
    (pre : List Obs) :
    Overflows pre e := by
  cases e with
  | closed owner why left =>
      cases why with
      | backlog => exact hCalm.elim
      | _ => trivial
  | _ => trivial

namespace Port

/- A flush drops nobody for backlog. -/
theorem flush_calm (p : Port) :
    ∃ es, p.flush.log = p.log ++ es ∧
      ∀ e ∈ es, e.Calm := by
  have hSent :
      (Obs.sent p.conn.ownerId
        (flushLoop p.sends p.conn.out).wire).Calm := trivial
  have hEnds :
      ∀ why left, why ≠ .backlog →
        (Obs.closed p.conn.ownerId why left).Calm := by
    intro why left hOther
    cases why with
    | backlog => exact absurd rfl hOther
    | _ => trivial
  unfold flush
  dsimp only
  split
  · exact ⟨_, rfl, List.forall_mem_singleton.mpr hSent⟩
  · refine ⟨_, List.append_assoc _ _ _, ?_⟩
    exact List.forall_mem_append.mpr
      ⟨List.forall_mem_singleton.mpr hSent,
        List.forall_mem_singleton.mpr
          (hEnds _ _ (by decide))⟩
  · split
    · refine ⟨_, List.append_assoc _ _ _, ?_⟩
      exact List.forall_mem_append.mpr
        ⟨List.forall_mem_singleton.mpr hSent,
          List.forall_mem_singleton.mpr
            (hEnds _ _ (by decide))⟩
    · exact ⟨_, rfl, List.forall_mem_singleton.mpr hSent⟩

/- How a push ends a connection for its backlog. -/
theorem queue_overflows (p : Port) (m : Msg) :
    ∃ es,
      (p.queue m).log =
          p.log ++ .queued p.conn.ownerId m :: es ∧
        ((∀ e ∈ es, e.Calm) ∨
          es = [.closed p.conn.ownerId .backlog 0] ∧
            kMaxOutBytes <
              p.conn.out.bytes.length + m.text.length ∧
            (p.queue m).conn.dead = true ∧
            (p.queue m).conn.out.data = []) := by
  unfold queue
  dsimp only
  split
  · next hOver =>
      refine ⟨_, ?_, Or.inr ⟨rfl, ?_, rfl, rfl⟩⟩
      · simp [close, OutBuffer.clear, OutBuffer.pending,
          OutBuffer.len]
      · rw [OutBuffer.pending_eq, OutBuffer.bytes_push,
          List.length_append] at hOver
        exact hOver
  · rcases flush_calm
        { conn :=
            { p.conn with out := p.conn.out.push m.text }
          sends := p.sends
          log := p.log ++ [.queued p.conn.ownerId m] } with
      ⟨es, hLog, hCalm⟩
    refine ⟨es, ?_, Or.inl hCalm⟩
    rw [hLog]
    simp

end Port

end SocketExchange

------------------------------------------------------------
-- Every Action Keeps The Cap
------------------------------------------------------------

namespace SocketExchange

namespace Server

/-
  Every buffer is bounded, every drop for backlog was due,
  and whoever was dropped for it is dead with an empty
  buffer.
-/
structure Capped (s : Server) : Prop where
  bounded :
    ∀ (fd : Fd) (c : Conn), s.conns[fd]? = some c →
      c.out.Bounded
  traced : Traced Overflows s.log
  emptied :
    ∀ (fd : Fd) (c : Conn) (left : Nat),
      s.conns[fd]? = some c →
      Obs.closed c.ownerId .backlog left ∈ s.log →
        c.dead = true ∧ c.out.data = []
  unborn :
    ∀ owner left, s.nextOwner ≤ owner →
      Obs.closed owner .backlog left ∉ s.log

theorem capped_init (lfd : Fd) (env : Env) :
    Capped (init lfd env) where
  bounded := by
    intro fd c hConn
    simp [init] at hConn
  traced := Traced.nil
  emptied := by
    intro fd c left hConn
    simp [init] at hConn
  unborn := by
    intro owner left _ hMem
    cases hMem

variable {s s' : Server} {fd : Fd} {c c' : Conn}

/- A calm entry is not a drop. -/
theorem calm_mem
    {es : List Obs}
    {owner : Int}
    {left : Nat}
    (hCalm : ∀ e ∈ es, e.Calm)
    (hMem : Obs.closed owner .backlog left ∈ s.log ++ es) :
    Obs.closed owner .backlog left ∈ s.log := by
  rcases List.mem_append.mp hMem with hOld | hNew
  · exact hOld
  · exact (hCalm _ hNew).elim

/- Calm entries, and connections that keep their bounds. -/
theorem Capped.extend
    {es : List Obs}
    (hCapped : Capped s)
    (hLog : s'.log = s.log ++ es)
    (hCalm : ∀ e ∈ es, e.Calm)
    (hNext : s.nextOwner ≤ s'.nextOwner)
    (hConns :
      ∀ (f : Fd) (d : Conn), s'.conns[f]? = some d →
        d.out.Bounded ∧
          ∀ left,
            Obs.closed d.ownerId .backlog left ∈ s.log →
              d.dead = true ∧ d.out.data = []) :
    Capped s' where
  bounded := fun f d hd => (hConns f d hd).1
  traced := by
    rw [hLog]
    refine hCapped.traced.append (Traced.of_forall ?_)
    intro pre e he
    exact (hCalm e he).overflows _
  emptied := by
    intro f d left hd hMem
    rw [hLog] at hMem
    exact (hConns f d hd).2 left (calm_mem hCalm hMem)
  unborn := by
    intro owner left hOwner hMem
    rw [hLog] at hMem
    exact hCapped.unborn owner left (by omega)
      (calm_mem hCalm hMem)

/- Writing a connection with its owner id and its buffer. -/
theorem Capped.of_insert
    (hCapped : Capped s)
    (hConn : s.conns[fd]? = some c)
    (hConns : s'.conns = s.conns.insert fd c')
    (hOwner : c'.ownerId = c.ownerId)
    (hOut : c'.out = c.out)
    (hDead : c.dead = true → c'.dead = true)
    (f : Fd)
    (d : Conn)
    (hNew : s'.conns[f]? = some d) :
    d.out.Bounded ∧
      ∀ left, Obs.closed d.ownerId .backlog left ∈ s.log →
        d.dead = true ∧ d.out.data = [] := by
  rcases conn_of_insert hConns hNew with
    ⟨_, rfl⟩ | ⟨_, hOld⟩
  · rw [hOwner, hOut]
    refine ⟨hCapped.bounded fd c hConn, ?_⟩
    intro left hMem
    have hEmptied := hCapped.emptied fd c left hConn hMem
    exact ⟨hDead hEmptied.1, hEmptied.2⟩
  · exact ⟨hCapped.bounded f d hOld,
      fun left => hCapped.emptied f d left hOld⟩

/- Output on a live connection that drops nobody. -/
theorem Capped.output
    {p : Port}
    (hCapped : Capped s)
    (hConn : s.conns[fd]? = some c)
    (hLive : c.dead = false)
    (hOwner : p.conn.ownerId = c.ownerId)
    (hBounded : p.conn.out.Bounded)
    (hCalm : ∀ e ∈ p.log, e.Calm) :
    Capped (s.commit fd p) := by
  refine hCapped.extend (commit_log s fd p) hCalm
    (commit_nextOwner s fd p).ge ?_
  intro f d hd
  rcases conn_of_insert (commit_conns s fd p) hd with
    ⟨_, rfl⟩ | ⟨_, hOld⟩
  · refine ⟨hBounded, ?_⟩
    intro left hMem
    rw [hOwner] at hMem
    have hDead := (hCapped.emptied fd c left hConn hMem).1
    rw [hLive] at hDead
    cases hDead
  · exact ⟨hCapped.bounded f d hOld,
      fun left => hCapped.emptied f d left hOld⟩

/- A push over the cap. -/
theorem Capped.overflow
    {p : Port}
    {m : Msg}
    (hReg : Registry s)
    (hFlows : Flows s)
    (hCapped : Capped s)
    (hConn : s.conns[fd]? = some c)
    (hLive : c.dead = false)
    (hLog :
      p.log =
        [.queued c.ownerId m, .closed c.ownerId .backlog 0])
    (hOver :
      kMaxOutBytes <
        c.out.bytes.length + m.text.length)
    (hDead : p.conn.dead = true)
    (hBounded : p.conn.out.Bounded)
    (hEmpty : p.conn.out.data = []) :
    Capped (s.commit fd p) where
  bounded := by
    intro f d hd
    rcases conn_of_insert (commit_conns s fd p) hd with
      ⟨_, rfl⟩ | ⟨_, hOld⟩
    · exact hBounded
    · exact hCapped.bounded f d hOld
  traced := by
    have hSent :
        sentBytes c.ownerId
            (s.log ++ [.queued c.ownerId m]) =
          sentBytes c.ownerId s.log := by
      rw [sentBytes_append]
      exact List.append_nil _
    have hQueued :
        queuedBytes c.ownerId
            (s.log ++ [.queued c.ownerId m]) =
          sentBytes c.ownerId s.log ++ c.out.bytes ++
            m.text := by
      rw [queuedBytes_append,
        hFlows.live fd c hConn hLive]
      simp [queuedBytes, pushedTo]
    rw [commit_log, hLog]
    refine hCapped.traced.append
      (Traced.cons trivial (Traced.singleton ?_))
    refine ⟨rfl, s.log, m, rfl, ?_⟩
    rw [hSent, hQueued, List.length_append,
      List.length_append]
    omega
  emptied := by
    intro f d left hd hMem
    rw [commit_log, hLog] at hMem
    rcases conn_of_insert (commit_conns s fd p) hd with
      ⟨_, rfl⟩ | ⟨hOther, hOld⟩
    · exact ⟨hDead, hEmpty⟩
    · have hApart : d.ownerId ≠ c.ownerId := by
        intro hSame
        exact hOther
          (hReg.owner_unique f fd d c hOld hConn hSame)
      have hBefore :
          Obs.closed d.ownerId .backlog left ∈ s.log := by
        simpa [hApart] using hMem
      exact hCapped.emptied f d left hOld hBefore
  unborn := by
    intro owner left hNext hMem
    rw [commit_nextOwner] at hNext
    rw [commit_log, hLog] at hMem
    have hRange := (hReg.owner_range fd c hConn).2
    have hApart : owner ≠ c.ownerId := by omega
    have hBefore :
        Obs.closed owner .backlog left ∈ s.log := by
      simpa [hApart] using hMem
    exact hCapped.unborn owner left hNext hBefore

theorem Capped.queue
    (hReg : Registry s)
    (hFlows : Flows s)
    (hCapped : Capped s)
    (hConn : s.conns[fd]? = some c)
    (hLive : c.dead = false)
    (m : Msg) :
    Capped (s.commit fd ((Port.ofConn s c).queue m)) := by
  have hOwner :=
    (Port.queue_same (Port.ofConn s c) m).ownerId
  have hBounded :=
    Port.queue_bounded (Port.ofConn s c)
      (hCapped.bounded fd c hConn) m
  rcases Port.queue_overflows (Port.ofConn s c) m with
    ⟨es, hLog, hCalm | ⟨hEs, hOver, hDead, hEmpty⟩⟩
  · refine hCapped.output hConn hLive hOwner hBounded ?_
    rw [hLog]
    exact List.forall_mem_cons.mpr ⟨trivial, hCalm⟩
  · rw [hEs] at hLog
    exact hCapped.overflow hReg hFlows hConn hLive hLog
      hOver hDead hBounded hEmpty

theorem Capped.flush
    (hCapped : Capped s)
    (hConn : s.conns[fd]? = some c)
    (hLive : c.dead = false) :
    Capped (s.commit fd (Port.ofConn s c).flush) := by
  rcases Port.flush_calm (Port.ofConn s c) with
    ⟨es, hLog, hCalm⟩
  refine hCapped.output hConn hLive
    (Port.flush_same (Port.ofConn s c)).ownerId
    (Port.flush_bounded _ (hCapped.bounded fd c hConn)) ?_
  rw [hLog]
  exact hCalm

/- Entries other than a drop. -/
theorem calm_one
    {e : Obs}
    (hCalm : e.Calm) :
    ∀ a ∈ [e], a.Calm :=
  List.forall_mem_singleton.mpr hCalm

theorem Capped.serve
    {G : Guard}
    (hReg : Registry s)
    (hFlows : Flows s)
    (hCapped : Capped s)
    (hServe : Serve G s s') :
    Capped s' := by
  have hLe := Int.le_refl s.nextOwner
  have hKept :
      ∀ (f : Fd) (d : Conn), s.conns[f]? = some d →
        d.out.Bounded ∧
          ∀ left,
            Obs.closed d.ownerId .backlog left ∈ s.log →
              d.dead = true ∧ d.out.data = [] :=
    fun f d hd => ⟨hCapped.bounded f d hd,
      fun left => hCapped.emptied f d left hd⟩
  cases hServe with
  | queue hConn hLive _ _ _ =>
      exact hCapped.queue hReg hFlows hConn hLive _
  | flush hConn hLive => exact hCapped.flush hConn hLive
  | closing hConn =>
      exact hCapped.extend rfl (calm_one trivial) hLe
        (hCapped.of_insert hConn rfl rfl rfl id)
  | line _ _ _ _ =>
      exact hCapped.extend rfl (calm_one trivial) hLe hKept
  | overlong _ _ _ =>
      exact hCapped.extend rfl (calm_one trivial) hLe hKept
  | login hConn _ _ _ _ _ =>
      exact hCapped.extend rfl (calm_one trivial) hLe
        (hCapped.of_insert hConn rfl rfl rfl id)
  | subscribe hConn _ _ _ _ _ =>
      exact hCapped.extend rfl (calm_one trivial) hLe
        (hCapped.of_insert hConn rfl rfl rfl id)
  | call _ _ _ _ _ _ _ =>
      exact hCapped.extend rfl (calm_one trivial) hLe hKept

theorem Capped.act
    {G : Guard}
    (hReg : Registry s)
    (hFlows : Flows s)
    (hCapped : Capped s)
    (hAct : Act G s s') :
    Capped s' := by
  have hLe := Int.le_refl s.nextOwner
  cases hAct with
  | serve hServe => exact hCapped.serve hReg hFlows hServe
  | @close fd c hConn hLive why hPeer =>
      have hCalm :
          (Obs.closed c.ownerId why c.out.pending).Calm := by
        rcases hPeer with rfl | ⟨rfl | rfl, _⟩
        · trivial
        · trivial
        · trivial
      exact hCapped.output hConn hLive rfl
        (hCapped.bounded fd c hConn) (calm_one hCalm)
  | input hConn _ =>
      exact hCapped.extend (List.append_nil _).symm
        (List.forall_mem_nil _) hLe
        (hCapped.of_insert hConn rfl rfl rfl id)
  | @accept cfd hFresh _ =>
      have hNone := hReg.none_of_fresh hFresh
      have hLog :
          (s.acceptConn cfd).log =
            s.log ++ [.accepted cfd s.nextOwner] := rfl
      apply hCapped.extend hLog (calm_one trivial)
      · change s.nextOwner ≤ s.nextOwner + 1
        omega
      · intro f d hd
        rcases conn_of_insert (acceptConn_conns hNone)
            hd with ⟨_, rfl⟩ | ⟨_, hOld⟩
        · refine ⟨OutBuffer.bounded_empty, ?_⟩
          intro left hMem
          exact absurd hMem
            (hCapped.unborn s.nextOwner left hLe)
        · exact ⟨hCapped.bounded f d hOld,
            fun left => hCapped.emptied f d left hOld⟩
  | reap =>
      apply hCapped.extend (reap_log s)
      · intro e he
        rcases List.mem_map.mp he with ⟨f, _, rfl⟩
        trivial
      · rw [reap_nextOwner]
      · intro f d hd
        have hOld := conn_of_reap s hd
        exact ⟨hCapped.bounded f d hOld,
          fun left => hCapped.emptied f d left hOld⟩
  | answers _ =>
      exact hCapped.extend (List.append_nil _).symm
        (List.forall_mem_nil _) hLe
        (fun f d hd => ⟨hCapped.bounded f d hd,
          fun left => hCapped.emptied f d left hd⟩)

theorem Passed.capped
    (hPassed : Passed s) :
    Capped s := by
  rcases hPassed with ⟨lfd, env, hActs⟩
  refine (Acts.invariant
    (fun s => Registry s ∧ Flows s ∧ Capped s) ?_ hActs
    ⟨registry_init lfd env, flows_init lfd env,
      capped_init lfd env⟩).2.2
  rintro s s' ⟨hReg, hFlows, hCapped⟩ hAct
  exact ⟨hReg.act hAct, hFlows.act hReg hAct,
    hCapped.act hReg hFlows hAct⟩

end Server

end SocketExchange

------------------------------------------------------------
-- Outbound Memory
------------------------------------------------------------

namespace SocketExchange

namespace Server

/-
  The memory for the output of a connection is bounded. In
  every state that a run passes through, between two events
  or in the middle of one, a live connection has at most
  `kMaxOutBytes` bytes to send, an offset of at most 4096
  within its data, and at most `kMaxOutBytes + 4096` bytes
  of data. A connection is dropped for its backlog only by a
  push that takes what was queued and not sent over
  `kMaxOutBytes`, and is left with an empty buffer.
-/
theorem outbound_bounded
    {s : Server}
    (hPassed : Passed s) :
    (∀ (fd : Fd) (c : Conn), s.conns[fd]? = some c →
      c.dead = false →
        c.out.pending ≤ kMaxOutBytes ∧
        c.out.off ≤ c.out.data.length ∧
        c.out.off ≤ 4096 ∧
        c.out.data.length ≤ kMaxOutBytes + 4096) ∧
    (∀ pre owner left post,
      s.log = pre ++ .closed owner .backlog left :: post →
        left = 0 ∧
        ∃ before m, pre = before ++ [.queued owner m] ∧
          kMaxOutBytes + (sentBytes owner pre).length <
            (queuedBytes owner pre).length) ∧
    (∀ (fd : Fd) (c : Conn) (left : Nat),
      s.conns[fd]? = some c →
      Obs.closed c.ownerId .backlog left ∈ s.log →
        c.dead = true ∧ c.out.data = [] ∧
          c.out.off = 0) := by
  have hCapped := hPassed.capped
  refine ⟨?_, ?_, ?_⟩
  · intro fd c hConn _
    have hBounded := hCapped.bounded fd c hConn
    exact ⟨hBounded.pending, c.out.off_le, hBounded.off,
      hBounded.data_length_le⟩
  · intro pre owner left post hSplit
    exact hCapped.traced pre _ post hSplit
  · intro fd c left hConn hMem
    rcases hCapped.emptied fd c left hConn hMem with
      ⟨hDead, hEmpty⟩
    have hOff := c.out.off_le
    rw [hEmpty] at hOff
    exact ⟨hDead, hEmpty, Nat.le_zero.mp hOff⟩

/- The seller that quits while its notice is in flight. -/
theorem quittingSeller_outbound :
    quittingSellerConn.dead = false ∧
      quittingSellerConn.out.pending ≤ kMaxOutBytes ∧
      quittingSellerConn.out.data.length ≤
        kMaxOutBytes + 4096 := by
  have hConn :
      quittingSeller.conns[(5 : Fd)]? =
        some quittingSellerConn :=
    (Option.some_get _).symm
  have hLive : quittingSellerConn.dead = false := by decide
  have hBounds :=
    (outbound_bounded quittingSeller_passed).1 5
      quittingSellerConn hConn hLive
  exact ⟨hLive, hBounds.1, hBounds.2.2.2⟩

end Server

end SocketExchange

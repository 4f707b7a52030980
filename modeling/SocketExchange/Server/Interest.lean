import SocketExchange.Server.Closing

/-
  Write interest is never lost.

  A connection is woken up for writing exactly while it has
  output to send, and one that is closing still has some.
  Whatever happened to a connection before, one flush puts
  both right; and nothing is pushed on a connection, and
  none is set to close, without a flush behind it.

  Main declarations:
    * `Conn.Attended`
    * `Port.flush_attended`
    * `Server.Attentive.move`
    * `Server.write_interest_kept`
-/

------------------------------------------------------------
-- After A Flush
------------------------------------------------------------

namespace SocketExchange

/- The event loop will get to the output that is left. -/
structure Conn.Attended (c : Conn) : Prop where
  enabled : c.writeEnabled = true ↔ c.out.isEmpty = false
  closing : c.closing = true → c.out.isEmpty = false

namespace Port

/- A connection that survives a flush is attended to. -/
theorem flush_attended
    (p : Port)
    (hAlive : p.flush.conn.dead = false) :
    p.flush.conn.Attended := by
  unfold flush at hAlive ⊢
  dsimp only at hAlive ⊢
  cases hExit : (flushLoop p.sends p.conn.out).exit with
  | blocked =>
      have hLeft := (flushLoop_exit _ _).2 hExit
      simp only [hExit] at hAlive ⊢
      exact ⟨by simp [hLeft], fun _ => hLeft⟩
  | failed =>
      simp only [hExit] at hAlive
      cases hAlive
  | drained =>
      have hEmpty :
          (flushLoop p.sends p.conn.out).out.isEmpty =
            true :=
        (flushLoop_exit _ _).1 hExit
      simp only [hExit] at hAlive ⊢
      cases hClosing : p.conn.closing with
      | true =>
          simp only [hClosing, if_true] at hAlive
          cases hAlive
      | false =>
          simp only [Bool.false_eq_true, if_false]
          exact ⟨by simp [hEmpty], by simp⟩

/- Queueing leaves write interest where bytes wait. -/
theorem queue_attended
    (p : Port)
    (m : Msg)
    (hAlive : (p.queue m).conn.dead = false) :
    (p.queue m).conn.Attended := by
  unfold queue at hAlive ⊢
  dsimp only at hAlive ⊢
  split
  · next hCap =>
      rw [if_pos hCap] at hAlive
      cases hAlive
  · next hCap =>
      rw [if_neg hCap] at hAlive
      exact flush_attended _ hAlive

end Port

end SocketExchange

------------------------------------------------------------
-- Between The Pieces
------------------------------------------------------------

namespace SocketExchange

namespace Server

/- Every connection is attended. -/
def Attentive (s : Server) : Prop :=
  ∀ (fd : Fd) (c : Conn), s.conns[fd]? = some c →
    c.dead = false → c.Attended

variable {s s' : Server} {fd : Fd} {c c' : Conn}

/- There are none at the start. -/
theorem attentive_init (lfd : Fd) (env : Env) :
    Attentive (init lfd env) := by
  intro fd c hConn
  simp [init] at hConn

/- Writing one connection that is attended to, or dead. -/
theorem Attentive.insert
    (hInv : Attentive s)
    (hConns : s'.conns = s.conns.insert fd c')
    (hNew : c'.dead = false → c'.Attended) :
    Attentive s' := by
  intro f d hd hLive
  rcases conn_of_insert hConns hd with
    ⟨_, rfl⟩ | ⟨_, hOld⟩
  · exact hNew hLive
  · exact hInv f d hOld hLive

/- It is a matter of the connections only. -/
theorem Attentive.of_eq
    (hInv : Attentive s)
    (hConns : s'.conns = s.conns) :
    Attentive s' := by
  intro f d hd
  rw [hConns] at hd
  exact hInv f d hd

/- Setting `closing` is put right by the flush behind it. -/
theorem Attentive.quit
    (hInv : Attentive s)
    (hConn : s.conns[fd]? = some c) :
    Attentive ((s.setClosing fd).tryFlush fd) := by
  have hClosing :
      (s.setClosing fd).conns =
        s.conns.insert fd { c with closing := true } := by
    simp [setClosing, hConn, setConn, note]
  have hNow :
      (s.setClosing fd).conns[fd]? =
        some { c with closing := true } := by
    rw [hClosing, getElem?_insert_fd, if_pos rfl]
  cases hDead : c.dead with
  | true =>
      have hNone : (s.setClosing fd).findLive fd = none := by
        simp [findLive, hNow, hDead]
      rw [tryFlush_of_not_live hNone]
      refine hInv.insert hClosing ?_
      intro hLive
      change c.dead = false at hLive
      rw [hDead] at hLive
      cases hLive
  | false =>
      rw [tryFlush_eq_commit hNow hDead]
      have hFlushed := commit_conns (s.setClosing fd) fd
        (Port.ofConn (s.setClosing fd)
          { c with closing := true }).flush
      rw [hClosing, insert_insert_self] at hFlushed
      exact hInv.insert hFlushed (Port.flush_attended _)

/- Every deed of a handler keeps it. -/
theorem Attentive.deed
    {G : Guard}
    (hInv : Attentive s)
    (hDeed : Deed G s s') :
    Attentive s' := by
  cases hDeed with
  | @queue fd c m _ _ _ _ _ _ =>
      exact hInv.insert (commit_conns s fd _)
        (Port.queue_attended (Port.ofConn s c) m)
  | quit hConn => exact hInv.quit hConn
  | refuse _ _ _ _ _ => exact hInv.of_eq rfl
  | overlong _ _ _ => exact hInv.of_eq rfl
  | @login fd c name hConn hLive _ _ _ _ =>
      have hOld := hInv fd c hConn hLive
      exact hInv.insert grantLogin_conns
        (fun _ => ⟨hOld.enabled, hOld.closing⟩)
  | @subscribe fd c hConn hLive _ _ inst on =>
      have hOld := hInv fd c hConn hLive
      have hConns :
          (s.grantSubscribe fd c inst on).conns =
            s.conns.insert fd
              { c with
                role := .marketData
                subs := Function.update c.subs inst on } :=
        rfl
      exact hInv.insert hConns
        (fun _ => ⟨hOld.enabled, hOld.closing⟩)
  | call _ _ _ _ _ _ _ => exact hInv.of_eq rfl

/- So does every move of the server. -/
theorem Attentive.move
    {G : Guard}
    (hReg : Registry s)
    (hInv : Attentive s)
    (hMove : Move G s s') :
    Attentive s' := by
  cases hMove with
  | deed hDeed => exact hInv.deed hDeed
  | @flush fd c _ _ =>
      exact hInv.insert (commit_conns s fd _)
        (Port.flush_attended (Port.ofConn s c))
  | @close fd c _ _ why _ =>
      refine hInv.insert (commit_conns s fd _) ?_
      intro hLive
      cases hLive
  | @input fd c hConn input =>
      have hConns :
          (s.setConn fd { c with input := input }).conns =
            s.conns.insert fd { c with input := input } :=
        rfl
      refine hInv.insert hConns ?_
      intro hLive
      have hOld := hInv fd c hConn hLive
      exact ⟨hOld.enabled, hOld.closing⟩
  | @accept cfd hFresh _ =>
      refine hInv.insert
        (acceptConn_conns (hReg.none_of_fresh hFresh)) ?_
      intro _
      constructor
      · simp [Conn.fresh, OutBuffer.empty, OutBuffer.isEmpty]
      · simp [Conn.fresh]
  | answers _ => exact hInv.of_eq rfl

/- And so does reaping. -/
theorem Attentive.reap
    (hInv : Attentive s) :
    Attentive s.reap := by
  intro f d hd
  exact hInv f d (conn_of_reap s hd)

/-
  In every reachable state, and so whenever the event loop
  goes back to sleep, a connection that is not dead is
  watched for writing exactly when its output buffer holds
  bytes, and it holds some if the connection is closing.
-/
theorem write_interest_kept
    (hReach : Reachable s)
    (hConn : s.conns[fd]? = some c)
    (hLive : c.dead = false) :
    (c.writeEnabled = true ↔ c.out.isEmpty = false) ∧
      (c.closing = true → c.out.isEmpty = false) := by
  have hInv : Attentive s := by
    apply hReach.of_moves Attentive attentive_init
    · intro s s' hReg hInv hMove
      exact hInv.move hReg hMove
    · intro s _ hInv
      exact hInv.reap
  have hAttended := hInv fd c hConn hLive
  exact ⟨hAttended.enabled, hAttended.closing⟩

/- A QUIT behind blocked output is waited for. -/
theorem write_interest_kept_blocked :
    ∃ c, (Machine.run step listening
          (quitSteps [.eagain])).conns[(5 : Fd)]? = some c ∧
      c.writeEnabled = true := by
  have hSeen :
      ((Machine.run step listening
          (quitSteps [.eagain])).conns[(5 : Fd)]?).map
            (fun c => (c.dead, c.closing)) =
        some (false, true) := by
    decide
  rcases Option.map_eq_some_iff.mp hSeen with
    ⟨c, hConn, hFlags⟩
  injection hFlags with hLive hClosing
  have hKept :=
    write_interest_kept
      ⟨3, _, quitSteps [.eagain], quitSteps_legal _, rfl⟩
      hConn hLive
  exact ⟨c, hConn, hKept.1.mpr (hKept.2 hClosing)⟩

end Server

end SocketExchange

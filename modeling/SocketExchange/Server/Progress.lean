import SocketExchange.Machine.Trail
import SocketExchange.Server.Closing
import SocketExchange.Server.Interest
import SocketExchange.Server.Stream

/-
  A backlog drains.

  When the socket of a slow reader is full, `try_flush`
  keeps the rest and waits to be told that the socket takes
  bytes again. Each time it is told so, and the socket takes
  at least one byte, the backlog gets shorter; nothing else
  makes it longer but a new message. So the wait ends, and a
  connection that waits only to be closed is closed.

  Main declarations:
    * `takesBytes`
    * `Server.offers`
    * `Server.flush_sends`
    * `Server.backlog_drains`
-/

------------------------------------------------------------
-- Offers
------------------------------------------------------------

namespace SocketExchange

/- The first `send` that is not interrupted takes bytes. -/
def takesBytes : List SendResult → Bool
| .sent n :: _ => 0 < n
| .eintr :: rs => takesBytes rs
| _ => false

/- Something is sent when there is something to send. -/
theorem flushLoop_wire_ne_nil
    {sends : List SendResult}
    {out : OutBuffer}
    (hTakes : takesBytes sends = true)
    (hFull : out.isEmpty = false) :
    (flushLoop sends out).wire ≠ [] := by
  induction sends with
  | nil => cases hTakes
  | cons r rs ih =>
      unfold flushLoop
      rw [if_neg (by simp [hFull])]
      cases r with
      | sent n =>
          have hPos : 0 < n := by
            simpa [takesBytes] using hTakes
          have hBytes : out.bytes ≠ [] := by
            intro hNone
            rw [← OutBuffer.isEmpty_iff_bytes, hFull]
              at hNone
            cases hNone
          simp only [if_pos hPos]
          intro hNone
          have hTake := (List.append_eq_nil_iff.mp hNone).1
          rw [List.take_eq_nil_iff] at hTake
          rcases hTake with hZero | hEmpty
          · omega
          · exact hBytes hEmpty
      | eintr => exact ih hTakes
      | eagain => cases hTakes
      | error => cases hTakes

namespace Server

/- The descriptor is that of the live connection `k`. -/
def isAt (k : Int) (s : Server) (fd : Fd) : Bool :=
  match s.findLive fd with
  | none => false
  | some c => c.ownerId == k

/-
  `kevent` reports that the socket of `k` can be written,
  and the socket then takes bytes.
-/
def offers (k : Int) (s : Server) : Step → List KEvent
| .event ev a =>
    if ev.ident ≠ s.lfd ∧ ev.filter = .write ∧
        s.isAt k ev.ident = true ∧
        takesBytes (a.sends ev.ident) = true then [ev]
    else []
| .reap => []

variable {s t : Server} {fd : Fd} {c : Conn} {k : Int}

/- What is sent is never taken back. -/
theorem sentBytes_grows
    (hLog : s.log <+: t.log) :
    (sentBytes k s.log).length ≤
      (sentBytes k t.log).length := by
  rcases hLog with ⟨more, hMore⟩
  rw [← hMore, sentBytes_append, List.length_append]
  omega

theorem closeConn_log
    (s : Server)
    (fd : Fd)
    (why : CloseCause) :
    s.log <+: (s.closeConn fd why).log := by
  unfold closeConn
  split
  · exact List.prefix_refl _
  · split
    · exact List.prefix_refl _
    · exact List.prefix_append _ _

/- A flush that is offered room sends at least one byte. -/
theorem flush_sends
    (hConn : s.conns[fd]? = some c)
    (hFd : c.fd = fd)
    (hLive : c.dead = false)
    (hFull : c.out.isEmpty = false)
    (hTakes : takesBytes (s.env.sends fd) = true) :
    (sentBytes c.ownerId s.log).length + 1 ≤
      (sentBytes c.ownerId (s.tryFlush fd).log).length := by
  subst hFd
  have hWire := flushLoop_wire_ne_nil hTakes hFull
  -- Whatever the exit, the log has the bytes sent.
  have hLog :
      s.log ++
          [.sent c.ownerId
            (flushLoop (s.env.sends c.fd) c.out).wire] <+:
        (s.tryFlush c.fd).log := by
    unfold tryFlush
    rw [hConn]
    simp only [hLive, Bool.false_eq_true, if_false]
    split
    · exact List.prefix_refl _
    · refine List.IsPrefix.trans ?_ (closeConn_log _ _ _)
      exact List.prefix_refl _
    · split
      · refine List.IsPrefix.trans ?_ (closeConn_log _ _ _)
        exact List.prefix_refl _
      · exact List.prefix_refl _
  rcases hLog with ⟨more, hMore⟩
  have hPos := List.length_pos_of_ne_nil hWire
  rw [← hMore, sentBytes_append, sentBytes_append,
    Port.sentBytes_sent, List.length_append,
    List.length_append]
  omega

theorem offers_cases
    (k : Int)
    (s : Server)
    (i : Step) :
    offers k s i = [] ∨ ∃ ev, offers k s i = [ev] := by
  cases i with
  | reap => exact Or.inl rfl
  | event ev a =>
      simp only [offers]
      split
      · exact Or.inr ⟨ev, rfl⟩
      · exact Or.inl rfl

/- An offer to a connection with a backlog is used. -/
theorem offer_sends
    {i : Step}
    {ev : KEvent}
    (hReg : Registry s)
    (hOffer : offers k s i = [ev]) :
    ∃ c, s.conns[ev.ident]? = some c ∧ c.dead = false ∧
      c.ownerId = k ∧
      (c.out.isEmpty = false →
        (sentBytes k s.log).length + 1 ≤
          (sentBytes k (step s i).log).length) := by
  cases i with
  | reap => cases hOffer
  | event ev' a =>
      simp only [offers] at hOffer
      split at hOffer
      · next hAll =>
          injection hOffer with hSame
          subst hSame
          rcases hAll with ⟨hOther, hWrite, hAt, hTakes⟩
          unfold isAt at hAt
          cases hFind : s.findLive ev'.ident with
          | none => simp [hFind] at hAt
          | some c =>
              rcases findLive_eq_some_iff.mp hFind with
                ⟨hConn, hLive⟩
              rw [hFind] at hAt
              have hOwner : c.ownerId = k := by
                simpa using hAt
              refine ⟨c, hConn, hLive, hOwner, ?_⟩
              intro hFull
              rw [← hOwner]
              have hFd := hReg.conn_fd _ c hConn
              have hFlush :=
                flush_sends (s := s.withAnswers a) hConn hFd
                  hLive hFull hTakes
              have hStep :
                  step s (.event ev' a) =
                    (s.withAnswers a).tryFlush
                      ev'.ident := by
                unfold step onEvent
                dsimp only [withAnswers]
                rw [if_neg hOther, hWrite]
                unfold onWritable
                have hFind' :
                    (s.withAnswers a).findLive ev'.ident =
                      some c := hFind
                dsimp only [withAnswers] at hFind'
                rw [hFind']
              rw [hStep]
              exact hFlush
      · cases hOffer

end Server

end SocketExchange

------------------------------------------------------------
-- Runs Without New Messages
------------------------------------------------------------

namespace SocketExchange

namespace Server

variable {s : Server} {fd : Fd} {c : Conn} {k : Int}

theorem Reachable.attentive
    (hReach : Reachable s) :
    Attentive s := by
  apply hReach.of_moves Attentive attentive_init
  · intro s s' hReg hInv hMove
    exact hInv.move hReg hMove
  · intro s _ hInv
    exact hInv.reap

theorem Reachable.closingMarked
    (hReach : Reachable s) :
    ClosingMarked s :=
  hReach.of_acts ClosingMarked closingMarked_init
    fun _ _ hReg hMark hAct => hMark.act hReg hAct

/- What is sent and what waits is what was queued. -/
theorem Reachable.backlog
    (hReach : Reachable s)
    (hConn : s.conns[fd]? = some c)
    (hLive : c.dead = false)
    (hOwner : c.ownerId = k) :
    (sentBytes k s.log).length + c.out.pending =
      (queuedBytes k s.log).length := by
  have hStream := hReach.flows.live fd c hConn hLive
  rw [hOwner] at hStream
  rw [← hStream, List.length_append, OutBuffer.pending_eq]

/- Nothing is queued between two states. -/
theorem queuedBytes_of_pushedTo
    {log more : List Obs}
    (hNothing : pushedTo k more = pushedTo k log) :
    queuedBytes k more = queuedBytes k log := by
  unfold queuedBytes
  rw [hNothing]

/- Nothing is queued in a part of such a run either. -/
theorem pushedTo_between
    {log mid more : List Obs}
    (hFirst : log <+: mid)
    (hSecond : mid <+: more)
    (hNothing : pushedTo k more = pushedTo k log) :
    pushedTo k mid = pushedTo k log := by
  have hUp : pushedTo k log <+: pushedTo k mid :=
    hFirst.filterMap _
  have hDown : pushedTo k mid <+: pushedTo k more :=
    hSecond.filterMap _
  rw [hNothing] at hDown
  exact (hUp.eq_of_length
    (Nat.le_antisymm hUp.length_le hDown.length_le)).symm

/-
  A run in which nothing is queued on `k` sends a byte for
  each offer, or has nothing left to send.
-/
theorem Reachable.offers_used
    {steps : List Step}
    (hReach : Reachable s)
    (hLegal : Machine.Permitted step Legal s steps)
    (hNothing :
      pushedTo k (Machine.run step s steps).log =
        pushedTo k s.log)
    {fd' : Fd}
    {c' : Conn}
    (hConn :
      (Machine.run step s steps).conns[fd']? = some c')
    (hLive : c'.dead = false)
    (hOwner : c'.ownerId = k) :
    c'.out.pending = 0 ∨
      (sentBytes k s.log).length +
          (Machine.emitted step (offers k) s
            steps).length ≤
        (sentBytes k
          (Machine.run step s steps).log).length := by
  induction steps generalizing s with
  | nil => exact Or.inr (Nat.le_refl _)
  | cons i steps ih =>
      have hFirst : Machine.Permitted step Legal s [i] :=
        ⟨hLegal.1, trivial⟩
      rcases hReach.run hFirst with ⟨hNext, hGrown⟩
      rcases hNext.run hLegal.2 with ⟨hEnd, hLater⟩
      rw [Machine.run_cons] at hNothing hConn ⊢
      simp only [Machine.run_cons, Machine.run_nil]
        at hNext hGrown hEnd hLater
      have hStill :=
        pushedTo_between hGrown hLater hNothing
      have hSent : (sentBytes k s.log).length ≤
          (sentBytes k (step s i).log).length :=
        sentBytes_grows hGrown
      rcases ih hNext hLegal.2 (hNothing.trans hStill.symm)
          hConn with hDone | hUsed
      · exact Or.inl hDone
      rw [Machine.emitted, List.length_append]
      rcases offers_cases k s i with hNone | ⟨ev, hOffer⟩
      · right
        rw [hNone, List.length_nil]
        omega
      · rcases offer_sends hReach.registry hOffer with
          ⟨c, hHere, hAlive, hIs, hSends⟩
        rw [hOffer, List.length_singleton]
        cases hEmpty : c.out.isEmpty with
        | false =>
            right
            have hMore := hSends hEmpty
            omega
        | true =>
            -- All is sent, and nothing more was queued.
            left
            have hZero : c.out.pending = 0 :=
              (OutBuffer.isEmpty_iff c.out).mp hEmpty
            have hBefore := hReach.backlog hHere hAlive hIs
            have hAfter := hEnd.backlog hConn hLive hOwner
            rw [queuedBytes_of_pushedTo hNothing] at hAfter
            omega

/-
  A backlog drains. From any state of any run, let the run
  go on in any way in which nothing more is queued on a
  connection, and in which its socket is reported writable
  and then takes bytes as often as there are bytes waiting.
  At the end the connection is gone, or all that was ever
  queued on it is sent and it no longer asks to write; and
  if it was set to close, it is gone.
-/
theorem backlog_drains
    {steps : List Step}
    (hReach : Reachable s)
    (hConn : s.conns[fd]? = some c)
    (hLive : c.dead = false)
    (hLegal : Machine.Permitted step Legal s steps)
    (hNothing :
      pushedTo c.ownerId (Machine.run step s steps).log =
        pushedTo c.ownerId s.log)
    (hOffers :
      c.out.pending ≤
        (Machine.emitted step (offers c.ownerId) s
          steps).length) :
    let t := Machine.run step s steps
    ∀ (fd' : Fd) (c' : Conn), t.conns[fd']? = some c' →
      c'.ownerId = c.ownerId → c'.dead = false →
        sentBytes c.ownerId t.log =
            queuedBytes c.ownerId t.log ∧
          c'.writeEnabled = false ∧ c.closing = false := by
  intro t fd' c' hConn' hOwner hLive'
  rcases hReach.run hLegal with ⟨hEnd, hGrown⟩
  have hBefore := hReach.backlog hConn hLive rfl
  have hAfter := hEnd.backlog hConn' hLive' hOwner
  rw [queuedBytes_of_pushedTo hNothing] at hAfter
  have hZero : c'.out.pending = 0 := by
    rcases hReach.offers_used hLegal hNothing hConn' hLive'
        hOwner with hDone | hUsed
    · exact hDone
    · omega
  have hEmpty : c'.out.isEmpty = true :=
    (OutBuffer.isEmpty_iff c'.out).mpr hZero
  have hAttended := hEnd.attentive fd' c' hConn' hLive'
  refine ⟨?_, ?_, ?_⟩
  · have hStream :=
      hEnd.flows.live fd' c' hConn' hLive'
    have hBytes : c'.out.bytes = [] :=
      (OutBuffer.isEmpty_iff_bytes c'.out).mp hEmpty
    rw [hBytes, List.append_nil, hOwner] at hStream
    exact hStream
  · have hEnabled := hAttended.enabled
    simpa [hEmpty] using hEnabled
  · -- The mark is still in the history at the end.
    have hOpen : c'.closing ≠ true := by
      intro hClosing
      have hFull := hAttended.closing hClosing
      rw [hEmpty] at hFull
      cases hFull
    rw [Ne, hEnd.closingMarked.flag_iff fd' c' hConn',
      hOwner] at hOpen
    by_contra hClosing
    rw [Bool.not_eq_false,
      hReach.closingMarked.flag_iff fd c hConn] at hClosing
    exact hOpen (hGrown.subset hClosing)

/- A trader quits while its socket is full. -/
def stalled : Server :=
  Machine.run step listening
    [.connects 5,
      .reads 5
        [.data ⟨ascii "LOGIN jim\nQUIT\n", by decide,
          by decide⟩]
        (fun _ => [.eagain])]

/- The socket takes the three bytes of OK one by one. -/
def trickle : List Step :=
  List.replicate 3
    (.event ⟨5, .write, false⟩
      { accepts := []
        recvs := []
        sends := fun _ => [.eintr, .sent 1]
        order := .sorted })

/- The last one closes it; reap will drop the entry. -/
theorem backlog_drains_trickle :
    ∃ c,
      (Machine.run step stalled trickle).conns[(5 : Fd)]? =
          some c ∧
        c.ownerId = 1 ∧ c.dead = true := by
  have hReach : Reachable stalled := by
    refine ⟨3, _, _, ?_, rfl⟩
    exact ⟨fun _ => ⟨by decide, by decide, trivial⟩,
      fun h => absurd h (by decide), trivial⟩
  have hLegal :
      Machine.Permitted step Legal stalled trickle :=
    ⟨fun h => absurd h (by decide),
      fun h => absurd h (by decide),
      fun h => absurd h (by decide), trivial⟩
  have hSeen :
      (stalled.conns[(5 : Fd)]?).map
          (fun c =>
            (c.dead, c.closing, c.ownerId, c.out.pending)) =
        some (false, true, 1, 3) := by
    decide
  rcases Option.map_eq_some_iff.mp hSeen with
    ⟨c, hConn, hFlags⟩
  simp only [Prod.mk.injEq] at hFlags
  rcases hFlags with ⟨hLive, hClosing, hOwner, hPending⟩
  have hNothing :
      pushedTo c.ownerId
          (Machine.run step stalled trickle).log =
        pushedTo c.ownerId stalled.log := by
    rw [hOwner]
    decide
  have hOffers :
      c.out.pending ≤
        (Machine.emitted step (offers c.ownerId) stalled
          trickle).length := by
    rw [hPending, hOwner]
    decide
  have hDrained :=
    backlog_drains hReach hConn hLive hLegal hNothing
      hOffers
  have hThere :
      ((Machine.run step stalled trickle).conns[
          (5 : Fd)]?).map (fun c => c.ownerId) =
        some 1 := by
    decide
  rcases Option.map_eq_some_iff.mp hThere with
    ⟨c', hConn', hIs⟩
  refine ⟨c', hConn', hIs, ?_⟩
  by_contra hAlive
  have hOpen :=
    (hDrained 5 c' hConn' (hIs.trans hOwner.symm)
      (by simpa using hAlive)).2.2
  rw [hClosing] at hOpen
  cases hOpen

end Server

end SocketExchange

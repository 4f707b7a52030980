import SocketExchange.Server.History

/-
  One connection's view of a handler.

  `Server.port?` is all that a server holds for one
  connection: its record, the answers its socket will give,
  and its own part of the history. Every operation of the
  handlers acts on each port by itself; publishing a trade
  acts on all of them at once, and on each as if the others
  were not there, in whatever order the connections are
  walked.

  Key definitions include:
    * `logOf`
    * `Server.port?`
    * `Port.push`, `Port.pushAll`
    * `messagesFor`

  Key theorems include:
    * `Server.port?_queueOut`
    * `Server.port?_rewrite`
    * `Server.port?_publish`
-/

------------------------------------------------------------
-- Ports Of A Server
------------------------------------------------------------

namespace SocketExchange

/- The part of the history about one connection. -/
def logOf (owner : Int) (log : List Obs) : List Obs :=
  log.filter fun e => e.owner? = some owner

/- It grows with the history. -/
theorem logOf_append
    (owner : Int)
    (log more : List Obs) :
    logOf owner (log ++ more) =
      logOf owner log ++ logOf owner more :=
  List.filter_append ..

/- Entries about the connection are all in it. -/
theorem logOf_of_about
    {owner : Int}
    {log : List Obs}
    (hAbout : ∀ e ∈ log, e.owner? = some owner) :
    logOf owner log = log := by
  unfold logOf
  rw [List.filter_eq_self]
  intro e he
  simpa using hAbout e he

/- Entries about another one are not. -/
theorem logOf_of_other
    {owner other : Int}
    {log : List Obs}
    (hAbout : ∀ e ∈ log, e.owner? = some owner)
    (hNe : other ≠ owner) :
    logOf other log = [] := by
  unfold logOf
  rw [List.filter_eq_nil_iff]
  intro e he
  rw [hAbout e he]
  simpa using fun h => hNe h.symm

namespace Port

/- The same port, with an earlier history. -/
def behind (log : List Obs) (p : Port) : Port :=
  { p with log := log ++ p.log }

/- Nothing happens on a port that is dead. -/
def whenLive (F : Port → Port) (p : Port) : Port :=
  if p.conn.dead then p else F p

/- `queue_out` on a port. -/
def push (p : Port) (m : Msg) : Port :=
  p.whenLive (·.queue m)

/- Messages queued one after the other. -/
def pushAll (p : Port) (ms : List Msg) : Port :=
  ms.foldl push p

/-
  An output operation: it keeps the identity of the
  connection, adds to the history about this connection, and
  does not look at the history.
-/
structure Output (F : Port → Port) : Prop where
  same : ∀ p : Port, p.conn.SameIdentity (F p).conn
  behind :
    ∀ (log : List Obs) (p : Port),
      F (p.behind log) = (F p).behind log
  about :
    ∀ p : Port, p.conn.dead = false → p.log = [] →
      ∀ e ∈ (F p).log, e.owner? = some p.conn.ownerId

/- None of the three looks at what came before. -/
theorem close_behind
    (why : CloseCause)
    (log : List Obs)
    (p : Port) :
    (p.behind log).close why =
      (p.close why).behind log := by
  simp [close, Port.behind]

theorem flush_behind
    (log : List Obs)
    (p : Port) :
    (p.behind log).flush = p.flush.behind log := by
  cases hExit : (flushLoop p.sends p.conn.out).exit with
  | blocked => simp [flush, Port.behind, hExit]
  | failed => simp [flush, Port.behind, hExit, close]
  | drained =>
      by_cases hClosing : p.conn.closing = true
      · simp [flush, Port.behind, hExit, hClosing, close]
      · simp [flush, Port.behind, hExit, hClosing]

/- Over the cap or not is for the buffer to say. -/
theorem queue_behind
    (m : Msg)
    (log : List Obs)
    (p : Port) :
    (p.behind log).queue m = (p.queue m).behind log := by
  by_cases hCap :
      (p.conn.out.push m.text).pending > kMaxOutBytes
  · simp [queue, Port.behind, hCap, close]
  · have hFlush :=
      flush_behind log
        { conn :=
            { p.conn with out := p.conn.out.push m.text }
          sends := p.sends
          log := p.log ++ [.queued p.conn.ownerId m] }
    have hLeft :
        (p.behind log).queue m =
          flush (Port.behind log
            { conn :=
                { p.conn with
                  out := p.conn.out.push m.text }
              sends := p.sends
              log :=
                p.log ++ [.queued p.conn.ownerId m] }) := by
      unfold queue
      dsimp only [Port.behind]
      rw [if_neg hCap, List.append_assoc]
    have hRight :
        p.queue m =
          flush
            { conn :=
                { p.conn with
                  out := p.conn.out.push m.text }
              sends := p.sends
              log :=
                p.log ++ [.queued p.conn.ownerId m] } := by
      unfold queue
      dsimp only
      rw [if_neg hCap]
    rw [hLeft, hRight, hFlush]

/-
  What output leaves in the history is about its own
  connection.
-/
theorem tail_about
    {owner : Int}
    {closing dead : Bool}
    {es : List Obs}
    (hTail : OutputTail owner closing dead es) :
    ∀ e ∈ es, e.owner? = some owner :=
  hTail.forall_mem (fun _ => rfl) (fun _ _ => rfl)

/- The three are output operations. -/
theorem output_close (why : CloseCause) :
    Output (·.close why) where
  same := fun p => close_same p why
  behind := close_behind why
  about := by
    intro p _ hEmpty e he
    simp only [close, hEmpty, List.nil_append,
      List.mem_singleton] at he
    rw [he]
    rfl

theorem output_flush : Output flush where
  same := flush_same
  behind := flush_behind
  about := by
    intro p hLive hEmpty e he
    rcases flush_tail p hLive with ⟨es, hLog, hTail⟩
    rw [hLog, hEmpty] at he
    exact tail_about hTail e he

theorem output_queue (m : Msg) :
    Output (·.queue m) where
  same := fun p => queue_same p m
  behind := queue_behind m
  about := by
    intro p hLive hEmpty e he
    rcases queue_tail p m hLive with ⟨es, hLog, hTail⟩
    rw [hLog, hEmpty, List.nil_append] at he
    rcases List.mem_cons.mp he with rfl | hRest
    · rfl
    · exact tail_about hTail e hRest

/-
  An output operation that is left out on a dead port is
  still one.
-/
theorem whenLive_same
    {F : Port → Port}
    (hF : Output F)
    (p : Port) :
    p.conn.SameIdentity (p.whenLive F).conn := by
  unfold whenLive
  split
  · exact Conn.SameIdentity.refl _
  · exact hF.same p

theorem whenLive_behind
    {F : Port → Port}
    (hF : Output F)
    (log : List Obs)
    (p : Port) :
    (p.behind log).whenLive F =
      (p.whenLive F).behind log := by
  unfold whenLive
  split
  · next hDead =>
      have hDead' : p.conn.dead = true := hDead
      rw [if_pos hDead']
  · next hLive =>
      have hLive' : ¬ p.conn.dead = true := hLive
      rw [if_neg hLive']
      exact hF.behind log p

/- Pushes too keep the identity, and do not look back. -/
theorem push_same (p : Port) (m : Msg) :
    p.conn.SameIdentity (p.push m).conn :=
  whenLive_same (output_queue m) p

/- Nothing is queued on a dead port. -/
theorem push_of_dead
    {p : Port}
    (hDead : p.conn.dead = true)
    (m : Msg) :
    p.push m = p := by
  unfold push whenLive
  rw [if_pos hDead]

theorem pushAll_same
    (p : Port)
    (ms : List Msg) :
    p.conn.SameIdentity (p.pushAll ms).conn := by
  induction ms generalizing p with
  | nil => exact Conn.SameIdentity.refl _
  | cons m ms ih => exact (push_same p m).trans (ih _)

/-
  Messages in two lots are queued one lot after the other.
-/
theorem pushAll_append
    (p : Port)
    (ms ns : List Msg) :
    p.pushAll (ms ++ ns) = (p.pushAll ms).pushAll ns :=
  List.foldl_append ..

theorem pushAll_behind
    (log : List Obs)
    (p : Port)
    (ms : List Msg) :
    (p.behind log).pushAll ms =
      (p.pushAll ms).behind log := by
  induction ms generalizing p with
  | nil => rfl
  | cons m ms ih =>
      have hFirst :=
        whenLive_behind (output_queue m) log p
      change ((p.behind log).push m).pushAll ms = _
      unfold push
      rw [hFirst, ih]
      rfl

end Port

end SocketExchange

------------------------------------------------------------
-- Operations On One Connection
------------------------------------------------------------

namespace SocketExchange

namespace Server

/- What the server holds for one connection. -/
def port? (s : Server) (fd : Fd) : Option Port :=
  s.conns[fd]?.map fun c =>
    { conn := c
      sends := s.env.sends fd
      log := logOf c.ownerId s.log }

variable {s s' : Server} {fd : Fd} {c : Conn}

/- Its record, its answers, and its part of the history. -/
theorem port?_of_conn
    (hConn : s.conns[fd]? = some c) :
    s.port? fd =
      some
        { conn := c
          sends := s.env.sends fd
          log := logOf c.ownerId s.log } := by
  unfold port?
  rw [hConn]
  rfl

/- There is one for every connection. -/
theorem port?_eq_none_iff :
    s.port? fd = none ↔ s.conns[fd]? = none := by
  unfold port?
  rw [Option.map_eq_none_iff]

/- The record on it is the one in the table. -/
theorem conn_of_port?
    {p : Port}
    (hPort : s.port? fd = some p) :
    s.conns[fd]? = some p.conn := by
  unfold port? at hPort
  rcases Option.map_eq_some_iff.mp hPort with
    ⟨c, hConn, rfl⟩
  exact hConn

/-
  Writing one connection, with entries about it, is seen on
  its own port only.
-/
theorem port?_rewrite
    (c' : Conn)
    (sends : List SendResult)
    (es : List Obs)
    (hReg : Registry s)
    (hConn : s.conns[fd]? = some c)
    (hConns : s'.conns = s.conns.insert fd c')
    (hOwner : c'.ownerId = c.ownerId)
    (hLog : s'.log = s.log ++ es)
    (hAbout : ∀ e ∈ es, e.owner? = some c.ownerId)
    (hSends :
      s'.env.sends =
        Function.update s.env.sends fd sends)
    (f : Fd) :
    s'.port? f =
      if f = fd then
        some
          { conn := c'
            sends := sends
            log := logOf c.ownerId s.log ++ es }
      else s.port? f := by
  unfold port?
  rw [hConns, getElem?_insert_fd, hLog, hSends]
  by_cases hEq : f = fd
  · rw [if_pos hEq, if_pos hEq, Option.map_some, hOwner,
      logOf_append, logOf_of_about hAbout, hEq]
    simp
  · rw [if_neg hEq, if_neg hEq]
    cases hOther : s.conns[f]? with
    | none => rfl
    | some d =>
        have hNe : d.ownerId ≠ c.ownerId := fun hSame =>
          hEq (hReg.owner_unique f fd d c hOther hConn
            hSame)
        simp only [Option.map_some]
        rw [logOf_append, logOf_of_other hAbout hNe,
          List.append_nil, Function.update_of_ne hEq]

/- An output operation acts on the one port. -/
theorem port?_output
    {F : Port → Port}
    (hF : Port.Output F)
    (hReg : Registry s)
    (hLive :
      ∀ c, s.conns[fd]? = some c → c.dead = false →
        s' = s.commit fd (F (Port.ofConn s c)))
    (hDead : s.findLive fd = none → s' = s)
    (f : Fd) :
    s'.port? f =
      if f = fd then (s.port? fd).map (·.whenLive F)
      else s.port? f := by
  cases hFind : s.findLive fd with
  | none =>
      rw [hDead hFind]
      split
      · next hEq =>
          subst hEq
          cases hConn : s.conns[f]? with
          | none => simp [port?, hConn]
          | some c =>
              have hIs : c.dead = true := by
                simpa [findLive, hConn] using hFind
              rw [port?_of_conn hConn]
              simp [Port.whenLive, hIs]
      · rfl
  | some c =>
      rcases findLive_eq_some_iff.mp hFind with
        ⟨hConn, hIs⟩
      have hFd := hReg.conn_fd fd c hConn
      have hSame := hF.same (Port.ofConn s c)
      rw [hLive c hConn hIs,
        port?_rewrite (F (Port.ofConn s c)).conn
          (F (Port.ofConn s c)).sends
          (F (Port.ofConn s c)).log hReg hConn
          (commit_conns s fd _) hSame.ownerId
          (commit_log s fd _)
          (hF.about (Port.ofConn s c) hIs rfl)
          (by
            rw [commit_sends, hSame.fd]
            change Function.update _ c.fd _ = _
            rw [hFd])]
      split
      · rw [port?_of_conn hConn]
        -- The port of the server is the bare port of the
        -- connection with its history in front.
        have hBehind :
            ({ conn := c
               sends := s.env.sends fd
               log := logOf c.ownerId s.log } : Port) =
              (Port.ofConn s c).behind
                (logOf c.ownerId s.log) := by
          simp [Port.behind, Port.ofConn, hFd]
        have hNot :
            ¬ ((Port.ofConn s c).behind
              (logOf c.ownerId s.log)).conn.dead =
                true := by
          simp [Port.behind, Port.ofConn, hIs]
        rw [hBehind, Option.map_some, Port.whenLive,
          if_neg hNot, hF.behind]
        rfl
      · rfl

/- Queueing, flushing and closing are on one port each. -/
theorem port?_queueOut
    (hReg : Registry s)
    (m : Msg)
    (f : Fd) :
    (s.queueOut fd m).port? f =
      if f = fd then (s.port? fd).map (·.push m)
      else s.port? f :=
  port?_output (Port.output_queue m) hReg
    (fun _ hConn hLive => queueOut_eq_commit hConn hLive m)
    (fun hNone => queueOut_of_not_live hNone m) f

theorem port?_tryFlush
    (hReg : Registry s)
    (f : Fd) :
    (s.tryFlush fd).port? f =
      if f = fd then
        (s.port? fd).map (·.whenLive Port.flush)
      else s.port? f :=
  port?_output Port.output_flush hReg
    (fun _ hConn hLive => tryFlush_eq_commit hConn hLive)
    tryFlush_of_not_live f

theorem port?_closeConn
    (hReg : Registry s)
    (why : CloseCause)
    (f : Fd) :
    (s.closeConn fd why).port? f =
      if f = fd then
        (s.port? fd).map (·.whenLive (·.close why))
      else s.port? f :=
  port?_output (Port.output_close why) hReg
    (fun _ hConn hLive =>
      closeConn_eq_commit hConn hLive why)
    (fun hNone => closeConn_of_not_live hNone why) f

/- Reaping removes the ports of the dead, and no others. -/
theorem port?_reap
    (s : Server)
    (f : Fd) :
    s.reap.port? f =
      if f ∈ s.dead then none else s.port? f := by
  have hLog :
      ∀ owner, logOf owner s.reap.log =
        logOf owner s.log := by
    intro owner
    have hNone :
        logOf owner (s.dead.map Obs.released) = [] := by
      unfold logOf
      rw [List.filter_eq_nil_iff]
      intro e he
      rcases List.mem_map.mp he with ⟨_, _, rfl⟩
      simp [Obs.owner?]
    rw [reap_log, logOf_append, hNone, List.append_nil]
  unfold port?
  rw [getElem?_reap, reap_sends]
  split
  · rfl
  · simp only [hLog]

/- Output keeps the registries, whatever the message. -/
theorem Registry.queueOut
    (hReg : Registry s)
    (fd : Fd)
    (m : Msg) :
    Registry (s.queueOut fd m) := by
  refine queueOut_cases (P := Registry) hReg ?_
  intro c hConn hLive
  exact hReg.commit hConn hLive
    (Port.queue_same (Port.ofConn s c) m)

end Server

end SocketExchange

------------------------------------------------------------
-- Publishing, Seen By Each Connection
------------------------------------------------------------

namespace SocketExchange

/-
  The messages that a trade means for a connection: its own
  fills as a trader, and the print if it has subscribed.
-/
def messagesFor (c : Conn) (t : Trade) : List Msg :=
  (if c.role = .trader ∧ c.ownerId = t.buyerOwner then
      [.bought t] else []) ++
    (if c.role = .trader ∧ c.ownerId = t.sellerOwner then
      [.sold t] else []) ++
    (if c.role = .marketData ∧ c.subs t.inst = true ∧
        c.closing = false then
      [.trade t] else [])

/- What a trade means does not depend on the output. -/
theorem messagesFor_of_same
    {c c' : Conn}
    (hSame : c.SameIdentity c')
    (t : Trade) :
    messagesFor c' t = messagesFor c t := by
  simp only [messagesFor, hSame.role, hSame.ownerId,
    hSame.subs, hSame.closing]

namespace Server

variable {s : Server} {fd : Fd}

/- The owner entry leads to the live trader, if any. -/
theorem port?_notifyOwner
    (hReg : Registry s)
    (owner : Int)
    (m : Msg)
    (f : Fd) :
    (s.notifyOwner owner m).port? f =
      (s.port? f).map fun p =>
        if p.conn.role = .trader ∧
            p.conn.ownerId = owner then
          p.push m
        else p := by
  have hOther :
      ∀ p : Port, s.port? f = some p →
        (p.conn.role = .trader → p.conn.ownerId = owner →
          p.conn.dead = true) →
        s.port? f =
          (s.port? f).map fun p =>
            if p.conn.role = .trader ∧
                p.conn.ownerId = owner then
              p.push m
            else p := by
    intro p hPort hDead
    rw [hPort, Option.map_some]
    split
    · next hIs =>
        rw [Port.push_of_dead (hDead hIs.1 hIs.2)]
    · rfl
  unfold notifyOwner
  cases hEntry : s.ownerFd[owner]? with
  | none =>
      -- No live trader has this owner id.
      dsimp only
      cases hPort : s.port? f with
      | none => rfl
      | some p =>
          rw [← hPort]
          refine hOther p hPort ?_
          intro hRole hOwner
          by_contra hLive
          have hSome :=
            hReg.owner_complete f p.conn
              ⟨conn_of_port? hPort,
                Bool.eq_false_iff.mpr hLive, hRole⟩
          rw [hOwner, hEntry] at hSome
          cases hSome
  | some fd =>
      rcases hReg.owner_sound owner fd hEntry with
        ⟨c, hTrader, hOwner⟩
      have hFind : s.findLive fd = some c :=
        findLive_eq_some_iff.mpr
          ⟨hTrader.conn, hTrader.live⟩
      dsimp only
      rw [hFind]
      dsimp only
      rw [port?_queueOut hReg]
      split
      · next hEq =>
          subst hEq
          rw [port?_of_conn hTrader.conn]
          simp [hTrader.role, hOwner]
      · next hNe =>
          cases hPort : s.port? f with
          | none => rfl
          | some p =>
              rw [← hPort]
              refine hOther p hPort ?_
              intro _ hSame
              exact absurd
                (hReg.owner_unique f fd p.conn c
                  (conn_of_port? hPort) hTrader.conn
                  (hSame.trans hOwner.symm)) hNe

/- Telling an owner keeps the registries. -/
theorem Registry.notifyOwner
    (hReg : Registry s)
    (owner : Int)
    (m : Msg) :
    Registry (s.notifyOwner owner m) := by
  unfold Server.notifyOwner
  split
  · exact hReg
  · split
    · exact hReg
    · exact hReg.queueOut _ m

/- The print, on the port of a subscriber. -/
def printed (t : Trade) (p : Port) : Port :=
  if p.conn.role = .marketData ∧ p.conn.subs t.inst = true ∧
      p.conn.closing = false then
    p.push (.trade t)
  else p

/-
  One turn of the walk is about one connection, whose port
  gets the print if it has subscribed.
-/
theorem port?_notifySubscriber
    (hReg : Registry s)
    (t : Trade)
    (f : Fd) :
    (notifySubscriber t s fd).port? f =
      if f = fd then (s.port? fd).map (printed t)
      else s.port? f := by
  unfold notifySubscriber
  cases hConn : s.conns[fd]? with
  | none =>
      dsimp only
      split
      · next hEq =>
          subst hEq
          simp [port?, hConn]
      · rfl
  | some c =>
      dsimp only
      by_cases hSubscribed :
          c.role = .marketData ∧ c.subs t.inst = true ∧
            c.closing = false ∧ c.dead = false
      · rw [if_pos hSubscribed, port?_queueOut hReg]
        split
        · rw [port?_of_conn hConn]
          simp [printed, hSubscribed]
        · rfl
      · rw [if_neg hSubscribed]
        split
        · next hEq =>
            subst hEq
            rw [port?_of_conn hConn, Option.map_some]
            unfold printed
            split
            · next hIs =>
                -- Subscribed all the same: then it is dead.
                have hDead : c.dead = true := by
                  by_contra hLive
                  exact hSubscribed
                    ⟨hIs.1, hIs.2.1, hIs.2.2,
                      Bool.eq_false_iff.mpr hLive⟩
                rw [Port.push_of_dead hDead]
            · rfl
        · rfl

/- It keeps the registries too. -/
theorem Registry.notifySubscriber
    (hReg : Registry s)
    (t : Trade)
    (fd : Fd) :
    Registry (notifySubscriber t s fd) := by
  unfold Server.notifySubscriber
  split
  · exact hReg
  · split
    · exact hReg.queueOut _ _
    · exact hReg

/-
  The three pushes of a publication, one after the other. No
  push changes what the later conditions look at.
-/
theorem pushAll_messagesFor
    (t : Trade)
    (p : Port) :
    p.pushAll (messagesFor p.conn t) =
      printed t
        ((fun p : Port =>
            if p.conn.role = .trader ∧
                p.conn.ownerId = t.sellerOwner then
              p.push (.sold t)
            else p)
          (if p.conn.role = .trader ∧
              p.conn.ownerId = t.buyerOwner then
            p.push (.bought t)
          else p)) := by
  have hOne :
      ∀ (q : Port) (P : Prop) [Decidable P] (m : Msg),
        q.pushAll (if P then [m] else []) =
          if P then q.push m else q := by
    intro q P _ m
    split
    · rfl
    · rfl
  unfold messagesFor
  rw [Port.pushAll_append, Port.pushAll_append, hOne, hOne,
    hOne]
  -- The port after the first push, and after the second.
  generalize hFirst :
    (if p.conn.role = .trader ∧
        p.conn.ownerId = t.buyerOwner then
      p.push (.bought t) else p) = q
  have hSame : p.conn.SameIdentity q.conn := by
    rw [← hFirst]
    split
    · exact Port.push_same p _
    · exact Conn.SameIdentity.refl _
  dsimp only
  rw [hSame.role, hSame.ownerId]
  generalize hSecond :
    (if p.conn.role = .trader ∧
        p.conn.ownerId = t.sellerOwner then
      q.push (.sold t) else q) = r
  have hSame' : p.conn.SameIdentity r.conn := by
    rw [← hSecond]
    split
    · exact hSame.trans (Port.push_same q _)
    · exact hSame
  unfold printed
  rw [hSame'.role, hSame'.subs, hSame'.closing]

/-
  The loop over the subscribers acts on each port once,
  whatever the order of the walk.
-/
theorem port?_subscribers
    (t : Trade)
    (fds : List Fd)
    (hNodup : fds.Nodup)
    (hReg : Registry s)
    (f : Fd) :
    Registry (fds.foldl (notifySubscriber t) s) ∧
      (fds.foldl (notifySubscriber t) s).port? f =
        if f ∈ fds then (s.port? f).map (printed t)
        else s.port? f := by
  induction fds generalizing s with
  | nil => exact ⟨hReg, by simp⟩
  | cons a fds ih =>
      rcases List.nodup_cons.mp hNodup with
        ⟨hNotIn, hRest⟩
      rcases ih hRest (hReg.notifySubscriber t a) with
        ⟨hRegNext, hPort⟩
      refine ⟨hRegNext, ?_⟩
      rw [List.foldl_cons, hPort,
        port?_notifySubscriber hReg]
      by_cases hEq : f = a
      · subst hEq
        simp [hNotIn]
      · simp [hEq]

/-
  A publication, as each connection sees it: its own
  messages are queued on it, whatever the others are sent
  and in whatever order they are walked.
-/
theorem port?_publish
    (hReg : Registry s)
    (t : Trade)
    (f : Fd) :
    Registry (s.publish t) ∧
      (s.publish t).port? f =
        (s.port? f).map fun p =>
          p.pushAll (messagesFor p.conn t) := by
  have hBuyer := hReg.notifyOwner t.buyerOwner (.bought t)
  have hSeller :=
    hBuyer.notifyOwner t.sellerOwner (.sold t)
  generalize hMid :
    (s.notifyOwner t.buyerOwner (.bought t)).notifyOwner
      t.sellerOwner (.sold t) = mid at hSeller
  have hPerm := mid.env.order.perm mid.conns.keys
  have hWalk :
      f ∈ mid.env.order.walk mid.conns.keys ↔
        mid.port? f ≠ none := by
    rw [hPerm.mem_iff, Std.ExtTreeMap.mem_keys,
      ne_eq, port?_eq_none_iff]
    simp
  rcases port?_subscribers t
      (mid.env.order.walk mid.conns.keys)
      (hPerm.nodup_iff.mpr Std.ExtTreeMap.nodup_keys)
      hSeller f with ⟨hRegNext, hPort⟩
  have hUnfold :
      s.publish t =
        (mid.env.order.walk mid.conns.keys).foldl
          (notifySubscriber t) mid := by
    rw [← hMid]
    rfl
  refine ⟨hUnfold ▸ hRegNext, ?_⟩
  rw [hUnfold, hPort]
  have hAll :
      (if f ∈ mid.env.order.walk mid.conns.keys then
        (mid.port? f).map (printed t) else mid.port? f) =
        (mid.port? f).map (printed t) := by
    split
    · rfl
    · next hNot =>
        have hNone : mid.port? f = none := by
          by_contra hSome
          exact hNot (hWalk.mpr hSome)
        rw [hNone]
        rfl
  rw [hAll, ← hMid, port?_notifyOwner hBuyer,
    port?_notifyOwner hReg, Option.map_map, Option.map_map]
  congr 1
  funext p
  exact (pushAll_messagesFor t p).symm

/- All the trades of an order, one after the other. -/
theorem port?_publishAll
    (trades : List Trade)
    (hReg : Registry s)
    (f : Fd) :
    Registry (trades.foldl publish s) ∧
      (trades.foldl publish s).port? f =
        (s.port? f).map fun p =>
          p.pushAll
            (trades.flatMap (messagesFor p.conn)) := by
  induction trades generalizing s with
  | nil =>
      refine ⟨hReg, ?_⟩
      simp [Port.pushAll]
  | cons t trades ih =>
      rcases port?_publish hReg t f with ⟨hRegNext, hPort⟩
      rcases ih hRegNext with ⟨hRegLast, hRest⟩
      refine ⟨hRegLast, ?_⟩
      rw [List.foldl_cons, hRest, hPort, Option.map_map]
      congr 1
      funext p
      have hSame :=
        Port.pushAll_same p (messagesFor p.conn t)
      simp only [Function.comp_apply, List.flatMap_cons,
        Port.pushAll_append]
      congr 1
      exact List.flatMap_congr
        (fun u _ => messagesFor_of_same hSame u)

/- An accepted order, as each connection sees it. -/
theorem port?_acceptOrder
    {c : Conn}
    (side : Side)
    (inst : Fin 2)
    (qty price : UInt32)
    (hReg : Registry s)
    (f : Fd) :
    (s.acceptOrder fd c side inst qty price).port? f =
      ((s.callExchange c.ownerId
        (.submit side inst qty price c.ownerId)).port?
          f).map fun p =>
        p.pushAll
          ((if f = fd then
              [.orderAccepted (s.exch.submit side inst qty
                price c.ownerId []).2.1] else []) ++
            (s.exch.submit side inst qty price c.ownerId
              []).2.2.flatMap (messagesFor p.conn)) := by
  have hCalled :
      Registry (s.callExchange c.ownerId
        (.submit side inst qty price c.ownerId)) :=
    hReg.callExchange _ _
  unfold acceptOrder
  dsimp only
  rw [(port?_publishAll _ (hCalled.queueOut fd _) f).2,
    port?_queueOut hCalled]
  by_cases hEq : f = fd
  · subst hEq
    rw [if_pos rfl, if_pos rfl, Option.map_map]
    congr 1
    funext p
    have hSame :=
      Port.push_same p (.orderAccepted
        (s.exch.submit side inst qty price c.ownerId
          []).2.1)
    simp only [Function.comp_apply, Port.pushAll_append]
    congr 1
    exact List.flatMap_congr
      (fun u _ => messagesFor_of_same hSame u)
  · rw [if_neg hEq, if_neg hEq]
    rfl

end Server

end SocketExchange

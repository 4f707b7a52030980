import SocketExchange.Server.Ordering
import SocketExchange.Service.Statement

/-
  The market data feed has no gaps.

  From any moment between two turns at which a connection
  listens to an instrument, and for as long as it neither
  turns the feed off nor quits, the prints queued on it are
  exactly the trades made in that instrument, in order. If
  it ends on the way, it got a first part of them.

  Main declarations:
    * `Server.Listens`
    * `Server.Advances.mail`
    * `Server.feed_complete`
-/

------------------------------------------------------------
-- Who Listens
------------------------------------------------------------

namespace SocketExchange

/- The prints of an instrument among some messages. -/
def printsIn (i : Fin 2) (ms : List Msg) : List Trade :=
  (ms.filterMap Msg.print?).filter fun t =>
    decide (t.inst = i)

/- The trades in an instrument that a history made. -/
def tradesIn (i : Fin 2) (log : List Obs) : List Trade :=
  (tradesOf (repliesOf log)).filter fun t =>
    decide (t.inst = i)

theorem printsIn_append
    (i : Fin 2)
    (ms ns : List Msg) :
    printsIn i (ms ++ ns) =
      printsIn i ms ++ printsIn i ns := by
  unfold printsIn
  rw [List.filterMap_append, List.filter_append]

theorem tradesIn_append
    (i : Fin 2)
    (log more : List Obs) :
    tradesIn i (log ++ more) =
      tradesIn i log ++ tradesIn i more := by
  unfold tradesIn
  rw [repliesOf_append, tradesOf_append, List.filter_append]

/-
  Neither does the connection turn the feed off, nor is it
  marked to close.
-/
def StaysTuned
    (k : Int)
    (i : Fin 2)
    (es : List Obs) : Prop :=
  .subscribed k i false ∉ es ∧ .closing k ∉ es

theorem StaysTuned.append
    {k : Int}
    {i : Fin 2}
    {es fs : List Obs} :
    StaysTuned k i (es ++ fs) ↔
      StaysTuned k i es ∧ StaysTuned k i fs := by
  unfold StaysTuned
  simp only [List.mem_append, not_or]
  tauto

namespace Server

/-
  Whatever connection has this owner id is subscribed to the
  instrument and not closing.
-/
structure Listens
    (k : Int)
    (i : Fin 2)
    (s : Server) : Prop where
  old : k < s.nextOwner
  conn :
    ∀ (fd : Fd) (c : Conn), s.conns[fd]? = some c →
      c.ownerId = k → c.subs i = true ∧ c.closing = false

variable {G : Guard} {s s' : Server} {fd : Fd}
variable {c c' : Conn} {k : Int} {i : Fin 2}

theorem Listens.of_conns
    (hListens : Listens k i s)
    (hNext : s'.nextOwner = s.nextOwner)
    (hConns :
      ∀ (f : Fd) (d : Conn), s'.conns[f]? = some d →
        s.conns[f]? = some d) :
    Listens k i s' where
  old := hNext ▸ hListens.old
  conn := fun f d hd => hListens.conn f d (hConns f d hd)

/- Rewriting a connection that keeps listening. -/
theorem Listens.rewrite
    (hListens : Listens k i s)
    (hConn : s.conns[fd]? = some c)
    (hConns : s'.conns = s.conns.insert fd c')
    (hNext : s'.nextOwner = s.nextOwner)
    (hOwner : c'.ownerId = c.ownerId)
    (hKeeps :
      c.ownerId = k → c.subs i = true → c.closing = false →
        c'.subs i = true ∧ c'.closing = false) :
    Listens k i s' where
  old := hNext ▸ hListens.old
  conn := by
    intro f d hd hId
    rcases conn_of_insert hConns hd with
      ⟨rfl, rfl⟩ | ⟨_, hOld⟩
    · rw [hOwner] at hId
      rcases hListens.conn f c hConn hId with
        ⟨hSubs, hOpen⟩
      exact hKeeps hId hSubs hOpen
    · exact hListens.conn f d hOld hId

theorem Listens.commit
    {p : Port}
    (hListens : Listens k i s)
    (hConn : s.conns[fd]? = some c)
    (hSame : c.SameIdentity p.conn) :
    Listens k i (s.commit fd p) := by
  refine hListens.rewrite hConn (commit_conns s fd p)
    (commit_nextOwner s fd p) hSame.ownerId ?_
  intro _ hSubs hOpen
  exact ⟨hSame.subs.symm ▸ hSubs, hSame.closing.trans hOpen⟩

/- Only its own word stops a connection from listening. -/
theorem Listens.act
    {es : List Obs}
    (hReg : Registry s)
    (hListens : Listens k i s)
    (hAct : Act G s s')
    (hLog : s'.log = s.log ++ es)
    (hTuned : StaysTuned k i es) :
    Listens k i s' := by
  have hLast :
      ∀ e, s'.log = s.log ++ [e] → e ∈ es := by
    intro e hOne
    have hEs : es = [e] :=
      List.append_cancel_left (hLog.symm.trans hOne)
    rw [hEs]
    exact List.mem_singleton_self e
  cases hAct with
  | serve hServe =>
      cases hServe with
      | @queue fd c m hConn _ _ _ _ =>
          exact hListens.commit hConn
            (Port.queue_same (Port.ofConn s c) m)
      | @flush fd c hConn _ =>
          exact hListens.commit hConn
            (Port.flush_same (Port.ofConn s c))
      | @closing fd c hConn =>
          refine hListens.rewrite hConn rfl rfl rfl ?_
          rintro rfl _ _
          exact absurd (hLast _ rfl) hTuned.2
      | line _ _ _ _ =>
          exact hListens.of_conns rfl (fun _ _ h => h)
      | overlong _ _ _ =>
          exact hListens.of_conns rfl (fun _ _ h => h)
      | login hConn _ _ _ _ _ =>
          exact hListens.rewrite hConn rfl rfl rfl
            (fun _ hSubs hOpen => ⟨hSubs, hOpen⟩)
      | @subscribe fd c hConn _ _ _ inst on =>
          refine hListens.rewrite hConn rfl rfl rfl ?_
          rintro rfl hSubs hOpen
          refine ⟨?_, hOpen⟩
          change Function.update c.subs inst on i = true
          by_cases hInst : i = inst
          · subst hInst
            cases on with
            | true => simp
            | false => exact absurd (hLast _ rfl) hTuned.1
          · rw [Function.update_of_ne hInst]
            exact hSubs
      | call _ _ _ _ _ _ _ =>
          exact hListens.of_conns rfl (fun _ _ h => h)
  | @close fd c hConn _ why _ =>
      exact hListens.commit hConn
        (Port.close_same (Port.ofConn s c) why)
  | input hConn _ =>
      exact hListens.rewrite hConn rfl rfl rfl
        (fun _ hSubs hOpen => ⟨hSubs, hOpen⟩)
  | @accept cfd hFresh _ =>
      have hNone := hReg.none_of_fresh hFresh
      refine ⟨?_, ?_⟩
      · exact hListens.old.trans (Int.lt_succ s.nextOwner)
      · intro f d hd hId
        rcases conn_of_insert (acceptConn_conns hNone) hd
          with ⟨_, rfl⟩ | ⟨_, hOld⟩
        · exact absurd hId hListens.old.ne'
        · exact hListens.conn f d hOld hId
  | reap =>
      exact hListens.of_conns (reap_nextOwner s)
        (fun _ _ hd => conn_of_reap s hd)
  | answers _ =>
      exact hListens.of_conns rfl (fun _ _ h => h)

theorem Listens.acts
    {es : List Obs}
    (hReg : Registry s)
    (hListens : Listens k i s)
    (hActs : Acts G s s')
    (hLog : s'.log = s.log ++ es)
    (hTuned : StaysTuned k i es) :
    Listens k i s' := by
  have hAll :
      Registry s' ∧ ∃ fs, s'.log = s.log ++ fs ∧
        (StaysTuned k i fs → Listens k i s') := by
    refine hActs.invariant
      (fun t => Registry t ∧ ∃ fs, t.log = s.log ++ fs ∧
        (StaysTuned k i fs → Listens k i t)) ?_
      ⟨hReg, [], (List.append_nil _).symm,
        fun _ => hListens⟩
    rintro t t' ⟨hReg, fs, hLog, hStill⟩ hAct
    rcases hAct.log_grows with ⟨gs, hMore⟩
    refine ⟨hReg.act hAct, fs ++ gs, ?_, ?_⟩
    · rw [← hMore, hLog, List.append_assoc]
    · intro hTuned
      rcases StaysTuned.append.mp hTuned with
        ⟨hFirst, hLast⟩
      exact (hStill hFirst).act hReg hAct hMore.symm hLast
  rcases hAll with ⟨_, fs, hLog', hStill⟩
  have hSame : es = fs :=
    List.append_cancel_left (hLog.symm.trans hLog')
  exact hStill (hSame ▸ hTuned)

end Server

end SocketExchange

------------------------------------------------------------
-- The Mail Of One Turn
------------------------------------------------------------

namespace SocketExchange

namespace Server

variable {s s' : Server} {v : Service}

/-
  What a turn does to a party that is here: its mail grows
  by what the new trades mean to it.
-/
theorem Advances.mail
    (hRef : Tracks s v)
    (hNodup : (v.parties.map Party.id).Nodup)
    (hAdv : Advances s s' v) :
    ∃ es v', s'.log = s.log ++ es ∧ Tracks s' v' ∧
      ∀ p ∈ v.parties, p.gone = false →
        ∃ q ∈ v'.parties, q.id = p.id ∧
          ∃ ms, q.mail = p.mail ++ ms ∧
            ms.filterMap Msg.print? =
              (tradesOf (repliesOf es)).filter
                fun t => p.follows t.inst := by
  rcases hAdv with
    ⟨es, front, ks, hLog, hInputs, hLength, hNext⟩
  refine ⟨es, _, hLog, hNext, ?_⟩
  -- The trades of the turn are those of its first input.
  have hTape :
      (v.after (inputsOf es)).tape =
        v.tape ++ tradesOf (repliesOf es) := by
    rw [hNext.tape, hLog, repliesOf_append, tradesOf_append,
      hRef.tape]
  rw [hInputs, Service.after_append, Service.after_leaves]
    at hTape ⊢
  intro p hp hHere
  have hFirst :
      ∃ q ∈ (v.after front).parties, q.id = p.id ∧
        ∃ ms, q.mail = p.mail ++ ms ∧
          ms.filterMap Msg.print? =
            (tradesOf (repliesOf es)).filter
              fun t => p.follows t.inst := by
    have hStill :
        (v.after front).tape = v.tape →
          tradesOf (repliesOf es) = [] := by
      intro hSame
      have hBoth := hSame.symm.trans hTape
      simpa using hBoth
    match front, hLength with
    | [], _ =>
        refine ⟨p, hp, rfl, [], ?_, ?_⟩
        · exact (List.append_nil _).symm
        · rw [hStill rfl]
          rfl
    | [i], _ =>
        change ∃ q ∈ (v.step i).parties, _
        by_cases hJoin : ∃ j, i = .join j
        · rcases hJoin with ⟨j, rfl⟩
          refine ⟨p, List.mem_append_left _ hp, rfl, [], ?_,
            ?_⟩
          · exact (List.append_nil _).symm
          · rw [hStill rfl]
            rfl
        · rcases Service.step_moved hNodup
              (fun j h => hJoin ⟨j, h⟩) with
            ⟨trades, H, hMoved⟩
          have hTrades :
              trades = tradesOf (repliesOf es) := by
            have hBoth :
                (v.step i).tape =
                  v.tape ++ tradesOf (repliesOf es) :=
              hTape
            rw [hMoved.tape] at hBoth
            exact List.append_cancel_left hBoth
          have hMoves := hMoved.each p hp
          rcases hMoves.here hHere with
            ⟨ms, hMail, _, hPrints, _⟩
          refine ⟨H p, ?_, hMoves.id, ms, hMail, ?_⟩
          · rw [hMoved.parties]
            exact List.mem_map_of_mem hp
          · rw [hPrints, hTrades]
  rcases hFirst with ⟨q, hq, hId, ms, hMail, hPrints⟩
  exact ⟨_, List.mem_map_of_mem hq, hId, ms, hMail, hPrints⟩

end Server

end SocketExchange

------------------------------------------------------------
-- No Gaps
------------------------------------------------------------

namespace SocketExchange

namespace Server

variable {s s' t : Server} {v : Service} {fd : Fd}
variable {c : Conn} {k : Int} {i : Fin 2} {es : List Obs}

/-
  What the feed owes a connection: its prints are the
  trades, or a first part of them once it has ended.
-/
structure Fed
    (k : Int)
    (i : Fin 2)
    (s : Server)
    (es : List Obs) : Prop where
  first : printsIn i (pushedTo k es) <+: tradesIn i es
  all :
    ∀ (fd : Fd) (c : Conn), s.conns[fd]? = some c →
      c.dead = false → c.ownerId = k →
        printsIn i (pushedTo k es) = tradesIn i es

/- A follower's own prints, among all prints it follows. -/
theorem printsIn_of_follows
    {p : Party}
    {ms : List Msg}
    {trades : List Trade}
    (hFollows : p.follows i = true)
    (hPrints :
      ms.filterMap Msg.print? =
        trades.filter fun t => p.follows t.inst) :
    printsIn i ms =
      trades.filter fun t => decide (t.inst = i) := by
  unfold printsIn
  rw [hPrints, List.filter_filter]
  apply List.filter_congr
  intro t _
  by_cases hInst : t.inst = i
  · simp [hInst, hFollows]
  · simp [hInst]

/- A turn feeds those who listen before it. -/
theorem fed_turn
    (hReg : Registry s)
    (hHist : History s)
    (hRef : Tracks s v)
    (hAdv : Advances s s' v)
    (hListens : Listens k i s)
    (hConn : s.conns[fd]? = some c)
    (hLive : c.dead = false)
    (hOwner : c.ownerId = k)
    (hLog : s'.log = s.log ++ es) :
    Fed k i s' es := by
  have hNodup : (v.parties.map Party.id).Nodup := by
    rw [hRef.ids]
    exact acceptedOwners_nodup hHist.traced
  rcases hRef.party_of hReg hHist hConn hLive with
    ⟨p, hp, hHere, hP⟩
  have hFollows : p.follows i = true := by
    rcases hListens.conn fd c hConn hOwner with
      ⟨hSubs, hOpen⟩
    have hRole : c.role = .marketData := by
      by_contra hNot
      have hNone := hReg.subs_false fd c hConn hNot
      rw [hNone] at hSubs
      cases hSubs
    simp [Party.follows, hP.role, hP.subs, hP.leaving,
      hRole, hSubs, hOpen]
  have hBefore : pushedTo k s.log = p.mail := by
    cases hRef.stands p hp with
    | here _ _ _ _ hMail =>
        rw [← hMail, hP.id, hOwner]
    | gone hGone _ _ =>
        rw [hHere] at hGone
        cases hGone
  rcases hAdv.mail hRef hNodup with
    ⟨fs, v', hLog', hRef', hMail⟩
  have hSame : es = fs :=
    List.append_cancel_left (hLog.symm.trans hLog')
  subst hSame
  rcases hMail p hp hHere with
    ⟨q, hq, hId, ms, hGrown, hPrints⟩
  have hOwed : printsIn i ms = tradesIn i es :=
    printsIn_of_follows hFollows hPrints
  have hQ : q.id = k := hId.trans (hP.id.trans hOwner)
  have hPushed :
      pushedTo k s'.log = p.mail ++ pushedTo k es := by
    rw [hLog, pushedTo_append, hBefore]
  cases hRef'.stands q hq with
  | here _ _ _ _ hAll =>
      -- It lives on, and was queued all its letters.
      have hMs : pushedTo k es = ms := by
        rw [hQ, hPushed, hGrown] at hAll
        exact List.append_cancel_left hAll
      rw [← hMs] at hOwed
      exact ⟨hOwed ▸ List.prefix_refl _,
        fun _ _ _ _ _ => hOwed⟩
  | gone _ hNone hFirst =>
      have hMs : pushedTo k es <+: ms := by
        rw [hQ, hPushed, hGrown] at hFirst
        exact (List.prefix_append_right_inj _).mp hFirst
      refine ⟨?_, ?_⟩
      · rw [← hOwed]
        exact (hMs.filterMap _).filter _
      · intro f d hd hAlive hIs
        rw [hNone f d hd (hIs.trans hQ.symm)] at hAlive
        cases hAlive

/- What is written after an end pushes nothing on it. -/
theorem Endings.pushedTo_nil
    (hEnd : Endings s')
    (hEnded : Ended k s.log)
    (hLog : s'.log = s.log ++ es) :
    pushedTo k es = [] := by
  rw [← pushedTo_logOf]
  apply pushedTo_of_silent ?_ k
  intro e he
  rcases List.mem_filter.mp he with ⟨hMem, hIs⟩
  rcases List.append_of_mem hMem with ⟨pre, post, hSplit⟩
  have hClosing : e = .closing k := by
    refine hEnd.traced (s.log ++ pre) e post ?_ k
      (of_decide_eq_true hIs)
      (Ended.append.mpr (Or.inl hEnded))
    rw [hLog, hSplit, List.append_assoc]
  rw [hClosing]
  trivial

/- A later turn of a feed adds to it what it made itself. -/
theorem Fed.append
    {more : List Obs}
    (hFed : Fed k i s more)
    (hStill :
      ∃ (fd : Fd) (c : Conn), s.conns[fd]? = some c ∧
        c.dead = false ∧ c.ownerId = k)
    (hNext : Fed k i s' es) :
    Fed k i s' (more ++ es) := by
  rcases hStill with ⟨fd, c, hConn, hLive, hId⟩
  have hAll := hFed.all fd c hConn hLive hId
  constructor
  · rw [pushedTo_append, printsIn_append, tradesIn_append,
      hAll]
    exact (List.prefix_append_right_inj _).mpr hNext.first
  · intro f d hd hAlive hIs
    rw [pushedTo_append, printsIn_append, tradesIn_append,
      hAll, hNext.all f d hd hAlive hIs]

/- A feed that has ended stays a first part. -/
theorem Fed.after_end
    {more : List Obs}
    (hFed : Fed k i s more)
    (hSilent : pushedTo k es = [])
    (hGone : Gone s' k) :
    Fed k i s' (more ++ es) := by
  constructor
  · rw [pushedTo_append, hSilent, List.append_nil,
      tradesIn_append]
    exact hFed.first.trans (List.prefix_append _ _)
  · intro f d hd hAlive hIs
    exact absurd hIs (hGone.not_live hd hAlive)

/- What has been settled so far about one listener. -/
structure Tuned
    (s₀ : Server)
    (k : Int)
    (i : Fin 2)
    (s : Server) : Prop where
  registry : Registry s
  history : History s
  endings : Endings s
  accepted : k ∈ acceptedOwners s.log
  tracks :
    submits (callsOf s.log) < 2 ^ 32 →
      Tracks s (Service.start.after (inputsOf s.log))
  fed :
    submits (callsOf s.log) < 2 ^ 32 →
      ∃ more, s.log = s₀.log ++ more ∧
        (StaysTuned k i more →
          Listens k i s ∧ Fed k i s more)

theorem Tuned.turn
    {s₀ : Server}
    {given : List Reading}
    (hTuned : Tuned s₀ k i s)
    (hTurn : Turn s given s') :
    Tuned s₀ k i s' := by
  have hActs := hTurn.acts hTuned.registry
  have hAll :
      Registry s' ∧ History s' ∧ Endings s' := by
    refine hActs.invariant
      (fun s => Registry s ∧ History s ∧ Endings s) ?_
      ⟨hTuned.registry, hTuned.history, hTuned.endings⟩
    rintro a b ⟨hReg, hHist, hEnd⟩ hAct
    exact ⟨hReg.act hAct, hHist.act hReg hAct,
      hEnd.act hReg hAct⟩
  rcases hAll with ⟨hReg', hHist', hEnd'⟩
  rcases hActs.log_grows with ⟨es, hMore⟩
  have hLess
      (hRoom : submits (callsOf s'.log) < 2 ^ 32) :
      submits (callsOf s.log) < 2 ^ 32 :=
    (submits_calls_le hActs.log_grows).trans_lt hRoom
  have hAdvances
      (hRoom : submits (callsOf s'.log) < 2 ^ 32) :=
    (hTuned.tracks (hLess hRoom)).turn hTuned.registry
      hTuned.history hTurn hRoom
  refine ⟨hReg', hHist', hEnd', ?_, ?_, ?_⟩
  · rw [← hMore, acceptedOwners_append]
    exact List.mem_append_left _ hTuned.accepted
  · intro hRoom
    rcases hAdvances hRoom with ⟨fs, _, _, hLog, _, _, hNext⟩
    rw [hLog, inputsOf_append, Service.after_append]
    exact hNext
  · intro hRoom
    rcases hTuned.fed (hLess hRoom) with
      ⟨more, hSoFar, hFed⟩
    refine ⟨more ++ es, ?_, ?_⟩
    · rw [← hMore, hSoFar, List.append_assoc]
    intro hStays
    rcases StaysTuned.append.mp hStays with ⟨hFirst, hLast⟩
    rcases hFed hFirst with ⟨hListens, hBefore⟩
    refine ⟨hListens.acts hTuned.registry hActs hMore.symm
      hLast, ?_⟩
    -- Either the connection has ended, or it is still here.
    by_cases hEnded : Ended k s.log
    · have hEnded' : Ended k s'.log := by
        rw [← hMore]
        exact Ended.append.mpr (Or.inl hEnded)
      exact hBefore.after_end
        (hEnd'.pushedTo_nil hEnded hMore.symm)
        (hEnd'.gone k hEnded').2
    · rcases hTuned.endings.here k hTuned.accepted hEnded
        with ⟨fd, c, hConn, hLive, hId⟩
      exact hBefore.append ⟨fd, c, hConn, hLive, hId⟩
        (fed_turn hTuned.registry hTuned.history
          (hTuned.tracks (hLess hRoom)) (hAdvances hRoom)
          hListens hConn hLive hId hMore.symm)

/-
  The feed has no gaps, as long as the exchange has ids
  left. From a moment between two turns at which a
  connection listens to an instrument, up to any later one,
  and as long as it has neither turned the feed off nor been
  marked to close in between, by a QUIT or by a line that
  was too long: the prints of the instrument that were
  queued on it are the trades made in it, in order, and all
  of them while the connection lives.
-/
theorem feed_complete
    {s₀ s : Server}
    {fd : Fd}
    {c : Conn}
    {i : Fin 2}
    {given : List Reading}
    {more : List Obs}
    (hSettled : Settled s₀)
    (hTurns : Turns s₀ given s)
    (hRoom : submits (callsOf s.log) < 2 ^ 32)
    (hConn : s₀.conns[fd]? = some c)
    (hSubs : c.subs i = true)
    (hOpen : c.closing = false)
    (hLog : s.log = s₀.log ++ more)
    (hStays : StaysTuned c.ownerId i more) :
    printsIn i (pushedTo c.ownerId more) <+:
        tradesIn i more ∧
    ∀ (fd : Fd) (d : Conn), s.conns[fd]? = some d →
      d.dead = false → d.ownerId = c.ownerId →
        printsIn i (pushedTo c.ownerId more) =
          tradesIn i more := by
  rcases hSettled.invariant Endings endings_init
      (fun s s' _ hReg _ hEnd hTurn => by
        have hBoth :=
          (hTurn.acts hReg).invariant
            (fun s => Registry s ∧ Endings s)
            (fun _ _ hInv hAct =>
              ⟨hInv.1.act hAct, hInv.2.act hInv.1 hAct⟩)
            ⟨hReg, hEnd⟩
        exact hBoth.2)
    with ⟨hReg, hHist, hEnd⟩
  have hStart : Tuned s₀ c.ownerId i s₀ :=
    { registry := hReg
      history := hHist
      endings := hEnd
      accepted := hHist.owner_accepted hConn
      tracks := fun hRoom => (hSettled.tracks hRoom).2.2
      fed := by
        intro _
        refine ⟨[], (List.append_nil _).symm, ?_⟩
        intro _
        refine ⟨⟨(hReg.owner_range fd c hConn).2, ?_⟩,
          List.prefix_refl _, fun _ _ _ _ _ => rfl⟩
        intro f d hd hId
        have hSame : f = fd :=
          hReg.owner_unique f fd d c hd hConn hId
        subst hSame
        rw [hConn] at hd
        injection hd with hd
        subst hd
        exact ⟨hSubs, hOpen⟩ }
  have hTuned : Tuned s₀ c.ownerId i s :=
    hTurns.keeps (Tuned s₀ c.ownerId i)
      (fun _ _ _ hTuned hTurn => hTuned.turn hTurn) hStart
  rcases hTuned.fed hRoom with ⟨fs, hLog', hFed⟩
  have hSame : more = fs :=
    List.append_cancel_left (hLog.symm.trans hLog')
  subst hSame
  rcases hFed hStays with ⟨_, hFirst, hAll⟩
  exact ⟨hFirst, hAll⟩

/- A subscriber, and two traders who are not in yet. -/
def tunedSteps : List Step :=
  [.connects 5, .connects 6, .connects 7,
    .reads 5
      [.data ⟨ascii "SUBSCRIBE JNST\n", by decide,
        by decide⟩]
      (fun _ => [])]

def tuned : Server :=
  Machine.run step listening tunedSteps

/- What the two traders do then. -/
def dealingSteps : List Step :=
  [.reads 6
      [.data ⟨ascii "LOGIN fay\nSELL JNST 5 100\n",
        by decide, by decide⟩]
      (fun _ => []),
    .reads 7
      [.data ⟨ascii "LOGIN gil\nBUY JNST 3 100\n",
        by decide, by decide⟩]
      (fun _ => [])]

def tunedListener : Conn :=
  (tuned.conns[(5 : Fd)]?).get (by decide)

def dealt : Server :=
  Machine.run step tuned dealingSteps

/- What the history of the dealings adds. -/
def dealtMore : List Obs :=
  dealt.log.drop tuned.log.length

theorem tuned_reachable : Reachable tuned := by
  refine ⟨3, _, tunedSteps, ?_, rfl⟩
  exact ⟨fun _ => ⟨by decide, by decide, trivial⟩,
    fun _ => ⟨by decide, by decide, trivial⟩,
    fun _ => ⟨by decide, by decide, trivial⟩,
    fun h => absurd h (by decide), trivial⟩

/- The subscriber saw the one trade. -/
theorem feed_complete_dealing :
    printsIn 0 (pushedTo 1 dealtMore) <+:
      [⟨0, 3, 100, 3, 2⟩] := by
  have hTurns :
      Turns tuned (tuned.readings dealingSteps) dealt :=
    run_turns tuned_reachable.registry
      ⟨fun h => absurd h (by decide),
        fun h => absurd h (by decide), trivial⟩
  have hConn :
      tuned.conns[(5 : Fd)]? = some tunedListener :=
    (Option.some_get _).symm
  have hMore : dealt.log = tuned.log ++ dealtMore := by
    decide
  have hStays : StaysTuned tunedListener.ownerId 0 dealtMore :=
    ⟨by decide, by decide⟩
  have hFeed :=
    feed_complete tuned_reachable.settled hTurns
      (by decide) hConn (by decide) (by decide) hMore hStays
  have hTrades :
      tradesIn 0 dealtMore = [⟨0, 3, 100, 3, 2⟩] := by
    decide
  rw [← hTrades]
  exact hFeed.1

end Server

end SocketExchange

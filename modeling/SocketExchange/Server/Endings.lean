import SocketExchange.Server.Notification

/-
  The end of a connection is the end.

  Once a connection has been closed, its owner id is heard
  of no more: no line of it is handled, nothing is done for
  it, nothing is queued or sent on it, and it is not closed
  again. The one thing that may still be written down is the
  mark that the handler of an overlong line puts on a
  connection that its own refusal has just ended.

  Main declarations:
    * `Server.Gone`
    * `Server.Endings`
    * `Server.Endings.act`
    * `Server.silent_after_end`
-/

------------------------------------------------------------
-- Gone
------------------------------------------------------------

namespace SocketExchange

/- The connection of this owner id has been closed. -/
def Ended (k : Int) (log : List Obs) : Prop :=
  ∃ why left, .closed k why left ∈ log

/- What may still be said about a connection. -/
def SilentAfterEnd (pre : List Obs) (e : Obs) : Prop :=
  ∀ k, e.owner? = some k → Ended k pre → e = .closing k

/- The entry is no end. -/
def Obs.Lasting : Obs → Prop
| .closed _ _ _ => False
| _ => True

theorem Ended.append
    {k : Int}
    {log more : List Obs} :
    Ended k (log ++ more) ↔ Ended k log ∨ Ended k more := by
  simp only [Ended, List.mem_append, exists_or]

theorem not_ended_of_lasting
    {k : Int}
    {log : List Obs}
    (hLasting : ∀ e ∈ log, e.Lasting) :
    ¬ Ended k log := by
  rintro ⟨why, left, hMem⟩
  exact hLasting _ hMem

theorem Ended.about
    {k owner : Int}
    {es : List Obs}
    (hEnded : Ended k es)
    (hAbout : ∀ e ∈ es, e.owner? = some owner) :
    k = owner := by
  rcases hEnded with ⟨why, left, hMem⟩
  exact Option.some.inj (hAbout _ hMem)

/- A flush accepts nobody. -/
theorem OutputTail.accepts_none
    {owner : Int}
    {closing dead : Bool}
    {es : List Obs}
    (hTail : OutputTail owner closing dead es) :
    acceptedOwners es = [] := by
  cases hTail <;> simp [acceptedOwners]

/- The end, if there is one, is the last entry of a flush. -/
theorem OutputTail.ends_last
    {owner : Int}
    {closing dead : Bool}
    {es : List Obs}
    (hTail : OutputTail owner closing dead es) :
    (∀ e ∈ es.dropLast, e.Lasting) ∧ es ≠ [] ∧
      (Ended owner es ↔ dead = true) := by
  cases hTail with
  | alive wire => simp [Ended]
  | failed wire left => simp [Ended, Obs.Lasting]
  | drained wire hClosing => simp [Ended, Obs.Lasting]
  | backlog => simp [Ended]

namespace Server

/- No live connection has this owner id. -/
def Gone (s : Server) (owner : Int) : Prop :=
  ∀ (fd : Fd) (c : Conn), s.conns[fd]? = some c →
    c.ownerId = owner → c.dead = true

variable {G : Guard} {s s' : Server} {fd : Fd}
variable {c c' : Conn} {k : Int} {es : List Obs}

/- Nobody comes back to life. -/
theorem Gone.back
    (hGone : Gone s k)
    (hBack :
      ∀ (f : Fd) (d : Conn), s'.conns[f]? = some d →
        ∃ e, s.conns[f]? = some e ∧
          d.ownerId = e.ownerId ∧
          (e.dead = true → d.dead = true)) :
    Gone s' k := by
  intro f d hd hOwner
  rcases hBack f d hd with ⟨e, he, hSame, hDead⟩
  exact hDead (hGone f e he (hSame ▸ hOwner))

/- Whoever is live is not gone. -/
theorem Gone.not_live
    (hGone : Gone s k)
    (hConn : s.conns[fd]? = some c)
    (hLive : c.dead = false) :
    c.ownerId ≠ k := by
  intro hOwner
  rw [hGone fd c hConn hOwner] at hLive
  cases hLive

end Server

end SocketExchange

------------------------------------------------------------
-- Every Action Respects The End
------------------------------------------------------------

namespace SocketExchange

namespace Server

/-
  Whoever has ended is gone, and nothing is said of it;
  everyone else is here.
-/
structure Endings (s : Server) : Prop where
  gone :
    ∀ k, Ended k s.log → k < s.nextOwner ∧ Gone s k
  here :
    ∀ k ∈ acceptedOwners s.log, ¬ Ended k s.log →
      ∃ (fd : Fd) (c : Conn), s.conns[fd]? = some c ∧
        c.dead = false ∧ c.ownerId = k
  traced : Traced SilentAfterEnd s.log

theorem endings_init (lfd : Fd) (env : Env) :
    Endings (init lfd env) where
  gone := by
    rintro k ⟨why, left, hMem⟩
    cases hMem
  here := by
    intro k hk
    cases hk
  traced := Traced.nil

variable {G : Guard} {s s' : Server} {fd : Fd}
variable {c c' : Conn} {es : List Obs}

/- Entries about one live connection, whose end is last. -/
theorem Endings.extend
    (hReg : Registry s)
    (hEnd : Endings s)
    (hConn : s.conns[fd]? = some c)
    (hLive : c.dead = false)
    (hConns : s'.conns = s.conns.insert fd c')
    (hOwner : c'.ownerId = c.ownerId)
    (hNext : s'.nextOwner = s.nextOwner)
    (hLog : s'.log = s.log ++ es)
    (hAbout : ∀ e ∈ es, e.owner? = some c.ownerId)
    (hNone : acceptedOwners es = [])
    (hLast : ∀ e ∈ es.dropLast, e.Lasting)
    (hDead : Ended c.ownerId es ↔ c'.dead = true) :
    Endings s' where
  gone := by
    intro k hEnded
    rw [hLog] at hEnded
    rw [hNext]
    rcases Ended.append.mp hEnded with hOld | hNew
    · rcases hEnd.gone k hOld with ⟨hLt, hGone⟩
      refine ⟨hLt, ?_⟩
      intro f d hd hId
      rcases conn_of_insert hConns hd with
        ⟨rfl, rfl⟩ | ⟨_, hBefore⟩
      · exact absurd (hOwner.symm.trans hId)
          (hGone.not_live hConn hLive)
      · exact hGone f d hBefore hId
    · -- The connection of these entries has just ended.
      have hIs := hNew.about hAbout
      refine ⟨hIs ▸ (hReg.owner_range fd c hConn).2, ?_⟩
      intro f d hd hId
      rcases conn_of_insert hConns hd with
        ⟨rfl, rfl⟩ | ⟨hNe, hBefore⟩
      · exact hDead.mp (hIs ▸ hNew)
      · exact absurd
          (hReg.owner_unique f fd d c hBefore hConn
            (hId.trans hIs)) hNe
  here := by
    intro k hk hNot
    rw [hLog, Ended.append, not_or] at hNot
    rw [hLog, acceptedOwners_append, hNone,
      List.append_nil] at hk
    rcases hEnd.here k hk hNot.1 with ⟨f, d, hd, hAlive, hId⟩
    by_cases hEq : f = fd
    · subst hEq
      rw [hConn] at hd
      injection hd with hd
      subst hd
      refine ⟨f, c', ?_, ?_, hOwner.trans hId⟩
      · rw [getElem?_of_insert hConns, if_pos rfl]
      · rw [Bool.eq_false_iff, ne_eq, ← hDead, hId]
        exact hNot.2
    · refine ⟨f, d, ?_, hAlive, hId⟩
      rw [getElem?_of_insert hConns, if_neg hEq, hd]
  traced := by
    rw [hLog]
    refine hEnd.traced.append ?_
    intro pre e post hSplit k hIs hEnded
    have hMem : e ∈ es := by
      rw [hSplit]
      simp
    have hK : c.ownerId = k :=
      Option.some.inj ((hAbout e hMem).symm.trans hIs)
    rcases Ended.append.mp hEnded with hOld | hNew
    · exact absurd hK
        ((hEnd.gone k hOld).2.not_live hConn hLive)
    · -- No end comes before another entry.
      refine absurd hNew (not_ended_of_lasting ?_)
      intro a ha
      refine hLast a ?_
      rw [hSplit, List.dropLast_append_cons]
      exact List.mem_append_left _ ha

/- One entry about a live connection that is no end. -/
theorem Endings.extend_one
    {e : Obs}
    (hReg : Registry s)
    (hEnd : Endings s)
    (hConn : s.conns[fd]? = some c)
    (hLive : c.dead = false)
    (hConns : s'.conns = s.conns.insert fd c')
    (hOwner : c'.ownerId = c.ownerId)
    (hNext : s'.nextOwner = s.nextOwner)
    (hLog : s'.log = s.log ++ [e])
    (hAbout : e.owner? = some c.ownerId)
    (hNone : acceptedOwners [e] = [])
    (hLasting : e.Lasting)
    (hDead : c'.dead = false) :
    Endings s' := by
  have hNot : ¬ Ended c.ownerId [e] :=
    not_ended_of_lasting
      (List.forall_mem_singleton.mpr hLasting)
  refine hEnd.extend hReg hConn hLive hConns hOwner hNext
    hLog (List.forall_mem_singleton.mpr hAbout) hNone
    (by simp) ?_
  simp [hNot, hDead]

/- Nothing is said of whoever has ended. -/
theorem Endings.others
    (hEnd : Endings s)
    (hNext : s.nextOwner ≤ s'.nextOwner)
    (hLog : s'.log = s.log ++ es)
    (hAbout :
      ∀ e ∈ es, ∀ k, e.owner? = some k →
        k < s.nextOwner → e = .closing k)
    (hLasting : ∀ e ∈ es, e.Lasting)
    (hBack :
      ∀ (f : Fd) (d : Conn), s'.conns[f]? = some d →
        s.nextOwner ≤ d.ownerId ∨
          ∃ e, s.conns[f]? = some e ∧
            d.ownerId = e.ownerId ∧
            (e.dead = true → d.dead = true))
    (hStays :
      ∀ k ∈ acceptedOwners s'.log,
        (k ∈ acceptedOwners s.log ∧
          ∀ (f : Fd) (d : Conn), s.conns[f]? = some d →
            d.dead = false → d.ownerId = k →
              ∃ e, s'.conns[f]? = some e ∧
                e.dead = false ∧ e.ownerId = k) ∨
          ∃ (f : Fd) (d : Conn), s'.conns[f]? = some d ∧
            d.dead = false ∧ d.ownerId = k) :
    Endings s' where
  here := by
    intro k hk hNot
    rw [hLog, Ended.append, not_or] at hNot
    rcases hStays k hk with ⟨hOld, hKept⟩ | hNew
    · rcases hEnd.here k hOld hNot.1 with
        ⟨f, d, hd, hAlive, hId⟩
      rcases hKept f d hd hAlive hId with
        ⟨e, he, hStill, hSame⟩
      exact ⟨f, e, he, hStill, hSame⟩
    · exact hNew
  gone := by
    intro k hEnded
    rw [hLog] at hEnded
    rcases Ended.append.mp hEnded with hOld | hNew
    · rcases hEnd.gone k hOld with ⟨hLt, hGone⟩
      refine ⟨by omega, ?_⟩
      intro f d hd hId
      rcases hBack f d hd with hLate | ⟨e, he, hSame, hDead⟩
      · omega
      · exact hDead (hGone f e he (hSame ▸ hId))
    · exact absurd hNew (not_ended_of_lasting hLasting)
  traced := by
    rw [hLog]
    refine hEnd.traced.append ?_
    intro pre e post hSplit k hIs hEnded
    have hIn : ∀ a ∈ pre, a.Lasting := by
      intro a ha
      refine hLasting a ?_
      rw [hSplit]
      exact List.mem_append_left _ ha
    rcases Ended.append.mp hEnded with hOld | hNew
    · refine hAbout e ?_ k hIs (hEnd.gone k hOld).1
      rw [hSplit]
      simp
    · exact absurd hNew (not_ended_of_lasting hIn)

/- Rewriting a connection that stays as live as it was. -/
theorem Endings.rewrite
    (hEnd : Endings s)
    (hConn : s.conns[fd]? = some c)
    (hConns : s'.conns = s.conns.insert fd c')
    (hOwner : c'.ownerId = c.ownerId)
    (hDead : c'.dead = c.dead)
    (hNext : s'.nextOwner = s.nextOwner)
    (hLog : s'.log = s.log ++ es)
    (hNone : acceptedOwners es = [])
    (hAbout :
      ∀ e ∈ es, ∀ k, e.owner? = some k → e = .closing k)
    (hLasting : ∀ e ∈ es, e.Lasting) :
    Endings s' := by
  refine hEnd.others hNext.ge hLog
    (fun e he k hIs _ => hAbout e he k hIs) hLasting ?_ ?_
  · intro f d hd
    rcases conn_of_insert hConns hd with
      ⟨rfl, rfl⟩ | ⟨_, hOld⟩
    · exact Or.inr ⟨c, hConn, hOwner, hDead.trans⟩
    · exact Or.inr ⟨d, hOld, rfl, id⟩
  · intro k hk
    rw [hLog, acceptedOwners_append, hNone,
      List.append_nil] at hk
    refine Or.inl ⟨hk, ?_⟩
    intro f d hd hAlive hId
    by_cases hEq : f = fd
    · subst hEq
      rw [hConn] at hd
      injection hd with hd
      subst hd
      refine ⟨c', ?_, hDead.trans hAlive, hOwner.trans hId⟩
      rw [getElem?_of_insert hConns, if_pos rfl]
    · refine ⟨d, ?_, hAlive, hId⟩
      rw [getElem?_of_insert hConns, if_neg hEq, hd]

/- A live connection that puts out. -/
theorem Endings.commit
    {p : Port}
    (hReg : Registry s)
    (hEnd : Endings s)
    (hConn : s.conns[fd]? = some c)
    (hLive : c.dead = false)
    (hSame : c.SameIdentity p.conn)
    (hAbout : ∀ e ∈ p.log, e.owner? = some c.ownerId)
    (hNone : acceptedOwners p.log = [])
    (hLast : ∀ e ∈ p.log.dropLast, e.Lasting)
    (hDead : Ended c.ownerId p.log ↔ p.conn.dead = true) :
    Endings (s.commit fd p) :=
  hEnd.extend hReg hConn hLive (commit_conns s fd p)
    hSame.ownerId (commit_nextOwner s fd p)
    (commit_log s fd p) hAbout hNone hLast hDead

theorem Endings.serve
    {G : Guard}
    (hReg : Registry s)
    (hEnd : Endings s)
    (hServe : Serve G s s') :
    Endings s' := by
  cases hServe with
  | @queue fd c m hConn hLive _ _ _ =>
      rcases Port.queue_tail (Port.ofConn s c) m hLive with
        ⟨es, hLog, hTail⟩
      have hPort :
          ((Port.ofConn s c).queue m).log =
            .queued c.ownerId m :: es := hLog
      have hNone := hTail.accepts_none
      rcases OutputTail.ends_last hTail with
        ⟨hLast, hSome, hDead⟩
      refine hEnd.commit hReg hConn hLive
        (Port.queue_same (Port.ofConn s c) m)
        ((Port.output_queue m).about _ hLive rfl) ?_ ?_ ?_
      · rw [hPort]
        simpa [acceptedOwners] using hNone
      · rw [hPort, List.dropLast_cons_of_ne_nil hSome]
        exact List.forall_mem_cons.mpr ⟨trivial, hLast⟩
      · rw [hPort, ← hDead]
        simp [Ended, Port.ofConn]
  | @flush fd c hConn hLive =>
      rcases Port.flush_tail (Port.ofConn s c) hLive with
        ⟨es, hLog, hTail⟩
      have hPort : (Port.ofConn s c).flush.log = es := hLog
      have hNone := hTail.accepts_none
      rcases OutputTail.ends_last hTail with
        ⟨hLast, _, hDead⟩
      refine hEnd.commit hReg hConn hLive
        (Port.flush_same (Port.ofConn s c))
        (Port.output_flush.about _ hLive rfl) ?_ ?_ ?_
      · rw [hPort]
        exact hNone
      · rw [hPort]
        exact hLast
      · rw [hPort]
        exact hDead
  | @closing fd c hConn =>
      refine hEnd.rewrite hConn rfl rfl rfl rfl
        rfl rfl ?_ (List.forall_mem_singleton.mpr trivial)
      intro e he k hIs
      rw [List.mem_singleton.mp he] at hIs ⊢
      rw [Option.some.inj hIs]
  | line hConn hLive _ _ =>
      exact hEnd.extend_one hReg hConn hLive
        (insert_getElem?_self hConn).symm rfl rfl rfl rfl
        rfl trivial hLive
  | overlong hConn hLive _ =>
      exact hEnd.extend_one hReg hConn hLive
        (insert_getElem?_self hConn).symm rfl rfl rfl rfl
        rfl trivial hLive
  | login hConn hLive _ _ _ _ =>
      exact hEnd.extend_one hReg hConn hLive rfl rfl rfl rfl
        rfl rfl trivial hLive
  | subscribe hConn hLive _ _ _ _ =>
      exact hEnd.extend_one hReg hConn hLive rfl rfl rfl rfl
        rfl rfl trivial hLive
  | call hConn hLive _ _ _ _ _ =>
      exact hEnd.extend_one hReg hConn hLive
        (insert_getElem?_self hConn).symm rfl rfl rfl rfl
        rfl trivial hLive

theorem Endings.act
    {G : Guard}
    (hReg : Registry s)
    (hEnd : Endings s)
    (hAct : Act G s s') :
    Endings s' := by
  have hEmpty : s.log = s.log ++ [] :=
    (List.append_nil _).symm
  cases hAct with
  | serve hServe => exact hEnd.serve hReg hServe
  | @close fd c hConn hLive why _ =>
      refine hEnd.commit hReg hConn hLive
        (Port.close_same (Port.ofConn s c) why)
        ((Port.output_close why).about _ hLive rfl) rfl ?_
        ?_
      · simp [Port.close, Port.ofConn]
      · simp [Port.close, Port.ofConn, Ended]
  | @input fd c hConn _ =>
      exact hEnd.rewrite hConn rfl rfl rfl rfl
        hEmpty rfl (List.forall_mem_nil _)
        (List.forall_mem_nil _)
  | @accept cfd hFresh _ =>
      have hNone := hReg.none_of_fresh hFresh
      have hConns := acceptConn_conns hNone
      have hMore :
          s.nextOwner ≤ (s.acceptConn cfd).nextOwner := by
        change s.nextOwner ≤ s.nextOwner + 1
        omega
      refine hEnd.others hMore rfl ?_ ?_ ?_ ?_
      · intro e he k hIs hLt
        rw [List.mem_singleton.mp he] at hIs
        have hK : s.nextOwner = k := Option.some.inj hIs
        omega
      · exact List.forall_mem_singleton.mpr trivial
      · intro f d hd
        rcases conn_of_insert hConns hd
          with ⟨_, rfl⟩ | ⟨_, hOld⟩
        · exact Or.inl (le_refl _)
        · exact Or.inr ⟨d, hOld, rfl, id⟩
      · intro k hk
        have hSplit :
            k ∈ acceptedOwners s.log ∨ k = s.nextOwner := by
          simpa [acceptConn, acceptedOwners] using hk
        rcases hSplit with hOld | rfl
        · refine Or.inl ⟨hOld, ?_⟩
          intro f d hd hAlive hId
          have hNe : f ≠ cfd := by
            rintro rfl
            rw [hNone] at hd
            cases hd
          refine ⟨d, ?_, hAlive, hId⟩
          rw [getElem?_of_insert hConns, if_neg hNe, hd]
        · refine Or.inr
            ⟨cfd, Conn.fresh cfd s.nextOwner, ?_, rfl, rfl⟩
          rw [getElem?_of_insert hConns, if_pos rfl]
  | reap =>
      refine hEnd.others (reap_nextOwner s).ge (reap_log s)
        ?_ ?_ ?_ ?_
      · intro e he k hIs _
        rcases List.mem_map.mp he with ⟨_, _, rfl⟩
        cases hIs
      · intro e he
        rcases List.mem_map.mp he with ⟨_, _, rfl⟩
        trivial
      · intro f d hd
        exact Or.inr ⟨d, conn_of_reap s hd, rfl, id⟩
      · intro k hk
        have hOld : k ∈ acceptedOwners s.log := by
          rw [reap_log, acceptedOwners_append] at hk
          simpa [acceptedOwners] using hk
        refine Or.inl ⟨hOld, ?_⟩
        intro f d hd hAlive hId
        exact ⟨d, (hReg.toWaiting.conn_reap_iff f d).mpr
          ⟨hd, hAlive⟩, hAlive, hId⟩
  | answers _ =>
      exact hEnd.others (le_refl _) hEmpty
        (List.forall_mem_nil _) (List.forall_mem_nil _)
        (fun _ d hd => Or.inr ⟨d, hd, rfl, id⟩)
        (fun _ hk => Or.inl ⟨hk,
          fun _ d hd hAlive hId => ⟨d, hd, hAlive, hId⟩⟩)

theorem Passed.endings
    (hPassed : Passed s) :
    Endings s := by
  rcases hPassed with ⟨lfd, env, hActs⟩
  have hBoth :
      Registry s ∧ Endings s :=
    hActs.invariant (fun s => Registry s ∧ Endings s)
      (fun _ _ hInv hAct =>
        ⟨hInv.1.act hAct, hInv.2.act hInv.1 hAct⟩)
      ⟨registry_init lfd env, endings_init lfd env⟩
  exact hBoth.2

/-
  A connection ends once, at any point of any run: one that
  was accepted is live exactly as long as its end is not in
  the history, and after its end no line, no reply, no byte
  sent and no second end of it are.
-/
theorem silent_after_end
    (hPassed : Passed s) :
    (∀ k ∈ acceptedOwners s.log,
      (∃ (fd : Fd) (c : Conn), s.conns[fd]? = some c ∧
        c.dead = false ∧ c.ownerId = k) ↔
          ¬ ∃ why left, .closed k why left ∈ s.log) ∧
    ∀ pre k why left post,
      s.log = pre ++ .closed k why left :: post →
        ∀ e ∈ post, e.owner? = some k → e = .closing k := by
  have hEndings := hPassed.endings
  constructor
  · intro k hk
    constructor
    · rintro ⟨fd, c, hConn, hLive, hId⟩ hEnded
      exact (hEndings.gone k hEnded).2.not_live hConn hLive
        hId
    · exact hEndings.here k hk
  · intro pre k why left post hEnd e he hIs
    rcases List.append_of_mem he with
      ⟨before, after, hSplit⟩
    refine hEndings.traced
      (pre ++ .closed k why left :: before) e after ?_ k hIs
      ⟨why, left, by simp⟩
    rw [hEnd, hSplit]
    simp

/- A trader logs in and quits; its place is taken. -/
def departingSteps : List Step :=
  [.connects 5,
    .reads 5
      [.data ⟨ascii "LOGIN ann\nQUIT\n", by decide,
        by decide⟩]
      (fun _ => [.sent 3]),
    .connects 6]

def departingTrader : Server :=
  Machine.run step listening departingSteps

theorem departingTrader_passed : Passed departingTrader := by
  have hReach : Reachable departingTrader := by
    refine ⟨3, _, departingSteps, ?_, rfl⟩
    exact ⟨fun _ => ⟨by decide, by decide, trivial⟩,
      fun h => absurd h (by decide),
      fun _ => ⟨by decide, by decide, trivial⟩, trivial⟩
  exact hReach.passed

theorem silent_after_end_departing :
    ¬ ∃ (fd : Fd) (c : Conn),
      departingTrader.conns[fd]? = some c ∧
        c.dead = false ∧ c.ownerId = 1 := by
  have hFirst : 1 ∈ acceptedOwners departingTrader.log := by
    decide
  have hEnded :
      Obs.closed 1 .drained 0 ∈ departingTrader.log := by
    decide
  rw [(silent_after_end departingTrader_passed).1 1 hFirst]
  exact fun hNot => hNot ⟨.drained, 0, hEnded⟩

end Server

end SocketExchange

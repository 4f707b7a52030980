import SocketExchange.Lists.Traced
import SocketExchange.Server.Handlers

/-
  The life of a descriptor.

  A descriptor is open from the `accept` that returned it to
  the `close` in `reap`. While the events of one batch are
  handled none is closed, so a number that an event names
  still stands for the connection that it stood for when the
  batch was returned, dead or alive.

  Main declarations:
    * `openAfter`, `Alternates`
    * `Server.Doors`
    * `Server.EmplacesAll`
    * `Server.batch_keeps`
    * `Server.descriptors_sound`
-/

------------------------------------------------------------
-- Open Descriptors In The History
------------------------------------------------------------

namespace SocketExchange

/- What an entry makes of a descriptor. -/
def Obs.turns (fd : Fd) (isOpen : Bool) : Obs → Bool
| .accepted f _ => if f = fd then true else isOpen
| .released f => if f = fd then false else isOpen
| _ => isOpen

/- The descriptor is open after these entries. -/
def openAfter (fd : Fd) (log : List Obs) : Bool :=
  log.foldl (Obs.turns fd) false

/- Descriptors are opened when closed, closed when open. -/
def Alternates (pre : List Obs) : Obs → Prop
| .accepted fd _ => openAfter fd pre = false
| .released fd => openAfter fd pre = true
| _ => True

/- How often the descriptor was accepted. -/
def acceptsOf (fd : Fd) (log : List Obs) : Nat :=
  log.countP fun
    | .accepted f _ => f = fd
    | _ => false

/- How often the descriptor was closed. -/
def releasesOf (fd : Fd) (log : List Obs) : Nat :=
  log.countP fun
    | .released f => f = fd
    | _ => false

/- Neither opens nor closes a descriptor. -/
def Obs.Indoors : Obs → Prop
| .accepted _ _ => False
| .released _ => False
| _ => True

variable {log es : List Obs} {fd : Fd}

theorem openAfter_append :
    openAfter fd (log ++ es) =
      es.foldl (Obs.turns fd) (openAfter fd log) := by
  unfold openAfter
  rw [List.foldl_append]

theorem openAfter_of_indoors
    (hIndoors : ∀ e ∈ es, e.Indoors) :
    openAfter fd (log ++ es) = openAfter fd log := by
  rw [openAfter_append]
  apply Traced.foldl_of_forall
  intro e he isOpen
  cases e with
  | accepted f owner => exact (hIndoors _ he).elim
  | released f => exact (hIndoors _ he).elim
  | _ => rfl

/-
  Accepts and closes of a descriptor come in pairs, but for
  the last accept of one that is open.
-/
theorem acceptsOf_eq
    (hTraced : Traced Alternates log) :
    acceptsOf fd log =
      releasesOf fd log + (openAfter fd log).toNat := by
  refine Traced.induction
    (motive := fun log => acceptsOf fd log =
      releasesOf fd log + (openAfter fd log).toNat)
    rfl ?_ hTraced
  intro log e _ ih hAlt
  unfold acceptsOf releasesOf at ih ⊢
  rw [List.countP_append, List.countP_append,
    openAfter_append, ih]
  cases e with
  | accepted f owner =>
      by_cases hSame : f = fd
      · subst hSame
        change openAfter f log = false at hAlt
        simp [Obs.turns, hAlt]
      · simp [Obs.turns, hSame]
  | released f =>
      by_cases hSame : f = fd
      · subst hSame
        change openAfter f log = true at hAlt
        simp [Obs.turns, hAlt]
      · simp [Obs.turns, hSame]
  | _ => simp [Obs.turns]

/- Closing descriptors that are open, each once. -/
theorem alternates_released
    {fds : List Fd}
    (hOpen : ∀ f ∈ fds, openAfter f log = true)
    (hNodup : fds.Nodup) :
    Traced (fun pre e => Alternates (log ++ pre) e)
      (fds.map Obs.released) := by
  induction fds generalizing log with
  | nil => exact Traced.nil
  | cons f fds ih =>
      rw [List.nodup_cons] at hNodup
      refine Traced.cons ?_ ?_
      · rw [List.append_nil]
        exact hOpen f List.mem_cons_self
      · have hRest :
            ∀ g ∈ fds,
              openAfter g (log ++ [.released f]) =
                true := by
          intro g hg
          have hOther : f ≠ g := by
            intro hSame
            exact hNodup.1 (hSame ▸ hg)
          rw [openAfter_append]
          simp only [List.foldl_cons, List.foldl_nil,
            Obs.turns, if_neg hOther]
          exact hOpen g (List.mem_cons_of_mem f hg)
        have hNext := ih hRest hNodup.2
        simpa only [List.append_assoc,
          List.singleton_append] using hNext

theorem openAfter_released
    (fds : List Fd) :
    openAfter fd (log ++ fds.map Obs.released) =
      (openAfter fd log && decide (fd ∉ fds)) := by
  rw [openAfter_append]
  induction fds generalizing log with
  | nil => simp
  | cons f fds ih =>
      have hTail := @ih (log ++ [.released f])
      rw [openAfter_append] at hTail
      rw [List.map_cons, List.foldl_cons]
      simp only [List.foldl_cons, List.foldl_nil] at hTail
      rw [hTail]
      by_cases hSame : f = fd
      · simp [Obs.turns, hSame]
      · have hOther : ¬ fd = f := fun h => hSame h.symm
        simp [Obs.turns, hSame, hOther]

end SocketExchange

------------------------------------------------------------
-- Every Action Keeps The Books Of Descriptors
------------------------------------------------------------

namespace SocketExchange

namespace Server

/- The history and the kernel agree on what is open. -/
structure Doors (s : Server) : Prop where
  traced : Traced Alternates s.log
  opened :
    ∀ fd : Fd, fd ∈ s.env.opened ↔
      openAfter fd s.log = true

theorem doors_init (lfd : Fd) (env : Env) :
    Doors (init lfd env) where
  traced := Traced.nil
  opened := by
    intro fd
    simp [init, openAfter]

variable {s s' : Server} {fd : Fd} {c : Conn}

theorem Doors.extend
    {es : List Obs}
    (hDoors : Doors s)
    (hLog : s'.log = s.log ++ es)
    (hIndoors : ∀ e ∈ es, e.Indoors)
    (hOpened : s'.env.opened = s.env.opened) :
    Doors s' where
  traced := by
    rw [hLog]
    refine hDoors.traced.append (Traced.of_forall ?_)
    intro pre e he
    have hIn := hIndoors e he
    cases e with
    | accepted f owner => exact hIn.elim
    | released f => exact hIn.elim
    | _ => trivial
  opened := by
    intro f
    rw [hLog, hOpened, openAfter_of_indoors hIndoors]
    exact hDoors.opened f

theorem Doors.extend_one
    {e : Obs}
    (hDoors : Doors s)
    (hLog : s'.log = s.log ++ [e])
    (hIndoors : e.Indoors)
    (hOpened : s'.env.opened = s.env.opened) :
    Doors s' := by
  refine hDoors.extend hLog ?_ hOpened
  intro a ha
  rw [List.mem_singleton.mp ha]
  exact hIndoors

theorem OutputTail.indoors
    {owner : Int}
    {closing dead : Bool}
    {es : List Obs}
    (hTail : OutputTail owner closing dead es) :
    ∀ e ∈ es, e.Indoors :=
  hTail.forall_mem (fun _ => trivial) (fun _ _ => trivial)

theorem commit_opened
    (s : Server)
    (fd : Fd)
    (p : Port) :
    (s.commit fd p).env.opened = s.env.opened := by
  unfold commit
  split <;> rfl

theorem Doors.serve
    {G : Guard}
    (hDoors : Doors s)
    (hServe : Serve G s s') :
    Doors s' := by
  cases hServe with
  | @queue fd c m _ hLive _ _ _ =>
      rcases queued_log s fd hLive m with ⟨es, hLog, hTail⟩
      refine hDoors.extend hLog ?_ (commit_opened s fd _)
      intro e he
      rcases List.mem_cons.mp he with rfl | hRest
      · trivial
      · exact OutputTail.indoors hTail e hRest
  | @flush fd c _ hLive =>
      rcases flushed_log s fd hLive with ⟨es, hLog, hTail⟩
      exact hDoors.extend hLog
        (OutputTail.indoors hTail) (commit_opened s fd _)
  | closing _ => exact hDoors.extend_one rfl trivial rfl
  | line _ _ _ _ => exact hDoors.extend_one rfl trivial rfl
  | overlong _ _ _ => exact hDoors.extend_one rfl trivial rfl
  | login _ _ _ _ _ _ =>
      exact hDoors.extend_one rfl trivial rfl
  | subscribe _ _ _ _ _ _ =>
      exact hDoors.extend_one rfl trivial rfl
  | call _ _ _ _ _ _ _ =>
      exact hDoors.extend_one rfl trivial rfl

theorem Doors.act
    {G : Guard}
    (hReg : Registry s)
    (hDoors : Doors s)
    (hAct : Act G s s') :
    Doors s' := by
  cases hAct with
  | serve hServe => exact hDoors.serve hServe
  | @close fd c _ _ why _ =>
      exact hDoors.extend_one (commit_log s fd _) trivial
        (commit_opened s fd _)
  | input _ _ =>
      exact hDoors.extend (List.append_nil _).symm
        (fun e he => by cases he) rfl
  | @accept cfd hFresh _ =>
      have hShut : openAfter cfd s.log = false := by
        rw [hDoors.opened, Bool.not_eq_true] at hFresh
        exact hFresh
      constructor
      · refine hDoors.traced.append (Traced.singleton ?_)
        rw [List.append_nil]
        exact hShut
      · intro f
        change f ∈ insert cfd s.env.opened ↔
          openAfter f (s.log ++ [_]) = true
        rw [Finset.mem_insert, openAfter_append,
          hDoors.opened f]
        by_cases hSame : cfd = f
        · simp [Obs.turns, hSame]
        · have hOther : ¬ f = cfd := fun h => hSame h.symm
          simp [Obs.turns, hSame, hOther]
  | reap =>
      have hOpen :
          ∀ f ∈ s.dead, openAfter f s.log = true := by
        intro f hf
        rcases (hReg.dead_iff f).mp hf with ⟨c, hConn, _⟩
        apply (hDoors.opened f).mp
        apply (hReg.opened f).mpr
        simp [hConn]
      constructor
      · rw [reap_log]
        exact hDoors.traced.append
          (alternates_released hOpen hReg.dead_nodup)
      · intro f
        rw [mem_opened_reap, reap_log, openAfter_released,
          hDoors.opened f]
        simp
  | answers _ =>
      exact hDoors.extend (List.append_nil _).symm
        (fun e he => by cases he) rfl

theorem Reachable.doors
    (hReach : Reachable s) :
    Doors s := by
  apply hReach.of_acts Doors doors_init
  intro s s' hReg hDoors hAct
  exact hDoors.act hReg hAct

end Server

end SocketExchange

------------------------------------------------------------
-- Accepting Inserts
------------------------------------------------------------

namespace SocketExchange

namespace Server

/- Every accepted descriptor gets its new connection. -/
def EmplacesAll : List AcceptResult → Server → Prop
| [], _ => True
| .conn cfd :: rs, s =>
    s.conns[cfd]? = none ∧
      (s.acceptConn cfd).conns[cfd]? =
        some (Conn.fresh cfd s.nextOwner) ∧
      EmplacesAll rs (s.acceptConn cfd)
| .eintr :: rs, s => EmplacesAll rs s
| .aborted :: rs, s => EmplacesAll rs s
| .eagain :: _, _ => True
| .outOfFds :: _, _ => True
| .error :: _, _ => True

theorem emplacesAll_of_fresh
    {accepts : List AcceptResult}
    {s : Server}
    (hReg : Registry s)
    (hFresh : AcceptsFresh accepts s) :
    EmplacesAll accepts s := by
  induction accepts generalizing s with
  | nil => trivial
  | cons r rs ih =>
      cases r with
      | conn cfd =>
          rcases hFresh with ⟨hNew, hListen, hRest⟩
          have hAct : Act Guard.none s (s.acceptConn cfd) :=
            .accept hNew hListen
          have hNone := hReg.none_of_fresh hNew
          refine ⟨hNone, ?_, ih (hReg.act hAct) hRest⟩
          rw [acceptConn_conns hNone, getElem?_insert_fd,
            if_pos rfl]
      | eagain => trivial
      | eintr => exact ih hReg hFresh
      | aborted => exact ih hReg hFresh
      | outOfFds => trivial
      | error => trivial

end Server

end SocketExchange

------------------------------------------------------------
-- Within A Batch
------------------------------------------------------------

namespace SocketExchange

namespace Server

variable {G : Guard} {s s' : Server}

theorem Act.lfd
    (hAct : Act G s s') :
    s'.lfd = s.lfd := by
  cases hAct with
  | serve hServe =>
      cases hServe with
      | queue _ _ _ _ _ => exact commit_lfd s _ _
      | flush _ _ => exact commit_lfd s _ _
      | _ => rfl
  | close _ _ _ _ => exact commit_lfd s _ _
  | reap => exact reap_lfd s
  | _ => rfl

theorem Acts.lfd
    (hActs : Acts G s s') :
    s'.lfd = s.lfd := by
  induction hActs with
  | refl => rfl
  | tail _ hLast ih => exact hLast.lfd.trans ih

/- While an event is handled no connection is removed. -/
theorem Move.stays
    (hMove : Move G s s')
    {f : Fd}
    {d : Conn}
    (hd : s.conns[f]? = some d) :
    ∃ d', s'.conns[f]? = some d' ∧
      d'.ownerId = d.ownerId := by
  cases hMove with
  | deed hDeed =>
      rcases hDeed.serves.keeps hd with
        ⟨d', hd', hOwner, _⟩
      exact ⟨d', hd', hOwner⟩
  | @flush fd c hConn hLive =>
      have hServe :
          Serve G s (s.commit fd (Port.ofConn s c).flush) :=
        .flush hConn hLive
      rcases hServe.keeps hd with ⟨d', hd', hOwner, _⟩
      exact ⟨d', hd', hOwner⟩
  | @close fd c hConn _ why _ =>
      have hSame := Port.close_same (Port.ofConn s c) why
      rcases keeps_of_insert hConn (commit_conns s fd _)
          hSame.ownerId hSame.input hd with
        ⟨d', hd', hOwner, _⟩
      exact ⟨d', hd', hOwner⟩
  | @input fd c hConn input =>
      have hConns :
          (s.setConn fd { c with input := input }).conns =
            s.conns.insert fd { c with input := input } :=
        rfl
      rw [hConns, getElem?_insert_fd]
      by_cases hEq : f = fd
      · subst hEq
        rw [hConn] at hd
        injection hd with hd
        subst hd
        exact ⟨_, if_pos rfl, rfl⟩
      · exact ⟨d, by rw [if_neg hEq, hd], rfl⟩
  | @accept cfd _ _ =>
      have hMem : f ∈ s.conns :=
        Std.ExtTreeMap.mem_iff_isSome_getElem?.mpr
          (by rw [hd]; rfl)
      have hOld :
          ¬ (compare cfd f = .eq ∧ cfd ∉ s.conns) := by
        rintro ⟨hEq, hNew⟩
        exact hNew (compare_eq_iff_eq.mp hEq ▸ hMem)
      refine ⟨d, ?_, rfl⟩
      change (s.conns.insertIfNew cfd _)[f]? = some d
      rw [Std.ExtTreeMap.getElem?_insertIfNew, if_neg hOld]
      exact hd
  | answers _ => exact ⟨d, hd, rfl⟩

theorem Moves.stays
    (hMoves : Moves G s s')
    {f : Fd}
    {d : Conn}
    (hd : s.conns[f]? = some d) :
    ∃ d', s'.conns[f]? = some d' ∧
      d'.ownerId = d.ownerId := by
  induction hMoves with
  | refl => exact ⟨d, hd, rfl⟩
  | tail _ hLast ih =>
      rcases ih with ⟨e, he, hOwner⟩
      rcases hLast.stays he with ⟨d', hd', hSame⟩
      exact ⟨d', hd', hSame.trans hOwner⟩

/- The events of a batch, one after another. -/
def eventSteps (batch : List (KEvent × Answers)) : List Step :=
  batch.map fun e => .event e.1 e.2

/- What the first events of a batch leave as it was. -/
theorem batch_keeps
    {batch : List (KEvent × Answers)}
    (hReg : Registry s)
    (hLegal :
      Machine.Permitted step Legal s (eventSteps batch)) :
    (Machine.run step s (eventSteps batch)).lfd = s.lfd ∧
      ∀ (f : Fd) (d : Conn), s.conns[f]? = some d →
        ∃ d',
          (Machine.run step s
              (eventSteps batch)).conns[f]? = some d' ∧
            d'.ownerId = d.ownerId := by
  induction batch generalizing s with
  | nil => exact ⟨rfl, fun f d hd => ⟨d, hd, rfl⟩⟩
  | cons e batch ih =>
      rcases e with ⟨ev, a⟩
      have hMoves :
          Moves Guard.none s (step s (.event ev a)) :=
        event_moves hReg hLegal.1
          (Guard.none_spares s (.event ev a))
      rcases ih (hReg.moves hMoves) hLegal.2 with
        ⟨hListen, hConns⟩
      refine ⟨hListen.trans hMoves.acts.lfd, ?_⟩
      intro f d hd
      rcases hMoves.stays hd with ⟨d₁, hd₁, hOwner₁⟩
      rcases hConns f d₁ hd₁ with ⟨d₂, hd₂, hOwner₂⟩
      exact ⟨d₂, hd₂, hOwner₂.trans hOwner₁⟩

/- An event for a descriptor without a live connection. -/
theorem event_ignored
    {ev : KEvent}
    (hOther : ev.ident ≠ s.lfd)
    (hNone : s.findLive ev.ident = none)
    (a : Answers) :
    step s (.event ev a) = s.withAnswers a := by
  have hOther' : ev.ident ≠ (s.withAnswers a).lfd :=
    hOther
  have hNone' :
      (s.withAnswers a).findLive ev.ident = none :=
    hNone
  unfold step onEvent
  dsimp only
  rw [if_neg hOther']
  cases ev.filter with
  | read =>
      dsimp only
      rw [onReadable, hNone']
  | write =>
      dsimp only
      rw [onWritable, hNone']

end Server

end SocketExchange

------------------------------------------------------------
-- The Life Of A Descriptor
------------------------------------------------------------

namespace SocketExchange

namespace Server

/- One close for each accept, but the last of an open one. -/
theorem Doors.balance
    {s : Server}
    (hDoors : Doors s)
    (fd : Fd) :
    acceptsOf fd s.log =
      releasesOf fd s.log +
        if fd ∈ s.env.opened then 1 else 0 := by
  rw [acceptsOf_eq hDoors.traced]
  by_cases hOpen : fd ∈ s.env.opened
  · rw [if_pos hOpen, (hDoors.opened fd).mp hOpen]
    rfl
  · have hShut : openAfter fd s.log = false := by
      rw [hDoors.opened, Bool.not_eq_true] at hOpen
      exact hOpen
    rw [if_neg hOpen, hShut]
    rfl

/-
  An event that comes after others of its batch is ignored,
  or finds the connection that had the descriptor when the
  batch was returned.
-/
theorem event_after
    {s : Server}
    {before : List (KEvent × Answers)}
    {ev : KEvent}
    (hReg : Registry s)
    (hBefore :
      Machine.Permitted step Legal s (eventSteps before))
    (hOpen : ev.ident ∈ s.env.opened)
    (hOther : ev.ident ≠ s.lfd)
    (a : Answers) :
    let now := Machine.run step s (eventSteps before)
    (now.findLive ev.ident = none ∧
        step now (.event ev a) = now.withAnswers a) ∨
      ∃ c c', s.conns[ev.ident]? = some c ∧
        now.findLive ev.ident = some c' ∧
        c'.ownerId = c.ownerId ∧
        c.ownerId < s.nextOwner := by
  rcases batch_keeps hReg hBefore with ⟨hListen, hConns⟩
  dsimp only
  have hOther' :
      ev.ident ≠
        (Machine.run step s (eventSteps before)).lfd := by
    rw [hListen]
    exact hOther
  cases hFind :
      (Machine.run step s
        (eventSteps before)).findLive ev.ident with
  | none =>
      exact Or.inl ⟨rfl, event_ignored hOther' hFind a⟩
  | some c' =>
      right
      rcases Option.ne_none_iff_exists'.mp
          ((hReg.opened ev.ident).mp hOpen) with
        ⟨c, hConn⟩
      rcases hConns ev.ident c hConn with
        ⟨d, hd, hOwner⟩
      have hNow := (findLive_eq_some_iff.mp hFind).1
      rw [hd] at hNow
      injection hNow with hNow
      subst hNow
      exact ⟨c, d, hConn, rfl, hOwner,
        (hReg.owner_range ev.ident c hConn).2⟩

/-
  A descriptor stands for one connection at a time. In every
  reachable state `conns_` has exactly the open descriptors
  for keys, each with its own connection, and `dead_` lists
  the dead ones, each once, until `reap` empties it. Every
  accepted descriptor is entered. Over the run the accepts
  and the closes of a descriptor alternate, and there is one
  close for each accept but the last of an open one. And
  within a batch of events for descriptors that were open
  when it was returned, of whatever length, an event is
  ignored or finds the connection that had the descriptor
  at that moment.
-/
theorem descriptors_sound
    {s : Server}
    (hReach : Reachable s) :
    (∀ fd : Fd, fd ∈ s.conns ↔ fd ∈ s.env.opened) ∧
    (∀ (fd : Fd) (c : Conn), s.conns[fd]? = some c →
      c.fd = fd) ∧
    (∀ fd : Fd, fd ∈ s.dead ↔
      ∃ c, s.conns[fd]? = some c ∧ c.dead = true) ∧
    s.dead.Nodup ∧
    s.reap.dead = [] ∧
    (∀ ev a, Legal s (.event ev a) → ev.ident = s.lfd →
      EmplacesAll a.accepts (s.withAnswers a)) ∧
    Traced Alternates s.log ∧
    (∀ fd, acceptsOf fd s.log =
      releasesOf fd s.log +
        if fd ∈ s.env.opened then 1 else 0) ∧
    (∀ batch, Machine.Permitted step Legal s
        (batchSteps batch) →
      (∀ e ∈ batch,
        e.1.ident = s.lfd ∨ e.1.ident ∈ s.env.opened) →
      ∀ before ev a after,
        batch = before ++ (ev, a) :: after →
        ev.ident ≠ s.lfd →
        let now := Machine.run step s (eventSteps before)
        (now.findLive ev.ident = none ∧
            step now (.event ev a) = now.withAnswers a) ∨
          ∃ c c', s.conns[ev.ident]? = some c ∧
            now.findLive ev.ident = some c' ∧
            c'.ownerId = c.ownerId ∧
            c.ownerId < s.nextOwner) := by
  have hReg := hReach.registry
  have hDoors := hReach.doors
  refine ⟨?_, hReg.conn_fd, hReg.dead_iff,
    hReg.dead_nodup, rfl, ?_, hDoors.traced,
    hDoors.balance, ?_⟩
  · intro fd
    rw [hReg.opened fd]
    simp
  · intro ev a hLegal hListen
    exact emplacesAll_of_fresh (hReg.withAnswers a)
      ((hLegal hListen).withAnswers a)
  · intro batch hLegal hIdents before ev a after hBatch
      hOther
    have hSteps :
        batchSteps batch =
          eventSteps before ++
            (.event ev a ::
              eventSteps after ++ [.reap]) := by
      simp [batchSteps, eventSteps, hBatch]
    rw [hSteps] at hLegal
    have hBefore := (Machine.permitted_append.mp hLegal).1
    have hMem : (ev, a) ∈ batch := by
      rw [hBatch]
      exact List.mem_append_right _ List.mem_cons_self
    have hOpen : ev.ident ∈ s.env.opened :=
      (hIdents _ hMem).resolve_left hOther
    exact event_after hReg hBefore hOpen hOther a

/- A client quits and is replaced on the same descriptor. -/
def reuseSteps : List Step :=
  [.connects 5,
    .reads 5
      [.data ⟨ascii "QUIT\n", by decide, by decide⟩]
      (fun _ => [.eagain]),
    .reap, .connects 5]

theorem reuseSteps_legal :
    Machine.Permitted step Legal listening reuseSteps := by
  refine ⟨fun _ => ⟨by decide, by decide, trivial⟩,
    fun h => absurd h (by decide), trivial,
    fun _ => ⟨by decide, by decide, trivial⟩, trivial⟩

/- It was accepted twice and closed once. -/
theorem descriptors_sound_reuse :
    acceptsOf 5
        (Machine.run step listening reuseSteps).log =
      releasesOf 5
        (Machine.run step listening reuseSteps).log + 1 := by
  have hOpen :
      (5 : Fd) ∈
        (Machine.run step listening
          reuseSteps).env.opened := by
    decide
  have hReach :
      Reachable (Machine.run step listening reuseSteps) :=
    ⟨3, _, reuseSteps, reuseSteps_legal, rfl⟩
  have hSound :=
    (descriptors_sound hReach).2.2.2.2.2.2.2.1 5
  rw [if_pos hOpen] at hSound
  exact hSound

end Server

end SocketExchange

import SocketExchange.Server.Noninterference

/-
  The order in which `conns_` is walked does not matter.

  `publish` walks a hash map, and the order it meets the
  connections in is the library's own. Two runs with the
  same events and the same answers of the kernel, in which
  the map is walked in different orders, end in the same
  state: a message meant for a connection goes to it in
  either order, and the connections share nothing that one
  could use up before the other.

  The argument is the one about a bystander, for a
  connection that does not exist: no owner id is zero.

  Main declarations:
    * `Step.unordered`
    * `Server.Twins`
    * `Server.Twins.step`
    * `Server.walk_order_unseen`
-/

------------------------------------------------------------
-- Twins
------------------------------------------------------------

namespace SocketExchange

/- A step without the iteration order. -/
def Step.unordered : Step → Step
| .event ev a => .event ev { a with order := .sorted }
| .reap => .reap

namespace Server

/- Two servers that agree on every connection. -/
structure Twins (s t : Server) : Prop where
  alike : Alike 0 s t
  left : History s
  right : History t

variable {s t : Server} {fd : Fd} {c : Conn}

/- No connection has the owner id zero. -/
theorem Registry.owner_ne_zero
    (hReg : Registry s)
    (hConn : s.conns[fd]? = some c) :
    c.ownerId ≠ 0 := by
  have hRange := (hReg.owner_range fd c hConn).1
  omega

namespace Twins

theorem symm
    (hTwins : Twins s t) :
    Twins t s :=
  ⟨hTwins.alike.symm, hTwins.right, hTwins.left⟩

theorem books
    (hTwins : Twins s t) :
    SameBooks s t := by
  have hBooks := (Agree.apart hTwins.alike).books
  exact hBooks.both ⟨rfl, rfl, rfl⟩ ⟨rfl, rfl, rfl⟩

theorem conns
    (hTwins : Twins s t) :
    t.conns = s.conns := by
  have hHalf :
      ∀ {a b : Server}, Twins a b →
        ∀ (fd : Fd) (c : Conn), a.conns[fd]? = some c →
          b.conns[fd]? = some c := by
    intro a b hTwins fd c hConn
    have hReg := hTwins.alike.registry
    exact hTwins.alike.conn hConn
      (hReg.owner_ne_zero hConn)
  ext1 fd
  apply Option.ext
  intro c
  exact ⟨hHalf hTwins.symm fd c, hHalf hTwins fd c⟩

theorem opened
    (hTwins : Twins s t) :
    t.env.opened = s.env.opened := by
  have hLeft := hTwins.alike.registry
  have hRight := hTwins.alike.symm.registry
  ext fd
  rw [hRight.opened, hLeft.opened, hTwins.conns]

/- The dead wait in either order. -/
theorem dead
    (hTwins : Twins s t) :
    t.dead.Perm s.dead := by
  have hLeft := hTwins.alike.registry
  have hRight := hTwins.alike.symm.registry
  rw [List.perm_ext_iff_of_nodup hRight.dead_nodup
    hLeft.dead_nodup]
  intro fd
  rw [hRight.dead_iff, hLeft.dead_iff, hTwins.conns]

theorem usernames
    (hTwins : Twins s t) :
    t.usernames = s.usernames := by
  have hNames := Agree.usernames hTwins.alike
  exact hNames

theorem ownerFd
    (hTwins : Twins s t) :
    t.ownerFd = s.ownerFd := by
  have hOwners := Agree.ownerFd hTwins.alike
  exact hOwners

/- A connection has the same history in both. -/
theorem sameLog
    (hTwins : Twins s t)
    (hConn : s.conns[fd]? = some c) :
    logOf c.ownerId t.log = logOf c.ownerId s.log := by
  have hOther :=
    hTwins.alike.registry.owner_ne_zero hConn
  have hPort := Agree.port hTwins.alike hConn hOther
  rw [port?_of_conn (Agree.conn hTwins.alike hConn hOther)]
    at hPort
  injection hPort with hPort
  injection hPort

end Twins

end Server

end SocketExchange

------------------------------------------------------------
-- Steps In Two Orders
------------------------------------------------------------

namespace SocketExchange

namespace Server

variable {s t : Server}

/- What `accept` may return depends on what is open. -/
theorem AcceptsFresh.of_opened
    {accepts : List AcceptResult}
    (hLfd : t.lfd = s.lfd)
    (hOpened : t.env.opened = s.env.opened)
    (hFresh : AcceptsFresh accepts s) :
    AcceptsFresh accepts t := by
  induction accepts generalizing s t with
  | nil => trivial
  | cons r rs ih =>
      cases r with
      | conn cfd =>
          rcases hFresh with ⟨hNew, hNot, hLater⟩
          refine ⟨hOpened ▸ hNew, hLfd ▸ hNot, ?_⟩
          refine ih (s := s.acceptConn cfd) hLfd ?_ hLater
          simp only [acceptConn, hOpened]
      | eintr => exact ih hLfd hOpened hFresh
      | aborted => exact ih hLfd hOpened hFresh
      | eagain => trivial
      | outOfFds => trivial
      | error => trivial

/- The history of a state the server steps to. -/
theorem History.step
    (hHist : History s)
    (hReg : Registry s)
    {i : Step}
    (hLegal : Legal s i) :
    History (step s i) := by
  have hActs :=
    step_acts hReg hLegal (Guard.none_spares s i)
  refine (Acts.invariant
    (fun s => Registry s ∧ History s) ?_ hActs
    ⟨hReg, hHist⟩).2
  rintro a b ⟨hReg, hHist⟩ hAct
  exact ⟨hReg.act hAct, hHist.act hReg hAct⟩

/- An event for a descriptor that has no connection. -/
theorem step_of_absent
    {ev : KEvent}
    (a : Answers)
    (hListen : ev.ident ≠ s.lfd)
    (hNone : s.conns[ev.ident]? = none) :
    step s (.event ev a) = s.withAnswers a := by
  unfold step onEvent
  dsimp only [withAnswers]
  rw [if_neg hListen]
  unfold onReadable onWritable findLive
  dsimp only
  rw [hNone]
  cases ev.filter <;> rfl

namespace Twins

/- The same event, with the connections in another order. -/
theorem event
    (hTwins : Twins s t)
    {ev : KEvent}
    {a b : Answers}
    (hAccepts : b.accepts = a.accepts)
    (hRecvs : b.recvs = a.recvs)
    (hSends : b.sends = a.sends)
    (hLegal : Legal s (.event ev a))
    (hLegal' : Legal t (.event ev b)) :
    Alike 0 (Server.step s (.event ev a))
      (Server.step t (.event ev b)) := by
  have hAnswers :
      Agree 0 (s.withAnswers a) (t.withAnswers b) :=
    hTwins.alike.answers fun f _ => congrFun hSends f
  have hLfd := hTwins.books.lfd
  by_cases hListen : ev.ident = s.lfd
  · have hListen' : ev.ident = t.lfd := hLfd ▸ hListen
    refine seen_alike (v := .accepts a.accepts)
      hTwins.alike hTwins.left hTwins.right hLegal hLegal'
      ?_ ?_
    · simp only [view, if_pos hListen]
    · simp only [view, if_pos hListen', hAccepts]
  · cases hConn : s.conns[ev.ident]? with
    | none =>
        have hListen' : ev.ident ≠ t.lfd :=
          fun h => hListen (h.trans hLfd)
        have hConn' : t.conns[ev.ident]? = none := by
          rw [hTwins.conns, hConn]
        rw [step_of_absent a hListen hConn,
          step_of_absent b hListen' hConn']
        exact hAnswers.alike
    | some c =>
        have hReg := hTwins.alike.registry
        exact (hAnswers.event hRecvs hConn
          (hReg.owner_ne_zero hConn) hListen).alike

theorem reap
    (hTwins : Twins s t) :
    Alike 0 s.reap t.reap := by
  have hBoth := Agree.reap hTwins.alike
  rw [reap_withAnswers, reap_withAnswers] at hBoth
  exact hBoth

/- Twins stay twins, and the kernel keeps its word. -/
theorem step
    (hTwins : Twins s t)
    {i j : Step}
    (hSame : i.unordered = j.unordered)
    (hLegal : Legal s i) :
    Legal t j ∧
      Twins (Server.step s i) (Server.step t j) := by
  have hFollows :
      Legal t j ∧
        Alike 0 (Server.step s i) (Server.step t j) := by
    cases i with
    | reap =>
        cases j with
        | reap => exact ⟨trivial, hTwins.reap⟩
        | event ev b => cases hSame
    | event ev a =>
        cases j with
        | reap => cases hSame
        | event ev' b =>
            simp only [Step.unordered, Step.event.injEq,
              Answers.mk.injEq, and_true] at hSame
            rcases hSame with
              ⟨rfl, hAccepts, hRecvs, hSends⟩
            have hLegal' : Legal t (.event ev b) := by
              intro hListen
              have hFresh :=
                hLegal (hListen.trans hTwins.books.lfd)
              rw [hAccepts] at hFresh
              exact hFresh.of_opened hTwins.books.lfd
                hTwins.opened
            exact ⟨hLegal', hTwins.event hAccepts.symm
              hRecvs.symm hSends.symm hLegal hLegal'⟩
  have hLeft := hTwins.alike.registry
  have hRight := hTwins.alike.symm.registry
  exact ⟨hFollows.1, hFollows.2,
    hTwins.left.step hLeft hLegal,
    hTwins.right.step hRight hFollows.1⟩

theorem run
    (hTwins : Twins s t)
    {steps steps' : List Step}
    (hSame :
      steps.map Step.unordered =
        steps'.map Step.unordered)
    (hLegal : Machine.Permitted Server.step Legal s steps) :
    Machine.Permitted Server.step Legal t steps' ∧
      Twins (Machine.run Server.step s steps)
        (Machine.run Server.step t steps') := by
  induction steps generalizing s t steps' with
  | nil =>
      have hNil : steps' = [] := by
        simpa using hSame.symm
      subst hNil
      exact ⟨trivial, hTwins⟩
  | cons i steps ih =>
      cases steps' with
      | nil => simp at hSame
      | cons j steps' =>
          rw [List.map_cons, List.map_cons] at hSame
          injection hSame with hFirst hLater
          rcases hTwins.step hFirst hLegal.1 with
            ⟨hNow, hNext⟩
          rcases ih hNext hLater hLegal.2 with
            ⟨hRest, hEnd⟩
          exact ⟨⟨hNow, hRest⟩, hEnd⟩

end Twins

/-
  The order of the hash map is unobservable. Take a run and
  another one with the same events and the same answers of
  the kernel, in which `conns_` is walked in any other
  orders. The kernel keeps its promises in that run too, and
  the server ends in the same state: the same exchange and
  registries, the same connections with the same buffers and
  open descriptors, each with the same history. The dead
  are waiting for `reap` in another order at most.
-/
theorem walk_order_unseen
    {lfd : Fd}
    {env env' : Env}
    {steps steps' : List Step}
    (hLegal :
      Machine.Permitted step Legal (init lfd env) steps)
    (hSame :
      steps.map Step.unordered =
        steps'.map Step.unordered) :
    let s := Machine.run step (init lfd env) steps
    let t := Machine.run step (init lfd env') steps'
    Machine.Permitted step Legal (init lfd env') steps' ∧
      t.exch = s.exch ∧
      t.nextOwner = s.nextOwner ∧
      t.usernames = s.usernames ∧
      t.ownerFd = s.ownerFd ∧
      t.conns = s.conns ∧
      t.env.opened = s.env.opened ∧
      t.dead.Perm s.dead ∧
      ∀ (fd : Fd) (c : Conn), s.conns[fd]? = some c →
        logOf c.ownerId t.log = logOf c.ownerId s.log := by
  have hInit : Twins (init lfd env) (init lfd env') :=
    ⟨alike_init 0 lfd env env', history_init lfd env,
      history_init lfd env'⟩
  rcases hInit.run hSame hLegal with ⟨hLegal', hTwins⟩
  exact ⟨hLegal', hTwins.books.exch, hTwins.books.nextOwner,
    hTwins.usernames, hTwins.ownerFd, hTwins.conns,
    hTwins.opened, hTwins.dead,
    fun _ _ hConn => hTwins.sameLog hConn⟩

/- The hash map walked from its last key to its first. -/
def reversed : IterOrder where
  walk := List.reverse
  perm := List.reverse_perm

/-
  A trade is published to two subscribers, and `send` fails
  on both.
-/
def publishing (order : IterOrder) : List Step :=
  [.connects 5, .connects 6, .connects 7,
    .reads 5
      [.data ⟨ascii "SUBSCRIBE IMCT\r\n", by decide,
        by decide⟩]
      (fun _ => [.sent 3]),
    .reads 6
      [.data ⟨ascii "SUBSCRIBE IMCT\r\n", by decide,
        by decide⟩]
      (fun _ => [.sent 3]),
    .event ⟨7, .read, false⟩
      { accepts := []
        recvs :=
          [.data
            ⟨ascii "LOGIN ida\nSELL IMCT 5 9\n", by decide,
              by decide⟩,
            .data
              ⟨ascii "BUY IMCT 3 9\n", by decide,
                by decide⟩]
        sends := fun fd => if fd = 7 then [] else [.error]
        order := order }]

/- They die in either order, and all else is the same. -/
theorem walk_order_unseen_publishing :
    let s :=
      Machine.run step listening (publishing .sorted)
    let t :=
      Machine.run step listening (publishing reversed)
    s.dead = [5, 6] ∧ t.dead = [6, 5] ∧
      t.conns = s.conns ∧ t.exch = s.exch := by
  have hLegal :
      Machine.Permitted step Legal listening
        (publishing .sorted) :=
    ⟨fun _ => ⟨by decide, by decide, trivial⟩,
      fun _ => ⟨by decide, by decide, trivial⟩,
      fun _ => ⟨by decide, by decide, trivial⟩,
      fun h => absurd h (by decide),
      fun h => absurd h (by decide),
      fun h => absurd h (by decide), trivial⟩
  have hSame :
      (publishing .sorted).map Step.unordered =
        (publishing reversed).map Step.unordered := rfl
  have hAll :=
    @walk_order_unseen 3 _ ⟨∅, fun _ => [], .sorted⟩ _ _
      hLegal hSame
  exact ⟨by decide, by decide, hAll.2.2.2.2.2.1,
    hAll.2.1⟩

end Server

end SocketExchange

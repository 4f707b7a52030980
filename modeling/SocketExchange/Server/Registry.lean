import SocketExchange.Server.Actions

/-
  Consistency of the connection registries.

  `Registry s` ties `conns_`, `usernames_`, `owner_fd_` and
  `dead_` together: the names and owner entries are exactly
  those of the traders that are not dead, owner ids are
  never shared, and the connections are the open
  descriptors.

  The invariant has three parts that carry over on their
  own: the table of connections, the directory of the live
  traders, and the dead that wait to be reaped.

  Main declarations:
    * `Server.Table`, `Server.Directory`, `Server.Waiting`
    * `Server.Registry`
    * `Server.Registry.act`
-/

------------------------------------------------------------
-- The Invariant
------------------------------------------------------------

namespace SocketExchange

namespace Server

/- A logged-in connection that is not dead. -/
structure LiveTrader
    (s : Server)
    (fd : Fd)
    (c : Conn) : Prop where
  conn : s.conns[fd]? = some c
  live : c.dead = false
  role : c.role = .trader

/- The connections, their descriptors and their owner ids. -/
structure Table (s : Server) : Prop where
  conn_fd :
    ∀ (fd : Fd) (c : Conn),
      s.conns[fd]? = some c → c.fd = fd
  opened :
    ∀ fd : Fd, fd ∈ s.env.opened ↔ s.conns[fd]? ≠ none
  owner_pos : 1 ≤ s.nextOwner
  owner_range :
    ∀ (fd : Fd) (c : Conn), s.conns[fd]? = some c →
      1 ≤ c.ownerId ∧ c.ownerId < s.nextOwner
  owner_unique :
    ∀ (fd fd' : Fd) (c c' : Conn),
      s.conns[fd]? = some c → s.conns[fd']? = some c' →
        c.ownerId = c'.ownerId → fd = fd'
  username_iff :
    ∀ (fd : Fd) (c : Conn), s.conns[fd]? = some c →
      (c.username ≠ [] ↔ c.role = .trader)
  subs_false :
    ∀ (fd : Fd) (c : Conn), s.conns[fd]? = some c →
      c.role ≠ .marketData → c.subs = fun _ => false

/- The two indices of the live traders. -/
structure Directory (s : Server) : Prop where
  name_sound :
    ∀ name ∈ s.usernames,
      ∃ fd c, s.LiveTrader fd c ∧ c.username = name
  name_complete :
    ∀ fd c, s.LiveTrader fd c → c.username ∈ s.usernames
  name_unique :
    ∀ fd fd' c c', s.LiveTrader fd c →
      s.LiveTrader fd' c' →
        c.username = c'.username → fd = fd'
  owner_sound :
    ∀ (owner : Int) (fd : Fd),
      s.ownerFd[owner]? = some fd →
        ∃ c, s.LiveTrader fd c ∧ c.ownerId = owner
  owner_complete :
    ∀ fd c, s.LiveTrader fd c →
      s.ownerFd[c.ownerId]? = some fd

/- The dead that wait for `reap`. -/
structure Waiting (s : Server) : Prop where
  dead_iff :
    ∀ fd : Fd, fd ∈ s.dead ↔
      ∃ c, s.conns[fd]? = some c ∧ c.dead = true
  dead_nodup : s.dead.Nodup

structure Registry (s : Server) : Prop extends
  Table s, Directory s, Waiting s

theorem registry_init (lfd : Fd) (env : Env) :
    Registry (init lfd env) := by
  have hEmpty :
      ∀ (fd : Fd) (c : Conn),
        (init lfd env).conns[fd]? ≠ some c := by
    intro fd c
    simp [init]
  have hNone :
      ∀ fd c, ¬ (init lfd env).LiveTrader fd c :=
    fun fd c h => hEmpty fd c h.conn
  exact
    { conn_fd := fun fd c h => absurd h (hEmpty fd c)
      opened := by simp [init]
      owner_pos := Int.le_refl 1
      owner_range := fun fd c h => absurd h (hEmpty fd c)
      owner_unique := fun fd _ c _ h =>
        absurd h (hEmpty fd c)
      username_iff := fun fd c h => absurd h (hEmpty fd c)
      subs_false := fun fd c h => absurd h (hEmpty fd c)
      name_sound := by simp [init]
      name_complete := fun fd c h => absurd h (hNone fd c)
      name_unique := fun fd _ c _ h =>
        absurd h (hNone fd c)
      owner_sound := by simp [init]
      owner_complete := fun fd c h => absurd h (hNone fd c)
      dead_iff := by simp [init]
      dead_nodup := List.nodup_nil }

end Server

end SocketExchange

------------------------------------------------------------
-- Where The Parts Carry Over
------------------------------------------------------------

namespace SocketExchange

namespace Server

variable {s s' : Server} {fd : Fd} {c c' d : Conn}

theorem LiveTrader.eq
    (hTrader : s.LiveTrader fd d)
    (hConn : s.conns[fd]? = some c) :
    d = c := by
  have hSame := hTrader.conn
  rw [hConn] at hSame
  injection hSame with hSame
  exact hSame.symm

theorem getElem?_of_insert
    (hConns : s'.conns = s.conns.insert fd c')
    (f : Fd) :
    s'.conns[f]? =
      if f = fd then some c' else s.conns[f]? := by
  rw [hConns, getElem?_insert_fd]

/- A connection is the one written or an old one. -/
theorem conn_of_insert
    {f : Fd}
    (hConns : s'.conns = s.conns.insert fd c')
    (hConn : s'.conns[f]? = some d) :
    f = fd ∧ d = c' ∨
      f ≠ fd ∧ s.conns[f]? = some d := by
  rw [getElem?_of_insert hConns] at hConn
  split at hConn
  · next hEq =>
      injection hConn with hSame
      exact Or.inl ⟨hEq, hSame.symm⟩
  · next hNe => exact Or.inr ⟨hNe, hConn⟩

/- A descriptor that is not open has no connection. -/
theorem Table.none_of_fresh
    (hTable : Table s)
    (hFresh : fd ∉ s.env.opened) :
    s.conns[fd]? = none := by
  by_contra hSome
  exact hFresh ((hTable.opened fd).mpr hSome)

/- Rewriting a connection under its own owner id. -/
theorem owners_of_insert
    (hConn : s.conns[fd]? = some c)
    (hConns : s'.conns = s.conns.insert fd c')
    (hOwner : c'.ownerId = c.ownerId) :
    ∀ (f : Fd) (d : Conn), s'.conns[f]? = some d →
      ∃ e, s.conns[f]? = some e ∧
        d.ownerId = e.ownerId := by
  intro f d h
  rcases conn_of_insert hConns h with
    ⟨rfl, rfl⟩ | ⟨_, hOld⟩
  · exact ⟨c, hConn, hOwner⟩
  · exact ⟨d, hOld, rfl⟩

/-
  Rewriting a connection under its own descriptor and owner
  id.
-/
theorem Table.rewrite
    (hTable : Table s)
    (hConn : s.conns[fd]? = some c)
    (hConns : s'.conns = s.conns.insert fd c')
    (hFd : c'.fd = c.fd)
    (hOwnerId : c'.ownerId = c.ownerId)
    (hNamed : c'.username ≠ [] ↔ c'.role = .trader)
    (hSubs :
      c'.role ≠ .marketData → c'.subs = fun _ => false)
    (hNext : s'.nextOwner = s.nextOwner)
    (hOpened : s'.env.opened = s.env.opened) :
    Table s' := by
  have hOwner := owners_of_insert hConn hConns hOwnerId
  constructor
  case conn_fd =>
    intro f d h
    rcases conn_of_insert hConns h with
      ⟨rfl, rfl⟩ | ⟨_, hOld⟩
    · exact hFd.trans (hTable.conn_fd f c hConn)
    · exact hTable.conn_fd f d hOld
  case opened =>
    intro f
    rw [hOpened, hTable.opened f, getElem?_of_insert hConns]
    split
    · next hEq =>
        subst hEq
        simp [hConn]
    · rfl
  case owner_pos =>
    rw [hNext]
    exact hTable.owner_pos
  case owner_range =>
    intro f d h
    rcases hOwner f d h with ⟨e, he, hEq⟩
    rw [hEq, hNext]
    exact hTable.owner_range f e he
  case owner_unique =>
    intro f f' d d' h h' hSame
    rcases hOwner f d h with ⟨e, he, hEq⟩
    rcases hOwner f' d' h' with ⟨e', he', hEq'⟩
    exact hTable.owner_unique f f' e e' he he'
      (hEq ▸ hEq' ▸ hSame)
  case username_iff =>
    intro f d h
    rcases conn_of_insert hConns h with
      ⟨_, rfl⟩ | ⟨_, hOld⟩
    · exact hNamed
    · exact hTable.username_iff f d hOld
  case subs_false =>
    intro f d h
    rcases conn_of_insert hConns h with
      ⟨_, rfl⟩ | ⟨_, hOld⟩
    · exact hSubs
    · exact hTable.subs_false f d hOld

/-
  The live traders of one state are those of the other,
  under the same descriptors, owner ids and names.
-/
structure SameTraders (s s' : Server) : Prop where
  back :
    ∀ f d, s'.LiveTrader f d →
      ∃ e, s.LiveTrader f e ∧ d.ownerId = e.ownerId ∧
        d.username = e.username
  forth :
    ∀ f e, s.LiveTrader f e →
      ∃ d, s'.LiveTrader f d ∧ d.ownerId = e.ownerId ∧
        d.username = e.username

theorem SameTraders.of_iff
    (hSame :
      ∀ f d, s'.LiveTrader f d ↔ s.LiveTrader f d) :
    SameTraders s s' where
  back := fun f d h => ⟨d, (hSame f d).mp h, rfl, rfl⟩
  forth := fun f d h => ⟨d, (hSame f d).mpr h, rfl, rfl⟩

theorem Directory.of_same
    (hDir : Directory s)
    (hSame : SameTraders s s')
    (hOwnerFd : s'.ownerFd = s.ownerFd)
    (hNames : s'.usernames = s.usernames) :
    Directory s' where
  name_sound := by
    intro name hName
    rw [hNames] at hName
    rcases hDir.name_sound name hName with ⟨f, e, h, hEq⟩
    rcases hSame.forth f e h with ⟨d, hd, _, hu⟩
    exact ⟨f, d, hd, hu.trans hEq⟩
  name_complete := by
    intro f d h
    rcases hSame.back f d h with ⟨e, he, _, hu⟩
    rw [hNames, hu]
    exact hDir.name_complete f e he
  name_unique := by
    intro f f' d d' h h' hName
    rcases hSame.back f d h with ⟨e, he, _, hu⟩
    rcases hSame.back f' d' h' with ⟨e', he', _, hu'⟩
    exact hDir.name_unique f f' e e' he he'
      (hu ▸ hu' ▸ hName)
  owner_sound := by
    intro owner f hOwner
    rw [hOwnerFd] at hOwner
    rcases hDir.owner_sound owner f hOwner with
      ⟨e, he, hEq⟩
    rcases hSame.forth f e he with ⟨d, hd, ho, _⟩
    exact ⟨d, hd, ho.trans hEq⟩
  owner_complete := by
    intro f d h
    rcases hSame.back f d h with ⟨e, he, ho, _⟩
    rw [hOwnerFd, ho]
    exact hDir.owner_complete f e he

/- The same connections are dead. -/
theorem Waiting.of_same
    (hWait : Waiting s)
    (hSame :
      ∀ f : Fd,
        (∃ d, s'.conns[f]? = some d ∧ d.dead = true) ↔
          ∃ d, s.conns[f]? = some d ∧ d.dead = true)
    (hDead : s'.dead = s.dead) :
    Waiting s' where
  dead_iff := by
    intro f
    rw [hDead, hWait.dead_iff f]
    exact (hSame f).symm
  dead_nodup := by
    rw [hDead]
    exact hWait.dead_nodup

/- The invariant reads the registries and nothing else. -/
theorem Registry.of_eq
    (hReg : Registry s)
    (hOwner : s'.nextOwner = s.nextOwner)
    (hConns : s'.conns = s.conns)
    (hOwnerFd : s'.ownerFd = s.ownerFd)
    (hNames : s'.usernames = s.usernames)
    (hDead : s'.dead = s.dead)
    (hOpened : s'.env.opened = s.env.opened) :
    Registry s' where
  toTable :=
    { conn_fd := by
        rw [hConns]
        exact hReg.conn_fd
      opened := by
        rw [hConns, hOpened]
        exact hReg.opened
      owner_pos := by
        rw [hOwner]
        exact hReg.owner_pos
      owner_range := by
        rw [hConns, hOwner]
        exact hReg.owner_range
      owner_unique := by
        rw [hConns]
        exact hReg.owner_unique
      username_iff := by
        rw [hConns]
        exact hReg.username_iff
      subs_false := by
        rw [hConns]
        exact hReg.subs_false }
  toDirectory := by
    refine hReg.toDirectory.of_same (.of_iff ?_) hOwnerFd
      hNames
    intro f d
    exact
      ⟨fun h => ⟨hConns ▸ h.conn, h.live, h.role⟩,
        fun h => ⟨hConns.symm ▸ h.conn, h.live, h.role⟩⟩
  toWaiting := by
    refine hReg.toWaiting.of_same ?_ hDead
    rw [hConns]
    exact fun _ => Iff.rfl

/- History, answers and calls are no part of them. -/
theorem Registry.note
    (hReg : Registry s)
    (o : Obs) :
    Registry (s.note o) :=
  hReg.of_eq rfl rfl rfl rfl rfl rfl

theorem Registry.withAnswers
    (hReg : Registry s)
    (a : Answers) :
    Registry (s.withAnswers a) :=
  hReg.of_eq rfl rfl rfl rfl rfl rfl

theorem Registry.callExchange
    (hReg : Registry s)
    (owner : Int)
    (call : Call) :
    Registry (s.callExchange owner call) :=
  hReg.of_eq rfl rfl rfl rfl rfl rfl

theorem SameTraders.rewrite
    (hConn : s.conns[fd]? = some c)
    (hConns : s'.conns = s.conns.insert fd c')
    (hOwnerId : c'.ownerId = c.ownerId)
    (hUsername : c'.username = c.username)
    (hLive : c'.dead = c.dead)
    (hRole : c'.role = .trader ↔ c.role = .trader) :
    SameTraders s s' where
  back := by
    rintro f d ⟨h, hAlive, hTrader⟩
    rcases conn_of_insert hConns h with
      ⟨rfl, rfl⟩ | ⟨_, hOld⟩
    · exact ⟨c, ⟨hConn, hLive ▸ hAlive, hRole.mp hTrader⟩,
        hOwnerId, hUsername⟩
    · exact ⟨d, ⟨hOld, hAlive, hTrader⟩, rfl, rfl⟩
  forth := by
    intro f e h
    have hLookup := getElem?_of_insert hConns f
    by_cases hEq : f = fd
    · subst hEq
      have hSame := h.eq hConn
      subst hSame
      rw [if_pos rfl] at hLookup
      exact ⟨c', ⟨hLookup, hLive.trans h.live,
        hRole.mpr h.role⟩, hOwnerId, hUsername⟩
    · rw [if_neg hEq, h.conn] at hLookup
      exact ⟨e, ⟨hLookup, h.live, h.role⟩, rfl, rfl⟩

/-
  Rewriting a connection keeps the registries, as long as
  its identity, its liveness and whether it is a trader
  stay.
-/
theorem Registry.rewrite
    (hReg : Registry s)
    (hConn : s.conns[fd]? = some c)
    (hConns : s'.conns = s.conns.insert fd c')
    (hFd : c'.fd = c.fd)
    (hOwnerId : c'.ownerId = c.ownerId)
    (hUsername : c'.username = c.username)
    (hLive : c'.dead = c.dead)
    (hRole : c'.role = .trader ↔ c.role = .trader)
    (hSubs :
      c'.role ≠ .marketData → c'.subs = fun _ => false)
    (hNext : s'.nextOwner = s.nextOwner)
    (hOwnerFd : s'.ownerFd = s.ownerFd)
    (hNames : s'.usernames = s.usernames)
    (hDead : s'.dead = s.dead)
    (hOpened : s'.env.opened = s.env.opened) :
    Registry s' where
  toTable := by
    have hNamed : c'.username ≠ [] ↔ c'.role = .trader := by
      rw [hUsername, hRole]
      exact hReg.username_iff fd c hConn
    exact hReg.toTable.rewrite hConn hConns hFd hOwnerId
      hNamed hSubs hNext hOpened
  toDirectory :=
    hReg.toDirectory.of_same
      (.rewrite hConn hConns hOwnerId hUsername hLive hRole)
      hOwnerFd hNames
  toWaiting := by
    refine hReg.toWaiting.of_same ?_ hDead
    intro f
    rw [getElem?_of_insert hConns]
    by_cases hEq : f = fd
    · subst hEq
      simp [hConn, hLive]
    · simp [hEq]

end Server

end SocketExchange

------------------------------------------------------------
-- Death
------------------------------------------------------------

namespace SocketExchange

namespace Server

variable {s s' : Server} {fd : Fd} {c c' : Conn}

theorem mem_releaseName
    {names : Finset Bytes}
    {name other : Bytes} :
    other ∈ releaseName names name ↔
      other ∈ names ∧ (name = [] ∨ other ≠ name) := by
  unfold releaseName
  split
  · next hEmpty => simp [hEmpty]
  · next hName =>
      rw [Finset.mem_erase]
      tauto

/- The live traders without the one that dies. -/
theorem liveTrader_iff_of_die
    (hDies : c'.dead = true)
    (hConns : s'.conns = s.conns.insert fd c')
    (f : Fd)
    (d : Conn) :
    s'.LiveTrader f d ↔ s.LiveTrader f d ∧ f ≠ fd := by
  constructor
  · rintro ⟨h, hl, hr⟩
    rcases conn_of_insert hConns h with
      ⟨_, rfl⟩ | ⟨hNe, hOld⟩
    · rw [hDies] at hl
      cases hl
    · exact ⟨⟨hOld, hl, hr⟩, hNe⟩
  · rintro ⟨⟨h, hl, hr⟩, hNe⟩
    refine ⟨?_, hl, hr⟩
    rw [getElem?_of_insert hConns, if_neg hNe, h]

theorem Directory.die
    (hTable : Table s)
    (hDir : Directory s)
    (hConn : s.conns[fd]? = some c)
    (hLive : c.dead = false)
    (hDies : c'.dead = true)
    (hConns : s'.conns = s.conns.insert fd c')
    (hOwnerFd : s'.ownerFd = s.ownerFd.erase c.ownerId)
    (hNames :
      s'.usernames = releaseName s.usernames c.username) :
    Directory s' := by
  have hTrader := liveTrader_iff_of_die hDies hConns
  constructor
  case name_sound =>
    intro name hName
    rw [hNames, mem_releaseName] at hName
    rcases hDir.name_sound name hName.1 with ⟨f, d, h, hEq⟩
    refine ⟨f, d, (hTrader f d).mpr ⟨h, ?_⟩, hEq⟩
    rintro rfl
    have hSame := h.eq hConn
    subst hSame
    have hNamed : d.username ≠ [] :=
      (hTable.username_iff f d hConn).mpr h.role
    rcases hName.2 with hNone | hOther
    · exact hNamed hNone
    · exact hOther hEq.symm
  case name_complete =>
    intro f d h
    rcases (hTrader f d).mp h with ⟨hOld, hNe⟩
    rw [hNames, mem_releaseName]
    refine ⟨hDir.name_complete f d hOld, ?_⟩
    by_cases hNone : c.username = []
    · exact Or.inl hNone
    · refine Or.inr (fun hEq => hNe ?_)
      have hRole : c.role = .trader :=
        (hTable.username_iff fd c hConn).mp hNone
      exact hDir.name_unique f fd d c hOld
        ⟨hConn, hLive, hRole⟩ hEq
  case name_unique =>
    intro f f' d d' h h'
    exact hDir.name_unique f f' d d' ((hTrader f d).mp h).1
      ((hTrader f' d').mp h').1
  case owner_sound =>
    intro owner f hOwner
    rw [hOwnerFd, Std.ExtTreeMap.getElem?_erase] at hOwner
    split at hOwner
    · cases hOwner
    · next hNe =>
        rcases hDir.owner_sound owner f hOwner with
          ⟨d, h, hEq⟩
        refine ⟨d, (hTrader f d).mpr ⟨h, ?_⟩, hEq⟩
        rintro rfl
        have hSame := h.eq hConn
        subst hSame
        exact hNe (by simpa using hEq)
  case owner_complete =>
    intro f d h
    rcases (hTrader f d).mp h with ⟨hOld, hNe⟩
    have hOther : ¬ c.ownerId = d.ownerId := fun hEq =>
      hNe (hTable.owner_unique f fd d c hOld.conn hConn
        hEq.symm)
    rw [hOwnerFd, Std.ExtTreeMap.getElem?_erase,
      if_neg (by simpa using hOther)]
    exact hDir.owner_complete f d hOld

theorem Waiting.die
    (hWait : Waiting s)
    (hConn : s.conns[fd]? = some c)
    (hLive : c.dead = false)
    (hDies : c'.dead = true)
    (hConns : s'.conns = s.conns.insert fd c')
    (hDead : s'.dead = s.dead ++ [fd]) :
    Waiting s' where
  dead_iff := by
    intro f
    rw [hDead, List.mem_append, List.mem_singleton,
      hWait.dead_iff f, getElem?_of_insert hConns]
    by_cases hEq : f = fd
    · simp [hEq, hDies]
    · simp [hEq]
  dead_nodup := by
    rw [hDead]
    refine List.Nodup.append hWait.dead_nodup
      (List.nodup_singleton fd) ?_
    intro f hMem hFd
    rw [List.mem_singleton] at hFd
    subst hFd
    rcases (hWait.dead_iff f).mp hMem with ⟨d, hd, hIs⟩
    rw [hConn] at hd
    injection hd with hd
    subst hd
    rw [hLive] at hIs
    cases hIs

/-
  A connection that dies takes exactly its own name and
  owner entry with it.
-/
theorem Registry.die
    (hReg : Registry s)
    (hConn : s.conns[fd]? = some c)
    (hLive : c.dead = false)
    (hSame : c.SameIdentity c')
    (hDies : c'.dead = true)
    (hConns : s'.conns = s.conns.insert fd c')
    (hNext : s'.nextOwner = s.nextOwner)
    (hOwnerFd : s'.ownerFd = s.ownerFd.erase c.ownerId)
    (hNames :
      s'.usernames = releaseName s.usernames c.username)
    (hDead : s'.dead = s.dead ++ [c.fd])
    (hOpened : s'.env.opened = s.env.opened) :
    Registry s' where
  toTable := by
    have hNamed : c'.username ≠ [] ↔ c'.role = .trader := by
      rw [hSame.username, hSame.role]
      exact hReg.username_iff fd c hConn
    have hSubs :
        c'.role ≠ .marketData →
          c'.subs = fun _ => false := by
      rw [hSame.role, hSame.subs]
      exact hReg.subs_false fd c hConn
    exact hReg.toTable.rewrite hConn hConns hSame.fd
      hSame.ownerId hNamed hSubs hNext hOpened
  toDirectory :=
    hReg.toDirectory.die hReg.toTable hConn hLive hDies
      hConns hOwnerFd hNames
  toWaiting := by
    rw [hReg.conn_fd fd c hConn] at hDead
    exact hReg.toWaiting.die hConn hLive hDies hConns hDead

/- Output activity keeps the registries. -/
theorem Registry.commit
    {p : Port}
    (hReg : Registry s)
    (hConn : s.conns[fd]? = some c)
    (hLive : c.dead = false)
    (hSame : c.SameIdentity p.conn) :
    Registry (s.commit fd p) := by
  cases hDies : p.conn.dead with
  | true =>
      apply hReg.die hConn hLive hSame hDies <;>
        simp [Server.commit, hDies, Server.writing,
          hSame.ownerId, hSame.username, hSame.fd]
  | false =>
      apply hReg.rewrite hConn (commit_conns s fd p)
        hSame.fd hSame.ownerId hSame.username
        (hDies.trans hLive.symm)
        (by rw [hSame.role])
        (by
          rw [hSame.role, hSame.subs]
          exact hReg.subs_false fd c hConn) <;>
        simp [Server.commit, hDies, Server.writing]

end Server

end SocketExchange

------------------------------------------------------------
-- Login
------------------------------------------------------------

namespace SocketExchange

namespace Server

variable {s : Server} {fd : Fd} {c : Conn} {name : Bytes}

/- The record that a login writes. -/
theorem grantLogin_conns :
    (s.grantLogin fd c name).conns =
      s.conns.insert fd
        { c with role := .trader, username := name } :=
  rfl

/- The live traders and the one that logs in. -/
theorem liveTrader_grantLogin_iff
    (hLive : c.dead = false)
    (f : Fd)
    (d : Conn) :
    (s.grantLogin fd c name).LiveTrader f d ↔
      (s.LiveTrader f d ∧ f ≠ fd) ∨
        (f = fd ∧
          d = { c with
            role := .trader, username := name }) := by
  constructor
  · rintro ⟨h, hl, hr⟩
    rcases conn_of_insert grantLogin_conns h with
      hNew | ⟨hNe, hOld⟩
    · exact Or.inr hNew
    · exact Or.inl ⟨⟨hOld, hl, hr⟩, hNe⟩
  · rintro (⟨⟨h, hl, hr⟩, hNe⟩ | ⟨rfl, rfl⟩)
    · refine ⟨?_, hl, hr⟩
      rw [getElem?_of_insert grantLogin_conns, if_neg hNe,
        h]
    · refine ⟨?_, hLive, rfl⟩
      rw [getElem?_of_insert grantLogin_conns, if_pos rfl]

theorem Directory.login
    (hTable : Table s)
    (hDir : Directory s)
    (hConn : s.conns[fd]? = some c)
    (hLive : c.dead = false)
    (hRole : c.role = .unknown)
    (hFree : name ∉ s.usernames) :
    Directory (s.grantLogin fd c name) := by
  have hTrader :
      ∀ f d, (s.grantLogin fd c name).LiveTrader f d ↔ _ :=
    liveTrader_grantLogin_iff hLive
  -- The connection was not a trader, so it held no entry.
  have hNotYet : ∀ f d, s.LiveTrader f d → f ≠ fd := by
    rintro f d h rfl
    have hIs := h.role
    rw [h.eq hConn, hRole] at hIs
    cases hIs
  constructor
  case name_sound =>
    intro other hMem
    rcases Finset.mem_insert.mp hMem with rfl | hOld
    · exact ⟨fd, _, (hTrader _ _).mpr
        (Or.inr ⟨rfl, rfl⟩), rfl⟩
    · rcases hDir.name_sound other hOld with ⟨f, d, h, hEq⟩
      exact ⟨f, d, (hTrader f d).mpr
        (Or.inl ⟨h, hNotYet f d h⟩), hEq⟩
  case name_complete =>
    intro f d h
    rcases (hTrader f d).mp h with ⟨hOld, _⟩ | ⟨_, rfl⟩
    · exact Finset.mem_insert_of_mem
        (hDir.name_complete f d hOld)
    · exact Finset.mem_insert_self name s.usernames
  case name_unique =>
    intro f f' d d' h h' hSame
    rcases (hTrader f d).mp h with ⟨hOld, _⟩ | ⟨rfl, rfl⟩
      <;> rcases (hTrader f' d').mp h' with
        ⟨hOld', _⟩ | ⟨rfl, rfl⟩
    · exact hDir.name_unique f f' d d' hOld hOld' hSame
    · have hTaken := hDir.name_complete f d hOld
      rw [hSame] at hTaken
      exact absurd hTaken hFree
    · have hTaken := hDir.name_complete f' d' hOld'
      rw [← hSame] at hTaken
      exact absurd hTaken hFree
    · rfl
  case owner_sound =>
    intro owner f hOwner
    change (s.ownerFd.insert c.ownerId c.fd)[owner]? =
      some f at hOwner
    rw [Std.ExtTreeMap.getElem?_insert] at hOwner
    split at hOwner
    · next hEq =>
        injection hOwner with hFd
        rw [hTable.conn_fd fd c hConn] at hFd
        subst hFd
        exact ⟨_, (hTrader _ _).mpr (Or.inr ⟨rfl, rfl⟩),
          by simpa using hEq⟩
    · rcases hDir.owner_sound owner f hOwner with
        ⟨d, h, hEq⟩
      exact ⟨d, (hTrader f d).mpr
        (Or.inl ⟨h, hNotYet f d h⟩), hEq⟩
  case owner_complete =>
    intro f d h
    change (s.ownerFd.insert c.ownerId c.fd)[d.ownerId]? =
      some f
    rw [Std.ExtTreeMap.getElem?_insert]
    rcases (hTrader f d).mp h with
      ⟨hOld, hNe⟩ | ⟨rfl, rfl⟩
    · have hOther : c.ownerId ≠ d.ownerId := fun hEq =>
        hNe (hTable.owner_unique f fd d c hOld.conn hConn
          hEq.symm)
      rw [if_neg (by simpa using hOther)]
      exact hDir.owner_complete f d hOld
    · rw [if_pos (by simp), hTable.conn_fd f c hConn]

/- A login enters exactly its own name and owner entry. -/
theorem Registry.login
    (hReg : Registry s)
    (hConn : s.conns[fd]? = some c)
    (hLive : c.dead = false)
    (hRole : c.role = .unknown)
    (hName : name ≠ [])
    (hFree : name ∉ s.usernames) :
    Registry (s.grantLogin fd c name) where
  toTable := by
    have hSubs : c.subs = fun _ => false :=
      hReg.subs_false fd c hConn (by simp [hRole])
    exact hReg.toTable.rewrite hConn grantLogin_conns rfl
      rfl (by simp [hName]) (fun _ => hSubs) rfl rfl
  toDirectory :=
    hReg.toDirectory.login hReg.toTable hConn hLive hRole
      hFree
  toWaiting := by
    refine hReg.toWaiting.of_same ?_ rfl
    intro f
    rw [getElem?_of_insert grantLogin_conns]
    by_cases hEq : f = fd
    · subst hEq
      simp [hConn]
    · simp [hEq]

end Server

end SocketExchange

------------------------------------------------------------
-- Accept And Reap
------------------------------------------------------------

namespace SocketExchange

namespace Server

variable {s : Server} {cfd : Fd}

theorem Table.accept
    (hTable : Table s)
    (hNone : s.conns[cfd]? = none) :
    Table (s.acceptConn cfd) := by
  have hConns := acceptConn_conns hNone
  have hNext :
      (s.acceptConn cfd).nextOwner = s.nextOwner + 1 := rfl
  have hPos := hTable.owner_pos
  constructor
  case conn_fd =>
    intro f d h
    rcases conn_of_insert hConns h with
      ⟨rfl, rfl⟩ | ⟨_, hOld⟩
    · rfl
    · exact hTable.conn_fd f d hOld
  case opened =>
    intro f
    change f ∈ insert cfd s.env.opened ↔ _
    rw [Finset.mem_insert, hTable.opened f,
      getElem?_of_insert hConns]
    by_cases hEq : f = cfd
    · simp [hEq]
    · simp [hEq]
  case owner_pos => omega
  case owner_range =>
    intro f d h
    rcases conn_of_insert hConns h with
      ⟨_, rfl⟩ | ⟨_, hOld⟩
    · simp only [Conn.fresh]
      omega
    · have hRange := hTable.owner_range f d hOld
      omega
  case owner_unique =>
    intro f f' d d' h h' hSame
    rcases conn_of_insert hConns h with
        ⟨rfl, rfl⟩ | ⟨_, hOld⟩ <;>
      rcases conn_of_insert hConns h' with
        ⟨rfl, rfl⟩ | ⟨_, hOld'⟩
    · rfl
    · have hRange := hTable.owner_range f' d' hOld'
      simp only [Conn.fresh] at hSame
      omega
    · have hRange := hTable.owner_range f d hOld
      simp only [Conn.fresh] at hSame
      omega
    · exact hTable.owner_unique f f' d d' hOld hOld' hSame
  case username_iff =>
    intro f d h
    rcases conn_of_insert hConns h with
      ⟨_, rfl⟩ | ⟨_, hOld⟩
    · simp [Conn.fresh]
    · exact hTable.username_iff f d hOld
  case subs_false =>
    intro f d h hNot
    rcases conn_of_insert hConns h with
      ⟨_, rfl⟩ | ⟨_, hOld⟩
    · rfl
    · exact hTable.subs_false f d hOld hNot

/- A fresh descriptor enters as a connection of its own. -/
theorem Registry.accept
    (hReg : Registry s)
    (hFresh : cfd ∉ s.env.opened) :
    Registry (s.acceptConn cfd) := by
  have hNone := hReg.none_of_fresh hFresh
  have hConns := acceptConn_conns hNone
  -- A fresh connection is no trader, and not dead.
  have hTrader :
      ∀ f d, (s.acceptConn cfd).LiveTrader f d ↔
        s.LiveTrader f d := by
    intro f d
    constructor
    · rintro ⟨h, hl, hr⟩
      rcases conn_of_insert hConns h with
        ⟨_, rfl⟩ | ⟨_, hOld⟩
      · cases hr
      · exact ⟨hOld, hl, hr⟩
    · rintro ⟨h, hl, hr⟩
      refine ⟨?_, hl, hr⟩
      rw [getElem?_of_insert hConns, if_neg, h]
      rintro rfl
      rw [hNone] at h
      cases h
  have hDead :
      ∀ f : Fd,
        (∃ d, (s.acceptConn cfd).conns[f]? = some d ∧
            d.dead = true) ↔
          ∃ d, s.conns[f]? = some d ∧ d.dead = true := by
    intro f
    rw [getElem?_of_insert hConns]
    by_cases hEq : f = cfd
    · simp [hEq, hNone, Conn.fresh]
    · simp [hEq]
  exact
    { toTable := hReg.toTable.accept hNone
      toDirectory :=
        hReg.toDirectory.of_same (.of_iff hTrader) rfl rfl
      toWaiting := hReg.toWaiting.of_same hDead rfl }

/- A connection outlives the reaping when it is not dead. -/
theorem Waiting.conn_reap_iff
    (hWait : Waiting s)
    (f : Fd)
    (d : Conn) :
    s.reap.conns[f]? = some d ↔
      s.conns[f]? = some d ∧ d.dead = false := by
  rw [getElem?_reap]
  constructor
  · intro h
    split at h
    · cases h
    · next hNot =>
        refine ⟨h, Bool.eq_false_iff.mpr ?_⟩
        intro hDead
        exact hNot ((hWait.dead_iff f).mpr ⟨d, h, hDead⟩)
  · rintro ⟨h, hLive⟩
    rw [if_neg, h]
    intro hMem
    rcases (hWait.dead_iff f).mp hMem with ⟨e, he, hDead⟩
    rw [h] at he
    injection he with he
    subst he
    rw [hLive] at hDead
    cases hDead

/- Only dead connections are reaped, and all of them. -/
theorem Registry.reap
    (hReg : Registry s) :
    Registry s.reap := by
  have hConn := hReg.toWaiting.conn_reap_iff
  have hOld :
      ∀ (f : Fd) (d : Conn), s.reap.conns[f]? = some d →
        s.conns[f]? = some d :=
    fun f d h => ((hConn f d).mp h).1
  have hTrader :
      ∀ f d, s.reap.LiveTrader f d ↔ s.LiveTrader f d :=
    fun f d =>
      ⟨fun h => ⟨hOld f d h.conn, h.live, h.role⟩,
        fun h =>
          ⟨(hConn f d).mpr ⟨h.conn, h.live⟩, h.live,
            h.role⟩⟩
  exact
    { toTable :=
        { conn_fd := fun f d h =>
            hReg.conn_fd f d (hOld f d h)
          opened := by
            intro f
            rw [mem_opened_reap, getElem?_reap,
              hReg.opened f]
            split <;> simp [*]
          owner_pos := by
            rw [reap_nextOwner]
            exact hReg.owner_pos
          owner_range := by
            intro f d h
            rw [reap_nextOwner]
            exact hReg.owner_range f d (hOld f d h)
          owner_unique := fun f f' d d' h h' =>
            hReg.owner_unique f f' d d' (hOld f d h)
              (hOld f' d' h')
          username_iff := fun f d h =>
            hReg.username_iff f d (hOld f d h)
          subs_false := fun f d h =>
            hReg.subs_false f d (hOld f d h) }
      toDirectory :=
        hReg.toDirectory.of_same (.of_iff hTrader)
          (reap_ownerFd s) (reap_usernames s)
      toWaiting :=
        { dead_iff := by
            intro f
            rw [reap_dead]
            constructor
            · intro hMem
              cases hMem
            · rintro ⟨d, h, hDead⟩
              rw [((hConn f d).mp h).2] at hDead
              cases hDead
          dead_nodup := by
            rw [reap_dead]
            exact List.nodup_nil } }

end Server

end SocketExchange

------------------------------------------------------------
-- Every Action
------------------------------------------------------------

namespace SocketExchange

namespace Server

theorem Registry.serve
    {G : Guard}
    {s s' : Server}
    (hReg : Registry s)
    (hServe : Serve G s s') :
    Registry s' := by
  cases hServe with
  | @queue fd c m hConn hLive _ _ _ =>
      exact hReg.commit hConn hLive
        (Port.queue_same (Port.ofConn s c) m)
  | @flush fd c hConn hLive =>
      exact hReg.commit hConn hLive
        (Port.flush_same (Port.ofConn s c))
  | @closing fd c hConn =>
      exact hReg.rewrite hConn rfl rfl rfl rfl rfl Iff.rfl
        (hReg.subs_false fd c hConn) rfl rfl rfl rfl rfl
  | line _ _ _ _ => exact hReg.note _
  | overlong _ _ _ => exact hReg.note _
  | login hConn hLive hRole _ hName hFree =>
      exact hReg.login hConn hLive hRole hName hFree
  | subscribe hConn _ hRole _ _ _ =>
      exact hReg.rewrite hConn rfl rfl rfl rfl rfl
        (by simp [hRole]) (fun h => absurd rfl h)
        rfl rfl rfl rfl rfl
  | call _ _ _ _ _ _ _ => exact hReg.callExchange _ _

theorem Registry.act
    {G : Guard}
    {s s' : Server}
    (hReg : Registry s)
    (hAct : Act G s s') :
    Registry s' := by
  cases hAct with
  | serve hServe => exact hReg.serve hServe
  | @close fd c hConn hLive why _ =>
      exact hReg.commit hConn hLive
        (Port.close_same (Port.ofConn s c) why)
  | @input fd c hConn _ =>
      exact hReg.rewrite hConn rfl rfl rfl rfl rfl Iff.rfl
        (hReg.subs_false fd c hConn) rfl rfl rfl rfl rfl
  | accept hFresh _ => exact hReg.accept hFresh
  | reap => exact hReg.reap
  | answers a => exact hReg.withAnswers a

theorem Registry.serves
    {G : Guard}
    {s s' : Server}
    (hReg : Registry s)
    (hServes : Serves G s s') :
    Registry s' :=
  Acts.invariant Registry (fun _ _ => Registry.act)
    hServes.acts hReg

end Server

end SocketExchange

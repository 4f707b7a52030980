import SocketExchange.Machine.Run
import SocketExchange.Server.Model

/-
  The connection generator (`tools/connflood.cpp`): it opens
  sockets up to a target, connects them in batches, waits for
  the connects that are in progress, reports, and holds the
  sockets until it is told to release them.

  What the kernel answers comes with each step. `live` and
  `watched` are the kernel's: the sockets that are open, and
  those that `kq` waits for. How many connects failed later
  on, and what `pop_back` was applied to, is history only.

  Main declarations:
    * `Accounts`, `Generator`
    * `Generator.step`
    * `Generator.Exact`
    * `Generator.Accounted`
    * `Generator.Balanced`
    * `Generator.accounted_iff`
-/

------------------------------------------------------------
-- Counters And Descriptors
------------------------------------------------------------

namespace SocketExchange

inductive Errno where
| emfile : Errno
| enfile : Errno
| eaddrnotavail : Errno
| eaddrinuse : Errno
| econnrefused : Errno
| etimedout : Errno
| einprogress : Errno
| other : Nat → Errno
deriving DecidableEq, Repr

/- The command line: `binds` are the source addresses. -/
structure FloodConfig where
  target : Int
  batch : Int
  binds : List Bytes

/-
  The answers to one attempt: to `socket`, to `bind` for
  each address, to `connect`, and whether `kq` takes the
  socket. A failed call answers with its `errno`.
-/
structure Attempt where
  socket : Except Errno Fd
  bind : Bytes → Option Errno
  connect : Option Errno
  added : Bool

/- A socket that `kevent` reports, with its `SO_ERROR`. -/
structure Completion where
  ident : Fd
  soerr : Option Errno

inductive Drained where
| events : List Completion → Drained
| eintr : Drained
| error : Drained

/-
  The heads of the outer and the inner loop, the wait for
  completions, the wait for the signal, and the end.
  Behind an undefined operation there is nothing.
-/
inductive FloodPoint where
| outer : FloodPoint
| issue : FloodPoint
| drain : FloodPoint
| hold : FloodPoint
| done : FloodPoint
| undefined : FloodPoint
deriving DecidableEq, Repr

inductive FloodEvent where
| test : FloodEvent
| attempt : Attempt → FloodEvent
| drained : Drained → FloodEvent
| signal : FloodEvent

/- The descriptors and the counters. -/
structure Accounts where
  fds : List Fd
  issued : Int
  established : Int
  pending : Int
  live : Finset Fd
  watched : Finset Fd
  failed : Nat
  pops : List (List Fd × Finset Fd)

structure Generator extends Accounts where
  stopReason : Option String
  stopErrno : Option Errno
  gStop : Bool
  point : FloodPoint

namespace Generator

/- `std::vector<int>::max_size()`. -/
def maxSize : Int := 2305843009213693951

/-
  `reserve` throws when the target is too large; a negative
  one becomes too large as a `size_t`.
-/
def start (cfg : FloodConfig) : Option Generator :=
  if 0 ≤ cfg.target ∧ cfg.target ≤ maxSize then
    some
      { fds := []
        issued := 0
        established := 0
        pending := 0
        stopReason := none
        stopErrno := none
        gStop := false
        point := .outer
        live := ∅
        watched := ∅
        failed := 0
        pops := [] }
  else none

def socketReason : Errno → String
| .emfile => "socket(): EMFILE (per-process fd limit)"
| .enfile =>
    "socket(): ENFILE (system-wide file table full)"
| _ => "socket() failed"

def bindReason : Errno → String
| .eaddrnotavail =>
    "bind(): EADDRNOTAVAIL (ephemeral ports exhausted for this source address)"
| _ => "bind() failed"

def connectReason : Errno → String
| .eaddrnotavail =>
    "connect(): EADDRNOTAVAIL (ephemeral port range exhausted)"
| .eaddrinuse =>
    "connect(): EADDRINUSE (4-tuple space exhausted)"
| .econnrefused =>
    "connect(): ECONNREFUSED (server gone or listen backlog overflowed)"
| .etimedout => "connect(): ETIMEDOUT"
| _ => "connect() failed"

def stop
    (g : Generator)
    (reason : String)
    (errno : Errno) : Generator :=
  { g with stopReason := some reason, stopErrno := some errno }

/- The source address of the next socket, round-robin. -/
def source
    (cfg : FloodConfig)
    (g : Generator) : Option Bytes :=
  cfg.binds[(g.issued % cfg.binds.length).toNat]?

/- Behind the inner loop: only pending connects are drained. -/
def leaveIssue (g : Generator) : Generator :=
  { g with
    point := if g.pending = 0 then .outer else .drain }

/- Of an empty vector, `pop_back` is undefined. -/
def popBack (g : Generator) : Generator :=
  let g := { g with pops := g.pops ++ [(g.fds, g.live)] }
  match g.fds with
  | [] => { g with point := .undefined }
  | _ :: _ => leaveIssue { g with fds := g.fds.dropLast }

/- `connect`, and what is done about its answer. -/
def connect
    (g : Generator)
    (fd : Fd)
    (a : Attempt) : Generator :=
  match a.connect with
  | none =>
      { g with
        fds := g.fds ++ [fd]
        issued := g.issued + 1
        established := g.established + 1 }
  | some .einprogress =>
      { g with
        watched :=
          if a.added then insert fd g.watched else g.watched
        fds := g.fds ++ [fd]
        issued := g.issued + 1
        pending := g.pending + 1 }
  | some errno =>
      let g := g.stop (connectReason errno) errno
      popBack { g with live := g.live.erase fd }

/- The answer of `bind`, when there is an address to bind. -/
def bindError
    (cfg : FloodConfig)
    (g : Generator)
    (a : Attempt) : Option Errno :=
  (g.source cfg).bind a.bind

/- One turn of the inner loop. -/
def attempt
    (cfg : FloodConfig)
    (g : Generator)
    (a : Attempt) : Generator :=
  match a.socket with
  | .error errno =>
      leaveIssue (g.stop (socketReason errno) errno)
  | .ok fd =>
      let g := { g with live := insert fd g.live }
      match g.bindError cfg a with
      | some errno =>
          let g := g.stop (bindReason errno) errno
          leaveIssue { g with live := g.live.erase fd }
      | none => g.connect fd a

/- One completion. -/
def complete (g : Generator) (c : Completion) : Generator :=
  let g :=
    { g with
      watched := g.watched.erase c.ident
      pending := g.pending - 1 }
  match c.soerr with
  | none => { g with established := g.established + 1 }
  | some errno =>
      let g := g.stop "asynchronous connect failed" errno
      { g with failed := g.failed + 1 }

def drain (g : Generator) : Drained → Generator
| .eintr => { g with point := .outer }
| .error => { g with point := .hold }
| .events cs =>
    { cs.foldl complete g with point := .outer }

/- Close every descriptor of the vector. -/
def release (g : Generator) : Generator :=
  { g with
    live := g.fds.foldl Finset.erase g.live
    point := .done }

def outerGuard (cfg : FloodConfig) (g : Generator) : Bool :=
  !g.gStop && decide (g.established < cfg.target) &&
    g.stopReason.isNone

def innerGuard (cfg : FloodConfig) (g : Generator) : Bool :=
  decide (g.pending < cfg.batch) &&
    decide (g.issued < cfg.target) && g.stopReason.isNone

/- A signal comes at any time; else one kind of event does. -/
def step
    (cfg : FloodConfig)
    (g : Generator)
    (e : FloodEvent) : Generator :=
  match g.point, e with
  | _, .signal => { g with gStop := true }
  | .outer, .test =>
      if g.outerGuard cfg then { g with point := .issue }
      else { g with point := .hold }
  | .issue, .test =>
      if g.innerGuard cfg then g else g.leaveIssue
  | .issue, .attempt a =>
      if g.innerGuard cfg then g.attempt cfg a else g
  | .drain, .drained r => g.drain r
  | .hold, .test => if g.gStop then g.release else g
  | _, _ => g

/- What the summary reports, but for the time it took. -/
structure Summary where
  requested : Int
  established : Int
  heldOpen : Nat
  stopped : Option (String × Errno)

def summary (cfg : FloodConfig) (g : Generator) : Summary where
  requested := cfg.target
  established := g.established
  heldOpen := g.fds.length
  stopped := do
    let reason ← g.stopReason
    let errno ← g.stopErrno
    return (reason, errno)

end Generator

end SocketExchange

------------------------------------------------------------
-- Exact Accounts
------------------------------------------------------------

namespace SocketExchange

namespace Generator

/-
  What the kernel promises: a new socket has a descriptor
  that is not open, and `kq` reports sockets it waits for,
  each once.
-/
def Legal (g : Generator) : FloodEvent → Prop
| .attempt a => ∀ fd, a.socket = .ok fd → fd ∉ g.live
| .drained (.events cs) =>
    (cs.map Completion.ident).Nodup ∧
      ∀ c ∈ cs, c.ident ∈ g.watched
| _ => True

/-
  The vector holds the open sockets, each once, and the
  counters agree with it and with each other.
-/
structure Exact
    (cfg : FloodConfig)
    (b : Accounts) : Prop where
  once : b.fds.Nodup
  held : ∀ fd, fd ∈ b.fds ↔ fd ∈ b.live
  size : (b.fds.length : Int) = b.issued
  balance :
    b.issued = b.established + b.pending + b.failed
  pending_nonneg : 0 ≤ b.pending
  pending_le : b.pending ≤ cfg.batch
  issued_le : b.issued ≤ cfg.target

/-
  Each `pop_back` took a descriptor off the vector that was
  not open any more.
-/
def PopsClosed (b : Accounts) : Prop :=
  ∀ p ∈ b.pops,
    ∃ fd, p.1.getLast? = some fd ∧ fd ∉ p.2

/-
  The accounts are exact and the summary tells how many
  sockets are open; at the end none is.
-/
def Accounted
    (cfg : FloodConfig)
    (g : Generator) : Prop :=
  PopsClosed g.toAccounts ∧
    match g.point with
    | .undefined => False
    | .done => g.live = ∅
    | _ =>
        Exact cfg g.toAccounts ∧
          (g.summary cfg).heldOpen = g.live.card

/- A `connect` that fails at once. -/
def ConnectFails
    (cfg : FloodConfig)
    (g : Generator) : FloodEvent → Prop
| .attempt a =>
    g.point = .issue ∧ g.innerGuard cfg = true ∧
      (∃ fd, a.socket = .ok fd) ∧
      g.bindError cfg a = none ∧
      ∃ errno, a.connect = some errno ∧
        errno ≠ .einprogress
| _ => False

/-
  What holds as long as no `connect` fails at once: the
  accounts are exact, `pop_back` is not called, and no more
  sockets are watched than are pending.
-/
structure Balanced
    (cfg : FloodConfig)
    (b : Accounts) : Prop extends Exact cfg b where
  pops : b.pops = []
  watched : (b.watched.card : Int) ≤ b.pending

/- The vector is as long as there are sockets open. -/
theorem Exact.length_fds
    {cfg : FloodConfig}
    {b : Accounts}
    (hExact : Exact cfg b) :
    b.fds.length = b.live.card := by
  have hSet : b.fds.toFinset = b.live := by
    ext fd
    rw [List.mem_toFinset]
    exact hExact.held fd
  rw [← hSet, List.toFinset_card_of_nodup hExact.once]

end Generator

end SocketExchange

------------------------------------------------------------
-- What The Steps Do To The Accounts
------------------------------------------------------------

namespace SocketExchange

namespace Generator

variable {cfg : FloodConfig}

/- A completion moves one connect out of `pending`. -/
theorem Balanced.complete
    {g : Generator}
    (hBalanced : Balanced cfg g.toAccounts)
    {c : Completion}
    (hWatched : c.ident ∈ g.watched) :
    Balanced cfg (g.complete c).toAccounts := by
  have hBalance := hBalanced.balance
  have hCard := Finset.card_erase_add_one hWatched
  have hFew := hBalanced.watched
  have hMost := hBalanced.pending_le
  have hSome :
      ((g.watched.erase c.ident).card : Int) ≤
        g.pending - 1 := by
    omega
  unfold Generator.complete
  cases c.soerr with
  | none =>
      refine
        ⟨⟨hBalanced.once, hBalanced.held, hBalanced.size,
          ?_, ?_, ?_, hBalanced.issued_le⟩,
          hBalanced.pops, hSome⟩
      · dsimp only
        omega
      · dsimp only
        omega
      · dsimp only
        omega
  | some errno =>
      refine
        ⟨⟨hBalanced.once, hBalanced.held, hBalanced.size,
          ?_, ?_, ?_, hBalanced.issued_le⟩,
          hBalanced.pops, hSome⟩
      · dsimp only [stop]
        push_cast
        omega
      · dsimp only [stop]
        omega
      · dsimp only [stop]
        omega

theorem complete_watched
    (g : Generator)
    (c : Completion) :
    (g.complete c).watched = g.watched.erase c.ident := by
  unfold Generator.complete
  cases c.soerr with
  | none => rfl
  | some errno => rfl

theorem Balanced.completeAll
    {g : Generator}
    (hBalanced : Balanced cfg g.toAccounts)
    {cs : List Completion}
    (hOnce : (cs.map Completion.ident).Nodup)
    (hWatched : ∀ c ∈ cs, c.ident ∈ g.watched) :
    Balanced cfg
      (cs.foldl Generator.complete g).toAccounts := by
  induction cs generalizing g with
  | nil => exact hBalanced
  | cons c cs ih =>
      rw [List.map_cons, List.nodup_cons] at hOnce
      apply ih (hBalanced.complete (hWatched c
        List.mem_cons_self)) hOnce.2
      intro d hMem
      rw [complete_watched, Finset.mem_erase]
      refine ⟨?_, hWatched d (List.mem_cons_of_mem c hMem)⟩
      intro hEq
      apply hOnce.1
      rw [← hEq]
      exact List.mem_map_of_mem hMem

/- A new socket that is kept. -/
theorem Exact.push
    {b : Accounts}
    (hExact : Exact cfg b)
    {fd : Fd}
    (hNew : fd ∉ b.live) :
    (b.fds ++ [fd]).Nodup ∧
      (∀ d, d ∈ b.fds ++ [fd] ↔ d ∈ insert fd b.live) ∧
      ((b.fds ++ [fd]).length : Int) = b.issued + 1 := by
  refine ⟨?_, ?_, ?_⟩
  · rw [← List.concat_eq_append]
    apply List.Nodup.concat _ hExact.once
    rw [hExact.held]
    exact hNew
  · intro d
    rw [List.mem_append, List.mem_singleton,
      Finset.mem_insert, hExact.held, or_comm]
  · rw [List.length_append, List.length_singleton]
    push_cast
    rw [hExact.size]

theorem Balanced.connected
    {b : Accounts}
    (hBalanced : Balanced cfg b)
    {fd : Fd}
    (hNew : fd ∉ b.live)
    (hRoom : b.issued < cfg.target) :
    Balanced cfg
      { b with
        live := insert fd b.live
        fds := b.fds ++ [fd]
        issued := b.issued + 1
        established := b.established + 1 } := by
  rcases hBalanced.toExact.push hNew with
    ⟨hOnce, hHeld, hSize⟩
  refine
    ⟨⟨hOnce, hHeld, hSize, ?_, hBalanced.pending_nonneg,
      hBalanced.pending_le, ?_⟩,
      hBalanced.pops, hBalanced.watched⟩
  · have hBalance := hBalanced.balance
    dsimp only
    omega
  · dsimp only
    omega

theorem Balanced.inProgress
    {b : Accounts}
    (hBalanced : Balanced cfg b)
    {fd : Fd}
    (hNew : fd ∉ b.live)
    (hIssued : b.issued < cfg.target)
    (hPending : b.pending < cfg.batch)
    (added : Bool) :
    Balanced cfg
      { b with
        live := insert fd b.live
        watched :=
          if added then insert fd b.watched else b.watched
        fds := b.fds ++ [fd]
        issued := b.issued + 1
        pending := b.pending + 1 } := by
  rcases hBalanced.toExact.push hNew with
    ⟨hOnce, hHeld, hSize⟩
  have hNonneg := hBalanced.pending_nonneg
  refine
    ⟨⟨hOnce, hHeld, hSize, ?_, ?_, ?_, ?_⟩,
      hBalanced.pops, ?_⟩
  · have hBalance := hBalanced.balance
    dsimp only
    omega
  · dsimp only
    omega
  · dsimp only
    omega
  · dsimp only
    omega
  · have hFew := hBalanced.watched
    have hCard := Finset.card_insert_le fd b.watched
    dsimp only
    split
    · omega
    · omega

theorem attempt_of_bound
    {g : Generator}
    {a : Attempt}
    {fd : Fd}
    (hSocket : a.socket = .ok fd)
    (hBind : g.bindError cfg a = none) :
    g.attempt cfg a =
      connect { g with live := insert fd g.live } fd a := by
  have hSource :
      bindError cfg { g with live := insert fd g.live } a =
        none := hBind
  unfold attempt
  rw [hSocket]
  dsimp only
  rw [hSource]

theorem attempt_of_unbound
    {g : Generator}
    {a : Attempt}
    {fd : Fd}
    {errno : Errno}
    (hSocket : a.socket = .ok fd)
    (hNew : fd ∉ g.live)
    (hBind : g.bindError cfg a = some errno) :
    g.attempt cfg a =
      leaveIssue (g.stop (bindReason errno) errno) := by
  have hSource :
      bindError cfg { g with live := insert fd g.live } a =
        some errno := hBind
  unfold attempt
  rw [hSocket]
  dsimp only
  rw [hSource]
  dsimp only [stop]
  rw [Finset.erase_insert hNew]

/- The program is in one of its loops, or holds. -/
def Working (p : FloodPoint) : Prop :=
  p ≠ .undefined ∧ p ≠ .done

theorem leaveIssue_working (g : Generator) :
    Working g.leaveIssue.point := by
  unfold leaveIssue
  dsimp only
  split
  · exact ⟨by decide, by decide⟩
  · exact ⟨by decide, by decide⟩

/-
  An attempt whose `connect` does not fail at once. The
  socket is kept, or it was closed again or never opened.
-/
theorem Balanced.attempt
    {g : Generator}
    (hBalanced : Balanced cfg g.toAccounts)
    {a : Attempt}
    (hPoint : g.point = .issue)
    (hGuard : g.innerGuard cfg = true)
    (hLegal : Legal g (.attempt a))
    (hConnects : ¬ ConnectFails cfg g (.attempt a)) :
    Balanced cfg (g.attempt cfg a).toAccounts ∧
      Working (g.attempt cfg a).point := by
  have hRoom :
      (g.pending < cfg.batch ∧ g.issued < cfg.target) ∧
        g.stopReason.isNone = true := by
    simpa [innerGuard] using hGuard
  have hIssue : Working g.point := by
    rw [hPoint]
    exact ⟨by decide, by decide⟩
  cases hSocket : a.socket with
  | error errno =>
      unfold Generator.attempt
      rw [hSocket]
      exact ⟨hBalanced, leaveIssue_working _⟩
  | ok fd =>
      have hNew : fd ∉ g.live := hLegal fd hSocket
      cases hBind : g.bindError cfg a with
      | some errno =>
          rw [attempt_of_unbound hSocket hNew hBind]
          exact ⟨hBalanced, leaveIssue_working _⟩
      | none =>
          rw [attempt_of_bound hSocket hBind]
          unfold connect
          cases hConnect : a.connect with
          | none =>
              exact
                ⟨hBalanced.connected hNew hRoom.1.2, hIssue⟩
          | some errno =>
              by_cases hProgress : errno = .einprogress
              · subst hProgress
                exact
                  ⟨hBalanced.inProgress hNew hRoom.1.2
                    hRoom.1.1 a.added, hIssue⟩
              · exact absurd
                  ⟨hPoint, hGuard, ⟨fd, hSocket⟩, hBind,
                    errno, hConnect, hProgress⟩
                  hConnects

end Generator

end SocketExchange

------------------------------------------------------------
-- Runs Of The Generator
------------------------------------------------------------

namespace SocketExchange

namespace Generator

variable {cfg : FloodConfig}

/- Balanced while it runs, and without sockets at the end. -/
def Safe (cfg : FloodConfig) (g : Generator) : Prop :=
  match g.point with
  | .undefined => False
  | .done => g.pops = [] ∧ g.live = ∅
  | _ => Balanced cfg g.toAccounts

theorem Balanced.safe
    {g : Generator}
    (hBalanced : Balanced cfg g.toAccounts)
    (hWorking : Working g.point) :
    Safe cfg g := by
  unfold Safe
  split
  · next hPoint => exact hWorking.1 hPoint
  · next hPoint => exact absurd hPoint hWorking.2
  · exact hBalanced

theorem Safe.balanced
    {g : Generator}
    (hSafe : Safe cfg g)
    (hNotDone : g.point ≠ .done) :
    Balanced cfg g.toAccounts := by
  unfold Safe at hSafe
  split at hSafe
  · cases hSafe
  · next hPoint => exact absurd hPoint hNotDone
  · exact hSafe

theorem Safe.accounted
    {g : Generator}
    (hSafe : Safe cfg g) :
    Accounted cfg g := by
  unfold Safe at hSafe
  unfold Accounted PopsClosed
  split at hSafe
  · cases hSafe
  · rw [hSafe.1]
    exact ⟨List.forall_mem_nil _, hSafe.2⟩
  · rw [hSafe.pops]
    refine ⟨List.forall_mem_nil _, ?_⟩
    exact ⟨hSafe.toExact, hSafe.toExact.length_fds⟩

theorem safe_start
    {g : Generator}
    (hBatch : 1 ≤ cfg.batch)
    (hStart : start cfg = some g) :
    Safe cfg g := by
  unfold start at hStart
  split at hStart
  · next hTarget =>
      injection hStart with hInit
      subst hInit
      refine
        ⟨⟨List.nodup_nil, ?_, rfl, rfl, Int.le_refl 0, ?_,
          hTarget.1⟩, rfl, Int.le_refl 0⟩
      · intro fd
        simp
      · dsimp only
        omega
  · cases hStart

/- Closing the vector closes every socket it holds. -/
theorem mem_foldl_erase
    (fds : List Fd)
    (live : Finset Fd)
    (fd : Fd) :
    fd ∈ fds.foldl Finset.erase live ↔
      fd ∈ live ∧ fd ∉ fds := by
  induction fds generalizing live with
  | nil => simp
  | cons d fds ih =>
      rw [List.foldl_cons, ih, Finset.mem_erase,
        List.mem_cons, not_or]
      tauto

theorem Balanced.release_live
    {g : Generator}
    (hBalanced : Balanced cfg g.toAccounts) :
    g.release.live = ∅ := by
  apply Finset.eq_empty_of_forall_notMem
  intro fd hMem
  rcases (mem_foldl_erase g.fds g.live fd).mp hMem with
    ⟨hLive, hNot⟩
  exact hNot ((hBalanced.held fd).mpr hLive)

theorem safe_step
    {g : Generator}
    {e : FloodEvent}
    (hSafe : Safe cfg g)
    (hLegal : Legal g e)
    (hConnects : ¬ ConnectFails cfg g e) :
    Safe cfg (g.step cfg e) := by
  unfold step
  split
  · exact hSafe
  · next hPoint =>
      have hBalanced := hSafe.balanced (by simp [hPoint])
      split
      · exact hBalanced
      · exact hBalanced
  · next hPoint =>
      have hBalanced := hSafe.balanced (by simp [hPoint])
      split
      · exact hSafe
      · apply Balanced.safe
        · exact hBalanced
        · exact leaveIssue_working g
  · next a hPoint =>
      have hBalanced := hSafe.balanced (by simp [hPoint])
      split
      · next hGuard =>
          rcases hBalanced.attempt hPoint hGuard hLegal
              hConnects with ⟨hNext, hWorking⟩
          exact hNext.safe hWorking
      · exact hSafe
  · next r hPoint =>
      have hBalanced := hSafe.balanced (by simp [hPoint])
      cases r with
      | eintr => exact hBalanced
      | error => exact hBalanced
      | events cs =>
          exact hBalanced.completeAll hLegal.1 hLegal.2
  · next hPoint =>
      have hBalanced := hSafe.balanced (by simp [hPoint])
      split
      · exact ⟨hBalanced.pops, hBalanced.release_live⟩
      · exact hSafe
  · exact hSafe

theorem popBack_pops (g : Generator) :
    g.popBack.pops = g.pops ++ [(g.fds, g.live)] := by
  unfold popBack
  dsimp only
  split
  · rfl
  · rfl

theorem connect_of_hard
    {g : Generator}
    {fd : Fd}
    {a : Attempt}
    {errno : Errno}
    (hConnect : a.connect = some errno)
    (hHard : errno ≠ .einprogress) :
    g.connect fd a =
      popBack
        { g.stop (connectReason errno) errno with
          live := g.live.erase fd } := by
  unfold connect
  rw [hConnect]
  split
  · next hNone => cases hNone
  · next hSome =>
      injection hSome with hEq
      exact absurd hEq hHard
  · next hSome =>
      injection hSome with hEq
      subst hEq
      rfl

/-
  A `connect` that fails at once. The vector does not hold
  the socket that is closed, so that `pop_back` takes an
  open one off it, or finds it empty.
-/
theorem not_accounted_of_connectFails
    {g : Generator}
    {e : FloodEvent}
    (hSafe : Safe cfg g)
    (hLegal : Legal g e)
    (hFails : ConnectFails cfg g e) :
    ¬ Accounted cfg (g.step cfg e) := by
  cases e with
  | attempt a =>
      rcases hFails with
        ⟨hPoint, hGuard, ⟨fd, hSocket⟩, hBind, errno,
          hConnect, hHard⟩
      have hBalanced := hSafe.balanced (by simp [hPoint])
      have hNew : fd ∉ g.live := hLegal fd hSocket
      have hPops :
          (g.fds, (insert fd g.live).erase fd) ∈
            (g.step cfg (.attempt a)).pops := by
        unfold step
        rw [hPoint]
        dsimp only
        rw [if_pos hGuard]
        rw [attempt_of_bound hSocket hBind]
        rw [connect_of_hard hConnect hHard, popBack_pops]
        exact List.mem_append_right _
          (List.mem_singleton_self _)
      intro hAccounted
      rcases hAccounted.1 _ hPops with ⟨last, hLast, hClosed⟩
      rw [Finset.erase_insert hNew] at hClosed
      apply hClosed
      exact (hBalanced.held last).mp
        (List.mem_of_getLast? hLast)
  | _ => exact absurd hFails id

end Generator

end SocketExchange

------------------------------------------------------------
-- When The Accounts Are Exact
------------------------------------------------------------

namespace SocketExchange

namespace Generator

/-
  For every target, batch and list of source addresses and
  whatever the kernel answers: the accounts are exact all
  along, exactly when no `connect` fails at once.
-/
theorem accounted_iff
    {cfg : FloodConfig}
    {g : Generator}
    {events : List FloodEvent}
    (hBatch : 1 ≤ cfg.batch)
    (hStart : start cfg = some g)
    (hLegal : Machine.Permitted (step cfg) Legal g events) :
    (∀ pre post, events = pre ++ post →
      Accounted cfg (Machine.run (step cfg) g pre)) ↔
      Machine.Permitted (step cfg)
        (fun g e => ¬ ConnectFails cfg g e) g events := by
  apply Machine.good_throughout_iff (Safe cfg)
    (Accounted cfg)
  · exact fun g hSafe => hSafe.accounted
  · exact fun g e hSafe hLegal hConnects =>
      safe_step hSafe hLegal hConnects
  · intro g e hSafe hLegal hNot
    rw [not_not] at hNot
    exact not_accounted_of_connectFails hSafe hLegal hNot
  · exact safe_start hBatch hStart
  · exact hLegal

/- One connect in progress, completed, held and released. -/
theorem accounted_one :
    ∃ g, start ⟨1, 1, []⟩ = some g ∧
      ∀ pre post,
        [.test,
            .attempt
              ⟨.ok 4, fun _ => none, some .einprogress, true⟩,
            .test, .drained (.events [⟨4, none⟩]), .test,
            .signal, .test] =
          pre ++ post →
        Accounted ⟨1, 1, []⟩
          (Machine.run (step ⟨1, 1, []⟩) g pre) := by
  refine ⟨_, rfl, ?_⟩
  refine (accounted_iff (Int.le_refl 1) rfl ?_).mpr ?_
  · refine ⟨trivial, ?_, trivial, ?_, trivial, trivial,
      trivial, trivial⟩
    · exact fun fd _ => Finset.notMem_empty fd
    · exact ⟨by decide, by decide⟩
  · refine ⟨id, ?_, id, id, id, id, id, trivial⟩
    rintro ⟨_, _, _, _, errno, hSome, hHard⟩
    injection hSome with hEq
    exact hHard hEq.symm

/- The second of two connects is refused at once. -/
theorem refused_pops_open :
    ¬ ∀ (cfg : FloodConfig) (g : Generator)
        (events : List FloodEvent),
      1 ≤ cfg.batch → start cfg = some g →
        Machine.Permitted (step cfg) Legal g events →
          Accounted cfg (Machine.run (step cfg) g events) := by
  intro hAlways
  have hAccounted :=
    hAlways ⟨2, 1, []⟩ _
      [.test, .attempt ⟨.ok 4, fun _ => none, none, true⟩,
        .attempt
          ⟨.ok 5, fun _ => none, some .econnrefused, true⟩]
      (Int.le_refl 1) rfl
      ⟨trivial, fun fd _ => Finset.notMem_empty fd,
        by
          intro fd hFd
          injection hFd with hEq
          subst hEq
          decide,
        trivial⟩
  rcases hAccounted.1 ([4], {4}) List.mem_cons_self with
    ⟨fd, hLast, hClosed⟩
  injection hLast with hEq
  subst hEq
  exact hClosed (Finset.mem_singleton_self 4)

end Generator

end SocketExchange

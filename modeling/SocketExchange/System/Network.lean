import SocketExchange.Client.Session
import SocketExchange.Server.Delivery
import SocketExchange.Service.Statement
import SocketExchange.System.Intake

/-
  The server and all its clients, at work together.

  Any number of client programs run beside the server, and
  their turns and the events of the server interleave at
  will. Between a client and its connection there is a
  stream in each direction, which loses nothing in the
  middle, adds nothing and keeps the order; how much of it
  has come through at any moment is left open. The client of
  the connection with owner id `k` is user `k`.

  What the users see is the service: each hears of it what
  it said itself, and is shown what the service told it.

  Main declarations:
    * `Network`, `Network.step`, `Network.Allowed`
    * `Network.Flowing`
    * `Service.mailOf`
    * `Network.users_see_the_service`
    * `Network.quiet_user_sees_all`
-/

------------------------------------------------------------
-- The Composed Machine
------------------------------------------------------------

namespace SocketExchange

/-
  The server, all that it received, and the clients by the
  owner ids of their connections.
-/
structure Network where
  server : Server
  given : List Reading
  users : Int → Option Session

namespace Network

inductive Event where
| server : Step → Event
| starts : Int → Program → List (List SendResult) → Event
| turns : Int → Select → Event

def init (lfd : Fd) (env : Env) : Network where
  server := Server.init lfd env
  given := []
  users := fun _ => none

/- One of the parties does its next step. -/
def step (n : Network) : Event → Network
| .server i =>
    { n with
      server := n.server.step i
      given := n.given ++ n.server.intake i }
| .starts k p answers =>
    { n with
      users :=
        Function.update n.users k
          (some (Session.start p answers)) }
| .turns k select =>
    match n.users k with
    | none => n
    | some u =>
        { n with
          users :=
            Function.update n.users k
              (some (u.turn select)) }

/- What user `k` has sent so far. -/
def sentBy (n : Network) (k : Int) : Bytes :=
  match n.users k with
  | none => []
  | some u => u.client.sent

/-
  What a step may rely on: a client starts once, accept
  returns fresh descriptors, and either end receives a first
  part of what the other has sent.
-/
def Allowed (n : Network) : Event → Prop
| .server i =>
    Server.Legal n.server i ∧
      ∀ k,
        receivedBytes k (n.given ++ n.server.intake i) <+:
          n.sentBy k
| .starts k _ _ => n.users k = none
| .turns k select =>
    ∀ u, n.users k = some u →
      (u.turn select).client.received <+:
        sentBytes k n.server.log

/- The states that any interleaving can reach. -/
def Reached (n : Network) : Prop :=
  ∃ lfd env events,
    Machine.Permitted step Allowed (init lfd env) events ∧
      n = Machine.run step (init lfd env) events

end Network

end SocketExchange

------------------------------------------------------------
-- Streams In Both Directions
------------------------------------------------------------

namespace SocketExchange

/- A turn of the loop takes nothing back that was sent. -/
theorem Client.turn_sent
    (c : Client)
    (select : Select) :
    c.sent <+: (c.turn select).sent := by
  have hStdin :
      ∀ sends stdin, c.sent <+: (c.onStdin sends stdin).sent
      := by
    intro sends stdin
    unfold Client.onStdin
    split
    · exact List.prefix_refl _
    · next r =>
        split
        · cases r with
          | line text => exact List.prefix_append _ _
          | eof => exact List.prefix_append _ _
        · exact List.prefix_refl _
  unfold Client.turn
  split
  · cases select with
    | eintr => exact List.prefix_refl _
    | error => exact List.prefix_refl _
    | ready stdin sends socket =>
        dsimp only
        split
        · rw [(Session.onSocket_keeps _ socket).2]
          exact hStdin sends stdin
        · exact hStdin sends stdin
  · exact List.prefix_refl _

namespace Network

/-
  Between the server and every user, each stream has come
  through up to some point.
-/
structure Flowing (n : Network) : Prop where
  reachable : Server.Reachable n.server
  intake : Server.Intake n.server n.given
  arrived :
    ∀ k, receivedBytes k n.given <+: n.sentBy k
  users :
    ∀ k u, n.users k = some u →
      u.Sound ∧
        u.client.received <+: sentBytes k n.server.log

variable {n : Network}

theorem flowing_init (lfd : Fd) (env : Env) :
    Flowing (init lfd env) where
  reachable := ⟨lfd, env, [], trivial, rfl⟩
  intake := Server.intake_init lfd env
  arrived := fun _ => List.prefix_refl _
  users := by
    intro k u hUser
    cases hUser

/- A client that sent more than it had. -/
theorem Flowing.user
    {u : Session}
    {k : Int}
    (hFlowing : Flowing n)
    (hGrows : n.sentBy k <+: u.client.sent)
    (hSound : u.Sound)
    (hTcp :
      u.client.received <+: sentBytes k n.server.log) :
    Flowing
      { n with
        users := Function.update n.users k (some u) } where
  reachable := hFlowing.reachable
  intake := hFlowing.intake
  arrived := by
    intro j
    unfold sentBy
    by_cases hEq : j = k
    · subst hEq
      dsimp only
      rw [Function.update_self]
      exact (hFlowing.arrived j).trans hGrows
    · dsimp only
      rw [Function.update_of_ne hEq]
      exact hFlowing.arrived j
  users := by
    intro j w hUser
    by_cases hEq : j = k
    · subst hEq
      dsimp only at hUser
      rw [Function.update_self] at hUser
      injection hUser with hUser
      subst hUser
      exact ⟨hSound, hTcp⟩
    · dsimp only at hUser
      rw [Function.update_of_ne hEq] at hUser
      exact hFlowing.users j w hUser

/- A client that has just started has received nothing. -/
theorem received_greet
    (u : Session)
    (texts : List Bytes)
    (answers : List (List SendResult)) :
    (u.greet texts answers).client.received =
      u.client.received := by
  induction texts generalizing u answers with
  | nil => rfl
  | cons text texts ih =>
      unfold Session.greet
      dsimp only
      split
      · rw [ih]
        rfl
      · rfl

theorem Flowing.step
    {e : Event}
    (hFlowing : Flowing n)
    (hAllowed : Allowed n e) :
    Flowing (n.step e) := by
  cases e with
  | server i =>
      rcases hAllowed with ⟨hLegal, hTcp⟩
      have hReg := hFlowing.reachable.registry
      have hTurns := Server.step_turns hReg hLegal
      have hOne :
          Machine.Permitted Server.step Server.Legal
            n.server [i] :=
        ⟨hLegal, trivial⟩
      rcases hFlowing.reachable.run hOne with
        ⟨hReach, hGrows⟩
      have hIntake :
          Server.Registry (n.server.step i) ∧
            Server.Intake (n.server.step i)
              (n.given ++ n.server.intake i) :=
        hTurns.invariant
          (fun s given =>
            Server.Registry s ∧ Server.Intake s given)
          (fun _ _ _ _ hInv hTurn =>
            ⟨hTurn.registry hInv.1,
              hInv.2.turn hInv.1 hTurn⟩)
          ⟨hReg, hFlowing.intake⟩
      refine ⟨hReach, hIntake.2, hTcp, ?_⟩
      intro k u hUser
      rcases hFlowing.users k u hUser with ⟨hSound, hSeen⟩
      refine ⟨hSound, hSeen.trans ?_⟩
      rcases hGrows with ⟨more, hMore⟩
      have hLog : (n.server.step i).log =
          n.server.log ++ more := hMore.symm
      change _ <+: sentBytes k (n.server.step i).log
      rw [hLog, sentBytes_append]
      exact List.prefix_append _ _
  | starts k p answers =>
      have hNone : n.users k = none := hAllowed
      refine hFlowing.user ?_ (Session.sound_start p answers)
        ?_
      · unfold sentBy
        rw [hNone]
        exact List.nil_prefix
      · unfold Session.start
        rw [received_greet]
        exact List.nil_prefix
  | turns k select =>
      unfold Network.step
      dsimp only
      cases hUser : n.users k with
      | none => exact hFlowing
      | some u =>
          refine hFlowing.user ?_
            ((hFlowing.users k u hUser).1.turn select)
            (hAllowed u hUser)
          unfold sentBy
          rw [hUser]
          exact Client.turn_sent u.client select

theorem Reached.flowing
    (hReached : Reached n) :
    Flowing n := by
  rcases hReached with ⟨lfd, env, events, hAllowed, rfl⟩
  exact Machine.run_invariant Flowing
    (fun _ _ hFlowing hAllowed => hFlowing.step hAllowed)
    (flowing_init lfd env) hAllowed

end Network

end SocketExchange

------------------------------------------------------------
-- What The Users See
------------------------------------------------------------

namespace SocketExchange

/- The lines that a party says among some inputs. -/
def linesFrom (k : Int) (inputs : List Input) : List Bytes :=
  inputs.filterMap fun
    | .say owner text =>
        if owner = k then some text else none
    | _ => none

/- The service hears what the handlers were given. -/
theorem linesFrom_inputsOf (k : Int) (log : List Obs) :
    linesFrom k (inputsOf log) = handledLines k log := by
  unfold linesFrom inputsOf handledLines
  rw [List.filterMap_filterMap]
  congr 1
  funext e
  cases e <;> rfl

namespace Service

/- All that the service told a party, or no one. -/
def mailOf (v : Service) (k : Int) : List Msg :=
  match v.parties.find? fun p => p.id = k with
  | none => []
  | some p => p.mail

theorem mailOf_of_mem
    {v : Service}
    {p : Party}
    (hNodup : (v.parties.map Party.id).Nodup)
    (hp : p ∈ v.parties) :
    v.mailOf p.id = p.mail := by
  unfold mailOf
  cases hFind :
      v.parties.find? fun q => decide (q.id = p.id) with
  | none =>
      have hNone := List.find?_eq_none.mp hFind p hp
      simp at hNone
  | some q =>
      have hIs : q.id = p.id := by
        simpa using List.find?_some hFind
      have hSame : q = p :=
        List.inj_on_of_nodup_map hNodup
          (List.mem_of_find?_eq_some hFind) hp hIs
      dsimp only
      rw [hSame]

end Service

namespace Server

variable {s : Server} {v : Service} {k : Int}

/- What was queued on a connection, the service told it. -/
theorem Refines.pushed_mail
    (hReg : Registry s)
    (hHist : History s)
    (hRef : Refines s v) :
    pushedTo k s.log <+: v.mailOf k ∧
      ∀ (fd : Fd) (c : Conn), s.conns[fd]? = some c →
        c.dead = false → c.ownerId = k →
          pushedTo k s.log = v.mailOf k := by
  have hNodup : (v.parties.map Party.id).Nodup := by
    rw [hRef.ids]
    exact acceptedOwners_nodup hHist.traced
  constructor
  · by_cases hOld : k ∈ acceptedOwners s.log
    · rw [← hRef.ids] at hOld
      rcases List.mem_map.mp hOld with ⟨p, hp, rfl⟩
      rw [Service.mailOf_of_mem hNodup hp]
      cases hRef.stands p hp with
      | here _ _ _ _ hMail =>
          rw [hMail]
      | gone _ _ hMail => exact hMail
    · have hNone : pushedTo k s.log = [] := by
        apply pushedTo_of_other
        intro e he hOwner
        rcases List.append_of_mem he with
          ⟨pre, post, hSplit⟩
        have hJust := hHist.traced pre e post hSplit
        refine hOld ?_
        rw [hSplit, acceptedOwners_append]
        rcases hJust.accepted hOwner with
          ⟨f, rfl⟩ | hBefore
        · exact List.mem_append_right _
            (by simp [acceptedOwners])
        · exact List.mem_append_left _ hBefore
      rw [hNone]
      exact List.nil_prefix
  · rintro fd c hConn hLive rfl
    rcases hRef.party_of hReg hHist hConn hLive with
      ⟨p, hp, hHere, hP⟩
    have hMail := Service.mailOf_of_mem hNodup hp
    rw [hP.id] at hMail
    rw [hMail]
    cases hRef.stands p hp with
    | here _ _ _ _ hMail =>
        rw [← hP.id]
        exact hMail
    | gone hGone _ _ =>
        rw [hHere] at hGone
        cases hGone

end Server

namespace Network

open LineBuffer

variable {n : Network} {k : Int} {u : Session}

/-
  What the users see is the service, as long as the exchange
  has ids left. However the turns of the clients and the
  events of the server interleave, and however the network
  cuts the streams: the service hears of each user, in
  order, a first part of the lines that the user said; and
  the screen of the user shows, in order and unchanged, a
  first part of what the service, run on all that it heard,
  told that user.
-/
theorem users_see_the_service
    (hReached : Reached n)
    (hRoom : submits (callsOf n.server.log) < 2 ^ 32) :
    let heard := inputsOf n.server.log
    let v := Service.start.after heard
    ∀ k u, n.users k = some u →
      linesFrom k heard <+: u.lines ∧
        u.client.printed <+: (v.mailOf k).map Msg.line := by
  intro heard v k u hUser
  have hFlowing := hReached.flowing
  have hReach := hFlowing.reachable
  have hRef : Server.Refines n.server v :=
    hReach.settled.refines hRoom
  rcases hFlowing.users k u hUser with ⟨hSound, hSeen⟩
  constructor
  · rcases hFlowing.intake.each k with ⟨rest, hConsumed⟩
    have hArrived := hFlowing.arrived k
    unfold sentBy at hArrived
    rw [hUser] at hArrived
    have hSaid := hArrived.trans hSound.sent
    rw [linesFrom_inputsOf]
    exact hConsumed.first.trans
      ((Cut.pieces_prefix hSaid).map stripCr)
  · have hMail :=
      (hRef.pushed_mail (k := k) hReach.registry
        hReach.history).1
    rw [hSound.upToDate.printed]
    exact (hReach.streamed hSeen).trans
      (hMail.map Msg.line)

/-
  Nothing is on its way between a user and its connection:
  the client waits for input, its connection is open, and
  either end has received all that the other sent.
-/
structure Quiet
    (n : Network)
    (k : Int)
    (u : Session)
    (c : Conn) : Prop where
  user : n.users k = some u
  running : u.client.running = true
  stdinOpen : u.client.stdinOpen = true
  conn : ∃ fd : Fd, n.server.conns[fd]? = some c
  live : c.dead = false
  going : c.closing = false
  owner : c.ownerId = k
  flushed : c.out.pending = 0
  heard : receivedBytes k n.given = u.client.sent
  seen : u.client.received = sentBytes k n.server.log

/- A quiet screen shows all that was queued. -/
theorem Flowing.screen
    {c : Conn}
    (hFlowing : Flowing n)
    (hQuiet : Quiet n k u c) :
    u.client.printed =
      (pushedTo k n.server.log).map Msg.line := by
  have hReach := hFlowing.reachable
  rcases hFlowing.users k u hQuiet.user with ⟨hSound, _⟩
  rcases hQuiet.conn with ⟨fd, hConn⟩
  have hEmpty : c.out.bytes = [] := by
    apply List.eq_nil_of_length_eq_zero
    rw [OutBuffer.bytes, List.length_drop]
    exact hQuiet.flushed
  have hStream :=
    hReach.flows.live fd c hConn hQuiet.live
  rw [hEmpty, List.append_nil, hQuiet.owner] at hStream
  rw [hSound.upToDate.printed, hQuiet.seen, hStream,
    hReach.queued_shown]

/-
  A quiet user sees all, as long as the exchange has ids
  left. When nothing is on its way between a user and its
  connection, the service has heard every line that the user
  said, and the screen of the user shows all that the
  service told it.
-/
theorem quiet_user_sees_all
    {c : Conn}
    (hReached : Reached n)
    (hRoom : submits (callsOf n.server.log) < 2 ^ 32)
    (hQuiet : Quiet n k u c) :
    let heard := inputsOf n.server.log
    let v := Service.start.after heard
    linesFrom k heard = u.lines ∧
      u.client.printed = (v.mailOf k).map Msg.line := by
  intro heard v
  have hFlowing := hReached.flowing
  have hReach := hFlowing.reachable
  have hRef : Server.Refines n.server v :=
    hReach.settled.refines hRoom
  rcases hFlowing.users k u hQuiet.user with ⟨hSound, _⟩
  rcases hQuiet.conn with ⟨fd, hConn⟩
  constructor
  · have hConsumed :=
      hFlowing.intake.live fd c hConn hQuiet.live
    have hDrained :=
      hReach.drained fd c hConn hQuiet.live hQuiet.going
    have hSaid :
        receivedBytes c.ownerId n.given = u.said := by
      rw [hQuiet.owner, hQuiet.heard]
      exact hSound.all hQuiet.running hQuiet.stdinOpen
    have hAll := (hConsumed.all hDrained).1
    rw [hSaid, hQuiet.owner] at hAll
    rw [linesFrom_inputsOf]
    exact hAll
  · have hMail :=
      (hRef.pushed_mail (k := k) hReach.registry
        hReach.history).2 fd c hConn hQuiet.live hQuiet.owner
    rw [hFlowing.screen hQuiet, hMail]

/- Only one user has said anything so far. -/
theorem allowed_server
    {i : Step}
    (hLegal : Server.Legal n.server i)
    (hOnly :
      ∀ r ∈ n.given ++ n.server.intake i, r.1 = k)
    (hTcp :
      receivedBytes k (n.given ++ n.server.intake i) <+:
        n.sentBy k) :
    Allowed n (.server i) := by
  refine ⟨hLegal, ?_⟩
  intro j
  by_cases hEq : j = k
  · rw [hEq]
    exact hTcp
  · rw [receivedBytes_of_old
      (fun r hr hIs => hEq (hIs.symm.trans (hOnly r hr)))]
    exact List.nil_prefix

theorem allowed_turns
    {select : Select}
    (hTcp :
      (n.users k).all (fun u =>
        decide ((u.turn select).client.received <+:
          sentBytes k n.server.log)) = true) :
    Allowed n (.turns k select) := by
  intro u hUser
  rw [hUser] at hTcp
  exact of_decide_eq_true hTcp

/- A trader starts, logs in and places an order. -/
def placingEvents : List Event :=
  [.starts 1 (.trader (ascii "hal")) [[.sent 10]],
    .server (.connects 5),
    .server (.reads 5
      [.data ⟨ascii "LOGIN hal\n", by decide, by decide⟩]
      (fun _ => [.sent 3])),
    .turns 1 (.ready
      (some (.line (ascii "SELL JNST 5 100"))) [.sent 16]
      (some (.data ⟨ascii "OK\n", by decide, by decide⟩))),
    .server (.reads 5
      [.data ⟨ascii "SELL JNST 5 100\n", by decide,
        by decide⟩]
      (fun _ => [.sent 17])),
    .turns 1 (.ready none []
      (some (.data ⟨ascii "ORDER_ACCEPTED 0\n",
        by decide, by decide⟩)))]

def placed : Network :=
  Machine.run step (init 3 ⟨∅, fun _ => [], .sorted⟩)
    placingEvents

theorem placed_reached : Reached placed := by
  refine ⟨3, _, placingEvents, ?_, rfl⟩
  refine ⟨rfl, ?_, ?_, ?_, ?_, ?_, trivial⟩
  · exact allowed_server (k := 1)
      (fun _ => ⟨by decide, by decide, trivial⟩)
      (by decide) (by decide)
  · exact allowed_server (k := 1)
      (fun h => absurd h (by decide)) (by decide)
      (by decide)
  · exact allowed_turns (by decide)
  · exact allowed_server (k := 1)
      (fun h => absurd h (by decide)) (by decide)
      (by decide)
  · exact allowed_turns (by decide)

def placedUser : Session :=
  (placed.users 1).get (by decide)

def placedConn : Conn :=
  (placed.server.conns[(5 : Fd)]?).get (by decide)

theorem placed_quiet :
    Quiet placed 1 placedUser placedConn where
  user := (Option.some_get _).symm
  running := by decide
  stdinOpen := by decide
  conn := ⟨5, (Option.some_get _).symm⟩
  live := by decide
  going := by decide
  owner := by decide
  flushed := by decide
  heard := by decide
  seen := by decide

/- The screen shows a first part of what the service told. -/
theorem users_see_the_service_placing :
    [ascii "OK", ascii "ORDER_ACCEPTED 0"] <+:
      ((Service.start.after
        (inputsOf placed.server.log)).mailOf 1).map
          Msg.line := by
  have hUser : placed.users 1 = some placedUser :=
    (Option.some_get _).symm
  have hScreen :
      placedUser.client.printed =
        [ascii "OK", ascii "ORDER_ACCEPTED 0"] := by
    decide
  rw [← hScreen]
  exact (users_see_the_service placed_reached (by decide)
    1 placedUser hUser).2

/- It shows all of it. -/
theorem quiet_user_sees_all_placing :
    linesFrom 1 (inputsOf placed.server.log) =
      [ascii "LOGIN hal", ascii "SELL JNST 5 100"] := by
  have hLines :
      placedUser.lines =
        [ascii "LOGIN hal", ascii "SELL JNST 5 100"] := by
    decide
  rw [← hLines]
  exact (quiet_user_sees_all placed_reached (by decide)
    placed_quiet).1

end Network

end SocketExchange

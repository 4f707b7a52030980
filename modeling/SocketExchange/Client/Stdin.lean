import SocketExchange.Client.Loop
import SocketExchange.Machine.Run

/-
  The standard input of the client.

  `select` looks at the descriptor, but `std::getline` reads
  `std::cin`, which takes what the descriptor holds, a block
  at a time, into a buffer of its own. Here the turns of
  `client_loop` are taken apart into the calls that it makes,
  so that bytes can arrive between any two of them. The
  standard input stays open.

  Main declarations:
    * `Terminal`
    * `Terminal.step`
    * `Terminal.Stepped`
    * `Terminal.Held`
    * `Terminal.client_reached`
    * `Terminal.run_sent`
    * `Terminal.Caught`
    * `Terminal.Relieved`
    * `Terminal.lines_passed_iff`
-/

------------------------------------------------------------
-- The Calls Of The Loop
------------------------------------------------------------

namespace SocketExchange

/-
  Where the client waits: in `select`, in `getline` with the
  part of the line it has, or in `recv`. In `getline` it
  remembers whether `select` found the socket readable.
-/
inductive Point where
| select : Point
| getline : Bytes → Bool → Point
| recv : Point

/- A step of the client, or bytes for its standard input. -/
inductive ClientEvent where
| arrive : Bytes → ClientEvent
| woken : Bool → ClientEvent
| eintr : ClientEvent
| error : ClientEvent
| read : ClientEvent
| gotLine : List SendResult → ClientEvent
| recv : RecvResult → ClientEvent

/-
  `unread` is in the descriptor, `held` in the buffer of
  `std::cin`. All that has arrived, and the lines that were
  passed to `send_all`, are history only.
-/
structure Terminal where
  client : Client
  point : Point
  unread : Bytes
  held : Bytes
  arrived : Bytes
  passed : List Bytes

namespace Terminal

def init : Terminal where
  client := Client.init
  point := .select
  unread := []
  held := []
  arrived := []
  passed := []

/-
  `select` returns. The standard input is readable when its
  descriptor is; when nothing is readable, it does not
  return.
-/
def woken (t : Terminal) (socket : Bool) : Terminal :=
  if t.client.stdinOpen ∧ t.unread ≠ [] then
    { t with point := .getline [] socket }
  else if socket then { t with point := .recv }
  else t

/-
  `getline` has used up its buffer and fills it with a block
  of at most `block` bytes. It waits for the first of them.
-/
def fill
    (block : Nat)
    (t : Terminal)
    (text : Bytes)
    (socket : Bool) : Terminal :=
  if newline ∈ t.held ∨ t.unread = [] then t
  else
    { t with
      point := .getline (text ++ t.held) socket
      held := t.unread.take block
      unread := t.unread.drop block }

/-
  `getline` finds the newline in its buffer, and the line is
  sent. What is behind the newline stays in the buffer.
-/
def takeLine
    (t : Terminal)
    (text : Bytes)
    (socket : Bool)
    (sends : List SendResult) : Terminal :=
  if newline ∈ t.held then
    let line := text ++ t.held.takeWhile (· ≠ newline)
    { t with
      client := t.client.readStdin sends (.line line)
      point := if socket then .recv else .select
      held := (t.held.dropWhile (· ≠ newline)).tail
      passed := t.passed ++ [line] }
  else t

/- What the client does; it waits for one kind of event. -/
def act
    (block : Nat)
    (t : Terminal)
    (e : ClientEvent) : Terminal :=
  match t.point, e with
  | .select, .woken socket => t.woken socket
  | .select, .eintr =>
      { t with client := t.client.turn .eintr }
  | .select, .error =>
      { t with client := t.client.turn .error }
  | .getline text socket, .read => t.fill block text socket
  | .getline text socket, .gotLine sends =>
      t.takeLine text socket sends
  | .recv, .recv r =>
      { t with
        client := t.client.readSocket r
        point := .select }
  | _, _ => t

/- Bytes arrive at any time; the rest while the loop runs. -/
def step
    (block : Nat)
    (t : Terminal)
    (e : ClientEvent) : Terminal :=
  match e with
  | .arrive bytes =>
      { t with
        unread := t.unread ++ bytes
        arrived := t.arrived ++ bytes }
  | e => if t.client.running then t.act block e else t

/- The client is blocked in `select`, or about to be. -/
def AtSelect (t : Terminal) : Prop :=
  t.point = .select ∧ t.client.running = true

end Terminal

end SocketExchange

------------------------------------------------------------
-- What One Step Can Do
------------------------------------------------------------

namespace SocketExchange

namespace Terminal

/- The next thing `getline` does is to fill its buffer. -/
structure Fills (t : Terminal) : Prop where
  running : t.client.running = true
  inGetline : ∃ text socket, t.point = .getline text socket
  used : newline ∉ t.held
  ready : t.unread ≠ []

/- No byte arrives. -/
def Silent : ClientEvent → Prop
| .arrive bytes => bytes = []
| _ => True

/- One constructor for each thing that a step can do. -/
inductive Stepped
    (block : Nat)
    (t : Terminal) : ClientEvent → Terminal → Prop where
| idle
    {e : ClientEvent}
    (hSilent : Silent e)
    (hNotRead : e = .read → ¬ t.Fills) :
    Stepped block t e t
| arrive (bytes : Bytes) :
    Stepped block t (.arrive bytes)
      { t with
        unread := t.unread ++ bytes
        arrived := t.arrived ++ bytes }
| stdin
    (socket : Bool)
    (hPoint : t.point = .select)
    (hRunning : t.client.running = true)
    (hOpen : t.client.stdinOpen = true)
    (hReady : t.unread ≠ []) :
    Stepped block t (.woken socket)
      { t with point := .getline [] socket }
| socket
    (hPoint : t.point = .select)
    (hRunning : t.client.running = true) :
    Stepped block t (.woken true) { t with point := .recv }
| error
    (hPoint : t.point = .select)
    (hRunning : t.client.running = true) :
    Stepped block t .error
      { t with client := t.client.turn .error }
| read
    {text : Bytes}
    {socket : Bool}
    (hPoint : t.point = .getline text socket)
    (hFills : t.Fills) :
    Stepped block t .read
      { t with
        point := .getline (text ++ t.held) socket
        held := t.unread.take block
        unread := t.unread.drop block }
| gotLine
    {text line rest : Bytes}
    {socket : Bool}
    (sends : List SendResult)
    (hPoint : t.point = .getline text socket)
    (hRunning : t.client.running = true)
    (hHeld : t.held = line ++ newline :: rest)
    (hFree : newline ∉ line) :
    Stepped block t (.gotLine sends)
      { t with
        client :=
          t.client.readStdin sends (.line (text ++ line))
        point := if socket then .recv else .select
        held := rest
        passed := t.passed ++ [text ++ line] }
| recv
    (r : RecvResult)
    (hPoint : t.point = .recv)
    (hRunning : t.client.running = true) :
    Stepped block t (.recv r)
      { t with
        client := t.client.readSocket r
        point := .select }

theorem act_stepped
    (block : Nat)
    {t : Terminal}
    {e : ClientEvent}
    (hRunning : t.client.running = true)
    (hSilent : Silent e) :
    Stepped block t e (t.act block e) := by
  have hIdle :
      (e = .read → ¬ t.Fills) → Stepped block t e t :=
    fun hNotRead => .idle hSilent hNotRead
  unfold act
  split
  · next socket hPoint =>
      unfold woken
      split
      · next hStdin =>
          exact .stdin socket hPoint hRunning hStdin.1
            hStdin.2
      · split
        · next hSocket =>
            subst hSocket
            exact .socket hPoint hRunning
        · apply hIdle
          intro hRead
          cases hRead
  · next hPoint =>
      have hSame : t.client.turn .eintr = t.client := by
        unfold Client.turn
        rw [if_pos hRunning]
      rw [hSame]
      apply hIdle
      intro hRead
      cases hRead
  · next hPoint => exact .error hPoint hRunning
  · next text socket hPoint =>
      unfold fill
      split
      · next hNone =>
          apply hIdle
          rintro - ⟨_, _, hUsed, hReady⟩
          rcases hNone with hMem | hEmpty
          · exact hUsed hMem
          · exact hReady hEmpty
      · next hSome =>
          rw [not_or] at hSome
          exact .read hPoint
            ⟨hRunning, ⟨text, socket, hPoint⟩, hSome.1,
              hSome.2⟩
  · next text socket sends hPoint =>
      unfold takeLine
      split
      · next hMem =>
          rcases List.eq_append_cons_of_mem hMem with
            ⟨line, rest, hHeld, hFree⟩
          rcases Cut.takeWhile_cons hFree rest with
            ⟨hTake, hDrop⟩
          dsimp only
          rw [hHeld, hTake, hDrop, List.tail_cons]
          exact .gotLine sends hPoint hRunning hHeld hFree
      · apply hIdle
        intro hRead
        cases hRead
  · next r hPoint => exact .recv r hPoint hRunning
  · next hOther _ _ =>
      apply hIdle
      rintro rfl ⟨_, ⟨text, socket, hPoint⟩, _, _⟩
      exact hOther text socket hPoint rfl

theorem step_stepped
    (block : Nat)
    (t : Terminal)
    (e : ClientEvent) :
    Stepped block t e (t.step block e) := by
  unfold step
  split
  · next bytes => exact .arrive bytes
  · next hNotArrive =>
      have hSilent : Silent e := by
        cases e with
        | arrive bytes => exact absurd rfl (hNotArrive bytes)
        | _ => trivial
      split
      · next hRunning => exact act_stepped block hRunning hSilent
      · next hLeft =>
          apply Stepped.idle hSilent
          intro _ hFills
          exact hLeft hFills.running

end Terminal

end SocketExchange

------------------------------------------------------------
-- The Typed Stream
------------------------------------------------------------

namespace SocketExchange

/- What `getline` has of its line. -/
def Point.text : Point → Bytes
| .getline text _ => text
| _ => []

theorem Client.sendAll_sent
    {sends : List SendResult}
    {s : Bytes}
    (hSent : (Client.sendAll sends s).1 = true) :
    (Client.sendAll sends s).2 = s := by
  induction sends generalizing s with
  | nil =>
      cases s with
      | nil => rfl
      | cons c s => cases hSent
  | cons r rs ih =>
      cases s with
      | nil => rfl
      | cons c s =>
          cases r with
          | sent n =>
              unfold Client.sendAll at hSent ⊢
              split at hSent
              · next hPos =>
                  rw [if_pos hPos]
                  dsimp only at hSent ⊢
                  rw [ih hSent, List.take_append_drop]
              · cases hSent
          | eintr =>
              unfold Client.sendAll at hSent ⊢
              exact ih hSent
          | eagain => cases hSent
          | error => cases hSent

namespace Terminal

/-
  Every byte that arrived is in a line that was passed, in
  the line that `getline` is reading, in the buffer, or in
  the descriptor.
-/
structure Held (t : Terminal) : Prop where
  stdinOpen : t.client.stdinOpen = true
  stream :
    t.arrived =
      Cut.join newline t.passed ++
        (t.point.text ++ t.held ++ t.unread)
  free : ∀ l ∈ t.passed, newline ∉ l
  text : newline ∉ t.point.text
  sent :
    t.client.running = true →
      t.client.sent = Cut.join newline t.passed

theorem held_init : Held init where
  stdinOpen := rfl
  stream := rfl
  free := List.forall_mem_nil _
  text := List.not_mem_nil
  sent := fun _ => rfl

theorem readSocket_keeps
    (c : Client)
    (r : RecvResult) :
    (c.readSocket r).stdinOpen = c.stdinOpen ∧
      (c.readSocket r).sent = c.sent := by
  cases r with
  | data chunk =>
      unfold Client.readSocket
      dsimp only
      unfold Client.drain
      rw [Client.iterate_drainStep _ _ (Nat.le_refl _)]
      exact ⟨rfl, rfl⟩
  | _ => exact ⟨rfl, rfl⟩

theorem Stepped.held
    {block : Nat}
    {t t' : Terminal}
    {e : ClientEvent}
    (hStep : Stepped block t e t')
    (hHeld : Held t) :
    Held t' := by
  rcases hHeld with ⟨hOpen, hStream, hFree, hText, hSent⟩
  cases hStep with
  | idle => exact ⟨hOpen, hStream, hFree, hText, hSent⟩
  | arrive bytes =>
      refine ⟨hOpen, ?_, hFree, hText, hSent⟩
      dsimp only
      rw [hStream]
      simp only [List.append_assoc]
  | stdin socket hPoint =>
      rw [hPoint] at hStream
      exact ⟨hOpen, hStream, hFree, List.not_mem_nil, hSent⟩
  | socket hPoint =>
      rw [hPoint] at hStream
      exact ⟨hOpen, hStream, hFree, List.not_mem_nil, hSent⟩
  | error hPoint hRunning =>
      unfold Client.turn
      rw [if_pos hRunning]
      refine ⟨hOpen, hStream, hFree, hText, ?_⟩
      intro hStill
      cases hStill
  | read hPoint hFills =>
      rw [hPoint] at hStream hText
      refine ⟨hOpen, ?_, hFree, ?_, hSent⟩
      · dsimp only [Point.text] at hStream ⊢
        rw [hStream, List.append_assoc (_ ++ _) (List.take _ _),
          List.take_append_drop]
      · intro hMem
        rcases List.mem_append.mp hMem with hOld | hNew
        · exact hText hOld
        · exact hFills.used hNew
  | @gotLine text line rest socket sends hPoint hRunning
      hBuffer hLine =>
      rw [hPoint] at hStream hText
      rw [hBuffer] at hStream
      have hWhole : newline ∉ text ++ line := by
        intro hMem
        rcases List.mem_append.mp hMem with hOld | hNew
        · exact hText hOld
        · exact hLine hNew
      have hNext :
          (if socket then Point.recv else .select).text =
            [] := by
        cases socket <;> rfl
      refine ⟨hOpen, ?_, ?_, ?_, ?_⟩
      · dsimp only
        rw [hNext, hStream, Cut.join_append]
        simp [Cut.join, Point.text]
      · refine List.forall_mem_append.mpr ⟨hFree, ?_⟩
        intro l hMem
        rw [List.mem_singleton.mp hMem]
        exact hWhole
      · dsimp only
        rw [hNext]
        exact List.not_mem_nil
      · intro hStill
        dsimp only [Client.readStdin] at hStill ⊢
        rw [hSent hRunning, Client.sendAll_sent hStill,
          Cut.join_append]
        simp [Cut.join]
  | recv r hPoint hRunning =>
      rw [hPoint] at hStream
      rcases readSocket_keeps t.client r with
        ⟨hKeepOpen, hKeepSent⟩
      refine
        ⟨hKeepOpen.trans hOpen, hStream, hFree,
          List.not_mem_nil, ?_⟩
      intro _
      exact hKeepSent.trans (hSent hRunning)

theorem run_held
    (block : Nat)
    (events : List ClientEvent) :
    Held (Machine.run (step block) init events) := by
  refine Machine.run_keeps Held ?_ held_init events
  intro t e hHeld
  exact (step_stepped block t e).held hHeld

end Terminal

end SocketExchange

------------------------------------------------------------
-- The Loop Behind The Calls
------------------------------------------------------------

namespace SocketExchange

namespace Terminal

/-
  The client has gone through some turns of its loop, and
  through the first part of the next one.
-/
def Reached (t : Terminal) : Prop :=
  ∃ turns sends stdin,
    let c := Machine.run Client.turn Client.init turns
    t.client = c.onStdin sends stdin ∧
      (t.point ≠ .recv → stdin = none) ∧
      (stdin ≠ none → c.running = true)

theorem reached_of_turns
    {t : Terminal}
    (turns : List Select)
    (hClient :
      t.client =
        Machine.run Client.turn Client.init turns) :
    Reached t := by
  refine ⟨turns, [], none, hClient, ?_, ?_⟩
  · intro _
    rfl
  · intro hSome
    exact absurd rfl hSome

/- Between two turns the client is where the loop left it. -/
theorem Reached.between
    {t : Terminal}
    (hReached : Reached t)
    (hPoint : t.point ≠ .recv) :
    ∃ turns,
      t.client =
        Machine.run Client.turn Client.init turns := by
  rcases hReached with ⟨turns, sends, stdin, hClient, hNone, _⟩
  refine ⟨turns, ?_⟩
  rw [hClient, hNone hPoint]
  rfl

/- The standard input is read first in a turn. -/
theorem onStdin_line
    {c : Client}
    (hOpen : c.stdinOpen = true)
    (sends : List SendResult)
    (line : Bytes) :
    c.onStdin sends (some (.line line)) =
      c.readStdin sends (.line line) := by
  unfold Client.onStdin
  dsimp only
  rw [if_pos hOpen]

theorem Stepped.reached
    {block : Nat}
    {t t' : Terminal}
    {e : ClientEvent}
    (hStep : Stepped block t e t')
    (hOpen : t.client.stdinOpen = true)
    (hReached : Reached t) :
    Reached t' := by
  cases hStep with
  | idle => exact hReached
  | arrive bytes => exact hReached
  | stdin socket hPoint =>
      rcases hReached.between (by simp [hPoint]) with
        ⟨turns, hClient⟩
      exact reached_of_turns turns hClient
  | socket hPoint =>
      rcases hReached.between (by simp [hPoint]) with
        ⟨turns, hClient⟩
      exact reached_of_turns turns hClient
  | error hPoint =>
      rcases hReached.between (by simp [hPoint]) with
        ⟨turns, hClient⟩
      apply reached_of_turns (turns ++ [.error])
      rw [Machine.run_append, ← hClient]
      rfl
  | read hPoint =>
      rcases hReached.between (by simp [hPoint]) with
        ⟨turns, hClient⟩
      exact reached_of_turns turns hClient
  | @gotLine text line rest socket sends hPoint hRunning =>
      rcases hReached.between (by simp [hPoint]) with
        ⟨turns, hClient⟩
      have hTyped :=
        onStdin_line hOpen sends (text ++ line)
      cases socket with
      | true =>
          refine
            ⟨turns, sends, some (.line (text ++ line)),
              ?_, ?_, ?_⟩
          · rw [← hClient, hTyped]
          · intro hNot
            exact absurd rfl hNot
          · intro _
            rw [← hClient]
            exact hRunning
      | false =>
          apply reached_of_turns
            (turns ++
              [.ready (some (.line (text ++ line))) sends
                none])
          rw [Machine.run_append, ← hClient,
            Machine.run_cons, Machine.run_nil,
            Client.turn_ready hRunning, hTyped]
          exact (ite_self _).symm
  | recv r hPoint hRunning =>
      rcases hReached with
        ⟨turns, sends, stdin, hClient, _, hRan⟩
      have hBefore :
          (Machine.run Client.turn Client.init turns).running =
            true := by
        cases stdin with
        | none =>
            rw [hClient] at hRunning
            exact hRunning
        | some typed => exact hRan (Option.some_ne_none _)
      apply reached_of_turns
        (turns ++ [.ready stdin sends (some r)])
      rw [Machine.run_append, Machine.run_cons,
        Machine.run_nil, Client.turn_ready hBefore,
        ← hClient, if_pos hRunning]
      rfl

theorem run_reached
    (block : Nat)
    (events : List ClientEvent) :
    Reached (Machine.run (step block) init events) := by
  have hInit : Reached init :=
    ⟨[], [], none, rfl, fun _ => rfl, fun h => absurd rfl h⟩
  have hBoth :
      Held (Machine.run (step block) init events) ∧
        Reached (Machine.run (step block) init events) := by
    refine Machine.run_keeps
      (fun t => Held t ∧ Reached t) ?_
      ⟨held_init, hInit⟩ events
    intro t e hInv
    have hStep := step_stepped block t e
    exact ⟨hStep.held hInv.1,
      hStep.reached hInv.1.stdinOpen hInv.2⟩
  exact hBoth.2

/- At `select` the client has taken turns of its loop. -/
theorem client_reached
    {block : Nat}
    {events : List ClientEvent}
    (hSelect :
      AtSelect (Machine.run (step block) init events)) :
    ∃ turns,
      (Machine.run (step block) init events).client =
        Machine.run Client.turn Client.init turns := by
  apply (run_reached block events).between
  simp [hSelect.1]

/- The bytes sent are the lines passed. -/
theorem run_sent
    {block : Nat}
    {events : List ClientEvent}
    (hRunning :
      (Machine.run (step block) init events).client.running =
        true) :
    (Machine.run (step block) init events).client.sent =
      Cut.join newline
        (Machine.run (step block) init events).passed :=
  (run_held block events).sent hRunning

end Terminal

end SocketExchange

------------------------------------------------------------
-- Lines Left In The Buffer
------------------------------------------------------------

namespace SocketExchange

namespace Terminal

/-
  A client blocked in `select`, with nothing to read in the
  descriptor, has passed on every line that has arrived.
-/
def Caught (t : Terminal) : Prop :=
  AtSelect t →
    t.unread = [] →
      t.passed = Cut.pieces newline t.arrived

/-
  The descriptor is empty, and the buffer holds a line more
  than the one that `getline` is about to return.
-/
def Behind (t : Terminal) : Prop :=
  t.unread = [] ∧
    match t.point with
    | .getline _ _ => 2 ≤ t.held.count newline
    | _ => 1 ≤ t.held.count newline

/- The next block is the last one, and has two lines. -/
def Overfills (block : Nat) (t : Terminal) : Prop :=
  t.Fills ∧
    t.unread.length ≤ block ∧
    2 ≤ t.unread.count newline

theorem caught_iff_not_behind
    {t : Terminal}
    (hHeld : Held t) :
    Caught t ↔ ¬ (AtSelect t ∧ Behind t) := by
  have hPieces
      (hSelect : AtSelect t)
      (hUnread : t.unread = []) :
      Cut.pieces newline t.arrived =
        t.passed ++ Cut.pieces newline t.held := by
    have hStream := hHeld.stream
    rw [hSelect.1, hUnread, List.append_nil] at hStream
    rw [hStream]
    exact (Cut.pieces_join_append hHeld.free _).1
  constructor
  · rintro hCaught ⟨hSelect, hUnread, hCount⟩
    have hAll := hCaught hSelect hUnread
    rw [hPieces hSelect hUnread, List.self_eq_append_right]
      at hAll
    rw [hSelect.1] at hCount
    dsimp only at hCount
    rw [← Cut.length_pieces, hAll] at hCount
    exact absurd hCount (by decide)
  · intro hNot hSelect hUnread
    rw [hPieces hSelect hUnread]
    have hNone : newline ∉ t.held := by
      intro hMem
      apply hNot
      refine ⟨hSelect, hUnread, ?_⟩
      rw [hSelect.1]
      exact List.count_pos_iff.mpr hMem
    rw [Cut.pieces_of_not_mem hNone, List.append_nil]

/- A step that brings nothing in and changes nothing. -/
theorem behind_iff_of_same
    {block : Nat}
    {t t' : Terminal}
    {e : ClientEvent}
    (hSame : Behind t' ↔ Behind t)
    (hSilent : Silent e)
    (hNotRead : e = .read → ¬ t.Fills) :
    Behind t' ↔
      (e = .read ∧ Overfills block t) ∨
        (Behind t ∧ Silent e) := by
  rw [hSame]
  constructor
  · intro hBehind
    exact Or.inr ⟨hBehind, hSilent⟩
  · rintro (⟨hRead, hOver⟩ | ⟨hBehind, _⟩)
    · exact absurd hOver.1 (hNotRead hRead)
    · exact hBehind

theorem behind_arrive_iff
    (t : Terminal)
    (bytes : Bytes) :
    Behind
        { t with
          unread := t.unread ++ bytes
          arrived := t.arrived ++ bytes } ↔
      Behind t ∧ bytes = [] := by
  unfold Behind
  dsimp only
  rw [List.append_eq_nil_iff]
  tauto

theorem behind_fill_iff
    {block : Nat}
    {t : Terminal}
    (hFills : t.Fills)
    (text : Bytes)
    (socket : Bool) :
    Behind
        { t with
          point := .getline text socket
          held := t.unread.take block
          unread := t.unread.drop block } ↔
      Overfills block t := by
  unfold Behind Overfills
  dsimp only
  rw [List.drop_eq_nil_iff]
  constructor
  · rintro ⟨hShort, hCount⟩
    rw [List.take_of_length_le hShort] at hCount
    exact ⟨hFills, hShort, hCount⟩
  · rintro ⟨_, hShort, hCount⟩
    rw [List.take_of_length_le hShort]
    exact ⟨hShort, hCount⟩

/- A line fewer, and no line that is about to be returned. -/
theorem behind_takeLine_iff
    {t t' : Terminal}
    {text line rest : Bytes}
    {socket : Bool}
    (hPoint : t.point = .getline text socket)
    (hHeld : t.held = line ++ newline :: rest)
    (hFree : newline ∉ line)
    (hUnread : t'.unread = t.unread)
    (hRest : t'.held = rest)
    (hNext :
      t'.point = if socket then .recv else .select) :
    Behind t' ↔ Behind t := by
  have hCount :
      t.held.count newline = rest.count newline + 1 := by
    rw [hHeld, List.count_append, List.count_cons_self,
      List.count_eq_zero.mpr hFree, Nat.zero_add]
  unfold Behind
  rw [hUnread, hNext, hPoint, hRest, hCount]
  cases socket with
  | true =>
      dsimp only
      rw [Nat.succ_le_succ_iff]
      exact Iff.rfl
  | false =>
      dsimp only
      rw [Nat.succ_le_succ_iff]
      exact Iff.rfl

/- How the client gets behind, and that it stays so. -/
theorem step_behind_iff
    (block : Nat)
    (t : Terminal)
    (e : ClientEvent) :
    Behind (t.step block e) ↔
      (e = .read ∧ Overfills block t) ∨
        (Behind t ∧ Silent e) := by
  have hStep := step_stepped block t e
  generalize t.step block e = t' at hStep
  cases hStep with
  | idle hSilent hNotRead =>
      exact behind_iff_of_same Iff.rfl hSilent hNotRead
  | arrive bytes =>
      rw [behind_arrive_iff]
      constructor
      · exact Or.inr
      · rintro (⟨hRead, _⟩ | hQuiet)
        · cases hRead
        · exact hQuiet
  | stdin socket hPoint hRunning hOpen hReady =>
      refine behind_iff_of_same ?_ trivial (by nofun)
      apply iff_of_false
      · exact fun hBehind => hReady hBehind.1
      · exact fun hBehind => hReady hBehind.1
  | socket hPoint =>
      refine behind_iff_of_same ?_ trivial (by nofun)
      unfold Behind
      rw [hPoint]
  | error hPoint =>
      exact behind_iff_of_same Iff.rfl trivial (by nofun)
  | read hPoint hFills =>
      rw [behind_fill_iff hFills]
      constructor
      · intro hOver
        exact Or.inl ⟨rfl, hOver⟩
      · rintro (⟨_, hOver⟩ | ⟨⟨hUnread, _⟩, _⟩)
        · exact hOver
        · exact absurd hUnread hFills.ready
  | gotLine sends hPoint hRunning hHeld hFree =>
      refine behind_iff_of_same ?_ trivial (by nofun)
      exact behind_takeLine_iff hPoint hHeld hFree rfl rfl
        rfl
  | recv r hPoint =>
      refine behind_iff_of_same ?_ trivial (by nofun)
      unfold Behind
      rw [hPoint]

end Terminal

end SocketExchange

------------------------------------------------------------
-- When Every Typed Line Is Passed On
------------------------------------------------------------

namespace SocketExchange

namespace Terminal

/-
  Whenever `getline` empties the descriptor with a block
  that has two lines or more, further bytes arrive before
  the client is back in `select`.
-/
def Relieved
    (block : Nat)
    (events : List ClientEvent) : Prop :=
  ∀ pre mid post,
    events = pre ++ .read :: (mid ++ post) →
    Overfills block (Machine.run (step block) init pre) →
    AtSelect
      (Machine.run (step block) init (pre ++ .read :: mid)) →
    ∃ bytes, ClientEvent.arrive bytes ∈ mid ∧ bytes ≠ []

theorem run_behind_iff
    (block : Nat)
    (events : List ClientEvent) :
    Behind (Machine.run (step block) init events) ↔
      ∃ pre post, events = pre ++ .read :: post ∧
        Overfills block
          (Machine.run (step block) init pre) ∧
        ∀ e ∈ post, Silent e := by
  rw [Machine.run_iff_since (step_behind_iff block)]
  constructor
  · rintro (⟨⟨_, hCount⟩, _⟩ |
      ⟨pre, e, post, hSplit, ⟨rfl, hOver⟩, hSilent⟩)
    · exact absurd hCount (Nat.not_succ_le_zero 0)
    · exact ⟨pre, post, hSplit, hOver, hSilent⟩
  · rintro ⟨pre, post, hSplit, hOver, hSilent⟩
    exact Or.inr
      ⟨pre, .read, post, hSplit, ⟨rfl, hOver⟩, hSilent⟩

theorem not_silent_iff
    (events : List ClientEvent) :
    (¬ ∀ e ∈ events, Silent e) ↔
      ∃ bytes, ClientEvent.arrive bytes ∈ events ∧
        bytes ≠ [] := by
  constructor
  · intro hNot
    push Not at hNot
    rcases hNot with ⟨e, hMem, hLoud⟩
    cases e with
    | arrive bytes => exact ⟨bytes, hMem, hLoud⟩
    | _ => exact absurd trivial hLoud
  · rintro ⟨bytes, hMem, hSome⟩ hAll
    exact hSome (hAll _ hMem)

/-
  However bytes arrive and whatever the socket does: the
  client never blocks in `select` with a line that it has
  not passed on, exactly as long as it is relieved of every
  block that leaves a second line behind.
-/
theorem lines_passed_iff
    (block : Nat)
    (events : List ClientEvent) :
    (∀ pre post, events = pre ++ post →
      Caught (Machine.run (step block) init pre)) ↔
      Relieved block events := by
  constructor
  · intro hAlways pre mid post hSplit hOver hSelect
    have hCaught :=
      hAlways (pre ++ .read :: mid) post (by
        rw [hSplit, List.append_assoc, List.cons_append])
    rw [caught_iff_not_behind (run_held block _)] at hCaught
    apply (not_silent_iff mid).mp
    intro hSilent
    apply hCaught
    refine ⟨hSelect, ?_⟩
    exact (run_behind_iff block _).mpr
      ⟨pre, mid, rfl, hOver, hSilent⟩
  · intro hRelieved pre post hSplit
    rw [caught_iff_not_behind (run_held block _)]
    rintro ⟨hSelect, hBehind⟩
    rcases (run_behind_iff block pre).mp hBehind with
      ⟨first, mid, hPre, hOver, hSilent⟩
    rw [hPre] at hSelect
    have hMore :=
      hRelieved first mid post
        (by rw [hSplit, hPre, List.append_assoc,
          List.cons_append])
        hOver hSelect
    exact (not_silent_iff mid).mpr hMore hSilent

/- Two lines that arrive together; the second one stays. -/
theorem second_line_stays :
    ¬ ∀ (block : Nat) (events : List ClientEvent),
      0 < block →
        Caught (Machine.run (step block) init events) := by
  intro hAlways
  have hCaught :=
    hAlways 4096
      [.arrive (ascii "A\nB\n"), .woken false, .read,
        .gotLine [.sent 2]]
      (by decide)
  have hPassed := hCaught ⟨rfl, rfl⟩ rfl
  exact absurd hPassed (by decide)

end Terminal

end SocketExchange

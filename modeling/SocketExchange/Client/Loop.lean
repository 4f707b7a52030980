import SocketExchange.Lists.Cut
import SocketExchange.Server.Model
import SocketExchange.Wire.Chunks

/-
  The client (`client_common.hpp`): one loop over `select`,
  which sends the lines of the standard input and prints the
  lines that arrive.

  What `select`, `getline`, `send` and `recv` answer comes
  with each turn of the loop. The socket blocks; a list of
  `send` answers that runs out means that `send` failed.
  `sent` and `received` are history only.

  Key definitions include:
    * `Client`
    * `Client.sendAll`
    * `Client.drain`
    * `Client.turn`

  Key theorems include:
    * `Client.run_printed`
-/

------------------------------------------------------------
-- The Loop
------------------------------------------------------------

namespace SocketExchange

/- What `getline` reads. -/
inductive StdinRead where
| line : Bytes → StdinRead
| eof : StdinRead
deriving DecidableEq, Repr

/-
  What one `select` reports: whether the standard input and
  the socket are readable, with what reading them gives and
  the answers to the `send` calls in between.
-/
inductive Select where
| ready :
    Option StdinRead → List SendResult →
      Option RecvResult → Select
| eintr : Select
| error : Select

structure Client where
  input : LineBuffer
  stdinOpen : Bool
  running : Bool
  printed : List Bytes
  sent : Bytes
  received : Bytes

/- `msg.c_str()`, as `printf` takes it. -/
def cStr (s : Bytes) : Bytes :=
  s.takeWhile (· ≠ 0)

namespace Client

/- The client as it enters the loop. -/
def init : Client where
  input := LineBuffer.empty
  stdinOpen := true
  running := true
  printed := []
  sent := []
  received := []

/- `send_all`: its result, and the bytes that were taken. -/
def sendAll : List SendResult → Bytes → Bool × Bytes
| _, [] => (true, [])
| [], _ :: _ => (false, [])
| .sent n :: rs, c :: s =>
    if 0 < n then
      let r := sendAll rs ((c :: s).drop n)
      (r.1, (c :: s).take n ++ r.2)
    else (false, [])
| .eintr :: rs, c :: s => sendAll rs (c :: s)
| .eagain :: _, _ :: _ => (false, [])
| .error :: _, _ :: _ => (false, [])

/-
  One line of the standard input. At its end the client
  quits, and goes on reading.
-/
def readStdin
    (c : Client)
    (sends : List SendResult) :
    StdinRead → Client
| .eof =>
    let r := sendAll sends (ascii "QUIT\n")
    { c with sent := c.sent ++ r.2, stdinOpen := false }
| .line text =>
    let r := sendAll sends (text ++ [newline])
    { c with sent := c.sent ++ r.2, running := r.1 }

/- One turn of the loop that prints the lines received. -/
def drainStep (c : Client) : Option Client :=
  match c.input.nextLine with
  | .ok msg rest =>
      some
        { c with
          input := rest
          printed := c.printed ++ [cStr msg] }
  | .needMore => none
  | .tooLong => none

/- Every turn shortens the buffer, which bounds them. -/
def drain (c : Client) : Client :=
  Loop.iterate drainStep c.input.size c

/- One `recv`. -/
def readSocket (c : Client) : RecvResult → Client
| .data chunk =>
    drain
      { c with
        input := c.input.append chunk.bytes
        received := c.received ++ chunk.bytes }
| .eintr => c
| .fin => { c with running := false }
| .eagain => { c with running := false }
| .reset => { c with running := false }
| .error => { c with running := false }

/- The standard input, if it is open and readable. -/
def onStdin
    (c : Client)
    (sends : List SendResult)
    (stdin : Option StdinRead) : Client :=
  match stdin with
  | none => c
  | some r => if c.stdinOpen then c.readStdin sends r else c

/- The socket, if it is readable. -/
def onSocket
    (c : Client)
    (socket : Option RecvResult) : Client :=
  match socket with
  | none => c
  | some r => c.readSocket r

/-
  One turn of the loop, as long as it runs. A line that
  cannot be sent leaves it before the socket is looked at.
-/
def turn (c : Client) (select : Select) : Client :=
  if c.running then
    match select with
    | .eintr => c
    | .error => { c with running := false }
    | .ready stdin sends socket =>
        let c := c.onStdin sends stdin
        if c.running then c.onSocket socket else c
  else c

theorem turn_ready
    {c : Client}
    (hRunning : c.running = true)
    (stdin : Option StdinRead)
    (sends : List SendResult)
    (socket : Option RecvResult) :
    c.turn (.ready stdin sends socket) =
      if (c.onStdin sends stdin).running then
        (c.onStdin sends stdin).onSocket socket
      else c.onStdin sends stdin := by
  unfold turn
  rw [if_pos hRunning]

end Client

end SocketExchange

------------------------------------------------------------
-- What Is Printed
------------------------------------------------------------

namespace SocketExchange

/- What is printed for a line of the stream. -/
def shown (line : Bytes) : Bytes :=
  cStr (LineBuffer.stripCr line)

namespace Client

/-
  The client has printed the complete lines of what it
  received, and holds the rest.
-/
structure UpToDate (c : Client) : Prop where
  printed :
    c.printed =
      (Cut.pieces newline c.received).map shown
  held : c.input.buf = Cut.rest newline c.received

theorem upToDate_init : UpToDate init :=
  ⟨rfl, rfl⟩

/-
  A client beside a line buffer that starts with the bytes
  of the client and has given out nothing yet.
-/
def Beside (c₀ c : Client) (f : Framer) : Prop :=
  c =
    { c₀ with
      input := f.input
      printed := c₀.printed ++ f.lines.map cStr }

theorem drainStep_beside
    {c₀ c : Client}
    {f : Framer}
    (hBeside : Beside c₀ c f) :
    Loop.Lockstep (Beside c₀) c.drainStep f.drainStep := by
  subst hBeside
  unfold Client.drainStep Framer.drainStep
  cases hLine : f.input.nextLine with
  | ok line rest =>
      show Beside c₀ _ _
      unfold Beside
      rw [List.map_append, List.map_singleton,
        List.append_assoc]
  | needMore => trivial
  | tooLong => trivial

/- The loop prints the complete lines and keeps the rest. -/
theorem iterate_drainStep
    (fuel : Nat)
    (c : Client)
    (hFuel : c.input.size ≤ fuel) :
    Loop.iterate drainStep fuel c =
      { c with
        input := ⟨Cut.rest newline c.input.buf⟩
        printed :=
          c.printed ++
            (Cut.pieces newline c.input.buf).map
              shown } := by
  let f : Framer := ⟨c.input, [], [], false⟩
  have hStart : Beside c c f := by
    show c = { c with printed := c.printed ++ [] }
    rw [List.append_nil]
  have hEnd : Beside c (Loop.iterate drainStep fuel c)
      (Loop.iterate Framer.drainStep fuel f) :=
    Loop.iterate_rel (fun _ _ => drainStep_beside) fuel
      hStart
  rw [Framer.iterate_drainStep fuel f hFuel] at hEnd
  unfold Beside at hEnd
  rw [hEnd]
  dsimp only
  rw [List.nil_append, List.map_map]
  rfl

theorem UpToDate.readSocket
    {c : Client}
    (hInv : UpToDate c)
    (r : RecvResult) :
    UpToDate (c.readSocket r) := by
  cases r with
  | data chunk =>
      unfold Client.readSocket
      dsimp only
      unfold drain
      rw [iterate_drainStep _ _ (Nat.le_refl _)]
      constructor
      · simp only [LineBuffer.append, hInv.printed,
          hInv.held, ← List.map_append]
        rw [← Cut.pieces_append]
      · simp only [LineBuffer.append, hInv.held]
        rw [← Cut.rest_append]
  | _ => exact ⟨hInv.printed, hInv.held⟩

theorem UpToDate.onStdin
    {c : Client}
    (hInv : UpToDate c)
    (sends : List SendResult)
    (stdin : Option StdinRead) :
    UpToDate (c.onStdin sends stdin) := by
  unfold Client.onStdin
  split
  · exact hInv
  · next r =>
      split
      · cases r with
        | line text => exact ⟨hInv.printed, hInv.held⟩
        | eof => exact ⟨hInv.printed, hInv.held⟩
      · exact hInv

theorem UpToDate.turn
    {c : Client}
    (hInv : UpToDate c)
    (select : Select) :
    UpToDate (c.turn select) := by
  unfold Client.turn
  split
  · cases select with
    | eintr => exact hInv
    | error => exact ⟨hInv.printed, hInv.held⟩
    | ready stdin sends socket =>
        have hTyped := hInv.onStdin sends stdin
        dsimp only
        split
        · unfold onSocket
          split
          · exact hTyped
          · next r => exact hTyped.readSocket r
        · exact hTyped
  · exact hInv

/-
  However `recv` cuts the stream, and whatever is typed in
  between, the client has printed the complete lines of what
  it received.
-/
theorem run_printed (turns : List Select) :
    (Machine.run turn init turns).printed =
      (Cut.pieces newline
        (Machine.run turn init turns).received).map
          shown := by
  have hInv : UpToDate (Machine.run turn init turns) :=
    Machine.run_keeps UpToDate
      (fun _ select hInv => hInv.turn select)
      upToDate_init turns
  exact hInv.printed

end Client

end SocketExchange

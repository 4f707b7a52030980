import SocketExchange.Client.Stdin

/-
  The two client programs (`trader.cpp`, `market_data.cpp`).

  Each sends its greeting line by line, gives up if a line
  cannot be sent, and enters the loop of `client_common.hpp`
  otherwise. All that was passed to `send_all` is kept as
  history.

  Key definitions include:
    * `Program.greeting`
    * `Session.start`
    * `Session.turn`

  Key theorems include:
    * `Session.Sound.turn`
-/

------------------------------------------------------------
-- Programs
------------------------------------------------------------

namespace SocketExchange

/- A client program, with its arguments. -/
inductive Program where
| trader : Bytes → Program
| marketData : List Bytes → Program
deriving DecidableEq, Repr

/- What `main` sends before the loop, line by line. -/
def Program.greeting : Program → List Bytes
| .trader username => [ascii "LOGIN " ++ username]
| .marketData instruments =>
    instruments.map fun name => ascii "SUBSCRIBE " ++ name

/- A client, and all that it passed to `send_all`. -/
structure Session where
  client : Client
  said : Bytes

/- What a turn of the loop passes to `send_all`. -/
def Client.utters (c : Client) : Select → Bytes
| .ready (some (.line text)) _ _ =>
    if c.running ∧ c.stdinOpen then text ++ [newline]
    else []
| .ready (some .eof) _ _ =>
    if c.running ∧ c.stdinOpen then ascii "QUIT\n" else []
| .ready none _ _ => []
| .eintr => []
| .error => []

namespace Session

/- Before the loop, and before the greeting. -/
def connected : Session where
  client := Client.init
  said := []

/- One call of `send_all` whose failure ends the program. -/
def send
    (u : Session)
    (sends : List SendResult)
    (bytes : Bytes) : Session :=
  let r := Client.sendAll sends bytes
  { client :=
      { u.client with
        sent := u.client.sent ++ r.2
        running := r.1 }
    said := u.said ++ bytes }

/- The greeting; each line has its answers to `send`. -/
def greet :
    Session → List Bytes → List (List SendResult) → Session
| u, [], _ => u
| u, text :: texts, answers =>
    let u := u.send (answers.headD []) (text ++ [newline])
    if u.client.running then u.greet texts answers.tail
    else u

/- `main`, up to the loop. -/
def start
    (p : Program)
    (answers : List (List SendResult)) : Session :=
  connected.greet p.greeting answers

/- The lines that were said, as the server cuts them. -/
def lines (u : Session) : List Bytes :=
  (Cut.pieces newline u.said).map LineBuffer.stripCr

/- One turn of the loop. -/
def turn (u : Session) (select : Select) : Session where
  client := u.client.turn select
  said := u.said ++ u.client.utters select

end Session

end SocketExchange

------------------------------------------------------------
-- What Was Sent And Printed
------------------------------------------------------------

namespace SocketExchange

/- `send_all` sends from the front. -/
theorem Client.sendAll_prefix
    (sends : List SendResult)
    (s : Bytes) :
    (Client.sendAll sends s).2 <+: s := by
  induction sends generalizing s with
  | nil =>
      cases s with
      | nil => exact List.prefix_refl _
      | cons c s => exact List.nil_prefix
  | cons r rs ih =>
      cases s with
      | nil => exact List.prefix_refl _
      | cons c s =>
          cases r with
          | sent n =>
              unfold Client.sendAll
              split
              · dsimp only
                have hSplit :=
                  List.take_append_drop n (c :: s)
                rcases ih ((c :: s).drop n) with ⟨t, ht⟩
                refine ⟨t, ?_⟩
                rw [List.append_assoc, ht, hSplit]
              · exact List.nil_prefix
          | eintr =>
              unfold Client.sendAll
              exact ih (c :: s)
          | eagain => exact List.nil_prefix
          | error => exact List.nil_prefix

namespace Session

/-
  What was sent is a first part of what was passed on; all
  of it as long as lines are taken from the standard input.
  What was received has been printed.
-/
structure Sound (u : Session) : Prop where
  upToDate : u.client.UpToDate
  sent : u.client.sent <+: u.said
  all :
    u.client.running = true → u.client.stdinOpen = true →
      u.client.sent = u.said

/- A client that reads nothing from its standard input. -/
def StillSent (u v : Session) : Prop :=
  v.said = u.said ∧ v.client.sent = u.client.sent ∧
    (v.client.running = true → u.client.running = true) ∧
    (v.client.stdinOpen = true → u.client.stdinOpen = true)

theorem sound_connected : Sound connected :=
  ⟨Client.upToDate_init, List.prefix_refl _,
    fun _ _ => rfl⟩

variable {u v : Session}

theorem Sound.still
    (hSound : Sound u)
    (hStill : StillSent u v)
    (hUpToDate : v.client.UpToDate) :
    Sound v := by
  rcases hStill with ⟨hSaid, hSent, hRunning, hOpen⟩
  refine ⟨hUpToDate, ?_, ?_⟩
  · rw [hSaid, hSent]
    exact hSound.sent
  · intro hRuns hStdin
    rw [hSaid, hSent]
    exact hSound.all (hRunning hRuns) (hOpen hStdin)

theorem Sound.send
    (hSound : Sound u)
    (hRunning : u.client.running = true)
    (hOpen : u.client.stdinOpen = true)
    (sends : List SendResult)
    (bytes : Bytes) :
    Sound (u.send sends bytes) := by
  have hAll := hSound.all hRunning hOpen
  refine ⟨⟨hSound.upToDate.printed,
    hSound.upToDate.held⟩, ?_, ?_⟩
  · unfold Session.send
    dsimp only
    rw [hAll]
    exact (List.prefix_append_right_inj _).mpr
      (Client.sendAll_prefix sends bytes)
  · intro hSent _
    unfold Session.send at hSent ⊢
    dsimp only at hSent ⊢
    rw [hAll, Client.sendAll_sent hSent]

theorem Sound.greet
    {texts : List Bytes}
    {answers : List (List SendResult)}
    (hSound : Sound u)
    (hRunning : u.client.running = true)
    (hOpen : u.client.stdinOpen = true) :
    Sound (u.greet texts answers) := by
  induction texts generalizing u answers with
  | nil => exact hSound
  | cons text texts ih =>
      have hNext :=
        hSound.send hRunning hOpen (answers.headD [])
          (text ++ [newline])
      unfold Session.greet
      dsimp only
      split
      · next hRuns => exact ih hNext hRuns hOpen
      · exact hNext

theorem sound_start
    (p : Program)
    (answers : List (List SendResult)) :
    Sound (start p answers) :=
  sound_connected.greet rfl rfl

/- The socket has no part in what is sent. -/
theorem onSocket_keeps
    (c : Client)
    (socket : Option RecvResult) :
    (c.onSocket socket).stdinOpen = c.stdinOpen ∧
      (c.onSocket socket).sent = c.sent := by
  cases socket with
  | none => exact ⟨rfl, rfl⟩
  | some r => exact Terminal.readSocket_keeps c r

/- The standard input, with what it makes the client say. -/
theorem Sound.onStdin
    (hSound : Sound u)
    (hRunning : u.client.running = true)
    (sends : List SendResult)
    (stdin : Option StdinRead)
    (socket : Option RecvResult) :
    Sound
      { client := u.client.onStdin sends stdin
        said :=
          u.said ++
            u.client.utters (.ready stdin sends socket) } := by
  have hUp := hSound.upToDate.onStdin sends stdin
  cases stdin with
  | none =>
      refine hSound.still ⟨?_, rfl, id, id⟩ hUp
      exact List.append_nil _
  | some r =>
      by_cases hOpen : u.client.stdinOpen = true
      · have hAll := hSound.all hRunning hOpen
        cases r with
        | line text =>
            have hSays :
                u.client.utters
                    (.ready (some (.line text)) sends
                      socket) =
                  text ++ [newline] := by
              simp [Client.utters, hRunning, hOpen]
            have hSent :=
              hSound.send hRunning hOpen sends
                (text ++ [newline])
            simpa [Client.onStdin, hOpen,
              Client.readStdin, Session.send, hSays]
              using hSent
        | eof =>
            have hSays :
                u.client.utters
                    (.ready (some .eof) sends socket) =
                  ascii "QUIT\n" := by
              simp [Client.utters, hRunning, hOpen]
            have hTook :=
              Client.sendAll_prefix sends (ascii "QUIT\n")
            refine ⟨hUp, ?_, ?_⟩
            · simp only [Client.onStdin, hOpen, if_true,
                Client.readStdin, hSays, hAll]
              exact (List.prefix_append_right_inj _).mpr
                hTook
            · intro _ hStill
              simp [Client.onStdin, hOpen,
                Client.readStdin] at hStill
      · have hSame :
            u.client.onStdin sends (some r) = u.client := by
          simp [Client.onStdin, hOpen]
        have hNothing :
            u.client.utters (.ready (some r) sends socket) =
              [] := by
          cases r <;> simp [Client.utters, hOpen]
        rw [hSame, hNothing, List.append_nil]
        exact hSound

theorem Sound.turn
    (hSound : Sound u)
    (select : Select) :
    Sound (u.turn select) := by
  have hUp := hSound.upToDate.turn select
  by_cases hRunning : u.client.running = true
  · cases select with
    | eintr =>
        have hSame : u.client.turn .eintr = u.client := by
          simp [Client.turn]
        refine hSound.still ⟨List.append_nil _, ?_, ?_, ?_⟩
          hUp
        · exact congrArg Client.sent hSame
        · exact fun _ => hRunning
        · intro hStdin
          rw [← hSame]
          exact hStdin
    | error =>
        have hSame :
            u.client.turn .error =
              { u.client with running := false } := by
          simp [Client.turn, hRunning]
        refine hSound.still ⟨List.append_nil _, ?_, ?_, ?_⟩
          hUp
        · change (u.client.turn .error).sent = _
          rw [hSame]
        · exact fun _ => hRunning
        · intro hStdin
          change (u.client.turn .error).stdinOpen = _
            at hStdin
          rw [hSame] at hStdin
          exact hStdin
    | ready stdin sends socket =>
        have hTyped :=
          hSound.onStdin hRunning sends stdin socket
        have hTurn :=
          Client.turn_ready hRunning stdin sends socket
        by_cases hRuns :
            (u.client.onStdin sends stdin).running = true
        · rw [if_pos hRuns] at hTurn
          rcases onSocket_keeps
              (u.client.onStdin sends stdin) socket with
            ⟨hOpen, hSent⟩
          refine hTyped.still ⟨rfl, ?_, ?_, ?_⟩ hUp
          · exact (congrArg Client.sent hTurn).trans hSent
          · exact fun _ => hRuns
          · intro hStdin
            have hSame :=
              (congrArg Client.stdinOpen hTurn).trans hOpen
            exact hSame.symm.trans hStdin
        · rw [if_neg hRuns] at hTurn
          refine hTyped.still ⟨rfl, ?_, ?_, ?_⟩ hUp
          · exact congrArg Client.sent hTurn
          · intro hStill
            exact (congrArg Client.running hTurn).symm.trans
              hStill
          · intro hStdin
            exact (congrArg Client.stdinOpen hTurn).symm.trans
              hStdin
  · have hSame : u.client.turn select = u.client := by
      simp [Client.turn, hRunning]
    have hNothing : u.client.utters select = [] := by
      unfold Client.utters
      split <;> simp [hRunning]
    have hTurn : u.turn select = u := by
      unfold Session.turn
      rw [hSame, hNothing, List.append_nil]
    rw [hTurn]
    exact hSound

end Session

end SocketExchange

import SocketExchange.System.Network

/-
  Every message can be read back off the screen.

  The clients print what they receive and read none of it.
  The format is meant to be read all the same: with the
  field splitter and the number parser of the protocol, a
  line gives back the kind of its message, the order id, or
  the instrument, quantity and price, and the reason of an
  error to the last character.

  Main declarations:
    * `Notice`, `Msg.notice`
    * `readNotice`
    * `Server.Reachable.readNotice_line`
    * `Network.screen_reads_back`
-/

------------------------------------------------------------
-- Notices
------------------------------------------------------------

namespace SocketExchange

/- What an execution message says. -/
structure Deal where
  inst : Fin 2
  qty : UInt32
  price : UInt32
deriving DecidableEq, Repr

/- What a message tells its reader. -/
inductive Notice where
| ok : Notice
| error : Bytes → Notice
| orderAccepted : UInt32 → Notice
| orderCancelled : UInt32 → Notice
| bought : Deal → Notice
| sold : Deal → Notice
| trade : Deal → Notice
deriving DecidableEq, Repr

def Trade.deal (t : Trade) : Deal where
  inst := t.inst
  qty := t.qty
  price := t.price

/- All of a message but the parties of its trade. -/
def Msg.notice : Msg → Notice
| .ok => .ok
| .error reason => .error (ascii reason)
| .orderAccepted id => .orderAccepted id
| .orderCancelled id => .orderCancelled id
| .bought t => .bought t.deal
| .sold t => .sold t.deal
| .trade t => .trade t.deal

def readId : List Bytes → Option UInt32
| [id] => parseU32 id 0 4294967295
| _ => none

def readDeal : List Bytes → Option Deal
| [name, quantity, level] =>
    match instrumentIndex name,
        parseU32 quantity kMinValue kMaxValue,
        parseU32 level kMinValue kMaxValue with
    | some inst, some qty, some price =>
        some ⟨inst, qty, price⟩
    | _, _, _ => none
| _ => none

/- The first word of a line. -/
inductive Verb where
| ok : Verb
| error : Verb
| orderAccepted : Verb
| orderCancelled : Verb
| bought : Verb
| sold : Verb
| trade : Verb
deriving DecidableEq, Repr

def Verb.all : List Verb :=
  [.ok, .error, .orderAccepted, .orderCancelled, .bought,
    .sold, .trade]

def Verb.word : Verb → String
| .ok => "OK"
| .error => "ERROR"
| .orderAccepted => "ORDER_ACCEPTED"
| .orderCancelled => "ORDER_CANCELLED"
| .bought => "BOUGHT"
| .sold => "SOLD"
| .trade => "TRADE"

def readVerb (word : Bytes) : Option Verb :=
  Verb.all.find? fun v => ascii v.word == word

/- What follows the verb. The reason of an error is text. -/
def readArgs
    (line : Bytes)
    (fields : List Bytes) :
    Verb → Option Notice
| .ok => some .ok
| .error => some (.error (line.drop 6))
| .orderAccepted => (readId fields).map .orderAccepted
| .orderCancelled => (readId fields).map .orderCancelled
| .bought => (readDeal fields).map .bought
| .sold => (readDeal fields).map .sold
| .trade => (readDeal fields).map .trade

/- Read a line back. -/
def readNotice (line : Bytes) : Option Notice :=
  match splitWs line with
  | [] => none
  | word :: fields =>
      (readVerb word).bind (readArgs line fields)

end SocketExchange

------------------------------------------------------------
-- Reading A Line Back
------------------------------------------------------------

namespace SocketExchange

/- Every id that `std::to_string` can write is read. -/
theorem readId_decimal (id : UInt32) :
    readId [decimal id] = some id := by
  have hRange : 0 ≤ id ∧ id ≤ 4294967295 := by
    constructor
    · exact UInt32.zero_le
    · rw [UInt32.le_iff_toNat_le]
      have hLt := id.toNat_lt
      have hMax : (4294967295 : UInt32).toNat =
          4294967295 := rfl
      omega
  simp only [readId, parseU32_decimal, if_pos hRange]

/- The fields of an execution line are read as its trade. -/
theorem readDeal_of_reads
    {line : Bytes}
    {t : Trade}
    (hReads : ReadsAs line t) :
    ∃ verb fields, splitWs line = verb :: fields ∧
      readDeal fields = some t.deal := by
  rcases hReads with
    ⟨verb, name, quantity, level, hFields, hInst, hQty,
      hPrice⟩
  refine ⟨verb, _, hFields, ?_⟩
  simp only [readDeal, hInst, hQty, hPrice,
    Trade.deal]

/- The verb of a message. -/
def Msg.kind : Msg → Verb
| .ok => .ok
| .error _ => .error
| .orderAccepted _ => .orderAccepted
| .orderCancelled _ => .orderCancelled
| .bought _ => .bought
| .sold _ => .sold
| .trade _ => .trade

theorem Msg.kind_word (m : Msg) :
    m.kind.word = m.verb := by
  cases m <;> rfl

/- No two verbs are the same word. -/
theorem readVerb_word (v : Verb) :
    readVerb (ascii v.word) = some v := by
  cases v <;> decide +kernel

/- The fields of a line that gives an order id. -/
theorem splitWs_id
    {m : Msg}
    {id : UInt32}
    (hArgs : m.args = [decimal id]) :
    splitWs m.line = [ascii m.verb, decimal id] := by
  rw [Msg.line_eq, hArgs]
  apply splitWs_intercalate
  intro w hw
  rcases List.mem_cons.mp hw with rfl | hArg
  · exact (Msg.isWord_verb m).1
  · rw [List.mem_singleton.mp hArg]
    exact isWord_decimal id

namespace Server

variable {s : Server} {owner : Int}

/- A message of any run is read back from its line. -/
theorem Reachable.readNotice_line
    (hReach : Reachable s)
    {m : Msg}
    (hQueued : m ∈ pushedTo owner s.log) :
    readNotice m.line = some m.notice := by
  have hHead := Msg.head_splitWs_line m
  rcases List.head?_eq_some_iff.mp hHead with
    ⟨fields, hSplit⟩
  -- The line of a trade is read as that trade.
  have hDeal {t : Trade} (hTrade : m.trade? = some t) :
      readDeal fields = some t.deal := by
    have hReads := (hReach.givesBack hQueued hTrade).reads
    rcases readDeal_of_reads hReads with
      ⟨word, fields', hSplit', hRead⟩
    rw [hSplit] at hSplit'
    injection hSplit' with _ hSame
    rw [hSame, hRead]
  have hId {id : UInt32} (hArgs : m.args = [decimal id]) :
      readId fields = some id := by
    have hSplit' := splitWs_id hArgs
    rw [hSplit] at hSplit'
    injection hSplit' with _ hSame
    rw [hSame, readId_decimal]
  have hVerb := readVerb_word m.kind
  rw [Msg.kind_word] at hVerb
  have hRead :
      readNotice m.line =
        readArgs m.line fields m.kind := by
    simp only [readNotice, hSplit, hVerb, Option.bind_some]
  rw [hRead]
  cases m with
  | ok => rfl
  | error reason =>
      have hText :
          (Msg.error reason).line =
            ascii "ERROR" ++ space :: ascii reason := by
        rw [Msg.line_eq, Msg.verb, Msg.args,
          intercalate_space]
        simp [List.intercalate]
      simp only [readArgs, Msg.kind, Msg.notice, hText]
      rfl
  | orderAccepted id =>
      simp only [readArgs, Msg.kind, hId rfl, Msg.notice,
        Option.map_some]
  | orderCancelled id =>
      simp only [readArgs, Msg.kind, hId rfl, Msg.notice,
        Option.map_some]
  | bought t =>
      simp only [readArgs, Msg.kind, hDeal rfl, Msg.notice,
        Option.map_some]
  | sold t =>
      simp only [readArgs, Msg.kind, hDeal rfl, Msg.notice,
        Option.map_some]
  | trade t =>
      simp only [readArgs, Msg.kind, hDeal rfl, Msg.notice,
        Option.map_some]

theorem Reachable.readNotice_lines
    (hReach : Reachable s) :
    ((pushedTo owner s.log).map Msg.line).map readNotice =
      (pushedTo owner s.log).map
        fun m => some m.notice := by
  rw [List.map_map]
  apply List.map_congr_left
  intro m hm
  exact hReach.readNotice_line hm

end Server

end SocketExchange

------------------------------------------------------------
-- Reading A Screen
------------------------------------------------------------

namespace SocketExchange

namespace Network

open Server

variable {n : Network} {k : Int} {u : Session}

/-
  A screen is read back as what the service told its user,
  as long as the exchange has ids left. Whatever the turns
  of the clients and the server were, every line on the
  screen of a user is read, and they are read as a first
  part of the messages that the service, run on all that it
  heard, has for that user; when the user is quiet, as all
  of them.
-/
theorem screen_reads_back
    (hReached : Reached n)
    (hRoom : submits (callsOf n.server.log) < 2 ^ 32)
    (hUser : n.users k = some u) :
    let v := Service.start.after (inputsOf n.server.log)
    let told := (v.mailOf k).map fun m => some m.notice
    u.client.printed.map readNotice <+: told ∧
      (∀ c, Quiet n k u c →
        u.client.printed.map readNotice = told) := by
  intro v told
  have hFlowing := hReached.flowing
  have hReach := hFlowing.reachable
  have hRef : Server.Refines n.server v :=
    hReach.settled.refines hRoom
  have hMail :=
    hRef.pushed_mail (k := k) hReach.registry
      hReach.history
  constructor
  · rcases hFlowing.users k u hUser with ⟨hSound, hSeen⟩
    rw [hSound.upToDate.printed]
    have hLines := (hReach.streamed hSeen).map readNotice
    rw [hReach.readNotice_lines] at hLines
    exact hLines.trans (hMail.1.map _)
  · intro c hQuiet
    rcases hQuiet.conn with ⟨fd, hConn⟩
    have hAll :=
      hMail.2 fd c hConn hQuiet.live hQuiet.owner
    rw [hFlowing.screen hQuiet, hReach.readNotice_lines,
      hAll]

/- The order was accepted as order 0, says the screen. -/
theorem screen_reads_back_placing :
    [some Notice.ok, some (Notice.orderAccepted 0)] =
      ((Service.start.after
        (inputsOf placed.server.log)).mailOf 1).map
          fun m => some m.notice := by
  have hUser : placed.users 1 = some placedUser :=
    (Option.some_get _).symm
  have hScreen :
      placedUser.client.printed.map readNotice =
        [some .ok, some (.orderAccepted 0)] := by
    decide +kernel
  rw [← hScreen]
  exact (screen_reads_back placed_reached (by decide)
    hUser).2 placedConn placed_quiet

end Network

end SocketExchange

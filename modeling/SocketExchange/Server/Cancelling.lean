import SocketExchange.Book.Listed
import SocketExchange.Book.Undo
import SocketExchange.Wire.Codec
import SocketExchange.Server.Bystander
import SocketExchange.Server.Closing

/-
  Cancelling an order by the id that was reported for it.

  `submit` hands out every 32-bit id, and ORDER_ACCEPTED
  prints it. `cmd_cancel` reads it back against a bound of
  its own, `kMaxOrderId`, which is half of that range: an
  order whose id is above it cannot be cancelled.

  Main declarations:
    * `cancelLine`
    * `Server.Cancels`
    * `Server.cancels_iff`
    * `Server.late_order_stays`
-/

------------------------------------------------------------
-- The Line
------------------------------------------------------------

namespace SocketExchange

/- CANCEL and the id, as ORDER_ACCEPTED prints it. -/
def cancelLine (key : UInt32) : Bytes :=
  ascii "CANCEL " ++ decimal key

theorem splitWs_cancelLine (key : UInt32) :
    splitWs (cancelLine key) =
      [ascii "CANCEL", decimal key] := by
  have hVerb : IsWord (ascii "CANCEL") :=
    isWord_of_all (by decide) (by decide)
  have hJoin :
      cancelLine key =
        List.intercalate [space]
          [ascii "CANCEL", decimal key] := by
    simp only [List.intercalate, List.intersperse,
      List.flatten_cons, List.flatten_nil, List.append_nil]
    rfl
  rw [hJoin]
  apply splitWs_intercalate
  intro w hw
  simp only [List.mem_cons, List.not_mem_nil,
    or_false] at hw
  rcases hw with rfl | rfl
  · exact hVerb
  · exact isWord_decimal key

namespace Server

/-
  The order is taken out of the book, out of `orders_` and
  out of the level that held it, and nothing else is; and
  ORDER_CANCELLED is queued.
-/
structure Cancels
    (s s' : Server)
    (owner : Int)
    (key : UInt32)
    (o : Order) : Prop where
  unlists : s.exch.Unlists key o s'.exch
  queued :
    ∃ before after,
      s'.log =
        s.log ++ before ++
          .queued owner (.orderCancelled key) :: after

variable {s : Server} {fd : Fd} {c : Conn}

/- What the line comes down to. -/
theorem handleLine_cancelLine
    (key : UInt32)
    (hConn : s.conns[fd]? = some c) :
    s.handleLine fd (cancelLine key) =
      (s.note (.line c.ownerId (cancelLine key))).cmdCancel
        fd [ascii "CANCEL", decimal key] := by
  have hLogin : ascii "CANCEL" ≠ ascii "LOGIN" := by decide
  have hBuy : ascii "CANCEL" ≠ ascii "BUY" := by decide
  have hSell : ascii "CANCEL" ≠ ascii "SELL" := by decide
  unfold handleLine
  rw [hConn, splitWs_cancelLine]
  simp only [dispatch, hLogin, hBuy, hSell, if_true,
    if_false]

/- An id that is read back reaches the exchange. -/
theorem handleLine_cancels
    {key : UInt32}
    {o : Order}
    (hOrder : s.exch.orders[key]? = some o)
    (hConn : s.conns[fd]? = some c)
    (hRole : c.role = .trader)
    (hOwner : c.ownerId = o.owner)
    (hLe : key ≤ kMaxOrderId) :
    s.handleLine fd (cancelLine key) =
      ((s.note
          (.line c.ownerId (cancelLine key))).callExchange
        c.ownerId (.cancel key c.ownerId)).queueOut fd
          (.orderCancelled key) := by
  have hParse :
      parseU32 (decimal key) 0 kMaxOrderId = some key := by
    rw [parseU32_decimal, if_pos]
    exact ⟨UInt32.zero_le, hLe⟩
  have hOk : (s.exch.cancel key c.ownerId).2 = .ok () :=
    (Exchange.cancel_ok_iff _ _ _).mpr
      ⟨o, hOrder, hOwner.symm⟩
  rw [handleLine_cancelLine key hConn]
  unfold cmdCancel
  simp only [note, hConn, hRole, hParse, hOk, reduceCtorEq,
    if_false]

/- So the order is cancelled. -/
theorem cancels_of_le
    {key : UInt32}
    {o : Order}
    (hListed : s.exch.Listed)
    (hOrder : s.exch.orders[key]? = some o)
    (hConn : s.conns[fd]? = some c)
    (hLive : c.dead = false)
    (hRole : c.role = .trader)
    (hOwner : c.ownerId = o.owner)
    (hLe : key ≤ kMaxOrderId) :
    Cancels s (s.handleLine fd (cancelLine key)) c.ownerId
      key o := by
  have hConn' :
      ((s.note
          (.line c.ownerId (cancelLine key))).callExchange
        c.ownerId (.cancel key c.ownerId)).conns[fd]? =
          some c :=
    hConn
  rw [handleLine_cancels hOrder hConn hRole hOwner hLe]
  refine ⟨?_, ?_⟩
  · rw [(queueOut_sameBooks _).exch, hOwner]
    exact (hListed.cancel_unlists hOrder).2
  · rw [queueOut_eq_commit hConn' hLive]
    rcases queued_log _ fd hLive (.orderCancelled key) with
      ⟨es, hLog, _⟩
    rw [hLog]
    refine ⟨[.line c.ownerId (cancelLine key),
      .called c.ownerId (.cancel key c.ownerId)
        (s.exch.step (.cancel key c.ownerId)).2], es, ?_⟩
    simp [callExchange, note]

/- An id above the bound is not, and the book stays. -/
theorem exch_of_gt
    {key : UInt32}
    (hConn : s.conns[fd]? = some c)
    (hRole : c.role = .trader)
    (hGt : ¬ key ≤ kMaxOrderId) :
    (s.handleLine fd (cancelLine key)).exch = s.exch := by
  have hParse :
      parseU32 (decimal key) 0 kMaxOrderId = none := by
    rw [parseU32_decimal, if_neg]
    exact fun hRange => hGt hRange.2
  rw [handleLine_cancelLine key hConn]
  unfold cmdCancel
  simp only [note, hConn, hRole, hParse, reduceCtorEq,
    if_false]
  exact (queueOut_sameBooks _).exch

theorem not_cancels_of_gt
    {key : UInt32}
    {o : Order}
    (hOrder : s.exch.orders[key]? = some o)
    (hConn : s.conns[fd]? = some c)
    (hRole : c.role = .trader)
    (hGt : ¬ key ≤ kMaxOrderId) :
    ¬ Cancels s (s.handleLine fd (cancelLine key))
      c.ownerId key o := by
  intro hCancels
  have hGone := hCancels.unlists.orders key
  rw [exch_of_gt hConn hRole hGt, if_pos rfl, hOrder]
    at hGone
  cases hGone

/-
  In every reachable state, a live trader who sends CANCEL
  with the id of a resting order of its own, the id under
  which it was submitted, has the order taken out of the
  book, the id out of the level that held it and nothing
  else, and is told so, if and only if the id is at most
  `kMaxOrderId`.
-/
theorem cancels_iff
    {key : UInt32}
    {o : Order}
    (hReach : Reachable s)
    (hOrder : s.exch.orders[key]? = some o)
    (hConn : s.conns[fd]? = some c)
    (hLive : c.dead = false)
    (hRole : c.role = .trader)
    (hOwner : c.ownerId = o.owner) :
    SubmittedBy s.log c.ownerId key o ∧
      (Cancels s (s.handleLine fd (cancelLine key))
          c.ownerId key o ↔
        key ≤ kMaxOrderId) := by
  have hHist := hReach.history
  refine ⟨?_, ?_, ?_⟩
  · rw [hHist.exch] at hOrder
    rw [hOwner]
    exact replay_submitted hHist.traced hOrder
  · intro hCancels
    by_contra hGt
    exact not_cancels_of_gt hOrder hConn hRole hGt hCancels
  · intro hLe
    have hListed : s.exch.Listed := by
      rw [hHist.exch]
      exact Exchange.final_listed _
    exact cancels_of_le hListed hOrder hConn hLive hRole
      hOwner hLe

/- The seller takes back what is left of its order. -/
theorem cancels_iff_trading :
    ∃ c,
      (Machine.run step listening
          tradingSteps).conns[(5 : Fd)]? = some c ∧
        Cancels (Machine.run step listening tradingSteps)
          ((Machine.run step listening
              tradingSteps).handleLine 5 (cancelLine 0))
          c.ownerId 0 ⟨0, .sell, 0, 100, 2, 1⟩ ∧
        (Machine.run step listening
            tradingSteps).exch.deque 0 1 100 = [0] ∧
        (((Machine.run step listening
            tradingSteps).handleLine 5
              (cancelLine 0)).exch.books 0 1)[
                (100 : UInt32)]? = none ∧
        ((Machine.run step listening
            tradingSteps).handleLine 5
              (cancelLine 0)).exch.orders[
                (0 : UInt32)]? = none := by
  have hSeen :
      ((Machine.run step listening
          tradingSteps).conns[(5 : Fd)]?).map
        (fun c => (c.dead, c.role, c.ownerId)) =
      some (false, .trader, 1) := by
    decide
  rcases Option.map_eq_some_iff.mp hSeen with
    ⟨c, hConn, hFields⟩
  injection hFields with hLive hFields
  injection hFields with hRole hOwner
  have hReach :
      Reachable
        (Machine.run step listening tradingSteps) :=
    ⟨3, _, tradingSteps, tradingSteps_legal, rfl⟩
  have hOrder :
      (Machine.run step listening
          tradingSteps).exch.orders[(0 : UInt32)]? =
        some ⟨0, .sell, 0, 100, 2, 1⟩ := by
    decide
  have hIff :=
    cancels_iff hReach hOrder hConn hLive hRole hOwner
  have hCancels := hIff.2.mpr (by decide)
  have hQueue :
      (Machine.run step listening
          tradingSteps).exch.deque 0 1 100 = [0] := by
    decide
  refine ⟨c, hConn, hCancels, hQueue, ?_, ?_⟩
  · rw [hCancels.unlists.levels 0 1 100,
      if_pos ⟨rfl, rfl, rfl⟩, hQueue]
    decide
  · rw [hCancels.unlists.orders 0, if_pos rfl]

end Server

end SocketExchange

------------------------------------------------------------
-- Many Ids
------------------------------------------------------------

namespace SocketExchange

namespace Exchange

/- Nothing rests, and this many ids have been handed out. -/
def idle (n : Nat) : Exchange :=
  { empty with nextId := UInt32.ofNat n }

/- One order of one unit is entered. -/
def idleBuyer (inst : Fin 2) (n : Nat) : Exchange :=
  ((idle n).submit .buy inst 1 1 1 []).1

theorem idle_submit (n : Nat) :
    (idle n).submit .buy 0 1 1 1 [] =
      ({ nextId := UInt32.ofNat n + 1
         orders :=
           empty.orders.insertIfNew (UInt32.ofNat n)
             ⟨UInt32.ofNat n, .buy, 0, 1, 1, 1⟩
         books :=
           empty.books.set 0 0
             (pushBack (empty.books 0 0) 1
               (UInt32.ofNat n)) },
        UInt32.ofNat n, []) := by
  have hAbsent :
      ((idle n).books 0 1)[(1 : UInt32)]? = none := by
    simp [idle, empty]
  exact submit_unanswered (by decide) hAbsent 1

/- It rests under the next id. -/
theorem idleBuyer_rests (n : Nat) :
    (idleBuyer 0 n).orders[UInt32.ofNat n]? =
      some ⟨UInt32.ofNat n, .buy, 0, 1, 1, 1⟩ := by
  rw [idleBuyer, idle_submit]
  dsimp only
  rw [Std.ExtTreeMap.getElem?_insertIfNew, if_pos]
  exact ⟨Std.ReflCmp.compare_self, by simp [empty]⟩

/- Taken back, it leaves nothing but the next id. -/
theorem idleBuyer_cancel (n : Nat) :
    ((idleBuyer 0 n).cancel (UInt32.ofNat n) 1).1 =
      idle (n + 1) := by
  have hTaken :
      (idleBuyer 0 n).cancel (UInt32.ofNat n) 1 =
        ({ idle n with nextId := UInt32.ofNat n + 1 },
          .ok ()) :=
    @cancel_unanswered (idle n) .buy 0 1 1 (by decide)
      (by simp [idle, empty]) (by simp [idle, empty])
      (by simp [idle, empty])
      (by simp [idle, empty, deque]) 1
  rw [hTaken]
  exact congrArg
    (fun id => { empty with nextId := id })
    (UInt32.ofNat_add n 1).symm

end Exchange

end SocketExchange

------------------------------------------------------------
-- A Buyer Who Never Stops
------------------------------------------------------------

namespace SocketExchange

namespace Port

/- A message that the socket takes at once. -/
theorem queue_taken
    {p : Port}
    {m : Msg}
    (hEmpty : p.conn.out = OutBuffer.empty)
    (hSends : p.sends = [.sent 100])
    (hOpen : p.conn.closing = false)
    (hText : m.text ≠ [])
    (hLength : m.text.length ≤ 100) :
    (p.queue m).conn =
      { p.conn with
        out := OutBuffer.empty
        writeEnabled := false } := by
  have hData :
      (OutBuffer.empty.push m.text).data = m.text := by
    simp [OutBuffer.push, OutBuffer.empty]
  have hOff : (OutBuffer.empty.push m.text).off = 0 := rfl
  have hFull :
      (OutBuffer.empty.push m.text).isEmpty = false := by
    have hPos := List.length_pos_iff.mpr hText
    rw [OutBuffer.isEmpty, hData, hOff]
    exact decide_eq_false (by omega)
  have hSmall :
      ¬ (OutBuffer.empty.push m.text).pending >
        kMaxOutBytes := by
    rw [OutBuffer.pending, OutBuffer.len, hData, hOff]
    have hCap : 100 ≤ kMaxOutBytes := by decide
    omega
  have hConsumed :
      (OutBuffer.empty.push m.text).consume 100 =
        OutBuffer.empty := by
    rw [OutBuffer.consume, dif_pos]
    · rfl
    · rw [hData, hOff]
      omega
  have hLoop :
      flushLoop [.sent 100]
          (OutBuffer.empty.push m.text) =
        ⟨.drained, OutBuffer.empty, [],
          (OutBuffer.empty.push m.text).bytes.take 100 ++
            []⟩ := by
    rw [flushLoop, if_neg (by simp [hFull])]
    dsimp only
    rw [if_pos (by decide), hConsumed]
    rfl
  unfold queue
  dsimp only
  rw [hEmpty, if_neg hSmall]
  unfold flush
  dsimp only
  rw [hSends, hLoop]
  simp [hOpen]

end Port

namespace Server

/- The connection of a trader who waits for nothing. -/
structure AtEase (s : Server) (c : Conn) : Prop where
  lfd : s.lfd = 3
  conn : s.conns[(5 : Fd)]? = some c
  fd : c.fd = 5
  live : c.dead = false
  going : c.closing = false
  role : c.role = .trader
  owner : c.ownerId = 1
  input : c.input = LineBuffer.empty
  out : c.out = OutBuffer.empty

/- One line, in a chunk of its own. -/
def lineChunk
    (line : Bytes)
    (hShort : line.length < 4096) : Chunk where
  bytes := line ++ [newline]
  ne_nil := by simp
  length_le := by
    rw [List.length_append, List.length_singleton]
    exact hShort

/- An event that brings it; the socket takes the reply. -/
def sendsLine
    (line : Bytes)
    (hShort : line.length < 4096) : Step :=
  .reads 5 [.data (lineChunk line hShort)]
    (fun _ => [.sent 100])

variable {s : Server} {c : Conn} {line : Bytes}
variable {call : Call} {m : Msg}

/-
  On every such connection the line calls the exchange in
  this state, and is answered with this message.
-/
def Calls
    (e : Exchange)
    (line : Bytes)
    (call : Call)
    (m : Msg) : Prop :=
  ∀ (t : Server) (d : Conn), AtEase t d → t.exch = e →
    t.handleLine 5 line =
      ((t.note (.line 1 line)).callExchange 1 call).queueOut
        5 m

/- The socket takes the reply, and all is as before. -/
theorem AtEase.answered
    (hEase : AtEase s c)
    (hSends : s.env.sends 5 = [.sent 100])
    (hText : m.text ≠ [] ∧ m.text.length ≤ 100)
    (hCalls : Calls s.exch line call m) :
    ∃ d, AtEase (s.handleLine 5 line) d ∧
      (s.handleLine 5 line).exch =
        (s.exch.step call).1 := by
  rw [hCalls s c hEase rfl]
  have hConn :
      ((s.note (.line 1 line)).callExchange 1
          call).conns[(5 : Fd)]? = some c :=
    hEase.conn
  have hTaken :
      ((Port.ofConn
          ((s.note (.line 1 line)).callExchange 1 call)
          c).queue m).conn =
        { c with
          out := OutBuffer.empty
          writeEnabled := false } := by
    refine Port.queue_taken hEase.out ?_ hEase.going
      hText.1 hText.2
    change s.env.sends c.fd = _
    rw [hEase.fd]
    exact hSends
  rw [queueOut_eq_commit hConn hEase.live]
  refine ⟨{ c with
    out := OutBuffer.empty, writeEnabled := false }, ?_, ?_⟩
  · constructor
    case lfd =>
      rw [commit_lfd]
      exact hEase.lfd
    case conn =>
      rw [commit_conns, hTaken, getElem?_insert_fd,
        if_pos rfl]
    case fd => exact hEase.fd
    case live => exact hEase.live
    case going => exact hEase.going
    case role => exact hEase.role
    case owner => exact hEase.owner
    case input => exact hEase.input
    case out => rfl
  · rw [commit_exch]
    rfl

/- The line comes, and no more than the line. -/
theorem AtEase.receive
    (hEase : AtEase s c)
    (hSends : s.env.sends 5 = [.sent 100])
    (hFree : newline ∉ line)
    (hStrip : LineBuffer.stripCr line = line)
    (hText : m.text ≠ [] ∧ m.text.length ≤ 100)
    (hCalls : Calls s.exch line call m) :
    ∃ t d, s.receive 5 (line ++ [newline]) = (t, false) ∧
      AtEase t d ∧ t.exch = (s.exch.step call).1 := by
  have hTaken :
      AtEase
        (s.setConn 5 { c with input := LineBuffer.empty })
        { c with input := LineBuffer.empty } :=
    ⟨hEase.lfd, getElem?_setConn_self s 5 _, hEase.fd,
      hEase.live, hEase.going, hEase.role, hEase.owner, rfl,
      hEase.out⟩
  rcases hTaken.answered hSends hText hCalls with
    ⟨d, hNext, hExch⟩
  refine ⟨_, d, ?_, hNext, hExch⟩
  have hNotDone :
      ¬ ((s.setConn 5
          { c with input := LineBuffer.empty }).handleLine 5
            line).isDone 5 = true := by
    simp [isDone, hNext.conn, hNext.live, hNext.going]
  have hMore : d.input.nextLine = .needMore := by
    rw [hNext.input]
    rfl
  have hLine :
      (c.input.append (line ++ [newline])).nextLine =
        .ok line LineBuffer.empty := by
    have hCut := LineBuffer.nextLine_of_line hFree []
    rw [hStrip] at hCut
    rw [hEase.input]
    exact hCut
  have hSize :
      (c.input.append (line ++ [newline])).size + 1 =
        line.length + 1 + 1 := by
    rw [hEase.input]
    simp [LineBuffer.size, LineBuffer.append,
      LineBuffer.empty]
  rw [receive_eq hEase.conn, hSize]
  unfold drainLines
  rw [getElem?_setConn_self]
  dsimp only
  rw [hLine]
  dsimp only
  rw [setConn_setConn, if_neg hNotDone]
  unfold drainLines
  rw [hNext.conn]
  dsimp only
  rw [hMore]

/- One event, one line. -/
theorem AtEase.sends
    (hEase : AtEase s c)
    (hShort : line.length < 4096)
    (hFree : newline ∉ line)
    (hStrip : LineBuffer.stripCr line = line)
    (hText : m.text ≠ [] ∧ m.text.length ≤ 100)
    (hCalls : Calls s.exch line call m) :
    ∃ d, AtEase (step s (sendsLine line hShort)) d ∧
      (step s (sendsLine line hShort)).exch =
        (s.exch.step call).1 := by
  have hOther : (5 : Fd) ≠ s.lfd := by
    rw [hEase.lfd]
    decide
  have hFind : s.findLive 5 = some c :=
    findLive_eq_some_iff.mpr ⟨hEase.conn, hEase.live⟩
  have hAnswered :
      ∀ a : Answers, AtEase (s.withAnswers a) c :=
    fun a => ⟨hEase.lfd, hEase.conn, hEase.fd, hEase.live,
      hEase.going, hEase.role, hEase.owner, hEase.input,
      hEase.out⟩
  unfold sendsLine Step.reads
  rw [step_read hOther rfl hFind]
  rcases (hAnswered
      ⟨[], [.data (lineChunk line hShort)],
        fun _ => [.sent 100], .sorted⟩).receive rfl hFree
        hStrip hText hCalls with
    ⟨t, d, hReceive, hNext, hExch⟩
  change (s.withAnswers _).receive 5
    (lineChunk line hShort).bytes = (t, false) at hReceive
  unfold recvLoop
  dsimp only
  rw [hReceive]
  exact ⟨d, hNext, hExch⟩

end Server

end SocketExchange

------------------------------------------------------------
-- A Buyer Who Takes Every Order Back
------------------------------------------------------------

namespace SocketExchange

namespace Server

open Exchange

variable {n : Nat} {s : Server} {c : Conn}

/- A reply with an id in it is short. -/
theorem decimal_text
    (id : UInt32)
    {verb : Bytes}
    (hVerb : verb.length ≤ 20) :
    verb ++ decimal id ++ ascii "\n" ≠ [] ∧
      (verb ++ decimal id ++ ascii "\n").length ≤ 100 := by
  have hDigits := length_decimal_le id
  have hEnd : (ascii "\n").length = 1 := by decide
  constructor
  · simp [ascii]
  · rw [List.length_append, List.length_append]
    omega

def buyLine : Bytes := ascii "BUY JNST 1 1"

theorem calls_buyLine (n : Nat) :
    Calls (idle n) buyLine (.submit .buy 0 1 1 1)
      (.orderAccepted (UInt32.ofNat n)) := by
  intro t d hEase hExch
  have hFields :
      splitWs buyLine =
        [ascii "BUY", ascii "JNST", ascii "1",
          ascii "1"] := by
    decide
  have hRequest :
      Requests (splitWs buyLine)
        (.submit .buy 0 1 1 d.ownerId) :=
    ⟨ascii "JNST", ascii "1", ascii "1", hFields,
      by decide, by decide, by decide⟩
  have hSubmit :
      (t.note (.line d.ownerId buyLine)).exch.submit .buy 0
          1 1 d.ownerId [] =
        (idleBuyer 0 n, UInt32.ofNat n, []) := by
    rw [hEase.owner, idleBuyer, idle_submit]
    change t.exch.submit .buy 0 1 1 1 [] = _
    rw [hExch, idle_submit]
  rw [handleLine_order hEase.conn hEase.role hRequest]
  unfold acceptOrder
  rw [hSubmit, hEase.owner]
  rfl

theorem calls_cancelLine
    (n : Nat)
    (hLe : UInt32.ofNat n ≤ kMaxOrderId) :
    Calls (idleBuyer 0 n) (cancelLine (UInt32.ofNat n))
      (.cancel (UInt32.ofNat n) 1)
      (.orderCancelled (UInt32.ofNat n)) := by
  intro t d hEase hExch
  have hOrder := idleBuyer_rests n
  rw [← hExch] at hOrder
  have hHandled :=
    handleLine_cancels hOrder hEase.conn hEase.role
      hEase.owner hLe
  rw [hEase.owner] at hHandled
  exact hHandled

/- A digit is neither the end of a line nor a CR. -/
theorem cancelLine_plain (key : UInt32) :
    newline ∉ cancelLine key ∧
      LineBuffer.stripCr (cancelLine key) =
        cancelLine key := by
  have hDigit :
      ∀ b ∈ decimal key,
        b ≠ newline ∧ b ≠ carriageReturn := by
    intro b hMem
    have hIs := isDigit_of_mem_decimal hMem
    constructor
    · rintro rfl
      exact absurd hIs (by decide)
    · rintro rfl
      exact absurd hIs (by decide)
  constructor
  · intro hMem
    rcases List.mem_append.mp hMem with hVerb | hId
    · exact absurd hVerb (by decide)
    · exact (hDigit _ hId).1 rfl
  · have hLast :
        (cancelLine key).getLast? =
          (decimal key).getLast? := by
      rw [cancelLine, List.getLast?_append]
      cases hEnd : (decimal key).getLast? with
      | none =>
          exact absurd (List.getLast?_eq_none_iff.mp hEnd)
            (decimal_ne_nil key)
      | some b => rfl
    unfold LineBuffer.stripCr
    rw [hLast, if_neg]
    intro hCr
    exact (hDigit _ (List.mem_of_getLast? hCr)).2 rfl

theorem cancelLine_short (key : UInt32) :
    (cancelLine key).length < 4096 := by
  have hDigits := length_decimal_le key
  have hVerb : (ascii "CANCEL ").length = 7 := by decide
  rw [cancelLine, List.length_append]
  omega

/- The order is entered. -/
def buys : Step :=
  sendsLine buyLine (by decide)

/- And taken back, by the id that was reported for it. -/
def takesBack (n : Nat) : Step :=
  sendsLine (cancelLine (UInt32.ofNat n))
    (cancelLine_short _)

/- One order after the other. -/
def rounds : Nat → List Step
| 0 => []
| n + 1 => rounds n ++ [buys, takesBack n]

theorem AtEase.buys
    (hEase : AtEase s c)
    (hExch : s.exch = idle n) :
    ∃ d, AtEase (step s buys) d ∧
      (step s buys).exch = idleBuyer 0 n := by
  have hCalls := calls_buyLine n
  rw [← hExch] at hCalls
  rcases hEase.sends (by decide) (by decide) (by decide)
      (decimal_text (UInt32.ofNat n) (by decide))
      hCalls with
    ⟨d, hNext, hAfter⟩
  refine ⟨d, hNext, hAfter.trans ?_⟩
  rw [hExch]
  rfl

theorem AtEase.takesBack
    (hEase : AtEase s c)
    (hExch : s.exch = idleBuyer 0 n)
    (hLe : UInt32.ofNat n ≤ kMaxOrderId) :
    ∃ d, AtEase (step s (takesBack n)) d ∧
      (step s (takesBack n)).exch = idle (n + 1) := by
  have hCalls := calls_cancelLine n hLe
  rw [← hExch] at hCalls
  rcases cancelLine_plain (UInt32.ofNat n) with
    ⟨hFree, hStrip⟩
  rcases hEase.sends (cancelLine_short _) hFree hStrip
      (decimal_text (UInt32.ofNat n) (by decide))
      hCalls with
    ⟨d, hNext, hAfter⟩
  refine ⟨d, hNext, hAfter.trans ?_⟩
  rw [hExch]
  exact idleBuyer_cancel n

/- As long as the ids can be read back. -/
theorem AtEase.rounds
    (hEase : AtEase s c)
    (hExch : s.exch = idle 0)
    (hRoom : n ≤ 2 ^ 31) :
    Machine.Permitted Server.step Legal s (rounds n) ∧
      ∃ d, AtEase (Machine.run Server.step s (rounds n)) d ∧
        (Machine.run Server.step s (rounds n)).exch =
          idle n := by
  have hReads :
      ∀ (t : Server) (d : Conn) (line : Bytes)
          (hShort : line.length < 4096),
        AtEase t d → Legal t (sendsLine line hShort) := by
    intro t d line hShort hAt hListen
    rw [hAt.lfd] at hListen
    exact absurd hListen (by decide)
  induction n with
  | zero => exact ⟨trivial, c, hEase, hExch⟩
  | succ n ih =>
      rcases ih (by omega) with ⟨hLegal, d, hNow, hIdle⟩
      have hNat : (UInt32.ofNat n).toNat = n :=
        UInt32.toNat_ofNat_of_lt'
          (show n < 2 ^ 32 by omega)
      have hLe : UInt32.ofNat n ≤ kMaxOrderId := by
        rw [UInt32.le_iff_toNat_le, hNat]
        change n ≤ 2147483647
        omega
      rcases hNow.buys hIdle with ⟨d', hNext, hBought⟩
      rcases hNext.takesBack hBought hLe with
        ⟨d'', hLast, hAfter⟩
      rw [Server.rounds, Machine.run_append,
        Machine.permitted_append]
      exact ⟨⟨hLegal, hReads _ _ _ _ hNow,
        hReads _ _ _ _ hNext, trivial⟩, d'', hLast, hAfter⟩

/- A trader logs in, and its socket takes the reply. -/
def buyerSteps : List Step :=
  [.connects 5,
    .reads 5
      [.data ⟨ascii "LOGIN bea\n", by decide, by decide⟩]
      (fun _ => [.sent 100])]

theorem buyerSteps_legal :
    Machine.Permitted step Legal listening buyerSteps := by
  refine ⟨fun _ => ⟨by decide, by decide, trivial⟩, ?_,
    trivial⟩
  intro hListen
  exact absurd hListen (by decide)

/-
  It enters 2^31 orders and takes each of them back; then it
  enters one more.
-/
def lateSteps : List Step :=
  buyerSteps ++ (rounds (2 ^ 31) ++ [buys])

/- The id of the last of them. -/
def lateId : UInt32 := UInt32.ofNat (2 ^ 31)

theorem OutBuffer.eq_empty
    {b : OutBuffer}
    (hData : b.data = []) :
    b = OutBuffer.empty := by
  rcases b with ⟨data, off, hLe⟩
  dsimp only at hData
  subst hData
  have hZero : off = 0 := Nat.le_zero.mp hLe
  subst hZero
  rfl

theorem buyerSteps_atEase :
    ∃ c, AtEase (Machine.run step listening buyerSteps)
      c := by
  have hSeen :
      ((Machine.run step listening
          buyerSteps).conns[(5 : Fd)]?).map
        (fun c => (c.fd, c.dead, c.closing, c.role)) =
      some (5, false, false, .trader) := by
    decide
  have hBuffers :
      ((Machine.run step listening
          buyerSteps).conns[(5 : Fd)]?).map
        (fun c => (c.ownerId, c.input, c.out.data)) =
      some (1, LineBuffer.empty, []) := by
    decide
  rcases Option.map_eq_some_iff.mp hSeen with
    ⟨c, hConn, hFields⟩
  rw [hConn] at hBuffers
  injection hBuffers with hRest
  injection hFields with hFd hFields
  injection hFields with hLive hFields
  injection hFields with hGoing hRole
  injection hRest with hOwner hRest
  injection hRest with hInput hData
  exact ⟨c, by decide, hConn, hFd, hLive, hGoing, hRole,
    hOwner, hInput, OutBuffer.eq_empty hData⟩

/- After that many rounds, one more order, and no other. -/
theorem late_run
    {n : Nat}
    (hRoom : n ≤ 2 ^ 31) :
    Machine.Permitted step Legal listening
        (buyerSteps ++ (rounds n ++ [buys])) ∧
      ∃ c,
        AtEase
          (Machine.run step listening
            (buyerSteps ++ (rounds n ++ [buys]))) c ∧
        (Machine.run step listening
            (buyerSteps ++ (rounds n ++ [buys]))).exch =
          idleBuyer 0 n := by
  rcases buyerSteps_atEase with ⟨b, hFirst⟩
  have hExch :
      (Machine.run step listening buyerSteps).exch =
        idle 0 :=
    rfl
  rcases hFirst.rounds hExch hRoom with
    ⟨hLegal, c, hNow, hIdle⟩
  rcases hNow.buys hIdle with ⟨d, hLast, hBought⟩
  rw [Machine.run_append, Machine.run_append,
    Machine.permitted_append, Machine.permitted_append]
  refine ⟨⟨buyerSteps_legal, hLegal, ?_, trivial⟩, d, hLast,
    hBought⟩
  intro hListen
  rw [hNow.lfd] at hListen
  exact absurd hListen (by decide)

/- Its last order rests, and it cannot cancel it. -/
theorem late_order_stays :
    Machine.Permitted step Legal listening lateSteps ∧
      ∃ c o,
        (Machine.run step listening
            lateSteps).exch.orders[lateId]? = some o ∧
        (Machine.run step listening
            lateSteps).conns[(5 : Fd)]? = some c ∧
        c.dead = false ∧ c.closing = false ∧
        c.role = .trader ∧ c.ownerId = o.owner ∧
        ¬ Cancels (Machine.run step listening lateSteps)
            ((Machine.run step listening
                lateSteps).handleLine 5
              (cancelLine lateId))
            c.ownerId lateId o := by
  have hGt : ¬ lateId ≤ kMaxOrderId := by decide
  have hRests := idleBuyer_rests (2 ^ 31)
  unfold lateSteps
  rcases late_run (Nat.le_refl (2 ^ 31)) with
    ⟨hLegal, c, hEase, hExch⟩
  rw [← hExch] at hRests
  exact ⟨hLegal, c, _, hRests, hEase.conn, hEase.live,
    hEase.going, hEase.role, hEase.owner,
    not_cancels_of_gt hRests hEase.conn hEase.role hGt⟩

end Server

end SocketExchange

import SocketExchange.Book.Bounds
import SocketExchange.Client.Loop
import SocketExchange.Server.Stream

/-
  Messages arrive, in order.

  From the queue of a connection to the screen of its
  client: every message is one line of printable characters,
  the output stream is a queue, the network delivers a first
  part of it in pieces of any size, and the client prints
  the lines of what it received. So it prints a first part
  of the messages queued.

  Main declarations:
    * `Msg.IsLine`
    * `Made.valued`
    * `Server.Reachable.worded`
    * `Server.delivered_in_order`
-/

------------------------------------------------------------
-- Messages Are Lines
------------------------------------------------------------

namespace SocketExchange

/-
  One line, printed as it is: one newline, at the end, and
  nothing that the client would strip.
-/
structure Msg.IsLine (m : Msg) : Prop where
  text : m.text = m.line ++ [newline]
  free : newline ∉ m.line
  shown : shown m.line = m.line

/- A client shows printable bytes as they are. -/
theorem shown_of_printable
    {s : Bytes}
    (hPrint : Printable s) :
    shown s = s := by
  have hStrip : LineBuffer.stripCr s = s := by
    unfold LineBuffer.stripCr
    rw [if_neg]
    intro hLast
    have hNone : carriageReturn ∉ s :=
      hPrint.not_mem (by decide)
    exact hNone (List.mem_of_getLast? hLast)
  have hZero : (0 : UInt8) ∉ s :=
    hPrint.not_mem (by decide)
  unfold shown cStr
  rw [hStrip, List.takeWhile_eq_self_iff]
  intro c hc
  have hNe : c ≠ 0 := by
    rintro rfl
    exact hZero hc
  simpa using hNe

/- The reasons the server gives are printable. -/
theorem printable_reason
    {reason : String}
    (hReason : reason ∈ reasons) :
    Printable (ascii reason) := by
  have hAll :
      ∀ r ∈ reasons, (ascii r).all isPrint = true := by
    decide +kernel
  exact printable_of_all (hAll reason hReason)

/- So is every argument of a plain message. -/
theorem Msg.Plain.printable_args
    {m : Msg}
    (hPlain : m.Plain) :
    ∀ w ∈ m.args, Printable w := by
  intro w hw
  cases m with
  | ok => cases hw
  | error reason =>
      rw [List.mem_singleton.mp hw]
      exact printable_reason hPlain
  | orderAccepted id =>
      rw [List.mem_singleton.mp hw]
      exact printable_decimal id
  | orderCancelled id =>
      rw [List.mem_singleton.mp hw]
      exact printable_decimal id
  | bought t => exact printable_execFields t w hw
  | sold t => exact printable_execFields t w hw
  | trade t => exact printable_execFields t w hw

/- Hence a plain message is one line. -/
theorem Msg.Plain.isLine
    {m : Msg}
    (hPlain : m.Plain) :
    m.IsLine := by
  have hPrint : Printable m.line := by
    rw [Msg.line_eq]
    apply printable_intercalate
    intro w hw
    rcases List.mem_cons.mp hw with rfl | hArg
    · exact (Msg.isWord_verb m).2
    · exact hPlain.printable_args w hArg
  constructor
  · rw [Msg.line_eq]
    exact Msg.text_eq m
  · exact hPrint.not_mem (by decide)
  · exact shown_of_printable hPrint

/- The messages about a trade carry its fields. -/
theorem Msg.args_of_trade
    {m : Msg}
    {t : Trade}
    (hTrade : m.trade? = some t) :
    m.args = execFields t := by
  rcases Msg.cases_of_trade hTrade with rfl | rfl | rfl
  · rfl
  · rfl
  · rfl

/- The verbs of the messages that report a trade. -/
def execVerbs : List String :=
  ["BOUGHT", "SOLD", "TRADE"]

/- A line with such a verb is the line of such a message. -/
theorem Msg.trade_of_head
    {m : Msg}
    {verb : String}
    (hVerb : verb ∈ execVerbs)
    (hHead : (splitWs m.line).head? = some (ascii verb)) :
    ∃ t, m.trade? = some t := by
  have hApart :
      ∀ v ∈ ["OK", "ERROR", "ORDER_ACCEPTED",
          "ORDER_CANCELLED"],
        ∀ w ∈ execVerbs, ascii v ≠ ascii w := by
    decide +kernel
  rw [Msg.head_splitWs_line] at hHead
  injection hHead with hHead
  cases m with
  | bought t => exact ⟨t, rfl⟩
  | sold t => exact ⟨t, rfl⟩
  | trade t => exact ⟨t, rfl⟩
  | _ =>
      refine absurd hHead (hApart _ ?_ verb hVerb)
      simp [Msg.verb]

end SocketExchange

------------------------------------------------------------
-- The Values Of A Trade
------------------------------------------------------------

namespace SocketExchange

/- A quantity or price that the protocol admits. -/
def Valued (v : UInt32) : Prop :=
  kMinValue ≤ v ∧ v ≤ kMaxValue

variable {log : List Obs}

/- A line that requests an order names values in range. -/
theorem valued_of_requests
    {tk : List Bytes}
    {side : Side}
    {inst : Fin 2}
    {qty price : UInt32}
    {owner : Int}
    (hRequest :
      Requests tk (.submit side inst qty price owner)) :
    Valued qty ∧ Valued price := by
  rcases hRequest with ⟨_, _, _, _, _, hQty, hPrice⟩
  exact ⟨parseU32_range hQty, parseU32_range hPrice⟩

/- A number within the limit is such a value. -/
theorem valued_of_inRange
    {v : UInt32}
    (hRange : Exchange.InRange kMaxValue v) :
    Valued v := by
  refine ⟨?_, hRange.2⟩
  have hPos := UInt32.lt_iff_toNat_lt.mp hRange.1
  rw [UInt32.le_iff_toNat_le]
  exact hPos

/- No order rests with more than the protocol admits. -/
theorem replay_within
    (hTraced : Traced Justified log) :
    Exchange.Within kMaxValue (replay log).orders := by
  refine Traced.induction
    (motive := fun log =>
      Exchange.Within kMaxValue (replay log).orders)
    ?_ ?_ hTraced
  · intro key o hOrder
    simp [replay, callsOf, Exchange.empty] at hOrder
  · intro log e _ hWithin hJust
    cases e with
    | called owner call reply =>
        rcases hJust with ⟨_, _, _, text, _, hRequest⟩
        rw [replay_append_called]
        apply Exchange.step_within hWithin
        rintro side inst qty price k rfl
        exact (valued_of_requests hRequest).1.2
    | _ =>
        rw [replay_append_of_no_calls log rfl]
        exact hWithin

/- So the values of every trade are in range. -/
theorem Made.valued
    (hTraced : Traced Justified log)
    {t : Trade}
    (hMade : Made log t) :
    Valued t.qty ∧ Valued t.price := by
  rcases hMade with ⟨owner, call, id, trades, hMem, hTrade⟩
  rcases List.append_of_mem hMem with
    ⟨before, after, hSplit⟩
  rcases hTraced before _ after hSplit with
    ⟨_, _, hReply, text, _, hRequest⟩
  have hBefore : Traced Justified before :=
    hTraced.prefix_of (hSplit ▸ List.prefix_append _ _)
  cases call with
  | cancel key k => cases hReply
  | submit side inst qty price k =>
      have hValued := valued_of_requests hRequest
      have hTrades :
          trades = ((replay before).submit side inst qty
            price k []).2.2 := by
        injection hReply
      rw [hTrades] at hTrade
      have hRange :=
        (Exchange.submit_within (replay_within hBefore)
          hValued.1.2 side inst k).2 t hTrade
      rw [hRange.2]
      exact ⟨valued_of_inRange hRange.1, hValued.2⟩

end SocketExchange

------------------------------------------------------------
-- Every Message Has A Text
------------------------------------------------------------

namespace SocketExchange

/- A message in the history is one the server words. -/
def Obs.Worded : Obs → Prop
| .queued _ m => m.Plain
| _ => True

namespace Server

/- Every message queued is one the server words. -/
def Worded (s : Server) : Prop :=
  ∀ e ∈ s.log, e.Worded

variable {s s' : Server} {fd : Fd}

/- Plain entries keep the log plain. -/
theorem Worded.extend
    {es : List Obs}
    (hWorded : Worded s)
    (hLog : s'.log = s.log ++ es)
    (hNew : ∀ e ∈ es, e.Worded) :
    Worded s' := by
  unfold Worded
  rw [hLog]
  exact List.forall_mem_append.mpr ⟨hWorded, hNew⟩

/- In particular one. -/
theorem Worded.extend_one
    {e : Obs}
    (hWorded : Worded s)
    (hLog : s'.log = s.log ++ [e])
    (hNew : e.Worded) :
    Worded s' :=
  hWorded.extend hLog (List.forall_mem_singleton.mpr hNew)

/- What follows a message on its port has no words. -/
theorem OutputTail.worded
    {owner : Int}
    {closing dead : Bool}
    {es : List Obs}
    (hTail : OutputTail owner closing dead es) :
    ∀ e ∈ es, e.Worded :=
  hTail.forall_mem (fun _ => trivial) (fun _ _ => trivial)

/- Flushing adds no message. -/
theorem Worded.flush
    {c : Conn}
    (hWorded : Worded s)
    (hLive : c.dead = false) :
    Worded (s.commit fd (Port.ofConn s c).flush) := by
  rcases flushed_log s fd hLive with ⟨es, hLog, hTail⟩
  apply hWorded.extend hLog
  exact OutputTail.worded hTail

/- Nor does it through the table. -/
theorem Worded.tryFlush
    (hWorded : Worded s) :
    Worded (s.tryFlush fd) := by
  refine tryFlush_cases (P := Worded) hWorded ?_
  intro c _ hLive
  exact hWorded.flush hLive

/- Every deed of a handler queues plain messages only. -/
theorem Worded.deed
    {G : Guard}
    (hWorded : Worded s)
    (hDeed : Deed G s s') :
    Worded s' := by
  cases hDeed with
  | @queue fd c m _ hLive _ _ _ hPlain =>
      rcases queued_log s fd hLive m with ⟨es, hLog, hTail⟩
      apply hWorded.extend hLog
      exact List.forall_mem_cons.mpr
        ⟨hPlain, OutputTail.worded hTail⟩
  | @quit fd c hConn =>
      apply Worded.tryFlush
      unfold setClosing
      rw [hConn]
      exact hWorded.extend_one rfl trivial
  | refuse _ _ _ _ _ => exact hWorded.extend_one rfl trivial
  | overlong _ _ _ => exact hWorded.extend_one rfl trivial
  | login _ _ _ _ _ _ =>
      exact hWorded.extend_one rfl trivial
  | subscribe _ _ _ _ _ _ =>
      exact hWorded.extend_one rfl trivial
  | @call fd c call _ _ _ _ text _ _ =>
      have hLine :
          Worded (s.note (.line c.ownerId text)) :=
        hWorded.extend_one rfl trivial
      exact hLine.extend_one rfl trivial

/- And so does every move of the server. -/
theorem Worded.move
    {G : Guard}
    (hWorded : Worded s)
    (hMove : Move G s s') :
    Worded s' := by
  cases hMove with
  | deed hDeed => exact hWorded.deed hDeed
  | flush _ hLive => exact hWorded.flush hLive
  | @close fd c _ _ why _ =>
      exact hWorded.extend_one (commit_log s fd _) trivial
  | input _ _ => exact hWorded
  | accept _ _ => exact hWorded.extend_one rfl trivial
  | answers _ => exact hWorded

/- Hence all messages ever queued are plain. -/
theorem Reachable.worded
    (hReach : Reachable s) :
    Worded s := by
  apply hReach.of_moves Worded
  · intro lfd env e he
    cases he
  · intro s s' _ hWorded hMove
    exact hWorded.move hMove
  · intro s _ hWorded
    apply hWorded.extend (reap_log s)
    intro e he
    rcases List.mem_map.mp he with ⟨f, _, rfl⟩
    trivial

end Server

end SocketExchange

------------------------------------------------------------
-- From The Queue To The Screen
------------------------------------------------------------

namespace SocketExchange

/-
  A message was pushed to an owner if it was queued on it.
-/
theorem mem_pushedTo
    {owner : Int}
    {log : List Obs}
    {m : Msg} :
    m ∈ pushedTo owner log ↔ Obs.queued owner m ∈ log := by
  unfold pushedTo
  rw [List.mem_filterMap]
  constructor
  · rintro ⟨e, he, hSome⟩
    cases e with
    | queued k m' =>
        dsimp only at hSome
        split at hSome
        · next hSame =>
            injection hSome with hMsg
            rw [hSame, hMsg] at he
            exact he
        · cases hSome
    | _ => cases hSome
  · intro hMem
    exact ⟨_, hMem, if_pos rfl⟩

/- The trade that a message reports was made before. -/
theorem Reported.made
    {pre : List Obs}
    {owner : Int}
    {m : Msg}
    {t : Trade}
    (hReported : Reported pre owner m)
    (hTrade : m.trade? = some t) :
    Made pre t := by
  rcases Msg.cases_of_trade hTrade with rfl | rfl | rfl
  · exact hReported.2
  · exact hReported.2
  · exact hReported

/- The line gives back the trade, and the trade was made. -/
structure GivesBack
    (log : List Obs)
    (line : Bytes)
    (t : Trade) : Prop where
  made : Made log t
  reads : ReadsAs line t
  qty : Valued t.qty
  price : Valued t.price

namespace Server

variable {s : Server} {owner : Int}

/- Every message a connection is sent is one line. -/
theorem Reachable.isLine
    (hReach : Reachable s)
    {m : Msg}
    (hQueued : m ∈ pushedTo owner s.log) :
    m.IsLine := by
  apply Msg.Plain.isLine
  exact hReach.worded _ (mem_pushedTo.mp hQueued)

/- And one that reports a trade gives it back. -/
theorem Reachable.givesBack
    (hReach : Reachable s)
    {m : Msg}
    {t : Trade}
    (hQueued : m ∈ pushedTo owner s.log)
    (hTrade : m.trade? = some t) :
    GivesBack s.log m.line t := by
  have hTraced := hReach.history.traced
  rcases List.append_of_mem (mem_pushedTo.mp hQueued) with
    ⟨pre, post, hSplit⟩
  have hMade : Made s.log t := by
    rw [hSplit]
    apply Made.mono
    exact (hTraced pre _ post hSplit).2.made hTrade
  rcases hMade.valued hTraced with ⟨hQty, hPrice⟩
  refine ⟨hMade, ?_, hQty, hPrice⟩
  rw [Msg.line_eq, Msg.args_of_trade hTrade]
  exact readsAs_execFields (Msg.isWord_verb m).1 hQty hPrice

/- The lines of all that was queued are the messages. -/
theorem Reachable.queued_shown
    (hReach : Reachable s) :
    (Cut.pieces newline (queuedBytes owner s.log)).map
        shown =
      (pushedTo owner s.log).map Msg.line := by
  have hTexts :
      queuedBytes owner s.log =
        (pushedTo owner s.log).flatMap
          fun m => m.line ++ [newline] := by
    unfold queuedBytes
    apply List.flatMap_congr
    intro m hm
    exact (hReach.isLine hm).text
  have hLines :
      Cut.pieces newline (queuedBytes owner s.log) =
        (pushedTo owner s.log).map Msg.line := by
    rw [hTexts]
    apply Cut.pieces_flatMap
    intro m hm
    exact (hReach.isLine hm).free
  rw [hLines, List.map_map]
  apply List.map_congr_left
  intro m hm
  exact (hReach.isLine hm).shown

/-
  The lines of a first part of what was sent are the first
  of the messages queued.
-/
theorem Reachable.streamed
    (hReach : Reachable s)
    {stream : Bytes}
    (hTcp : stream <+: sentBytes owner s.log) :
    (Cut.pieces newline stream).map shown <+:
      (pushedTo owner s.log).map Msg.line := by
  have hStream := hTcp.trans (hReach.flows.sent owner)
  rw [← hReach.queued_shown]
  exact (Cut.pieces_prefix hStream).map shown

/-
  A client that received a first part of what was sent has
  printed a first part of the messages queued.
-/
theorem Reachable.printed
    (hReach : Reachable s)
    {turns : List Select}
    (hTcp :
      (Machine.run Client.turn Client.init
        turns).received <+: sentBytes owner s.log) :
    (Machine.run Client.turn Client.init turns).printed <+:
      (pushedTo owner s.log).map Msg.line := by
  rw [Client.run_printed]
  exact hReach.streamed hTcp

/-
  Messages are delivered in order, end to end. Whatever the
  run, the answers of `send` and the chunks of `recv`, the
  lines that the client of a connection prints are a first
  part of the messages queued on the connection: one line
  for each, in order and unchanged. What was sent on a live
  connection and what its buffer holds is what was queued.
  The line of an execution gives back the instrument, the
  quantity and the price of the trade, both in range.
-/
theorem delivered_in_order
    (hReach : Reachable s)
    (owner : Int)
    (turns : List Select)
    (hTcp :
      (Machine.run Client.turn Client.init
        turns).received <+: sentBytes owner s.log) :
    (Machine.run Client.turn Client.init turns).printed <+:
      (pushedTo owner s.log).map Msg.line ∧
    (∀ m ∈ pushedTo owner s.log,
      m.text = m.line ++ [newline] ∧ newline ∉ m.line ∧
        ∀ t, m.trade? = some t →
          GivesBack s.log m.line t) ∧
    (∀ line ∈ (Machine.run Client.turn Client.init
        turns).printed,
      ∀ verb ∈ execVerbs,
        (splitWs line).head? = some (ascii verb) →
          ∃ m t, m ∈ pushedTo owner s.log ∧
            m.line = line ∧ m.trade? = some t ∧
            GivesBack s.log line t) ∧
    sentBytes owner s.log <+:
      (pushedTo owner s.log).flatMap Msg.text ∧
    (∀ (fd : Fd) (c : Conn), s.conns[fd]? = some c →
      c.ownerId = owner → c.dead = false →
        sentBytes owner s.log ++ c.out.bytes =
          (pushedTo owner s.log).flatMap Msg.text) := by
  have hPrinted := hReach.printed hTcp
  refine ⟨hPrinted, ?_, ?_, hReach.flows.sent owner, ?_⟩
  · intro m hm
    have hLine := hReach.isLine hm
    exact ⟨hLine.text, hLine.free,
      fun t hTrade => hReach.givesBack hm hTrade⟩
  · intro line hMem verb hVerb hHead
    rcases List.mem_map.mp (hPrinted.subset hMem) with
      ⟨m, hm, rfl⟩
    rcases Msg.trade_of_head hVerb hHead with ⟨t, hTrade⟩
    exact ⟨m, t, hm, rfl, hTrade,
      hReach.givesBack hm hTrade⟩
  · rintro fd c hConn rfl hLive
    exact hReach.flows.live fd c hConn hLive

/-
  A seller and a buyer meet. The socket of the seller takes
  the replies in pieces.
-/
def relayedSteps : List Step :=
  [.connects 5, .connects 6,
    .reads 5
      [.data
        ⟨ascii "LOGIN dan\nSELL JNST 5 100\n",
          by decide, by decide⟩]
      (fun _ => [.sent 1, .eintr, .sent 2, .eagain]),
    .reads 6
      [.data
        ⟨ascii "LOGIN eve\nBUY JNST 3 100\n",
          by decide, by decide⟩]
      (fun _ => [.sent 20, .eintr, .sent 40])]

/- The client of the seller reads it in other pieces. -/
def relayedTurns : List Select :=
  [.ready none []
      (some (.data ⟨ascii "OK\nORDER_ACC", by decide,
        by decide⟩)),
    .eintr,
    .ready none []
      (some (.data ⟨ascii "EPTED 0\nSOLD JNST 3 100\n",
        by decide, by decide⟩))]

theorem relayedSteps_legal :
    Machine.Permitted step Legal listening relayedSteps :=
  ⟨fun _ => ⟨by decide, by decide, trivial⟩,
    fun _ => ⟨by decide, by decide, trivial⟩,
    fun h => absurd h (by decide),
    fun h => absurd h (by decide), trivial⟩

/- The client shows its order accepted, then the fill. -/
theorem delivered_in_order_relayed :
    (Machine.run Client.turn Client.init
        relayedTurns).printed =
      [ascii "OK", ascii "ORDER_ACCEPTED 0",
        ascii "SOLD JNST 3 100"] ∧
    (Machine.run Client.turn Client.init
        relayedTurns).printed <+:
      (pushedTo 1 (Machine.run step listening
        relayedSteps).log).map Msg.line ∧
    GivesBack (Machine.run step listening relayedSteps).log
      (ascii "SOLD JNST 3 100") ⟨0, 3, 100, 2, 1⟩ := by
  have hReach :
      Reachable (Machine.run step listening relayedSteps) :=
    ⟨3, _, relayedSteps, relayedSteps_legal, rfl⟩
  have hLines :
      (Machine.run Client.turn Client.init
          relayedTurns).printed =
        [ascii "OK", ascii "ORDER_ACCEPTED 0",
          ascii "SOLD JNST 3 100"] := by
    decide
  have hQueued :
      Msg.sold ⟨0, 3, 100, 2, 1⟩ ∈
        pushedTo 1
          (Machine.run step listening relayedSteps).log := by
    decide
  have hLine :
      (Msg.sold ⟨0, 3, 100, 2, 1⟩).line =
        ascii "SOLD JNST 3 100" := by
    decide
  rcases delivered_in_order hReach 1 relayedTurns
      (by decide +kernel) with ⟨hPrinted, hEach, _⟩
  refine ⟨hLines, hPrinted, ?_⟩
  rw [← hLine]
  exact (hEach _ hQueued).2.2 _ rfl

end Server

end SocketExchange

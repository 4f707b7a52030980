import SocketExchange.Book.Lifecycle
import SocketExchange.Server.Bystander
import SocketExchange.Server.Roles

/-
  The book is the replay of the accepted commands.

  `commands` reads them off the lines that were handled and
  the roles of their senders, and looks at no call. The
  calls that the server made on the exchange are these
  commands, each once and in order, whatever else happened
  to the connections in the meantime.

  Main declarations:
    * `requestOf`
    * `commands`
    * `Server.replays_move`
    * `Server.exchange_replays_commands`
-/

------------------------------------------------------------
-- The Commands In The History
------------------------------------------------------------

namespace SocketExchange

/- The order that three fields describe. -/
def orderOf
    (owner : Int)
    (side : Side)
    (name quantity level : Bytes) : Option Call := do
  let inst ← instrumentIndex name
  let qty ← parseU32 quantity kMinValue kMaxValue
  let price ← parseU32 level kMinValue kMaxValue
  return .submit side inst qty price owner

/- The call that the fields of a line ask for, if any. -/
def requestOf (owner : Int) : List Bytes → Option Call
| [verb, name, quantity, level] =>
    if verb = ascii "BUY" then
      orderOf owner .buy name quantity level
    else if verb = ascii "SELL" then
      orderOf owner .sell name quantity level
    else none
| [verb, text] =>
    if verb = ascii "CANCEL" then
      (parseU32 text 0 kMaxOrderId).map (.cancel · owner)
    else none
| _ => none

/-
  What an entry asks of the exchange: a valid BUY, SELL or
  CANCEL line of a trader asks for its call, all else for
  nothing.
-/
def validated (pre : List Obs) : Obs → List Call
| .line owner text =>
    if roleOf owner pre = .trader then
      (requestOf owner (splitWs text)).toList
    else []
| _ => []

/- The accepted commands, in the order of handling. -/
def commands (log : List Obs) : List Call :=
  Traced.collect validated log

/- The answers of the exchange, in order. -/
def repliesOf (log : List Obs) : List Reply :=
  log.filterMap fun
    | .called _ _ reply => some reply
    | _ => none

theorem orderOf_eq_some_iff
    {owner : Int}
    {side : Side}
    {name quantity level : Bytes}
    {call : Call} :
    orderOf owner side name quantity level = some call ↔
      ∃ inst qty price,
        call = .submit side inst qty price owner ∧
          instrumentIndex name = some inst ∧
          parseU32 quantity kMinValue kMaxValue =
            some qty ∧
          parseU32 level kMinValue kMaxValue =
            some price := by
  simp only [orderOf, Option.bind_eq_bind,
    Option.bind_eq_some_iff, Option.pure_def,
    Option.some.injEq]
  constructor
  · rintro ⟨inst, hInst, qty, hQty, price, hPrice, rfl⟩
    exact ⟨inst, qty, price, rfl, hInst, hQty, hPrice⟩
  · rintro ⟨inst, qty, price, rfl, hInst, hQty, hPrice⟩
    exact ⟨inst, hInst, qty, hQty, price, hPrice, rfl⟩

/- The fields ask for this call of this connection. -/
theorem requestOf_eq_some_iff
    {owner : Int}
    {tk : List Bytes}
    {call : Call} :
    requestOf owner tk = some call ↔
      Requests tk call ∧ call.owner = owner := by
  constructor
  · intro hRequest
    unfold requestOf at hRequest
    split at hRequest
    · next verb name quantity level =>
        split at hRequest
        · next hBuy =>
            rcases orderOf_eq_some_iff.mp hRequest with
              ⟨inst, qty, price, rfl, hFields⟩
            exact ⟨⟨name, quantity, level,
              by rw [hBuy]; rfl, hFields⟩, rfl⟩
        · split at hRequest
          · next hSell =>
              rcases orderOf_eq_some_iff.mp hRequest with
                ⟨inst, qty, price, rfl, hFields⟩
              exact ⟨⟨name, quantity, level,
                by rw [hSell]; rfl, hFields⟩, rfl⟩
          · cases hRequest
    · next verb text =>
        split at hRequest
        · next hCancel =>
            rcases Option.map_eq_some_iff.mp hRequest with
              ⟨id, hId, rfl⟩
            exact ⟨⟨text, by rw [hCancel], hId⟩, rfl⟩
        · cases hRequest
    · cases hRequest
  · rintro ⟨hRequest, rfl⟩
    cases call with
    | submit side inst qty price owner =>
        rcases hRequest with
          ⟨name, quantity, level, rfl, hFields⟩
        have hOrder :
            orderOf owner side name quantity level =
              some (.submit side inst qty price owner) :=
          orderOf_eq_some_iff.mpr
            ⟨inst, qty, price, rfl, hFields⟩
        cases side with
        | buy =>
            simp only [Side.verb, requestOf, if_true]
            exact hOrder
        | sell =>
            have hOther : ascii "SELL" ≠ ascii "BUY" := by
              decide
            simp only [Side.verb, requestOf, hOther, if_true,
              if_false]
            exact hOrder
    | cancel id owner =>
        rcases hRequest with ⟨text, rfl, hId⟩
        simp only [requestOf, if_true, hId]
        rfl

theorem requestOf_eq_none
    {owner : Int}
    {tk : List Bytes}
    (hIdle : ∀ call, ¬ Requests tk call) :
    requestOf owner tk = none := by
  cases hRequest : requestOf owner tk with
  | none => rfl
  | some call =>
      exact absurd (requestOf_eq_some_iff.mp hRequest).1
        (hIdle call)

end SocketExchange

------------------------------------------------------------
-- Calls Are Commands
------------------------------------------------------------

namespace SocketExchange

/- Not a line, and not a call. -/
def Obs.Idle : Obs → Prop
| .line _ _ => False
| .called _ _ _ => False
| _ => True

/- The calls of a history are the commands in it. -/
def Replays (log : List Obs) : Prop :=
  callsOf log = commands log

variable {log es : List Obs}

theorem commands_append (log es : List Obs) :
    commands (log ++ es) =
      commands log ++
        Traced.collect (fun pre => validated (log ++ pre))
          es :=
  Traced.collect_append validated log es

/- One more entry. -/
theorem commands_snoc (log : List Obs) (e : Obs) :
    commands (log ++ [e]) =
      commands log ++ validated log e := by
  rw [commands_append]
  simp [Traced.collect]

theorem callsOf_of_idle
    (hIdle : ∀ e ∈ es, e.Idle) :
    callsOf es = [] := by
  apply List.filterMap_eq_nil_iff.mpr
  intro e he
  cases e with
  | called owner call reply => exact (hIdle _ he).elim
  | _ => rfl

theorem commands_of_idle
    (log : List Obs)
    (hIdle : ∀ e ∈ es, e.Idle) :
    commands (log ++ es) = commands log := by
  have hNone :
      Traced.collect (fun pre => validated (log ++ pre))
        es = [] := by
    apply Traced.collect_eq_nil
    intro pre e he
    cases e with
    | line owner text => exact (hIdle _ he).elim
    | _ => rfl
  rw [commands_append, hNone, List.append_nil]

theorem Replays.idle
    (hReplays : Replays log)
    (hIdle : ∀ e ∈ es, e.Idle) :
    Replays (log ++ es) := by
  unfold Replays
  rw [commands_of_idle log hIdle, callsOf_append,
    callsOf_of_idle hIdle, List.append_nil]
  exact hReplays

theorem Replays.idle_one
    {e : Obs}
    (hReplays : Replays log)
    (hIdle : e.Idle) :
    Replays (log ++ [e]) := by
  apply hReplays.idle
  intro a ha
  rw [List.mem_singleton.mp ha]
  exact hIdle

theorem OutputTail.idle
    {owner : Int}
    {closing dead : Bool}
    (hTail : OutputTail owner closing dead es) :
    ∀ e ∈ es, e.Idle :=
  hTail.forall_mem (fun _ => trivial) (fun _ _ => trivial)

/- A line that makes no call asks for none. -/
theorem Replays.refused
    {owner : Int}
    {text : Bytes}
    (hReplays : Replays log)
    (hIdle :
      roleOf owner log = .trader →
        ∀ call, ¬ Requests (splitWs text) call) :
    Replays (log ++ [.line owner text]) := by
  have hNone : validated log (.line owner text) = [] := by
    unfold validated
    dsimp only
    split
    · next hRole =>
        rw [requestOf_eq_none (hIdle hRole)]
        rfl
    · rfl
  unfold Replays
  rw [commands_snoc, hNone, callsOf_append, List.append_nil]
  exact (List.append_nil _).trans hReplays

/- A line that makes a call asks for it, and only it. -/
theorem Replays.called
    {owner : Int}
    {text : Bytes}
    {call : Call}
    {reply : Reply}
    (hReplays : Replays log)
    (hRole : roleOf owner log = .trader)
    (hRequest : Requests (splitWs text) call)
    (hOwner : call.owner = owner) :
    Replays (log ++ [.line owner text] ++
      [.called owner call reply]) := by
  have hLine :
      validated log (.line owner text) = [call] := by
    unfold validated
    dsimp only
    rw [if_pos hRole,
      requestOf_eq_some_iff.mpr ⟨hRequest, hOwner⟩]
    rfl
  unfold Replays
  rw [commands_snoc, commands_snoc, hLine, callsOf_append,
    callsOf_append, hReplays]
  simp [callsOf, validated]

namespace Server

variable {s s' : Server} {fd : Fd}

/- A flush is no line and makes no call. -/
theorem tryFlush_replays
    (hReplays : Replays s.log) :
    Replays (s.tryFlush fd).log := by
  refine tryFlush_cases (P := fun t => Replays t.log)
    hReplays ?_
  intro c _ hLive
  rcases flushed_log s fd hLive with ⟨es, hLog, hTail⟩
  rw [hLog]
  exact hReplays.idle hTail.idle

theorem replays_deed
    {G : Guard}
    (hCast : Cast s)
    (hReplays : Replays s.log)
    (hDeed : Deed G s s') :
    Replays s'.log := by
  cases hDeed with
  | @queue fd c m _ hLive _ _ _ _ =>
      rcases queued_log s fd hLive m with ⟨es, hLog, hTail⟩
      rw [hLog]
      refine hReplays.idle ?_
      intro e he
      rcases List.mem_cons.mp he with rfl | hRest
      · trivial
      · exact hTail.idle e hRest
  | @quit fd c hConn =>
      apply tryFlush_replays
      rw [setClosing, hConn]
      exact hReplays.idle_one trivial
  | @refuse fd c hConn _ _ text hIdle =>
      apply hReplays.refused
      rw [← hCast.role fd c hConn]
      exact hIdle
  | overlong _ _ _ => exact hReplays.idle_one trivial
  | login _ _ _ _ _ _ =>
      exact hReplays.idle_one trivial
  | subscribe _ _ _ _ _ _ =>
      exact hReplays.idle_one trivial
  | @call fd c call hConn _ hRole _ text hRequest hOwner =>
      refine hReplays.called ?_ hRequest hOwner
      exact (hCast.role fd c hConn).symm.trans hRole

theorem replays_move
    {G : Guard}
    (hCast : Cast s)
    (hReplays : Replays s.log)
    (hMove : Move G s s') :
    Replays s'.log := by
  cases hMove with
  | deed hDeed => exact replays_deed hCast hReplays hDeed
  | @flush fd c hConn hLive =>
      rw [← tryFlush_eq_commit hConn hLive]
      exact tryFlush_replays hReplays
  | @close fd c _ _ why _ =>
      rw [commit_log]
      exact hReplays.idle_one trivial
  | input _ _ => exact hReplays
  | accept _ _ =>
      exact hReplays.idle_one trivial
  | answers _ => exact hReplays

theorem reap_replays
    (hReplays : Replays s.log) :
    Replays s.reap.log := by
  rw [reap_log]
  refine hReplays.idle ?_
  intro e he
  rcases List.mem_map.mp he with ⟨f, _, rfl⟩
  trivial

theorem Reachable.replays
    (hReach : Reachable s) :
    Replays s.log := by
  refine (hReach.of_moves
    (fun s => Cast s ∧ Replays s.log) ?_ ?_ ?_).2
  · intro lfd env
    exact ⟨cast_init lfd env, rfl⟩
  · rintro s s' hReg ⟨hCast, hReplays⟩ hMove
    refine ⟨?_, replays_move hCast hReplays hMove⟩
    exact (hMove.keeps
      (fun _ _ hReg hCast hAct => hCast.act hReg hAct)
      hReg hCast).2
  · rintro s hReg ⟨hCast, hReplays⟩
    have hReap : Act Guard.none s s.reap := .reap
    exact ⟨hCast.act hReg hReap, reap_replays hReplays⟩

end Server

end SocketExchange

------------------------------------------------------------
-- The Answers In The History
------------------------------------------------------------

namespace SocketExchange

/- The exchange answered as it does from scratch. -/
theorem repliesOf_eq
    {log : List Obs}
    (hTraced : Traced Justified log) :
    repliesOf log =
      Machine.replies Exchange.step Exchange.empty
        (callsOf log) := by
  refine Traced.induction
    (motive := fun log => repliesOf log =
      Machine.replies Exchange.step Exchange.empty
        (callsOf log)) rfl ?_ hTraced
  intro log e _ ih hJust
  have hSplit :
      repliesOf (log ++ [e]) =
        repliesOf log ++ repliesOf [e] :=
    List.filterMap_append
  rw [hSplit, callsOf_append, Machine.replies_append, ih]
  congr 1
  cases e with
  | called owner call reply =>
      rcases hJust with ⟨_, _, hReply, _⟩
      rw [hReply]
      rfl
  | _ => rfl

namespace Exchange

/- Ids count up from zero as long as the counter lasts. -/
theorem idsOf_replies_empty
    {calls : List Call}
    (hBound : submits calls ≤ 2 ^ 32) :
    (idsOf (Machine.replies step empty calls)).map
        UInt32.toNat =
      List.range (submits calls) := by
  rw [idsOf_replies, List.map_map]
  have hId :
      ∀ n ∈ List.range (submits calls),
        (UInt32.toNat ∘ fun n =>
          empty.nextId + UInt32.ofNat n) n = n := by
    intro n hn
    have hLt : n < 2 ^ 32 := by
      have hRange := List.mem_range.mp hn
      omega
    change (0 + UInt32.ofNat n).toNat = n
    rw [UInt32.zero_add]
    exact UInt32.toNat_ofNat_of_lt' hLt
  rw [List.map_congr_left hId, List.map_id']

end Exchange

end SocketExchange

------------------------------------------------------------
-- The Replay
------------------------------------------------------------

namespace SocketExchange

namespace Server

theorem onAccept_exch
    (rs : List AcceptResult)
    (s : Server) :
    (onAccept rs s).exch = s.exch := by
  induction rs generalizing s with
  | nil => rfl
  | cons r rs ih =>
      cases r with
      | conn cfd => exact ih (s.acceptConn cfd)
      | eagain => rfl
      | eintr => exact ih s
      | aborted => exact ih s
      | outOfFds => rfl
      | error => rfl

/-
  Whatever happened in a run, the exchange is the replay of
  the accepted commands, and the server called it for these
  and nothing else. The ids it gave them are 0, 1, 2 and so
  on, as far as the counter goes. Every further step adds
  the commands it accepts and nothing else; closing,
  reaping, flushing, queueing, publishing and accepting
  leave the exchange alone.
-/
theorem exchange_replays_commands
    {s : Server}
    (hReach : Reachable s) :
    s.exch =
        Machine.final Exchange.step Exchange.empty
          (commands s.log) ∧
    callsOf s.log = commands s.log ∧
    (submits (commands s.log) ≤ 2 ^ 32 →
      (idsOf (repliesOf s.log)).map UInt32.toNat =
        List.range (submits (commands s.log))) ∧
    (∀ i, Legal s i →
      ∃ new,
        commands (step s i).log =
            commands s.log ++ new ∧
          (step s i).exch =
            Machine.final Exchange.step s.exch new) ∧
    (∀ fd why, (s.closeConn fd why).exch = s.exch) ∧
    s.reap.exch = s.exch ∧
    (∀ fd, (s.tryFlush fd).exch = s.exch) ∧
    (∀ fd m, (s.queueOut fd m).exch = s.exch) ∧
    (∀ t, (s.publish t).exch = s.exch) ∧
    (∀ rs, (onAccept rs s).exch = s.exch) := by
  have hExch :
      ∀ t, Reachable t →
        t.exch =
          Machine.final Exchange.step Exchange.empty
            (commands t.log) := by
    intro t ht
    rw [ht.history.exch, ← ht.replays]
    rfl
  refine ⟨hExch s hReach, hReach.replays, ?_, ?_, ?_,
    reap_exch s, ?_, ?_, ?_, ?_⟩
  · intro hBound
    rw [repliesOf_eq hReach.history.traced, hReach.replays]
    exact Exchange.idsOf_replies_empty hBound
  · intro i hLegal
    have hOne : Machine.Permitted step Legal s [i] :=
      ⟨hLegal, trivial⟩
    rcases hReach.run hOne with ⟨hNext, es, hLog⟩
    change s.log ++ es = (step s i).log at hLog
    refine ⟨Traced.collect
      (fun pre => validated (s.log ++ pre)) es, ?_, ?_⟩
    · rw [← hLog]
      exact commands_append s.log es
    · rw [hExch (step s i) hNext, ← hLog, commands_append,
        Machine.final_append, ← hExch s hReach]
  · intro fd why
    exact (closeConn_sameBooks why).exch
  · intro fd
    exact tryFlush_sameBooks.exch
  · intro fd m
    exact (queueOut_sameBooks m).exch
  · intro t
    exact (publish_sameBooks t).exch
  · intro rs
    exact onAccept_exch rs s

/- The book of the two traders is the replay of two lines. -/
theorem exchange_replays_commands_trading :
    (Machine.run step listening tradingSteps).exch =
      Machine.final Exchange.step Exchange.empty
        [.submit .sell 0 5 100 1,
          .submit .buy 0 3 100 2] := by
  have hCommands :
      commands
          (Machine.run step listening tradingSteps).log =
        [.submit .sell 0 5 100 1,
          .submit .buy 0 3 100 2] := by
    decide
  rw [← hCommands]
  exact (exchange_replays_commands
    ⟨3, _, tradingSteps, tradingSteps_legal, rfl⟩).1

end Server

end SocketExchange

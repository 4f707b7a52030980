import SocketExchange.Server.Registry

/-
  Every handler is a sequence of actions.

  Handling a line is a sequence of `Deed`s, handling an
  event one of `Move`s. What the guard of a run asks for is
  judged on the bytes a read event delivers: `reachesLine`
  says that a line is cut or the length limit is hit,
  `reachesEnd` that the end of the stream is seen.

  Key definitions include:
    * `LineBuffer.reachesLine`
    * `LineBuffer.reachesEnd`
    * `Guard.Spares`

  Key theorems include:
    * `Server.handleLine_handled`
    * `Server.recvLoop_moves`
    * `Server.event_moves`
    * `Server.run_moves_invariant`
    * `Server.registry_consistent`
-/

------------------------------------------------------------
-- The History Grows
------------------------------------------------------------

namespace SocketExchange

namespace Server

variable {G : Guard} {s s' : Server}

/- No action forgets history. -/
theorem Act.log_grows
    (hAct : Act G s s') :
    s.log <+: s'.log := by
  cases hAct with
  | serve hServe =>
      cases hServe with
      | queue _ _ _ _ _ =>
          rw [commit_log]
          exact List.prefix_append _ _
      | flush _ _ =>
          rw [commit_log]
          exact List.prefix_append _ _
      | closing _ => exact List.prefix_append _ _
      | line _ _ _ _ => exact List.prefix_append _ _
      | overlong _ _ _ => exact List.prefix_append _ _
      | login _ _ _ _ _ _ => exact List.prefix_append _ _
      | subscribe _ _ _ _ _ _ =>
          exact List.prefix_append _ _
      | call _ _ _ _ _ _ _ => exact List.prefix_append _ _
  | close _ _ _ _ =>
      rw [commit_log]
      exact List.prefix_append _ _
  | input _ _ => exact List.prefix_refl _
  | accept _ _ => exact List.prefix_append _ _
  | reap =>
      rw [reap_log]
      exact List.prefix_append _ _
  | answers _ => exact List.prefix_refl _

/- No run of actions takes an entry out of the log. -/
theorem Acts.log_grows
    (hActs : Acts G s s') :
    s.log <+: s'.log := by
  induction hActs with
  | refl => exact List.prefix_refl _
  | tail _ hLast ih => exact ih.trans hLast.log_grows

theorem Serves.log_grows
    (hServes : Serves G s s') :
    s.log <+: s'.log :=
  hServes.acts.log_grows

/- What was made stays made. -/
theorem Serves.made
    {t : Trade}
    (hServes : Serves G s s')
    (hMade : Made s.log t) :
    Made s'.log t := by
  rcases hServes.log_grows with ⟨more, hLog⟩
  rw [← hLog]
  exact hMade.mono more

end Server

end SocketExchange

------------------------------------------------------------
-- Connections Stay
------------------------------------------------------------

namespace SocketExchange

namespace Server

variable {G : Guard} {s s' : Server}

/- Writing a connection under its owner id and input. -/
theorem keeps_of_insert
    {fd : Fd}
    {c c' : Conn}
    (hConn : s.conns[fd]? = some c)
    (hConns : s'.conns = s.conns.insert fd c')
    (hOwner : c'.ownerId = c.ownerId)
    (hInput : c'.input = c.input)
    {f : Fd}
    {d : Conn}
    (hd : s.conns[f]? = some d) :
    ∃ d', s'.conns[f]? = some d' ∧
      d'.ownerId = d.ownerId ∧ d'.input = d.input := by
  rw [hConns, getElem?_insert_fd]
  by_cases hEq : f = fd
  · subst hEq
    rw [hConn] at hd
    injection hd with hd
    subst hd
    exact ⟨c', if_pos rfl, hOwner, hInput⟩
  · exact ⟨d, by rw [if_neg hEq, hd], rfl, rfl⟩

/-
  Handling a line removes no connection, and takes nothing
  from any input buffer.
-/
theorem Serve.keeps
    (hServe : Serve G s s')
    {f : Fd}
    {d : Conn}
    (hd : s.conns[f]? = some d) :
    ∃ d', s'.conns[f]? = some d' ∧
      d'.ownerId = d.ownerId ∧ d'.input = d.input := by
  cases hServe with
  | @queue fd c m hConn _ _ _ _ =>
      have hSame := Port.queue_same (Port.ofConn s c) m
      exact keeps_of_insert hConn (commit_conns s fd _)
        hSame.ownerId hSame.input hd
  | @flush fd c hConn _ =>
      have hSame := Port.flush_same (Port.ofConn s c)
      exact keeps_of_insert hConn (commit_conns s fd _)
        hSame.ownerId hSame.input hd
  | @closing fd c hConn =>
      have hConns :
          (s.setConn fd { c with closing := true }).conns =
            s.conns.insert fd { c with closing := true } :=
        rfl
      exact keeps_of_insert hConn hConns rfl rfl hd
  | line _ _ _ _ => exact ⟨d, hd, rfl, rfl⟩
  | overlong _ _ _ => exact ⟨d, hd, rfl, rfl⟩
  | login hConn _ _ _ _ _ =>
      exact keeps_of_insert hConn grantLogin_conns rfl rfl
        hd
  | @subscribe fd c hConn _ _ _ inst on =>
      have hConns :
          (s.grantSubscribe fd c inst on).conns =
            s.conns.insert fd
              { c with
                role := .marketData
                subs := Function.update c.subs inst on } :=
        rfl
      exact keeps_of_insert hConn hConns rfl rfl hd
  | call _ _ _ _ _ _ _ => exact ⟨d, hd, rfl, rfl⟩

/-
  While a connection is served, every record stays in the
  table, under its owner and with its input.
-/
theorem Serves.keeps
    (hServes : Serves G s s')
    {f : Fd}
    {d : Conn}
    (hd : s.conns[f]? = some d) :
    ∃ d', s'.conns[f]? = some d' ∧
      d'.ownerId = d.ownerId ∧ d'.input = d.input := by
  induction hServes with
  | refl => exact ⟨d, hd, rfl, rfl⟩
  | tail _ hLast ih =>
      rcases ih with ⟨e, he, hOwner, hInput⟩
      rcases hLast.keeps he with ⟨d', hd', hOwner', hInput'⟩
      exact ⟨d', hd', hOwner'.trans hOwner,
        hInput'.trans hInput⟩

end Server

end SocketExchange

------------------------------------------------------------
-- Output
------------------------------------------------------------

namespace SocketExchange

namespace Server

variable {G : Guard} {s : Server} {fd : Fd}

/- Flushing and marking to close are such steps. -/
theorem tryFlush_serves :
    Serves G s (s.tryFlush fd) := by
  refine tryFlush_cases (P := Serves G s) .refl ?_
  intro c hConn hLive
  exact .single (.flush hConn hLive)

theorem setClosing_serves :
    Serves G s (s.setClosing fd) := by
  unfold setClosing
  split
  · exact .refl
  · next hConn => exact .single (.closing hConn)

/- Every piece is a sequence of the finer actions. -/
theorem Deed.serves
    {s' : Server}
    (hDeed : Deed G s s') :
    Serves G s s' := by
  cases hDeed with
  | queue hConn hLive hAddr hMade hReply _ =>
      exact .single
        (.queue hConn hLive hAddr hMade hReply)
  | quit _ => exact setClosing_serves.trans tryFlush_serves
  | refuse hConn hLive hOpen text _ =>
      exact .single (.line hConn hLive hOpen text)
  | overlong hConn hLive hOpen =>
      exact .single (.overlong hConn hLive hOpen)
  | login hConn hLive hRole hOpen hName hFree =>
      exact .single
        (.login hConn hLive hRole hOpen hName hFree)
  | subscribe hConn hLive hRole hOpen inst on =>
      exact .single
        (.subscribe hConn hLive hRole hOpen inst on)
  | call hConn hLive hRole hOpen text hRequest hOwner =>
      refine Relation.ReflTransGen.head
        (.line hConn hLive hOpen text) (.single ?_)
      exact .call hConn hLive hRole hOpen (by simp [note])
        hRequest hOwner

/- What a handler does serves its connection. -/
theorem Deeds.serves
    {s' : Server}
    (hDeeds : Deeds G s s') :
    Serves G s s' := by
  induction hDeeds with
  | refl => exact .refl
  | tail _ hLast ih => exact ih.trans hLast.serves

/- It is a run of moves. -/
theorem Deeds.moves
    {s' : Server}
    (hDeeds : Deeds G s s') :
    Moves G s s' := by
  induction hDeeds with
  | refl => exact .refl
  | tail _ hLast ih => exact ih.tail (.deed hLast)

/- A move is a run of actions. -/
theorem Move.acts
    {s' : Server}
    (hMove : Move G s s') :
    Acts G s s' := by
  cases hMove with
  | deed hDeed => exact hDeed.serves.acts
  | flush hConn hLive =>
      exact .single (.serve (.flush hConn hLive))
  | close hConn hLive why hPeer =>
      exact .single (.close hConn hLive why hPeer)
  | input hConn input => exact .single (.input hConn input)
  | accept hFresh hListen =>
      exact .single (.accept hFresh hListen)
  | answers a => exact .single (.answers a)

/- So is a run of moves. -/
theorem Moves.acts
    {s' : Server}
    (hMoves : Moves G s s') :
    Acts G s s' := by
  induction hMoves with
  | refl => exact .refl
  | tail _ hLast ih => exact ih.trans hLast.acts

/- What every action keeps, a piece keeps. -/
theorem Move.keeps
    {s' : Server}
    {Inv : Server → Prop}
    (hMove : Move G s s')
    (hAct :
      ∀ s s', Registry s → Inv s → Act G s s' → Inv s')
    (hReg : Registry s)
    (hInv : Inv s) :
    Registry s' ∧ Inv s' := by
  refine hMove.acts.invariant
    (fun s => Registry s ∧ Inv s) ?_ ⟨hReg, hInv⟩
  rintro a b ⟨hReg, hInv⟩ hAct'
  exact ⟨hReg.act hAct', hAct a b hReg hInv hAct'⟩

/- Hence moves keep the registries right. -/
theorem Registry.moves
    {s' : Server}
    (hReg : Registry s)
    (hMoves : Moves G s s') :
    Registry s' :=
  Acts.invariant Registry (fun _ _ => Registry.act)
    hMoves.acts hReg

/- Queueing a plain message that the connection may get. -/
theorem queueOut_deeds
    {m : Msg}
    (hPlain : m.Plain)
    (hMsg :
      ∀ c, s.findLive fd = some c →
        Addressed c m ∧
          (∀ t, m.trade? = some t → Made s.log t) ∧
          (m.trade? = none → G.Open c)) :
    Deeds G s (s.queueOut fd m) := by
  refine queueOut_cases (P := Deeds G s) .refl ?_
  intro c hConn hLive
  have hFind := findLive_eq_some_iff.mpr ⟨hConn, hLive⟩
  rcases hMsg c hFind with ⟨hAddr, hMade, hReply⟩
  exact .single
    (.queue hConn hLive hAddr hMade hReply hPlain)

/- Flushing by itself is a move. -/
theorem tryFlush_moves :
    Moves G s (s.tryFlush fd) := by
  refine tryFlush_cases (P := Moves G s) .refl ?_
  intro c hConn hLive
  exact .single (.flush hConn hLive)

/- A QUIT on a free descriptor does nothing. -/
theorem quit_of_none
    (hConn : s.conns[fd]? = none) :
    (s.setClosing fd).tryFlush fd = s := by
  have hNone : s.findLive fd = none := by
    simp [findLive, hConn]
  have hSame : s.setClosing fd = s := by
    simp [setClosing, hConn]
  rw [hSame, tryFlush_of_not_live hNone]

/- Marking to close and flushing is one deed. -/
theorem quit_deeds :
    Deeds G s ((s.setClosing fd).tryFlush fd) := by
  cases hConn : s.conns[fd]? with
  | none => rw [quit_of_none hConn]
  | some c => exact .single (.quit hConn)

/- A loop of pieces, under what pieces keep. -/
theorem deeds_foldl
    {α : Type}
    {f : Server → α → Server}
    (Inv : Server → Prop)
    (hInv : ∀ s s', Inv s → Deeds G s s' → Inv s')
    {as : List α}
    (hTurn :
      ∀ s, ∀ a ∈ as, Inv s → Deeds G s (f s a))
    {s : Server}
    (hInit : Inv s) :
    Deeds G s (as.foldl f s) := by
  induction as generalizing s with
  | nil => exact .refl
  | cons a as ih =>
      have hFirst := hTurn s a List.mem_cons_self hInit
      exact hFirst.trans
        (ih
          (fun s b hb =>
            hTurn s b (List.mem_cons_of_mem a hb))
          (hInv s _ hInit hFirst))

/- The three ways in which `on_readable` tears down. -/
theorem closeConn_moves
    {c : Conn}
    {why : CloseCause}
    (hConn : s.conns[fd]? = some c)
    (hLive : c.dead = false)
    (hPeer :
      why = .recvError ∨
        (why = .fin ∨ why = .eof) ∧ G.Ends s.log c) :
    Moves G s (s.closeConn fd why) := by
  rw [closeConn_eq_commit hConn hLive]
  exact .single (.close hConn hLive why hPeer)

end Server

end SocketExchange

------------------------------------------------------------
-- Publishing
------------------------------------------------------------

namespace SocketExchange

namespace Server

variable {G : Guard} {s : Server}

/- The owner entry leads to the owner's own connection. -/
theorem notifyOwner_deeds
    {owner : Int}
    {m : Msg}
    {t : Trade}
    (hReg : Registry s)
    (hPlain : m.Plain)
    (hTrade : m.trade? = some t)
    (hMade : Made s.log t)
    (hOwned :
      ∀ c : Conn, c.role = .trader → c.ownerId = owner →
        Addressed c m) :
    Deeds G s (s.notifyOwner owner m) := by
  unfold notifyOwner
  split
  · exact .refl
  · next fd hEntry =>
      rcases hReg.owner_sound owner fd hEntry with
        ⟨c, hTrader, hOwner⟩
      have hFind : s.findLive fd = some c :=
        findLive_eq_some_iff.mpr
          ⟨hTrader.conn, hTrader.live⟩
      rw [hFind]
      apply queueOut_deeds hPlain
      intro d hd
      rw [hFind] at hd
      injection hd with hd
      subst hd
      refine ⟨hOwned c hTrader.role hOwner, ?_, ?_⟩
      · intro t' ht'
        rw [hTrade] at ht'
        injection ht' with hEq
        exact hEq ▸ hMade
      · intro hNone
        rw [hTrade] at hNone
        cases hNone

/- A print of a trade that was made is a deed. -/
theorem notifySubscriber_deeds
    {t : Trade}
    {fd : Fd}
    (hMade : Made s.log t) :
    Deeds G s (notifySubscriber t s fd) := by
  unfold notifySubscriber
  split
  · exact .refl
  · next c hConn =>
      split
      · next hSubscribed =>
          have hPlain : (Msg.trade t).Plain := trivial
          apply queueOut_deeds hPlain
          intro d hd
          rw [findLive_eq_some_iff, hConn] at hd
          rcases hd with ⟨hSame, _⟩
          injection hSame with hSame
          subst hSame
          refine ⟨⟨hSubscribed.1, hSubscribed.2.1,
            hSubscribed.2.2.1⟩, ?_, ?_⟩
          · intro t' ht'
            injection ht' with hEq
            exact hEq ▸ hMade
          · intro hNone
            cases hNone
      · exact .refl

/- So is the print of it to all subscribers. -/
theorem publish_deeds
    {t : Trade}
    (hReg : Registry s)
    (hMade : Made s.log t) :
    Deeds G s (s.publish t) := by
  unfold publish
  have hBuyer :
      Deeds G s (s.notifyOwner t.buyerOwner (.bought t)) :=
    notifyOwner_deeds hReg trivial rfl hMade
      (fun _ hRole hOwner => ⟨hRole, hOwner⟩)
  have hSeller :
      Deeds G (s.notifyOwner t.buyerOwner (.bought t))
        ((s.notifyOwner t.buyerOwner
          (.bought t)).notifyOwner t.sellerOwner
            (.sold t)) :=
    notifyOwner_deeds (hReg.serves hBuyer.serves) trivial
      rfl (hBuyer.serves.made hMade)
      (fun _ hRole hOwner => ⟨hRole, hOwner⟩)
  refine (hBuyer.trans hSeller).trans ?_
  exact deeds_foldl
    (fun s' => Made s'.log t)
    (fun _ _ hMade hDeeds => hDeeds.serves.made hMade)
    (fun _ _ _ hMade => notifySubscriber_deeds hMade)
    (hSeller.serves.made (hBuyer.serves.made hMade))

end Server

end SocketExchange

------------------------------------------------------------
-- Commands
------------------------------------------------------------

namespace SocketExchange

/- The third role, told by the two it is not. -/
theorem Role.eq_unknown
    {role : Role}
    (hNotMarket : role ≠ .marketData)
    (hNotTrader : role ≠ .trader) :
    role = .unknown := by
  cases role with
  | unknown => rfl
  | trader => exact absurd rfl hNotTrader
  | marketData => exact absurd rfl hNotMarket

/- The same for traders. -/
theorem Role.eq_trader
    {role : Role}
    (hNotMarket : role ≠ .marketData)
    (hKnown : role ≠ .unknown) :
    role = .trader := by
  cases role with
  | unknown => exact absurd rfl hKnown
  | trader => rfl
  | marketData => exact absurd rfl hNotMarket

namespace Server

/- A connection whose line may be handled. -/
structure Ready
    (G : Guard)
    (s : Server)
    (fd : Fd)
    (c : Conn) : Prop where
  conn : s.conns[fd]? = some c
  live : c.dead = false
  mayRun : G.Open c

variable {G : Guard} {s : Server} {fd : Fd} {c : Conn}

/- A reply to a connection whose line may be handled. -/
theorem Ready.reply
    {m : Msg}
    (hReady : Ready G s fd c)
    (hNone : m.trade? = none)
    (hAddr : Addressed c m)
    (hPlain : m.Plain) :
    Deeds G s (s.queueOut fd m) := by
  apply queueOut_deeds hPlain
  intro d hd
  rw [findLive_eq_some_iff, hReady.conn] at hd
  rcases hd with ⟨hSame, _⟩
  injection hSame with hSame
  subst hSame
  refine ⟨hAddr, ?_, fun _ => hReady.mayRun⟩
  intro t ht
  rw [hNone] at ht
  cases ht

/- A refusal is a reply with one of the known reasons. -/
theorem Ready.error
    {reason : String}
    (hReady : Ready G s fd c)
    (hPlain : reason ∈ reasons) :
    Deeds G s (s.queueOut fd (.error reason)) := by
  have hAddr : Addressed c (.error reason) := trivial
  exact hReady.reply rfl hAddr hPlain

/-
  A line is handled: it is noted, with the call it makes if
  it makes one, and what follows from it is done.
-/
def Handled
    (G : Guard)
    (s s' : Server)
    (c : Conn)
    (text : Bytes) : Prop :=
  ∃ first, Deed G s first ∧
    s.log ++ [.line c.ownerId text] <+: first.log ∧
    Deeds G first s'

/-
  A line that asks nothing of the exchange is handled by
  what its handler does after noting it.
-/
theorem Ready.refuses
    {text : Bytes}
    {s' : Server}
    (hReady : Ready G s fd c)
    (hIdle :
      c.role = .trader →
        ∀ call, ¬ Requests (splitWs text) call)
    (hRest :
      Ready G (s.note (.line c.ownerId text)) fd c →
        Deeds G (s.note (.line c.ownerId text)) s') :
    Handled G s s' c text := by
  refine ⟨s.note (.line c.ownerId text),
    .refuse hReady.conn hReady.live hReady.mayRun text
      hIdle, List.prefix_refl _, ?_⟩
  exact hRest ⟨hReady.conn, hReady.live, hReady.mayRun⟩

/- A line that does ask is handled by its one call. -/
theorem Ready.calls
    {call : Call}
    {text : Bytes}
    {s' : Server}
    (hReady : Ready G s fd c)
    (hRole : c.role = .trader)
    (hRequest : Requests (splitWs text) call)
    (hOwner : call.owner = c.ownerId)
    (hRest :
      Ready G
          ((s.note (.line c.ownerId text)).callExchange
            c.ownerId call) fd c →
        Deed G s
          ((s.note (.line c.ownerId text)).callExchange
            c.ownerId call) →
        Deeds G
          ((s.note (.line c.ownerId text)).callExchange
            c.ownerId call) s') :
    Handled G s s' c text := by
  have hDeed :
      Deed G s
        ((s.note (.line c.ownerId text)).callExchange
          c.ownerId call) :=
    .call hReady.conn hReady.live hRole hReady.mayRun text
      hRequest hOwner
  refine ⟨_, hDeed, List.prefix_append _ _, ?_⟩
  exact hRest
    ⟨hReady.conn, hReady.live, hReady.mayRun⟩ hDeed

end Server

end SocketExchange

------------------------------------------------------------
-- Lines That Ask For A Call
------------------------------------------------------------

namespace SocketExchange

variable {fields : List Bytes} {call : Call}

/- The order verbs are not CANCEL. -/
theorem Side.verb_ne_cancel (side : Side) :
    side.verb ≠ ascii "CANCEL" := by
  cases side <;> decide

/- What a line with an order verb asks for. -/
theorem Requests.order
    {side : Side}
    (hRequest : Requests (side.verb :: fields) call) :
    ∃ name quantity level inst qty price,
      fields = [name, quantity, level] ∧
        instrumentIndex name = some inst ∧
        parseU32 quantity kMinValue kMaxValue = some qty ∧
        parseU32 level kMinValue kMaxValue =
          some price := by
  cases call with
  | submit side' inst qty price owner =>
      rcases hRequest with
        ⟨name, quantity, level, hTk, hInst, hQty, hPrice⟩
      injection hTk with _ hFields
      exact ⟨name, quantity, level, inst, qty, price,
        hFields, hInst, hQty, hPrice⟩
  | cancel id owner =>
      rcases hRequest with ⟨number, hTk, _⟩
      injection hTk with hVerb _
      exact absurd hVerb side.verb_ne_cancel

/-
  A line that requests a cancellation has one field, an id
  in range.
-/
theorem Requests.number
    (hRequest :
      Requests (ascii "CANCEL" :: fields) call) :
    ∃ text id, fields = [text] ∧
      parseU32 text 0 kMaxOrderId = some id := by
  cases call with
  | submit side inst qty price owner =>
      rcases hRequest with ⟨name, quantity, level, hTk, _⟩
      injection hTk with hVerb _
      exact absurd hVerb.symm side.verb_ne_cancel
  | cancel id owner =>
      rcases hRequest with ⟨text, hTk, hId⟩
      injection hTk with _ hFields
      exact ⟨text, id, hFields, hId⟩

/- Other lines ask for no call. -/
theorem not_requests_of_verb
    {v : Bytes}
    (hBuy : v ≠ ascii "BUY")
    (hSell : v ≠ ascii "SELL")
    (hCancel : v ≠ ascii "CANCEL") :
    ¬ Requests (v :: fields) call := by
  intro hRequest
  cases call with
  | submit side inst qty price owner =>
      rcases hRequest with ⟨name, quantity, level, hTk, _⟩
      injection hTk with hVerb _
      cases side with
      | buy => exact hBuy hVerb
      | sell => exact hSell hVerb
  | cancel id owner =>
      rcases hRequest with ⟨text, hTk, _⟩
      injection hTk with hVerb _
      exact hCancel hVerb

/- The two ways in which a cancellation fails. -/
theorem Exchange.cancel_reason
    {e : Exchange}
    {id : UInt32}
    {owner : Int}
    {err : String}
    (hFails : (e.cancel id owner).2 = .error err) :
    err ∈ reasons := by
  unfold cancel at hFails
  split at hFails
  · injection hFails with hErr
    simp [← hErr, reasons]
  · split at hFails
    · injection hFails with hErr
      simp [← hErr, reasons]
    · cases hFails

end SocketExchange

------------------------------------------------------------
-- Dispatch
------------------------------------------------------------

namespace SocketExchange

namespace Server

variable {G : Guard} {s : Server} {fd : Fd} {c : Conn}

/- A LOGIN is a run of deeds, granted or refused. -/
theorem cmdLogin_deeds
    {tk : List Bytes}
    (hReady : Ready G s fd c)
    (hFields : ∀ field ∈ tk, field ≠ []) :
    Deeds G s (s.cmdLogin fd tk) := by
  unfold cmdLogin
  rw [hReady.conn]
  dsimp only
  split
  · next name =>
      split
      · exact hReady.error (by simp [reasons])
      · next hNotMarket =>
          split
          · exact hReady.error (by simp [reasons])
          · next hNotTrader =>
              split
              · exact hReady.error (by simp [reasons])
              · next hFree =>
                  have hRole : c.role = .unknown :=
                    Role.eq_unknown hNotMarket hNotTrader
                  have hName : name ≠ [] :=
                    hFields name (by simp)
                  refine Relation.ReflTransGen.head
                    (.login hReady.conn hReady.live hRole
                      hReady.mayRun hName hFree) ?_
                  have hNext :
                      Ready G (s.grantLogin fd c name) fd
                        { c with
                          role := .trader
                          username := name } :=
                    ⟨by simp [grantLogin], hReady.live,
                      hReady.mayRun⟩
                  exact hNext.reply rfl trivial trivial
  · exact hReady.error (by simp [reasons])

/- An accepted order makes the call its line requests. -/
theorem acceptOrder_handled
    {text : Bytes}
    {side : Side}
    {inst : Fin 2}
    {qty price : UInt32}
    (hReg : Registry s)
    (hReady : Ready G s fd c)
    (hRole : c.role = .trader)
    (hRequest :
      Requests (splitWs text)
        (.submit side inst qty price c.ownerId)) :
    Handled G s
      ((s.note (.line c.ownerId text)).acceptOrder fd c
        side inst qty price) c text := by
  refine hReady.calls hRole hRequest rfl ?_
  intro hNext hCall
  unfold acceptOrder
  dsimp only
  have hReply :=
    hNext.reply
      (m := .orderAccepted
        (s.exch.submit side inst qty price c.ownerId
          []).2.1)
      rfl hRole trivial
  refine Relation.ReflTransGen.trans hReply ?_
  have hReg' := hReg.serves (hCall.serves.trans hReply.serves)
  -- Every trade of the call is in the history by now, and
  -- publishing one keeps the others there.
  refine deeds_foldl
    (fun s' => Registry s' ∧
      ∀ t ∈ (s.exch.submit side inst qty price
        c.ownerId []).2.2, Made s'.log t)
    ?_ ?_ ?_
  · rintro a b ⟨hReg, hMade⟩ hDeeds
    exact ⟨hReg.serves hDeeds.serves,
      fun t ht => hDeeds.serves.made (hMade t ht)⟩
  · rintro a t ht ⟨hReg, hMade⟩
    exact publish_deeds hReg (hMade t ht)
  · refine ⟨hReg', ?_⟩
    intro t ht
    apply hReply.serves.made
    exact ⟨c.ownerId, _, _, _, List.mem_append_right _
      (List.mem_singleton.mpr rfl), ht⟩

/- A BUY or SELL is accepted, or refused on the way. -/
theorem cmdOrder_handled
    {text : Bytes}
    (side : Side)
    {fields : List Bytes}
    (hReg : Registry s)
    (hReady : Ready G s fd c)
    (hFields : splitWs text = side.verb :: fields) :
    Handled G s
      ((s.note (.line c.ownerId text)).cmdOrder fd
        (side.verb :: fields) side) c text := by
  have hConn :
      (s.note (.line c.ownerId text)).conns[fd]? =
        some c := hReady.conn
  unfold cmdOrder
  rw [hConn]
  dsimp only
  split
  · next hMarket =>
      refine hReady.refuses ?_
        (fun h => h.error (by simp [reasons]))
      intro hTrader
      rw [hMarket] at hTrader
      cases hTrader
  · next hNotMarket =>
      split
      · next hUnknown =>
          refine hReady.refuses ?_
            (fun h => h.error (by simp [reasons]))
          intro hTrader
          rw [hUnknown] at hTrader
          cases hTrader
      · next hKnown =>
          have hRole : c.role = .trader :=
            Role.eq_trader hNotMarket hKnown
          -- A refused line asks for no call: each check
          -- that fails is one that a request passes.
          have hRefuse :
              (∀ name quantity level inst qty price,
                fields = [name, quantity, level] →
                instrumentIndex name = some inst →
                parseU32 quantity kMinValue kMaxValue =
                  some qty →
                parseU32 level kMinValue kMaxValue ≠
                  some price) →
              ∀ call, ¬ Requests (splitWs text) call := by
            intro hNever call hRequest
            rw [hFields] at hRequest
            rcases hRequest.order with
              ⟨name, quantity, level, inst, qty, price,
                hTk, hInst, hQty, hPrice⟩
            exact hNever name quantity level inst qty price
              hTk hInst hQty hPrice
          split
          · next name quantity level hTk =>
              injection hTk with _ hTk
              subst hTk
              split
              · next hInst =>
                  refine hReady.refuses
                    (fun _ => hRefuse ?_)
                    (fun h => h.error (by simp [reasons]))
                  rintro _ _ _ _ _ _ hSame hInst'
                  injection hSame with hName _
                  rw [← hName, hInst] at hInst'
                  cases hInst'
              · next hInst =>
                  split
                  · next hQty =>
                      refine hReady.refuses
                        (fun _ => hRefuse ?_)
                        (fun h =>
                          h.error (by simp [reasons]))
                      rintro _ _ _ _ _ _ hSame _ hQty'
                      injection hSame with _ hSame
                      injection hSame with hQuantity _
                      rw [← hQuantity, hQty] at hQty'
                      cases hQty'
                  · next hQty =>
                      split
                      · next hPrice =>
                          refine hReady.refuses
                            (fun _ => hRefuse ?_)
                            (fun h =>
                              h.error (by simp [reasons]))
                          rintro _ _ _ _ _ _ hSame _ _ hPrice'
                          injection hSame with _ hSame
                          injection hSame with _ hSame
                          injection hSame with hLevel _
                          rw [← hLevel, hPrice] at hPrice'
                          cases hPrice'
                      · next hPrice =>
                          exact acceptOrder_handled hReg
                            hReady hRole
                            ⟨name, quantity, level,
                              hFields, hInst, hQty, hPrice⟩
          · next hShape =>
              refine hReady.refuses
                (fun _ => hRefuse ?_)
                (fun h => h.error (by simp [reasons]))
              intro name quantity level _ _ _ hSame
              exact absurd (congrArg _ hSame)
                (hShape side.verb name quantity level)

/- A CANCEL calls the exchange when it names an id. -/
theorem cmdCancel_handled
    {text : Bytes}
    {fields : List Bytes}
    (hReady : Ready G s fd c)
    (hFields : splitWs text = ascii "CANCEL" :: fields) :
    Handled G s
      ((s.note (.line c.ownerId text)).cmdCancel fd
        (ascii "CANCEL" :: fields)) c text := by
  have hConn :
      (s.note (.line c.ownerId text)).conns[fd]? =
        some c := hReady.conn
  unfold cmdCancel
  rw [hConn]
  dsimp only
  split
  · next hMarket =>
      refine hReady.refuses ?_
        (fun h => h.error (by simp [reasons]))
      intro hTrader
      rw [hMarket] at hTrader
      cases hTrader
  · next hNotMarket =>
      split
      · next hUnknown =>
          refine hReady.refuses ?_
            (fun h => h.error (by simp [reasons]))
          intro hTrader
          rw [hUnknown] at hTrader
          cases hTrader
      · next hKnown =>
          have hRole : c.role = .trader :=
            Role.eq_trader hNotMarket hKnown
          split
          · next number hTk =>
              injection hTk with _ hTk
              subst hTk
              split
              · next hId =>
                  refine hReady.refuses ?_
                    (fun h => h.error (by simp [reasons]))
                  intro _ call hRequest
                  rw [hFields] at hRequest
                  rcases hRequest.number with
                    ⟨_, _, hSame, hId'⟩
                  injection hSame with hNumber _
                  rw [← hNumber, hId] at hId'
                  cases hId'
              · next id hId =>
                  have hRequest :
                      Requests (splitWs text)
                        (.cancel id c.ownerId) :=
                    ⟨number, hFields, hId⟩
                  refine hReady.calls hRole hRequest rfl ?_
                  intro hNext _
                  split
                  · exact hNext.reply rfl hRole trivial
                  · next hFails =>
                      exact hNext.error
                        (Exchange.cancel_reason hFails)
          · next hShape =>
              refine hReady.refuses ?_
                (fun h => h.error (by simp [reasons]))
              intro _ call hRequest
              rw [hFields] at hRequest
              rcases hRequest.number with
                ⟨number, _, hSame, _⟩
              exact hShape (ascii "CANCEL") number
                (by rw [hSame])

/- A SUBSCRIBE or UNSUBSCRIBE never calls it. -/
theorem cmdSubscribe_deeds
    {tk : List Bytes}
    {on : Bool}
    (hReady : Ready G s fd c) :
    Deeds G s (s.cmdSubscribe fd tk on) := by
  unfold cmdSubscribe
  rw [hReady.conn]
  dsimp only
  split
  · exact hReady.error (by simp [reasons])
  · next hRole =>
      split
      · split
        · exact hReady.error (by simp [reasons])
        · next inst _ =>
            refine Relation.ReflTransGen.head
              (.subscribe hReady.conn hReady.live hRole
                hReady.mayRun inst on) ?_
            have hNext :
                Ready G (s.grantSubscribe fd c inst on) fd
                  { c with
                    role := .marketData
                    subs :=
                      Function.update c.subs inst on } :=
              ⟨getElem?_setConn_self _ _ _,
                hReady.live, hReady.mayRun⟩
            exact hNext.reply rfl trivial trivial
      · exact hReady.error (by simp [reasons])

/- So every line of a live connection is handled. -/
theorem dispatch_handled
    (text : Bytes)
    (hReg : Registry s)
    (hReady : Ready G s fd c) :
    Handled G s
      ((s.note (.line c.ownerId text)).dispatch fd
        (splitWs text)) c text := by
  have hNonempty :
      ∀ field ∈ splitWs text, field ≠ [] :=
    fun _ => ne_nil_of_mem_splitWs
  unfold dispatch
  split
  · next hFields =>
      refine hReady.refuses ?_ (fun _ => .refl)
      intro _ call hRequest
      rw [hFields] at hRequest
      cases call with
      | submit side inst qty price owner =>
          rcases hRequest with ⟨_, _, _, hTk, _⟩
          cases hTk
      | cancel id owner =>
          rcases hRequest with ⟨_, hTk, _⟩
          cases hTk
  · next v fields hFields =>
      -- A line with another verb makes no call.
      have hOther :
          v ≠ ascii "BUY" → v ≠ ascii "SELL" →
            v ≠ ascii "CANCEL" → c.role = .trader →
              ∀ call, ¬ Requests (splitWs text) call := by
        intro hBuy hSell hCancel _ call
        rw [hFields]
        exact not_requests_of_verb hBuy hSell hCancel
      split
      · next hVerb =>
          refine hReady.refuses ?_
            (fun h => cmdLogin_deeds h hNonempty)
          exact hOther (by rw [hVerb]; decide)
            (by rw [hVerb]; decide) (by rw [hVerb]; decide)
      split
      · next hVerb =>
          subst hVerb
          rw [hFields]
          exact cmdOrder_handled .buy hReg hReady hFields
      split
      · next hVerb =>
          subst hVerb
          rw [hFields]
          exact cmdOrder_handled .sell hReg hReady hFields
      split
      · next hVerb =>
          subst hVerb
          rw [hFields]
          exact cmdCancel_handled hReady hFields
      · next hBuy hSell hCancel =>
          have hIdle := hOther hBuy hSell hCancel
          split
          · exact hReady.refuses hIdle cmdSubscribe_deeds
          split
          · exact hReady.refuses hIdle cmdSubscribe_deeds
          split
          · exact hReady.refuses hIdle
              (fun _ => quit_deeds)
          · exact hReady.refuses hIdle
              (fun h => h.error (by simp [reasons]))

/- Blank ones too. -/
theorem handleLine_handled
    (hReg : Registry s)
    (hReady : Ready G s fd c)
    (line : Bytes) :
    Handled G s (s.handleLine fd line) c line := by
  unfold handleLine
  rw [hReady.conn]
  exact dispatch_handled line hReg hReady

/- What handles a line is deeds alone. -/
theorem Handled.deeds
    {s' : Server}
    {line : Bytes}
    (hHandled : Handled G s s' c line) :
    Deeds G s s' := by
  rcases hHandled with ⟨first, hFirst, _, hRest⟩
  exact hRest.head hFirst

/- The line is in the history before all it does. -/
theorem Handled.logged
    {s' : Server}
    {line : Bytes}
    (hHandled : Handled G s s' c line) :
    s.log ++ [.line c.ownerId line] <+: s'.log := by
  rcases hHandled with ⟨first, _, hLog, hRest⟩
  exact hLog.trans hRest.serves.log_grows

/- And so it serves its connection. -/
theorem handleLine_serves
    (hReg : Registry s)
    (hReady : Ready G s fd c)
    (line : Bytes) :
    Serves G s (s.handleLine fd line) :=
  (handleLine_handled hReg hReady line).deeds.serves

end Server

end SocketExchange

------------------------------------------------------------
-- What A Read Reaches
------------------------------------------------------------

namespace SocketExchange

namespace LineBuffer

/-
  Reading these answers into the buffer cuts a line or hits
  the length limit. Lines already in the buffer count once
  new bytes arrive behind them.
-/
def reachesLine : LineBuffer → List RecvResult → Bool
| _, [] => false
| b, .data chunk :: rs =>
    match (b.append chunk.bytes).nextLine with
    | .needMore => reachesLine (b.append chunk.bytes) rs
    | .ok _ _ => true
    | .tooLong => true
| b, .eintr :: rs => reachesLine b rs
| _, .fin :: _ => false
| _, .eagain :: _ => false
| _, .reset :: _ => false
| _, .error :: _ => false

/-
  Reading these answers into the buffer comes to the end of
  the stream, before any line is cut.
-/
def reachesEnd
    (eof : Bool) :
    LineBuffer → List RecvResult → Bool
| _, [] => eof
| b, .data chunk :: rs =>
    match (b.append chunk.bytes).nextLine with
    | .needMore => reachesEnd eof (b.append chunk.bytes) rs
    | .ok _ _ => false
    | .tooLong => false
| b, .eintr :: rs => reachesEnd eof b rs
| _, .fin :: _ => true
| _, .eagain :: _ => eof
| _, .reset :: _ => false
| _, .error :: _ => false

end LineBuffer

/-
  The step spares the closing connections of the guard: a
  read of one of them brings no line, or no end of stream
  while output is pending.
-/
def Guard.Spares (G : Guard) (s : Server) : Step → Prop
| .event ev a =>
    ev.ident ≠ s.lfd → ev.filter = .read →
      ∀ c, s.findLive ev.ident = some c →
        c.closing = true →
          (G.quiet c.ownerId →
            c.input.reachesLine a.recvs = false) ∧
          (G.patient s.log c.ownerId →
            0 < c.out.pending →
              c.input.reachesEnd ev.eof a.recvs = false)
| .reap => True

/- The guard that asks nothing spares every step. -/
theorem Guard.none_spares
    (s : Server)
    (i : Step) :
    Guard.none.Spares s i := by
  cases i with
  | event ev a =>
      intro _ _ c _ _
      exact ⟨False.elim, False.elim⟩
  | reap => trivial

end SocketExchange

------------------------------------------------------------
-- Reading
------------------------------------------------------------

namespace SocketExchange

namespace Server

variable {G : Guard} {s : Server} {fd : Fd} {c : Conn}

/- A connection that is not done is live and not closing. -/
theorem live_of_not_isDone
    (hNot : ¬ s.isDone fd = true) :
    ∃ c, s.conns[fd]? = some c ∧ c.dead = false ∧
      c.closing = false := by
  have hFlag := Bool.eq_false_of_not_eq_true hNot
  unfold isDone at hFlag
  cases hConn : s.conns[fd]? with
  | none =>
      rw [hConn] at hFlag
      cases hFlag
  | some c =>
      simp only [hConn, Bool.or_eq_false_iff] at hFlag
      exact ⟨c, rfl, hFlag⟩

/- The reply to an overlong line, once it is noted. -/
theorem Ready.longReply
    (hReady : Ready G s fd c) :
    Deeds G (s.note (.overlong c.ownerId))
      (s.refuseLong fd c) := by
  have hNoted :
      Ready G (s.note (.overlong c.ownerId)) fd c :=
    ⟨hReady.conn, hReady.live, hReady.mayRun⟩
  have hReason : "line too long" ∈ reasons := by
    simp [reasons]
  exact hNoted.error hReason

/- A line that is too long is answered by deeds. -/
theorem Ready.tooLongReply
    (hReady : Ready G s fd c) :
    Deeds G s (s.refuseLong fd c) := by
  have hDeed : Deed G s (s.note (.overlong c.ownerId)) :=
    .overlong hReady.conn hReady.live hReady.mayRun
  exact hReady.longReply.head hDeed

/- The branch for an overlong line. -/
theorem Ready.tooLong
    (hReady : Ready G s fd c) :
    Deeds G s
      (((s.refuseLong fd c).setClosing fd).tryFlush fd) :=
  hReady.tooLongReply.trans quit_deeds

/-
  One line taken off the buffer and handled: what the state
  after it has to do with the state before.
-/
structure Took
    (G : Guard)
    (s s' : Server)
    (fd : Fd)
    (c : Conn)
    (line : Bytes)
    (rest : LineBuffer) : Prop where
  moves : Moves G s s'
  registry : Registry s'
  logged : s.log ++ [.line c.ownerId line] <+: s'.log
  kept :
    ∃ d, s'.conns[fd]? = some d ∧
      d.ownerId = c.ownerId ∧ d.input = rest

/- A connection that goes on has the rest in its buffer. -/
theorem Took.goes_on
    {s' : Server}
    {line : Bytes}
    {rest : LineBuffer}
    (hTook : Took G s s' fd c line rest)
    (hNot : ¬ s'.isDone fd = true) :
    ∃ d, s'.conns[fd]? = some d ∧ d.dead = false ∧
      d.closing = false ∧ d.ownerId = c.ownerId ∧
      d.input = rest := by
  rcases live_of_not_isDone hNot with
    ⟨d, hd, hAlive, hGoing⟩
  rcases hTook.kept with ⟨d', hd', hOwner, hInput⟩
  rw [hd] at hd'
  injection hd' with hSame
  subst hSame
  exact ⟨d, hd, hAlive, hGoing, hOwner, hInput⟩

/- One line is taken out of the buffer and handled. -/
theorem takeLine
    (hReg : Registry s)
    (hReady : Ready G s fd c)
    (line : Bytes)
    (rest : LineBuffer) :
    Took G s
      ((s.setConn fd { c with input := rest }).handleLine fd
        line) fd c line rest := by
  have hTake :
      Move G s (s.setConn fd { c with input := rest }) :=
    .input hReady.conn rest
  have hReg' := hReg.moves (.single hTake)
  have hNext :
      Ready G (s.setConn fd { c with input := rest }) fd
        { c with input := rest } :=
    ⟨getElem?_setConn_self _ _ _, hReady.live,
      hReady.mayRun⟩
  have hHandled := handleLine_handled hReg' hNext line
  exact ⟨hHandled.deeds.moves.head hTake,
    hReg'.serves hHandled.deeds.serves,
    hHandled.logged,
    hHandled.deeds.serves.keeps hNext.conn⟩

/- Draining the buffer is a run of moves. -/
theorem drainLines_moves
    (fuel : Nat)
    (hReg : Registry s)
    (hConn : s.conns[fd]? = some c)
    (hLive : c.dead = false)
    (hOpen : G.Open c ∨ c.input.nextLine = .needMore) :
    Moves G s (drainLines fd fuel s).1 := by
  induction fuel generalizing s c with
  | zero => exact .refl
  | succ fuel ih =>
      unfold drainLines
      rw [hConn]
      dsimp only
      cases hLine : c.input.nextLine with
      | needMore => exact .refl
      | tooLong =>
          have hReady : Ready G s fd c :=
            ⟨hConn, hLive, by simpa [hLine] using hOpen⟩
          exact hReady.tooLong.moves
      | ok line rest =>
          have hReady : Ready G s fd c :=
            ⟨hConn, hLive, by simpa [hLine] using hOpen⟩
          have hTook := takeLine hReg hReady line rest
          dsimp only
          split
          · exact hTook.moves
          · next hNot =>
              rcases hTook.goes_on hNot with
                ⟨d, hd, hAlive, hGoing, _⟩
              exact hTook.moves.trans
                (ih hTook.registry hd hAlive
                  (Or.inl fun _ => hGoing))

/- The rest of the draining adds to the history. -/
theorem drainLines_log
    (fuel : Nat)
    (hReg : Registry s)
    (hConn : s.conns[fd]? = some c)
    (hLive : c.dead = false) :
    s.log <+: (drainLines fd fuel s).1.log :=
  (drainLines_moves (G := Guard.none) fuel hReg hConn hLive
    (Or.inl False.elim)).acts.log_grows

/-
  The drain loop goes on only before its first line or while
  the connection does.
-/
theorem drainLines_going
    (fuel : Nat)
    (hConn : s.conns[fd]? = some c)
    (hFlag : (drainLines fd fuel s).2 = false) :
    drainLines fd fuel s = (s, false) ∧
        (fuel = 0 ∨ c.input.nextLine = .needMore) ∨
      ∃ d, (drainLines fd fuel s).1.conns[fd]? = some d ∧
        d.dead = false ∧ d.closing = false := by
  induction fuel generalizing s c with
  | zero => exact Or.inl ⟨rfl, Or.inl rfl⟩
  | succ fuel ih =>
      unfold drainLines at hFlag ⊢
      rw [hConn] at hFlag ⊢
      dsimp only at hFlag ⊢
      cases hLine : c.input.nextLine with
      | needMore => exact Or.inl ⟨rfl, Or.inr rfl⟩
      | tooLong =>
          rw [hLine] at hFlag
          cases hFlag
      | ok line rest =>
          simp only [hLine] at hFlag ⊢
          split at hFlag
          · cases hFlag
          · next hNot =>
              rw [if_neg hNot]
              rcases live_of_not_isDone hNot with
                ⟨d, hd, hLive, hGoing⟩
              rcases ih hd hFlag with ⟨hSame, _⟩ | hLater
              · rw [hSame]
                exact Or.inr ⟨d, hd, hLive, hGoing⟩
              · exact Or.inr hLater

/- The drain loop leaves the connection in its place. -/
theorem drainLines_keeps
    (fuel : Nat)
    (hReg : Registry s)
    (hConn : s.conns[fd]? = some c)
    (hLive : c.dead = false) :
    ∃ d, (drainLines fd fuel s).1.conns[fd]? = some d ∧
      d.ownerId = c.ownerId := by
  induction fuel generalizing s c with
  | zero => exact ⟨c, hConn, rfl⟩
  | succ fuel ih =>
      unfold drainLines
      rw [hConn]
      dsimp only
      cases hLine : c.input.nextLine with
      | needMore => exact ⟨c, hConn, rfl⟩
      | tooLong =>
          have hReady : Ready Guard.none s fd c :=
            ⟨hConn, hLive, False.elim⟩
          rcases hReady.tooLong.serves.keeps hConn with
            ⟨d, hd, hOwner, _⟩
          exact ⟨d, hd, hOwner⟩
      | ok line rest =>
          have hReady : Ready Guard.none s fd c :=
            ⟨hConn, hLive, False.elim⟩
          have hTook := takeLine hReg hReady line rest
          dsimp only
          split
          · rcases hTook.kept with ⟨d, hd, hOwner, _⟩
            exact ⟨d, hd, hOwner⟩
          · next hNot =>
              rcases hTook.goes_on hNot with
                ⟨d, hd, hAlive, _, hOwner, _⟩
              rcases ih hTook.registry hd hAlive with
                ⟨e, he, hLast⟩
              exact ⟨e, he, hLast.trans hOwner⟩

/- Receiving appends the bytes and drains the buffer. -/
theorem receive_eq
    {bytes : Bytes}
    (hConn : s.conns[fd]? = some c) :
    s.receive fd bytes =
      drainLines fd ((c.input.append bytes).size + 1)
        (s.setConn fd
          { c with input := c.input.append bytes }) := by
  unfold receive
  rw [hConn]

/- So what one recv() brings is handled by moves. -/
theorem receive_moves
    {bytes : Bytes}
    (hReg : Registry s)
    (hConn : s.conns[fd]? = some c)
    (hLive : c.dead = false)
    (hOpen :
      G.Open c ∨
        (c.input.append bytes).nextLine = .needMore) :
    Moves G s (s.receive fd bytes).1 := by
  have hGrow :
      Move G s
        (s.setConn fd
          { c with input := c.input.append bytes }) :=
    .input hConn _
  rw [receive_eq hConn]
  exact (drainLines_moves _ (hReg.moves (.single hGrow))
    (getElem?_setConn_self s fd _) hLive hOpen).head hGrow

/- Without a line the bytes just join the buffer. -/
theorem receive_of_needMore
    {bytes : Bytes}
    (hConn : s.conns[fd]? = some c)
    (hMore :
      (c.input.append bytes).nextLine = .needMore) :
    s.receive fd bytes =
      (s.setConn fd
        { c with input := c.input.append bytes },
        false) := by
  rw [receive_eq hConn]
  unfold drainLines
  rw [getElem?_setConn_self]
  simp only [hMore]

/-
  When the loop goes on, either the bytes completed no line,
  or the connection is still there.
-/
theorem receive_going
    {bytes : Bytes}
    (hConn : s.conns[fd]? = some c)
    (hFlag : (s.receive fd bytes).2 = false) :
    (s.receive fd bytes).1 =
          s.setConn fd
            { c with input := c.input.append bytes } ∧
        (c.input.append bytes).nextLine = .needMore ∨
      ∃ d, (s.receive fd bytes).1.conns[fd]? = some d ∧
        d.dead = false ∧ d.closing = false := by
  rw [receive_eq hConn] at hFlag ⊢
  have hNow :=
    getElem?_setConn_self s fd
      { c with input := c.input.append bytes }
  rcases drainLines_going _ hNow hFlag with
    ⟨hSame, hNone | hMore⟩ | hLater
  · cases hNone
  · exact Or.inl ⟨by rw [hSame], hMore⟩
  · exact Or.inr hLater

/- A connection that goes on is the same, and live. -/
theorem receive_keeps
    {bytes : Bytes}
    (hReg : Registry s)
    (hConn : s.conns[fd]? = some c)
    (hLive : c.dead = false)
    (hFlag : (s.receive fd bytes).2 = false) :
    ∃ d, (s.receive fd bytes).1.conns[fd]? = some d ∧
      d.dead = false ∧ d.ownerId = c.ownerId := by
  have hGrow :
      Act Guard.none s
        (s.setConn fd
          { c with input := c.input.append bytes }) :=
    .input hConn _
  have hNow :=
    getElem?_setConn_self s fd
      { c with input := c.input.append bytes }
  rcases receive_going hConn hFlag with
    ⟨hSame, _⟩ | ⟨d, hd, hAlive, _⟩
  · rw [hSame]
    exact ⟨_, hNow, hLive, rfl⟩
  · have hKept :=
      drainLines_keeps ((c.input.append bytes).size + 1)
        (hReg.act hGrow) hNow hLive
    rw [← receive_eq hConn] at hKept
    rcases hKept with ⟨e, he, hOwner⟩
    rw [hd] at he
    injection he with hEq
    exact ⟨d, hd, hAlive, hEq ▸ hOwner⟩

/- Data is taken in, and the loop goes on if it can. -/
theorem recvLoop_data
    (fd : Fd)
    (eof : Bool)
    (chunk : Chunk)
    (recvs : List RecvResult)
    (s : Server) :
    recvLoop fd eof (.data chunk :: recvs) s =
      if (s.receive fd chunk.bytes).2 = true then
        (s.receive fd chunk.bytes).1
      else
        recvLoop fd eof recvs
          (s.receive fd chunk.bytes).1 := by
  conv_lhs => unfold recvLoop
  rcases s.receive fd chunk.bytes with ⟨t, done⟩
  cases done with
  | true => rfl
  | false => rfl

/- The whole reading loop is a run of moves. -/
theorem recvLoop_moves
    {eof : Bool}
    (recvs : List RecvResult)
    (hReg : Registry s)
    (hConn : s.conns[fd]? = some c)
    (hLive : c.dead = false)
    (hQuiet :
      G.Open c ∨ c.input.reachesLine recvs = false)
    (hPatient :
      G.Ends s.log c ∨
        c.input.reachesEnd eof recvs = false) :
    Moves G s (recvLoop fd eof recvs s) := by
  -- Along the answers the connection either has not cut a
  -- line yet, and only its buffer grew, or has gone on past
  -- a line, and is not closing.
  induction recvs generalizing s c with
  | nil =>
      unfold recvLoop
      cases eof with
      | false => exact .refl
      | true =>
          refine closeConn_moves hConn hLive
            (Or.inr ⟨Or.inr rfl, ?_⟩)
          simpa [LineBuffer.reachesEnd] using hPatient
  | cons r rs ih =>
      cases r with
      | data chunk =>
          have hOpen :
              G.Open c ∨
                (c.input.append chunk.bytes).nextLine =
                  .needMore := by
            cases hLine :
                (c.input.append chunk.bytes).nextLine <;>
              simp [LineBuffer.reachesLine, hLine] at hQuiet
            · exact Or.inl hQuiet
            · exact Or.inr rfl
            · exact Or.inl hQuiet
          have hMoves :=
            receive_moves hReg hConn hLive hOpen
          have hRegNext := hReg.moves hMoves
          rw [recvLoop_data]
          split
          · exact hMoves
          · next hNot =>
              have hFlag := Bool.eq_false_of_not_eq_true hNot
              refine hMoves.trans ?_
              rcases receive_going hConn hFlag with
                ⟨hSame, hMore⟩ | ⟨d, hd, hLive, hGoing⟩
              · simp only [LineBuffer.reachesLine, hMore,
                  LineBuffer.reachesEnd]
                  at hQuiet hPatient
                rw [hSame] at hRegNext ⊢
                exact ih hRegNext
                  (getElem?_setConn_self s fd _) hLive
                  hQuiet hPatient
              · exact ih hRegNext hd hLive
                  (Or.inl fun _ => hGoing)
                  (Or.inl fun _ => Or.inl hGoing)
      | fin =>
          unfold recvLoop
          refine closeConn_moves hConn hLive
            (Or.inr ⟨Or.inl rfl, ?_⟩)
          simpa [LineBuffer.reachesEnd] using hPatient
      | eintr => exact ih hReg hConn hLive hQuiet hPatient
      | eagain =>
          unfold recvLoop
          cases eof with
          | false => exact .refl
          | true =>
              refine closeConn_moves hConn hLive
                (Or.inr ⟨Or.inr rfl, ?_⟩)
              simpa [LineBuffer.reachesEnd] using hPatient
      | reset =>
          exact closeConn_moves hConn hLive (Or.inl rfl)
      | error =>
          exact closeConn_moves hConn hLive (Or.inl rfl)

/- The rest of the reading adds to the history. -/
theorem recvLoop_log
    {eof : Bool}
    (recvs : List RecvResult)
    (hReg : Registry s)
    (hConn : s.conns[fd]? = some c)
    (hLive : c.dead = false) :
    s.log <+: (recvLoop fd eof recvs s).log :=
  (recvLoop_moves (G := Guard.none) recvs hReg hConn hLive
    (Or.inl False.elim)
    (Or.inl False.elim)).acts.log_grows

/- What the first chunk logs stays in the log. -/
theorem recvLoop_data_log
    (eof : Bool)
    (chunk : Chunk)
    (recvs : List RecvResult)
    (hReg : Registry s)
    (hConn : s.conns[fd]? = some c)
    (hLive : c.dead = false) :
    (s.receive fd chunk.bytes).1.log <+:
      (recvLoop fd eof (.data chunk :: recvs) s).log := by
  have hMoves :
      Moves Guard.none s (s.receive fd chunk.bytes).1 :=
    receive_moves hReg hConn hLive (Or.inl False.elim)
  have hRegNext := hReg.moves hMoves
  rw [recvLoop_data]
  split
  · exact List.prefix_refl _
  · next hNot =>
      have hFlag := Bool.eq_false_of_not_eq_true hNot
      rcases receive_keeps hReg hConn hLive hFlag with
        ⟨d, hd, hAlive, _⟩
      exact recvLoop_log recvs hRegNext hd hAlive

end Server

end SocketExchange

------------------------------------------------------------
-- Steps And Runs
------------------------------------------------------------

namespace SocketExchange

namespace Server

variable {G : Guard} {s : Server}

/- Accepting connections is a run of moves. -/
theorem onAccept_moves
    {accepts : List AcceptResult}
    (hFresh : AcceptsFresh accepts s) :
    Moves G s (onAccept accepts s) := by
  induction accepts generalizing s with
  | nil => exact .refl
  | cons r rs ih =>
      cases r with
      | conn cfd =>
          rcases hFresh with ⟨hNew, hListen, hRest⟩
          exact (ih hRest).head (.accept hNew hListen)
      | eagain => exact .refl
      | eintr => exact ih hFresh
      | aborted => exact ih hFresh
      | outOfFds => exact .refl
      | error => exact .refl

/- The answers of the kernel do not change who is open. -/
theorem AcceptsFresh.withAnswers
    {accepts : List AcceptResult}
    (a : Answers)
    (hFresh : AcceptsFresh accepts s) :
    AcceptsFresh accepts (s.withAnswers a) := by
  induction accepts generalizing s with
  | nil => trivial
  | cons r rs ih =>
      cases r with
      | conn cfd =>
          exact ⟨hFresh.1, hFresh.2.1, ih hFresh.2.2⟩
      | eagain => trivial
      | eintr => exact ih hFresh
      | aborted => exact ih hFresh
      | outOfFds => trivial
      | error => trivial

/- And so is the handling of any event. -/
theorem event_moves
    {ev : KEvent}
    {a : Answers}
    (hReg : Registry s)
    (hLegal : Legal s (.event ev a))
    (hSpares : G.Spares s (.event ev a)) :
    Moves G s (s.onEvent ev a) := by
  have hAnswers : Move G s (s.withAnswers a) :=
    .answers a
  refine Relation.ReflTransGen.head hAnswers ?_
  unfold onEvent
  dsimp only
  split
  · next hListen =>
      exact onAccept_moves
        ((hLegal hListen).withAnswers a)
  · next hOther =>
      split
      · next hRead =>
          unfold onReadable
          split
          · exact .refl
          · next c hFind =>
              rcases findLive_eq_some_iff.mp hFind with
                ⟨hConn, hLive⟩
              have hSpare :=
                hSpares hOther hRead c hFind
              apply recvLoop_moves a.recvs
                (hReg.moves (.single hAnswers)) hConn
                hLive
              · cases hClosing : c.closing with
                | false => exact Or.inl fun _ => hClosing
                | true =>
                    by_cases hIn : G.quiet c.ownerId
                    · exact Or.inr
                        ((hSpare hClosing).1 hIn)
                    · exact Or.inl
                        fun h => absurd h hIn
              · by_cases hEnds : G.Ends s.log c
                · exact Or.inl hEnds
                · simp only [Guard.Ends, Classical.not_imp,
                    not_or, Bool.not_eq_false]
                    at hEnds
                  rcases hEnds with
                    ⟨hIn, hClosing, hOut⟩
                  exact Or.inr
                    ((hSpare hClosing).2 hIn
                      (Nat.pos_of_ne_zero hOut))
      · unfold onWritable
        split
        · exact .refl
        · exact tryFlush_moves

/- Hence a step of the server is a run of actions. -/
theorem step_acts
    {i : Step}
    (hReg : Registry s)
    (hLegal : Legal s i)
    (hSpares : G.Spares s i) :
    Acts G s (step s i) := by
  cases i with
  | reap => exact .single .reap
  | event ev a =>
      exact (event_moves hReg hLegal hSpares).acts

/-
  The invariant rule for runs: what every piece keeps, and
  `reap` keeps, given the registries, holds after every run
  that spares the guard.
-/
theorem run_moves_invariant
    {lfd : Fd}
    {env : Env}
    {steps : List Step}
    (Inv : Server → Prop)
    (hInit : Inv (init lfd env))
    (hMove :
      ∀ s s', Registry s → Inv s → Move G s s' → Inv s')
    (hReap : ∀ s, Registry s → Inv s → Inv s.reap)
    (hLegal :
      Machine.Permitted step Legal (init lfd env) steps)
    (hSpares :
      Machine.Permitted step G.Spares (init lfd env)
        steps) :
    Registry (Machine.run step (init lfd env) steps) ∧
      Inv (Machine.run step (init lfd env) steps) := by
  have hBoth :
      Machine.Permitted step
        (fun s i => Legal s i ∧ G.Spares s i)
        (init lfd env) steps :=
    Machine.permitted_and.mpr ⟨hLegal, hSpares⟩
  refine Machine.run_invariant
    (fun s => Registry s ∧ Inv s) ?_
    ⟨registry_init lfd env, hInit⟩ hBoth
  rintro s i ⟨hReg, hInv⟩ ⟨hLegal, hSpares⟩
  cases i with
  | reap => exact ⟨hReg.reap, hReap s hReg hInv⟩
  | event ev a =>
      refine Moves.invariant
        (fun s => Registry s ∧ Inv s) ?_
        (event_moves hReg hLegal hSpares) ⟨hReg, hInv⟩
      rintro a b ⟨hReg, hInv⟩ hMove'
      exact ⟨hReg.moves (.single hMove'),
        hMove a b hReg hInv hMove'⟩

/- The same rule for the finer actions. -/
theorem run_acts_invariant
    {lfd : Fd}
    {env : Env}
    {steps : List Step}
    (Inv : Server → Prop)
    (hInit : Inv (init lfd env))
    (hAct :
      ∀ s s', Registry s → Inv s → Act G s s' → Inv s')
    (hLegal :
      Machine.Permitted step Legal (init lfd env) steps)
    (hSpares :
      Machine.Permitted step G.Spares (init lfd env)
        steps) :
    Registry (Machine.run step (init lfd env) steps) ∧
      Inv (Machine.run step (init lfd env) steps) := by
  refine run_moves_invariant Inv hInit ?_
    (fun s hReg hInv => hAct s s.reap hReg hInv .reap)
    hLegal hSpares
  intro s s' hReg hInv hMove
  exact (hMove.keeps hAct hReg hInv).2

/- So the registries are right along every run. -/
theorem run_registry
    {lfd : Fd}
    {env : Env}
    {steps : List Step}
    (hLegal :
      Machine.Permitted step Legal (init lfd env) steps) :
    Registry (Machine.run step (init lfd env) steps) :=
  (run_acts_invariant (G := Guard.none)
    (fun _ => True) trivial (fun _ _ _ _ _ => trivial)
    hLegal
    (Machine.permitted_of_forall
      Guard.none_spares _ _)).1

/- That is, they are right in every reachable state. -/
theorem Reachable.registry
    (hReach : Reachable s) :
    Registry s := by
  rcases hReach with ⟨lfd, env, steps, hLegal, rfl⟩
  exact run_registry hLegal

/- A run goes on, and its history with it. -/
theorem Reachable.run
    {more : List Step}
    (hReach : Reachable s)
    (hLegal : Machine.Permitted step Legal s more) :
    Reachable (Machine.run step s more) ∧
      s.log <+: (Machine.run step s more).log := by
  constructor
  · rcases hReach with ⟨lfd, env, steps, hBefore, rfl⟩
    refine ⟨lfd, env, steps ++ more, ?_, ?_⟩
    · exact Machine.permitted_append.mpr ⟨hBefore, hLegal⟩
    · exact (Machine.run_append _ _ _ _).symm
  · refine (Machine.run_invariant
      (fun t => Registry t ∧ s.log <+: t.log) ?_
      ⟨hReach.registry, List.prefix_refl _⟩ hLegal).2
    rintro t i ⟨hReg, hGrown⟩ hNext
    have hActs :=
      step_acts hReg hNext (Guard.none_spares t i)
    exact ⟨hActs.invariant Registry
        (fun _ _ hReg hAct => hReg.act hAct) hReg,
      hGrown.trans hActs.log_grows⟩

/- What holds at first and is kept holds when reached. -/
theorem Reachable.of_moves
    (Inv : Server → Prop)
    (hInit : ∀ lfd env, Inv (init lfd env))
    (hMove :
      ∀ s s', Registry s → Inv s →
        Move Guard.none s s' → Inv s')
    (hReap : ∀ s, Registry s → Inv s → Inv s.reap)
    (hReach : Reachable s) :
    Inv s := by
  rcases hReach with ⟨lfd, env, steps, hLegal, rfl⟩
  exact (run_moves_invariant Inv (hInit lfd env) hMove
    hReap hLegal
    (Machine.permitted_of_forall
      Guard.none_spares _ _)).2

/- What every action keeps, holds in all of them. -/
theorem Reachable.of_acts
    (Inv : Server → Prop)
    (hInit : ∀ lfd env, Inv (init lfd env))
    (hAct :
      ∀ s s', Registry s → Inv s →
        Act Guard.none s s' → Inv s')
    (hReach : Reachable s) :
    Inv s := by
  rcases hReach with ⟨lfd, env, steps, hLegal, rfl⟩
  exact (run_acts_invariant Inv (hInit lfd env) hAct
    hLegal
    (Machine.permitted_of_forall
      Guard.none_spares _ _)).2

end Server

end SocketExchange

------------------------------------------------------------
-- Scripted Runs
------------------------------------------------------------

namespace SocketExchange

/- The hash map walked in the order of its keys. -/
def IterOrder.sorted : IterOrder where
  walk := id
  perm := fun _ => List.Perm.refl _

namespace Step

/- A client connects; the listening descriptor is 3. -/
def connects (cfd : Fd) : Step :=
  .event ⟨3, .read, false⟩
    { accepts := [.conn cfd]
      recvs := []
      sends := fun _ => []
      order := .sorted }

/- A client is readable. -/
def reads
    (fd : Fd)
    (recvs : List RecvResult)
    (sends : Fd → List SendResult) : Step :=
  .event ⟨fd, .read, false⟩
    { accepts := []
      recvs := recvs
      sends := sends
      order := .sorted }

end Step

namespace Server

/- A server that listens on descriptor 3. -/
def listening : Server :=
  init 3 ⟨∅, fun _ => [], .sorted⟩

/- One client connects and logs in. -/
def loginSteps : List Step :=
  [.connects 5,
    .reads 5
      [.data ⟨ascii "LOGIN ann\n", by decide, by decide⟩]
      (fun _ => [])]

theorem loginSteps_legal :
    Machine.Permitted step Legal listening loginSteps :=
  ⟨fun _ => ⟨by decide, by decide, trivial⟩,
    fun h => absurd h (by decide), trivial⟩

end Server

end SocketExchange

------------------------------------------------------------
-- The Registries Of A Run
------------------------------------------------------------

namespace SocketExchange

namespace Server

/-
  In every reachable state the registries say exactly who is
  logged in: the names and the owner entries are those of
  the traders that are not dead, and a name belongs to one
  connection only.
-/
theorem registry_consistent
    {s : Server}
    (hReach : Reachable s) :
    (∀ name, name ∈ s.usernames ↔
      ∃ fd c, s.LiveTrader fd c ∧ c.username = name) ∧
    (∀ (fd fd' : Fd) (c c' : Conn),
      s.conns[fd]? = some c → s.conns[fd']? = some c' →
        c.dead = false → c'.dead = false →
        c.username ≠ [] → c.username = c'.username →
          fd = fd') ∧
    (∀ (fd : Fd) (c : Conn), s.conns[fd]? = some c →
      (c.username ≠ [] ↔ c.role = .trader)) ∧
    (∀ (owner : Int) (fd : Fd),
      s.ownerFd[owner]? = some fd ↔
        ∃ c, s.LiveTrader fd c ∧ c.ownerId = owner ∧
          c.fd = fd) := by
  have hReg := hReach.registry
  refine ⟨?_, ?_, hReg.username_iff, ?_⟩
  · intro name
    constructor
    · exact hReg.name_sound name
    · rintro ⟨fd, c, hTrader, rfl⟩
      exact hReg.name_complete fd c hTrader
  · intro fd fd' c c' hConn hConn' hLive hLive' hName hSame
    have hRole : c.role = .trader :=
      (hReg.username_iff fd c hConn).mp hName
    have hRole' : c'.role = .trader :=
      (hReg.username_iff fd' c' hConn').mp (hSame ▸ hName)
    exact hReg.name_unique fd fd' c c'
      ⟨hConn, hLive, hRole⟩ ⟨hConn', hLive', hRole'⟩ hSame
  · intro owner fd
    constructor
    · intro hEntry
      rcases hReg.owner_sound owner fd hEntry with
        ⟨c, hTrader, hOwner⟩
      exact ⟨c, hTrader, hOwner,
        hReg.conn_fd fd c hTrader.conn⟩
    · rintro ⟨c, hTrader, rfl, _⟩
      exact hReg.owner_complete fd c hTrader

theorem registry_consistent_login :
    ∃ c,
      (Machine.run step listening loginSteps).LiveTrader
          5 c ∧
        c.ownerId = 1 ∧ c.fd = 5 :=
  ((registry_consistent
    ⟨3, _, loginSteps, loginSteps_legal, rfl⟩).2.2.2
      1 5).mp (by decide)

end Server

end SocketExchange

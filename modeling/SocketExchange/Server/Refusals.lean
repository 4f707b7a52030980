import SocketExchange.Book.Undo
import SocketExchange.Server.Bystander

/-
  What the handling of a line comes to.

  Every rejection point of the handlers does one thing: it
  queues an ERROR on the connection that sent the line. A
  cancellation that the exchange refuses has called it, and
  left it as it was. So the only trace of a refused command
  is its reply, and what queueing that reply may bring about:
  the end of the connection itself. A line that is not
  refused is granted, or it is an order that is accepted.

  Main declarations:
    * `Server.Refused`
    * `Server.Accepted`
    * `Server.handleLine_outcome`
    * `Server.refusal_changes_nothing`
-/

------------------------------------------------------------
-- Quiet Handling
------------------------------------------------------------

namespace SocketExchange

/- Neither an ERROR that is queued nor an order. -/
def Obs.Modest : Obs → Prop
| .queued _ (.error _) => False
| .called _ (.submit _ _ _ _ _) _ => False
| _ => True

/- Not even a message that is queued. -/
def Obs.Silent : Obs → Prop
| .queued _ _ => False
| .called _ (.submit _ _ _ _ _) _ => False
| _ => True

/- Not an ERROR message. -/
def Msg.Granted : Msg → Prop
| .error _ => False
| _ => True

namespace Server

/-
  No ERROR was queued, and no order went through: no id has
  been handed out.
-/
def Quiet (s s' : Server) : Prop :=
  s'.exch.nextId = s.exch.nextId ∧
    ∃ es, s'.log = s.log ++ es ∧ ∀ e ∈ es, e.Modest

variable {s s' : Server} {fd : Fd}

theorem Quiet.refl (s : Server) : Quiet s s :=
  ⟨rfl, [], (List.append_nil _).symm,
    List.forall_mem_nil _⟩

/- Quiet steps compose. -/
theorem Quiet.trans
    {a b c : Server}
    (hab : Quiet a b)
    (hbc : Quiet b c) :
    Quiet a c := by
  rcases hab with ⟨hId, es, hLog, hEs⟩
  rcases hbc with ⟨hId', fs, hLog', hFs⟩
  refine ⟨hId'.trans hId, es ++ fs, ?_, ?_⟩
  · rw [hLog', hLog, List.append_assoc]
  · exact List.forall_mem_append.mpr ⟨hEs, hFs⟩

/- A step with one modest entry is quiet. -/
theorem Quiet.one
    {e : Obs}
    (hId : s'.exch.nextId = s.exch.nextId)
    (hLog : s'.log = s.log ++ [e])
    (hQuiet : e.Modest) :
    Quiet s s' :=
  ⟨hId, [e], hLog, List.forall_mem_singleton.mpr hQuiet⟩

/- Sends and ends are nothing of the kind. -/
theorem OutputTail.silent
    {owner : Int}
    {closing dead : Bool}
    {es : List Obs}
    (hTail : OutputTail owner closing dead es) :
    ∀ e ∈ es, e.Silent :=
  hTail.forall_mem (fun _ => trivial) (fun _ _ => trivial)

/- Entries that carry no message are modest. -/
theorem modest_of_silent
    {es : List Obs}
    (hSilent : ∀ e ∈ es, e.Silent) :
    ∀ e ∈ es, e.Modest := by
  intro e he
  have hNot := hSilent e he
  cases e with
  | queued owner m => exact hNot.elim
  | called owner call reply =>
      cases call with
      | submit side inst qty price k => exact hNot.elim
      | cancel id k => trivial
  | _ => trivial

/- Queueing a granted message is quiet. -/
theorem queueOut_quiet
    {m : Msg}
    (hGranted : m.Granted) :
    Quiet s (s.queueOut fd m) := by
  refine queueOut_cases (P := Quiet s) (.refl s) ?_
  intro c _ hLive
  rcases queued_log s fd hLive m with ⟨es, hLog, hTail⟩
  have hModest := modest_of_silent (OutputTail.silent hTail)
  refine ⟨by rw [commit_exch], _, hLog,
    List.forall_mem_cons.mpr ⟨?_, hModest⟩⟩
  cases m with
  | error reason => exact hGranted.elim
  | _ => trivial

/- So is flushing. -/
theorem tryFlush_quiet : Quiet s (s.tryFlush fd) := by
  refine tryFlush_cases (P := Quiet s) (.refl s) ?_
  intro c _ hLive
  rcases flushed_log s fd hLive with ⟨es, hLog, hTail⟩
  exact ⟨by rw [commit_exch], es, hLog,
    modest_of_silent (OutputTail.silent hTail)⟩

/- So is marking to close. -/
theorem setClosing_quiet : Quiet s (s.setClosing fd) := by
  unfold setClosing
  split
  · exact .refl s
  · exact .one rfl rfl trivial

/- So is granting a name. -/
theorem grantLogin_quiet (c : Conn) (name : Bytes) :
    Quiet s (s.grantLogin fd c name) :=
  .one rfl rfl trivial

/- And granting a subscription. -/
theorem grantSubscribe_quiet
    (c : Conn)
    (inst : Fin 2)
    (on : Bool) :
    Quiet s (s.grantSubscribe fd c inst on) :=
  .one rfl rfl trivial

/- A report to an owner is quiet. -/
theorem notifyOwner_quiet
    {m : Msg}
    (hGranted : m.Granted)
    (owner : Int) :
    Quiet s (s.notifyOwner owner m) := by
  unfold notifyOwner
  split
  · exact .refl s
  · split
    · exact .refl s
    · exact queueOut_quiet hGranted

/- So is a print to one subscriber. -/
theorem notifySubscriber_quiet
    (t : Trade)
    (s : Server)
    (fd : Fd) :
    Quiet s (notifySubscriber t s fd) := by
  unfold notifySubscriber
  split
  · exact .refl s
  · split
    · exact queueOut_quiet trivial
    · exact .refl s

/- A loop of quiet turns is quiet. -/
theorem foldl_quiet
    {α : Type}
    {f : Server → α → Server}
    (hEach : ∀ s a, Quiet s (f s a))
    (as : List α)
    (s : Server) :
    Quiet s (as.foldl f s) := by
  induction as generalizing s with
  | nil => exact .refl s
  | cons a as ih => exact (hEach s a).trans (ih (f s a))

/- Hence so is a print to all subscribers. -/
theorem publish_quiet (s : Server) (t : Trade) :
    Quiet s (s.publish t) := by
  have hOwners :=
    (notifyOwner_quiet (s := s) (m := .bought t) trivial
      t.buyerOwner).trans
      (notifyOwner_quiet (m := .sold t) trivial
        t.sellerOwner)
  exact hOwners.trans
    (foldl_quiet (notifySubscriber_quiet t) _ _)

/- An order that goes through, and the one call it makes. -/
theorem acceptOrder_log
    (c : Conn)
    (side : Side)
    (inst : Fin 2)
    (qty price : UInt32) :
    ∃ reply es,
      (s.acceptOrder fd c side inst qty price).log =
          s.log ++
            .called c.ownerId
              (.submit side inst qty price c.ownerId)
              reply :: es ∧
        ∀ e ∈ es, e.Modest := by
  have hReply :
      ∀ (t : Server) (id : UInt32),
        Quiet t (t.queueOut fd (.orderAccepted id)) :=
    fun t id => queueOut_quiet trivial
  have hRest :
      Quiet
        (s.callExchange c.ownerId
          (.submit side inst qty price c.ownerId))
        (s.acceptOrder fd c side inst qty price) :=
    (hReply _ _).trans (foldl_quiet publish_quiet _ _)
  rcases hRest with ⟨_, es, hLog, hEs⟩
  exact ⟨_, es, hLog.trans (List.append_assoc _ _ _), hEs⟩

end Server

end SocketExchange

------------------------------------------------------------
-- Refused Handling
------------------------------------------------------------

namespace SocketExchange

namespace Server

/- Two servers that differ in their histories only. -/
structure SameState (s t : Server) : Prop where
  nextOwner : t.nextOwner = s.nextOwner
  conns : t.conns = s.conns
  ownerFd : t.ownerFd = s.ownerFd
  usernames : t.usernames = s.usernames
  exch : t.exch = s.exch

/- A server agrees with itself. -/
theorem SameState.refl (s : Server) : SameState s s :=
  ⟨rfl, rfl, rfl, rfl, rfl⟩

/- Nothing but history up to the reply, which is an ERROR. -/
def Refused (s : Server) (fd : Fd) (s' : Server) : Prop :=
  ∃ t es reason, SameState s t ∧ t.log = s.log ++ es ∧
    (∀ e ∈ es, e.Silent) ∧
    s' = t.queueOut fd (.error reason)

/- The fields ask for an order, and it is accepted. -/
def Accepted
    (s : Server)
    (fd : Fd)
    (c : Conn)
    (tk : List Bytes)
    (s' : Server) : Prop :=
  ∃ side inst qty price,
    Requests tk (.submit side inst qty price c.ownerId) ∧
    s' = s.acceptOrder fd c side inst qty price

variable {s : Server} {fd : Fd}

/- The call of an accepted order, and what follows it. -/
theorem Accepted.log
    {c : Conn}
    {tk : List Bytes}
    {s' : Server}
    (hAccepted : Accepted s fd c tk s') :
    ∃ side inst qty price reply es,
      Requests tk (.submit side inst qty price c.ownerId) ∧
        s'.log =
          s.log ++
            .called c.ownerId
              (.submit side inst qty price c.ownerId)
              reply :: es ∧
        ∀ e ∈ es, e.Modest := by
  rcases hAccepted with
    ⟨side, inst, qty, price, hRequest, rfl⟩
  rcases acceptOrder_log c side inst qty price with
    ⟨reply, es, hLog, hEs⟩
  exact ⟨side, inst, qty, price, reply, es, hRequest, hLog,
    hEs⟩

/- A handler that only queues an error refuses. -/
theorem refused_at_once (reason : String) :
    Refused s fd (s.queueOut fd (.error reason)) :=
  ⟨s, [], reason, .refl s, (List.append_nil _).symm,
    List.forall_mem_nil _, rfl⟩

/- A LOGIN is refused or granted. -/
theorem cmdLogin_outcome (tk : List Bytes) :
    Refused s fd (s.cmdLogin fd tk) ∨
      Quiet s (s.cmdLogin fd tk) := by
  unfold cmdLogin
  cases hConn : s.conns[fd]? with
  | none => exact Or.inr (.refl s)
  | some c =>
      dsimp only
      split
      · split
        · exact Or.inl (refused_at_once _)
        · split
          · exact Or.inl (refused_at_once _)
          · split
            · exact Or.inl (refused_at_once _)
            · exact Or.inr
                ((grantLogin_quiet c _).trans
                  (queueOut_quiet trivial))
      · exact Or.inl (refused_at_once _)

/- A BUY or SELL is refused or accepted. -/
theorem cmdOrder_outcome
    {c : Conn}
    (hConn : s.conns[fd]? = some c)
    (side : Side)
    (fields : List Bytes) :
    Refused s fd
        (s.cmdOrder fd (side.verb :: fields) side) ∨
      Accepted s fd c (side.verb :: fields)
        (s.cmdOrder fd (side.verb :: fields) side) := by
  unfold cmdOrder
  rw [hConn]
  dsimp only
  split
  · exact Or.inl (refused_at_once _)
  · split
    · exact Or.inl (refused_at_once _)
    · split
      · next name quantity level hFields =>
          split
          · exact Or.inl (refused_at_once _)
          · next inst hInst =>
              split
              · exact Or.inl (refused_at_once _)
              · next qty hQty =>
                  split
                  · exact Or.inl (refused_at_once _)
                  · next price hPrice =>
                      injection hFields with _ hFields
                      refine Or.inr
                        ⟨side, inst, qty, price, ?_, rfl⟩
                      exact ⟨name, quantity, level,
                        by rw [hFields], hInst, hQty,
                        hPrice⟩
      · exact Or.inl (refused_at_once _)

/- A refused call leaves the exchange, and then an ERROR. -/
theorem cmdCancel_outcome (tk : List Bytes) :
    Refused s fd (s.cmdCancel fd tk) ∨
      Quiet s (s.cmdCancel fd tk) := by
  unfold cmdCancel
  cases hConn : s.conns[fd]? with
  | none => exact Or.inr (.refl s)
  | some c =>
      dsimp only
      split
      · exact Or.inl (refused_at_once _)
      · split
        · exact Or.inl (refused_at_once _)
        · split
          · split
            · exact Or.inl (refused_at_once _)
            · next id _ =>
                split
                · have hCall :
                      Quiet s
                        (s.callExchange c.ownerId
                          (.cancel id c.ownerId)) :=
                    .one (Exchange.step_nextId _ _) rfl
                      trivial
                  exact Or.inr
                    (hCall.trans (queueOut_quiet trivial))
                · next err hErr =>
                    refine Or.inl ⟨_, _, err, ?_, rfl, ?_,
                      rfl⟩
                    · refine ⟨rfl, rfl, rfl, rfl, ?_⟩
                      apply Exchange.cancel_refused
                      rw [hErr]
                      intro hOk
                      cases hOk
                    · intro e he
                      rw [List.mem_singleton.mp he]
                      trivial
          · exact Or.inl (refused_at_once _)

/- A SUBSCRIBE is refused or granted. -/
theorem cmdSubscribe_outcome
    (tk : List Bytes)
    (on : Bool) :
    Refused s fd (s.cmdSubscribe fd tk on) ∨
      Quiet s (s.cmdSubscribe fd tk on) := by
  unfold cmdSubscribe
  cases hConn : s.conns[fd]? with
  | none => exact Or.inr (.refl s)
  | some c =>
      dsimp only
      split
      · exact Or.inl (refused_at_once _)
      · split
        · split
          · exact Or.inl (refused_at_once _)
          · exact Or.inr
              ((grantSubscribe_quiet c _ on).trans
                (queueOut_quiet trivial))
        · exact Or.inl (refused_at_once _)

/-
  So a line is refused, or is quiet, or is an accepted
  order.
-/
theorem dispatch_outcome
    {c : Conn}
    (hConn : s.conns[fd]? = some c)
    (tk : List Bytes) :
    Refused s fd (s.dispatch fd tk) ∨
      Quiet s (s.dispatch fd tk) ∨
      Accepted s fd c tk (s.dispatch fd tk) := by
  have hOther :
      ∀ s', Refused s fd s' ∨ Quiet s s' →
        Refused s fd s' ∨ Quiet s s' ∨
          Accepted s fd c tk s' := by
    intro s' hBoth
    exact hBoth.imp_right Or.inl
  unfold dispatch
  split
  · exact hOther _ (Or.inr (.refl s))
  · split
    · exact hOther _ (cmdLogin_outcome _)
    · split
      · next fields _ hBuy =>
          subst hBuy
          exact (cmdOrder_outcome hConn .buy fields).imp_right
            Or.inr
      · split
        · next fields _ _ hSell =>
            subst hSell
            exact (cmdOrder_outcome hConn .sell
              fields).imp_right Or.inr
        · split
          · exact hOther _ (cmdCancel_outcome _)
          · split
            · exact hOther _ (cmdSubscribe_outcome _ _)
            · split
              · exact hOther _ (cmdSubscribe_outcome _ _)
              · split
                · exact hOther _ (Or.inr
                    (setClosing_quiet.trans tryFlush_quiet))
                · exact hOther _
                    (Or.inl (refused_at_once _))

/- A line is refused, or granted, or an order accepted. -/
theorem handleLine_outcome
    {c : Conn}
    (hConn : s.conns[fd]? = some c)
    (line : Bytes) :
    Refused s fd (s.handleLine fd line) ∨
      Quiet s (s.handleLine fd line) ∨
      Accepted (s.note (.line c.ownerId line)) fd c
        (splitWs line) (s.handleLine fd line) := by
  unfold handleLine
  rw [hConn]
  dsimp only
  have hLine : Quiet s (s.note (.line c.ownerId line)) :=
    .one rfl rfl trivial
  have hConn' :
      (s.note (.line c.ownerId line)).conns[fd]? = some c :=
    hConn
  rcases dispatch_outcome hConn' (splitWs line) with
    ⟨t, es, reason, hSame, hLog, hSilent, hEq⟩ | hRest
  · refine Or.inl
      ⟨t, .line c.ownerId line :: es, reason, ?_, ?_, ?_,
        hEq⟩
    · exact ⟨hSame.nextOwner, hSame.conns, hSame.ownerFd,
        hSame.usernames, hSame.exch⟩
    · rw [hLog]
      exact List.append_assoc _ _ _
    · exact List.forall_mem_cons.mpr ⟨trivial, hSilent⟩
  · exact Or.inr (hRest.imp_left hLine.trans)

end Server

end SocketExchange

------------------------------------------------------------
-- A Refused Command Changes Nothing
------------------------------------------------------------

namespace SocketExchange

namespace Server

variable {s s' : Server} {fd : Fd} {c : Conn}

/- What the handling did that queued an ERROR. -/
theorem refused_of_error
    {line : Bytes}
    {more : List Obs}
    {owner : Int}
    {reason : String}
    (hConn : s.conns[fd]? = some c)
    (hLog : (s.handleLine fd line).log = s.log ++ more)
    (hError : Obs.queued owner (.error reason) ∈ more) :
    Refused s fd (s.handleLine fd line) := by
  have hNot :
      ∀ es, (s.handleLine fd line).log = s.log ++ es →
        Obs.queued owner (.error reason) ∈ es := by
    intro es hEs
    have hSame : more = es :=
      List.append_cancel_left (hLog.symm.trans hEs)
    rw [← hSame]
    exact hError
  rcases handleLine_outcome hConn line with
    hRefused | ⟨_, es, hEs, hQuiet⟩ | hAccepted
  · exact hRefused
  · exact (hQuiet _ (hNot es hEs)).elim
  · rcases hAccepted.log with
      ⟨_, _, _, _, _, _, _, hEs, hQuiet⟩
    have hMem := hNot _ (hEs.trans
      (List.append_assoc _ _ _))
    rcases List.mem_cons.mp hMem with hLine | hMem
    · cases hLine
    · rcases List.mem_cons.mp hMem with hCall | hMem
      · cases hCall
      · exact (hQuiet _ hMem).elim

/-
  The registries after output on a live connection: as they
  were, unless it died of it.
-/
theorem commit_registries
    (s : Server)
    (fd : Fd)
    (p : Port) :
    (p.conn.dead = false →
        (s.commit fd p).usernames = s.usernames ∧
          (s.commit fd p).ownerFd = s.ownerFd) ∧
      (p.conn.dead = true →
        (s.commit fd p).usernames =
            releaseName s.usernames p.conn.username ∧
          (s.commit fd p).ownerFd =
            s.ownerFd.erase p.conn.ownerId) := by
  unfold commit
  refine ⟨?_, ?_⟩
  · intro hLive
    rw [if_neg (by rw [hLive]; exact Bool.false_ne_true)]
    exact ⟨rfl, rfl⟩
  · intro hDead
    rw [if_pos hDead]
    exact ⟨rfl, rfl⟩

/-
  A refused command changes nothing. When the handling of a
  line queues an ERROR on the live connection that sent it,
  the exchange, the owner counter and every other connection
  are as before, and so are the identity, role, username and
  subscriptions of this one. The registries are as before
  too, unless the reply ended the connection: then its own
  username, if it has one, and its owner entry are taken out
  of them, and no other.
-/
theorem refusal_changes_nothing
    {s : Server}
    {fd : Fd}
    {c : Conn}
    {line : Bytes}
    {more : List Obs}
    {reason : String}
    (hConn : s.conns[fd]? = some c)
    (hLive : c.dead = false)
    (hLog : (s.handleLine fd line).log = s.log ++ more)
    (hError :
      Obs.queued c.ownerId (.error reason) ∈ more) :
    let s' := s.handleLine fd line
    s'.exch = s.exch ∧
      s'.nextOwner = s.nextOwner ∧
      (∀ f, f ≠ fd → s'.conns[f]? = s.conns[f]?) ∧
      ∃ c', s'.conns[fd]? = some c' ∧
        c.SameIdentity c' ∧
        (c'.dead = false →
          s'.usernames = s.usernames ∧
            s'.ownerFd = s.ownerFd) ∧
        (c'.dead = true →
          (c.username = [] →
            s'.usernames = s.usernames) ∧
          (c.username ≠ [] →
            s'.usernames =
              s.usernames.erase c.username) ∧
          ∀ k : Int,
            s'.ownerFd[k]? =
              if k = c.ownerId then none
              else s.ownerFd[k]?) := by
  intro s'
  rcases refused_of_error hConn hLog hError with
    ⟨t, _, why, hSame, _, _, hEq⟩
  have hConn' : t.conns[fd]? = some c := by
    rw [hSame.conns, hConn]
  have hReply :
      s' = t.commit fd
        ((Port.ofConn t c).queue (.error why)) :=
    hEq.trans (queueOut_eq_commit hConn' hLive _)
  have hIdentity :=
    Port.queue_same (Port.ofConn t c) (.error why)
  have hNames :=
    commit_registries t fd
      ((Port.ofConn t c).queue (.error why))
  rw [hReply]
  refine ⟨?_, ?_, ?_, _, ?_, hIdentity, ?_, ?_⟩
  · rw [commit_exch, hSame.exch]
  · rw [commit_nextOwner, hSame.nextOwner]
  · intro f hOther
    rw [commit_conns, getElem?_insert_fd, if_neg hOther,
      hSame.conns]
  · rw [commit_conns, getElem?_insert_fd, if_pos rfl]
  · intro hAlive
    rw [← hSame.usernames, ← hSame.ownerFd]
    exact hNames.1 hAlive
  · intro hDied
    have hReleased := hNames.2 hDied
    rw [hIdentity.username, hIdentity.ownerId,
      hSame.usernames, hSame.ownerFd] at hReleased
    rcases hReleased with ⟨hName, hEntry⟩
    change _ = releaseName s.usernames c.username at hName
    change _ = s.ownerFd.erase c.ownerId at hEntry
    refine ⟨?_, ?_, ?_⟩
    · intro hNone
      rw [hName, releaseName, if_pos hNone]
    · intro hSome
      rw [hName, releaseName, if_neg hSome]
    · intro k
      rw [hEntry, Std.ExtTreeMap.getElem?_erase]
      by_cases hKey : k = c.ownerId
      · simp [hKey]
      · have hNe : ¬ c.ownerId = k := fun h => hKey h.symm
        simp [hKey, hNe]

/- The buyer's peer is gone when the reply is sent. -/
def unreachableBuyer : Server :=
  quittingSeller.withAnswers
    { accepts := []
      recvs := []
      sends := fun _ => [.eintr, .error]
      order := .sorted }

/- It asks for market data, which ends its connection. -/
theorem refusal_changes_nothing_buyer :
    (unreachableBuyer.handleLine 6
          (ascii "SUBSCRIBE JNST")).usernames =
        {ascii "ann"} ∧
      (unreachableBuyer.handleLine 6
          (ascii "SUBSCRIBE JNST")).ownerFd[(2 : Int)]? =
        none ∧
      (unreachableBuyer.handleLine 6
          (ascii "SUBSCRIBE JNST")).ownerFd[(1 : Int)]? =
        some 5 := by
  have hWaiting :
      quittingSeller.conns[(6 : Fd)]? =
        some waitingBuyerConn :=
    (Option.some_get _).symm
  have hConn :
      unreachableBuyer.conns[(6 : Fd)]? =
        some waitingBuyerConn := by
    have hSame :
        ∀ (s : Server) (a : Answers),
          (s.withAnswers a).conns = s.conns :=
      fun _ _ => rfl
    rw [unreachableBuyer, hSame]
    exact hWaiting
  have hLog :
      (unreachableBuyer.handleLine 6
          (ascii "SUBSCRIBE JNST")).log =
        unreachableBuyer.log ++
          [.line 2 (ascii "SUBSCRIBE JNST"),
            .queued 2
              (.error "not permitted for this client type"),
            .sent 2 [], .closed 2 .sendError 41] := by
    decide
  have hDied :
      ((unreachableBuyer.handleLine 6
        (ascii "SUBSCRIBE JNST")).conns[(6 : Fd)]?).map
          Conn.dead = some true := by
    decide
  have hOwner : waitingBuyerConn.ownerId = 2 := by decide
  have hName : waitingBuyerConn.username = ascii "bob" := by
    decide
  have hError :
      Obs.queued waitingBuyerConn.ownerId
          (.error "not permitted for this client type") ∈
        [.line 2 (ascii "SUBSCRIBE JNST"),
          .queued 2
            (.error "not permitted for this client type"),
          .sent 2 [], .closed 2 .sendError 41] := by
    rw [hOwner]
    simp
  rcases refusal_changes_nothing hConn (by decide) hLog
      hError with
    ⟨_, _, _, c', hAfter, _, _, hReleased⟩
  rw [hAfter] at hDied
  rcases hReleased (Option.some.inj hDied) with
    ⟨_, hErased, hEntries⟩
  rw [hName] at hErased
  rw [hOwner] at hEntries
  refine ⟨?_, ?_, ?_⟩
  · rw [hErased (by decide)]
    decide
  · exact hEntries 2
  · rw [hEntries 1]
    decide

end Server

end SocketExchange

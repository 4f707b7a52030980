import SocketExchange.Book.Conservation
import SocketExchange.Book.Lifecycle
import SocketExchange.Server.Endings
import SocketExchange.Server.Replay
import SocketExchange.Service.Model
import SocketExchange.Service.Posting

/-
  Where a server stands, in the terms of the service.

  A server tracks a service when both have the same book
  and tape and the same parties, and each letter box holds
  what was queued on the connection, with perhaps more in
  the box of a party that is gone. The small steps of the
  server keep this: rewriting a record, calling the exchange
  and posting letters, which may end connections. A server
  that tracks a service between two turns refines it: its
  order book, the names in use and the index of its traders
  are those of the service.

  Key definitions include:
    * `Server.Mirrors`, `Server.Stands`
    * `Server.Tracks`, `Server.Refines`

  Key theorems include:
    * `Server.Tracks.rewrite`
    * `Server.Tracks.posted`
    * `Server.Tracks.called`
    * `Server.Tracks.refines`
-/

------------------------------------------------------------
-- The Refinement Relation
------------------------------------------------------------

namespace SocketExchange

namespace Server

/- What a connection and its party agree on. -/
structure Mirrors (c : Conn) (p : Party) : Prop where
  id : p.id = c.ownerId
  role : p.role = c.role
  name : p.name = c.username
  subs : p.subs = c.subs
  leaving : p.leaving = c.closing

/-
  Where a party stands: it is here, with a live connection
  that was queued all its letters, or it is gone, and its
  connection was queued the first of them.
-/
inductive Stands (s : Server) (p : Party) : Prop where
| here
    {fd : Fd} {c : Conn}
    (hHere : p.gone = false)
    (hConn : s.conns[fd]? = some c)
    (hLive : c.dead = false)
    (hMirrors : Mirrors c p)
    (hMail : pushedTo p.id s.log = p.mail)
| gone
    (hGone : p.gone = true)
    (hNone : Gone s p.id)
    (hMail : pushedTo p.id s.log <+: p.mail)

/- What the history says is what the service knows. -/
structure Tracks (s : Server) (v : Service) : Prop where
  book :
    v.book =
      Machine.final Reference.step Reference.empty
        (callsOf s.log)
  tape : v.tape = tradesOf (repliesOf s.log)
  ids : v.parties.map Party.id = acceptedOwners s.log
  stands : ∀ p ∈ v.parties, Stands s p

/-
  The server stands where the service stands: the exchange
  holds the book, the names in use are those taken, and the
  index finds the traders that are here.
-/
structure Refines (s : Server) (v : Service) : Prop extends
  Tracks s v where
  orders : Represents s.exch v.book
  names : ∀ name, name ∈ s.usernames ↔ v.Taken name
  owners :
    ∀ (k : Int) (fd : Fd), s.ownerFd[k]? = some fd ↔
      ∃ c, s.conns[fd]? = some c ∧ c.dead = false ∧
        ∃ p ∈ v.parties, p.gone = false ∧
          p.role = .trader ∧ p.id = k ∧ Mirrors c p

theorem tracks_init (lfd : Fd) (env : Env) :
    Tracks (init lfd env) Service.start where
  book := rfl
  tape := rfl
  ids := rfl
  stands := List.forall_mem_nil _

theorem Mirrors.of_same
    {c d : Conn}
    {p : Party}
    (hMirrors : Mirrors c p)
    (hSame : c.SameIdentity d) :
    Mirrors d p where
  id := hMirrors.id.trans hSame.ownerId.symm
  role := hMirrors.role.trans hSame.role.symm
  name := hMirrors.name.trans hSame.username.symm
  subs := hMirrors.subs.trans hSame.subs.symm
  leaving := hMirrors.leaving.trans hSame.closing.symm

/- A connection and its party get the same letters. -/
theorem Mirrors.letters
    {c : Conn}
    {p : Party}
    (hMirrors : Mirrors c p)
    (t : Trade) :
    messagesFor c t = p.letters t := by
  simp only [messagesFor, Party.letters, Party.fills,
    Party.follows, hMirrors.role, hMirrors.id,
    hMirrors.subs, hMirrors.leaving, decide_eq_true_eq]

end Server

end SocketExchange

------------------------------------------------------------
-- Entries And Inputs
------------------------------------------------------------

namespace SocketExchange

/- Neither a call nor an accept. -/
def Obs.Ordinary : Obs → Prop
| .called _ _ _ => False
| .accepted _ _ => False
| _ => True

section Ordinary

variable {es : List Obs}

theorem callsOf_of_ordinary
    (hOrdinary : ∀ e ∈ es, e.Ordinary) :
    callsOf es = [] := by
  unfold callsOf
  rw [List.filterMap_eq_nil_iff]
  intro e he
  have hNot := hOrdinary e he
  cases e with
  | called owner call reply => exact hNot.elim
  | _ => rfl

theorem repliesOf_of_ordinary
    (hOrdinary : ∀ e ∈ es, e.Ordinary) :
    repliesOf es = [] := by
  unfold repliesOf
  rw [List.filterMap_eq_nil_iff]
  intro e he
  have hNot := hOrdinary e he
  cases e with
  | called owner call reply => exact hNot.elim
  | _ => rfl

theorem acceptedOwners_of_ordinary
    (hOrdinary : ∀ e ∈ es, e.Ordinary) :
    acceptedOwners es = [] := by
  unfold acceptedOwners
  rw [List.filterMap_eq_nil_iff]
  intro e he
  have hNot := hOrdinary e he
  cases e with
  | accepted fd owner => exact hNot.elim
  | _ => rfl

/- Output is neither a call nor an accept. -/
theorem ordinary_of_outgoing
    {kind : Msg → Prop}
    (hOut : ∀ e ∈ es, e.Outgoing kind) :
    ∀ e ∈ es, e.Ordinary := by
  intro e he
  have hThis := hOut e he
  cases e with
  | called owner call reply => exact hThis
  | accepted fd owner => exact hThis
  | _ => trivial

/- The only inputs among output are the ends. -/
theorem inputsOf_of_outgoing
    {kind : Msg → Prop}
    (hOut : ∀ e ∈ es, e.Outgoing kind) :
    inputsOf es = (closedIn es).map .leave := by
  unfold inputsOf closedIn
  rw [List.map_filterMap]
  apply List.filterMap_congr
  intro e he
  have hThis := hOut e he
  cases e with
  | queued owner m => rfl
  | sent owner wire => rfl
  | closed owner why left => rfl
  | _ => exact hThis.elim

end Ordinary

theorem repliesOf_append (log more : List Obs) :
    repliesOf (log ++ more) =
      repliesOf log ++ repliesOf more :=
  List.filterMap_append

theorem tradesOf_append (replies more : List Reply) :
    tradesOf (replies ++ more) =
      tradesOf replies ++ tradesOf more := by
  induction replies with
  | nil => rfl
  | cons reply replies ih =>
      cases reply with
      | submitted id trades =>
          simp only [List.cons_append, tradesOf, ih,
            List.append_assoc]
      | cancelled result =>
          simpa only [List.cons_append, tradesOf] using ih

namespace Service

/- Parties leave, in any order. -/
theorem after_leaves
    (v : Service)
    (ks : List Int) :
    v.after (ks.map .leave) =
      { v with
        parties := v.parties.map fun p =>
          { p with gone := p.gone || decide (p.id ∈ ks) } }
    := by
  induction ks generalizing v with
  | nil =>
      have hNone :
          (fun p : Party =>
            { p with
              gone := p.gone || decide (p.id ∈ ([] :
                List Int)) }) = id := by
        funext p
        simp
      rw [hNone, List.map_id]
      rfl
  | cons k ks ih =>
      have hStep :
          v.after ((k :: ks).map .leave) =
            (v.amend k Party.departed).after
              (ks.map .leave) := rfl
      rw [hStep, ih]
      simp only [amend, List.map_map]
      congr 2
      funext p
      by_cases hEq : p.id = k
      · simp [hEq, Party.departed]
      · simp [hEq]

theorem after_append
    (v : Service)
    (inputs more : List Input) :
    v.after (inputs ++ more) =
      (v.after inputs).after more :=
  Machine.run_append _ _ _ _

/- Amending one party before or after others leave. -/
theorem amend_after_leaves
    (v : Service)
    (id : Int)
    (ks : List Int) :
    (v.after (ks.map .leave)).amend id Party.parting =
      (v.amend id Party.parting).after (ks.map .leave) := by
  rw [after_leaves, after_leaves]
  simp only [amend, List.map_map]
  congr 2
  funext p
  by_cases hEq : p.id = id
  · simp [hEq, Party.parting]
  · simp [hEq]

/- Nobody gets a letter. -/
theorem post_none (v : Service) :
    v.post (fun _ => []) = v := by
  unfold post
  simp

end Service

end SocketExchange

------------------------------------------------------------
-- Steps Of The Refinement
------------------------------------------------------------

namespace SocketExchange

namespace Server

variable {s s' : Server} {v v' : Service}
variable {fd : Fd} {c c' : Conn} {es : List Obs}

/- A step that changes each party by itself. -/
theorem Tracks.of_map
    {H : Party → Party}
    (hRef : Tracks s v)
    (hLog : s'.log = s.log ++ es)
    (hOrdinary : ∀ e ∈ es, e.Ordinary)
    (hBook : v'.book = v.book)
    (hTape : v'.tape = v.tape)
    (hParties : v'.parties = v.parties.map H)
    (hId : ∀ p, (H p).id = p.id)
    (hStands :
      ∀ p ∈ v.parties, Stands s p → Stands s' (H p)) :
    Tracks s' v' where
  book := by
    rw [hBook, hRef.book, hLog, callsOf_append,
      callsOf_of_ordinary hOrdinary, List.append_nil]
  tape := by
    rw [hTape, hRef.tape, hLog, repliesOf_append,
      repliesOf_of_ordinary hOrdinary, List.append_nil]
  ids := by
    have hIds : Party.id ∘ H = Party.id := funext hId
    rw [hParties, List.map_map, hIds, hRef.ids, hLog,
      acceptedOwners_append,
      acceptedOwners_of_ordinary hOrdinary,
      List.append_nil]
  stands := by
    rw [hParties]
    intro q hq
    rcases List.mem_map.mp hq with ⟨p, hp, rfl⟩
    exact hStands p hp (hRef.stands p hp)

/- The record of one connection is rewritten. -/
theorem Tracks.rewrite
    {g : Party → Party}
    (hReg : Registry s)
    (hRef : Tracks s v)
    (hConn : s.conns[fd]? = some c)
    (hConns : s'.conns = s.conns.insert fd c')
    (hOwner : c'.ownerId = c.ownerId)
    (hDead : c'.dead = c.dead)
    (hLog : s'.log = s.log ++ es)
    (hOrdinary : ∀ e ∈ es, e.Ordinary)
    (hNone : ∀ k, pushedTo k es = [])
    (hKeeps :
      ∀ p, (g p).id = p.id ∧ (g p).gone = p.gone ∧
        (g p).mail = p.mail)
    (hMirrors : ∀ p, Mirrors c p → Mirrors c' (g p)) :
    Tracks s' (v.amend c.ownerId g) := by
  have hPushed :
      ∀ k, pushedTo k s'.log = pushedTo k s.log := by
    intro k
    rw [hLog, pushedTo_append, hNone k, List.append_nil]
  have hBack :
      ∀ (f : Fd) (d : Conn), s'.conns[f]? = some d →
        ∃ e, s.conns[f]? = some e ∧
          d.ownerId = e.ownerId ∧
          (e.dead = true → d.dead = true) := by
    intro f d hd
    rcases conn_of_insert hConns hd with
      ⟨rfl, rfl⟩ | ⟨_, hOld⟩
    · exact ⟨c, hConn, hOwner, fun h => hDead.trans h⟩
    · exact ⟨d, hOld, rfl, id⟩
  refine hRef.of_map hLog hOrdinary rfl rfl rfl ?_ ?_
  · intro p
    split
    · exact (hKeeps p).1
    · rfl
  · intro p _ hStands
    cases hStands with
    | @here f d hHere hd hLive hP hMail =>
        by_cases hEq : f = fd
        · -- The party of the connection that is rewritten.
          subst hEq
          rw [hConn] at hd
          injection hd with hSame
          subst hSame
          rw [if_pos hP.id]
          rcases hKeeps p with ⟨hId, hGone, hLetters⟩
          refine .here (hGone.trans hHere)
            (by rw [getElem?_of_insert hConns, if_pos rfl])
            (hDead.trans hLive) (hMirrors p hP) ?_
          rw [hId, hPushed, hMail, hLetters]
        · have hNe : p.id ≠ c.ownerId := by
            rw [hP.id]
            intro hSame
            exact hEq
              (hReg.owner_unique f fd d c hd hConn hSame)
          have hd' : s'.conns[f]? = some d := by
            rw [getElem?_of_insert hConns, if_neg hEq, hd]
          rw [if_neg hNe]
          exact .here hHere hd' hLive hP
            ((hPushed p.id).trans hMail)
    | gone hGone hNo hMail =>
        split
        · rcases hKeeps p with ⟨hId, hSame, hLetters⟩
          refine .gone (hSame.trans hGone) ?_ ?_
          · rw [hId]
            exact hNo.back hBack
          · rw [hId, hPushed, hLetters]
            exact hMail
        · exact .gone hGone (hNo.back hBack)
            ((hPushed p.id).symm ▸ hMail)

/- Nothing changes but what no party is told of. -/
theorem Tracks.noted
    (hRef : Tracks s v)
    (hConns : s'.conns = s.conns)
    (hLog : s'.log = s.log ++ es)
    (hOrdinary : ∀ e ∈ es, e.Ordinary)
    (hNone : ∀ k, pushedTo k es = []) :
    Tracks s' v := by
  have hPushed :
      ∀ k, pushedTo k s'.log = pushedTo k s.log := by
    intro k
    rw [hLog, pushedTo_append, hNone k, List.append_nil]
  refine hRef.of_map hLog hOrdinary rfl rfl
    (List.map_id _).symm (fun _ => rfl) ?_
  intro p _ hStands
  cases hStands with
  | here hHere hd hLive hP hMail =>
      exact .here hHere (hConns ▸ hd) hLive hP
        ((hPushed p.id).trans hMail)
  | gone hGone hNo hMail =>
      refine .gone hGone ?_ ((hPushed p.id).symm ▸ hMail)
      intro f d hd
      exact hNo f d (hConns ▸ hd)

/-
  Letters are posted. A connection that ends of it may miss
  some, and its party leaves.
-/
theorem Tracks.posted
    {kind : Msg → Prop}
    {letters : Fd → Conn → List Msg}
    {mail : Party → List Msg}
    (hReg : Registry s)
    (hRef : Tracks s v)
    (hOut : Outputs kind s es s')
    (hPosted : Posted letters s es s')
    (hLetters :
      ∀ (f : Fd) (d : Conn) (p : Party),
        s.conns[f]? = some d → Mirrors d p →
          letters f d = mail p) :
    Tracks s'
      ((v.post mail).after
        ((closedIn es).map .leave)) := by
  rw [Service.after_leaves]
  refine hRef.of_map
    (H := fun p =>
      let q :=
        if p.gone then p
        else { p with mail := p.mail ++ mail p }
      { q with gone := q.gone || decide (q.id ∈ closedIn es) })
    hOut.log (ordinary_of_outgoing hOut.outgoing) rfl rfl
    (List.map_map ..) ?_ ?_
  · intro p
    dsimp only
    split <;> rfl
  · intro p _ hStands
    cases hStands with
    | @here f d hHere hd hLive hP hMail =>
        rcases hPosted f d hd hLive with
          ⟨d', hd', hSame, hReceived⟩
        rw [hLetters f d p hd hP, ← hP.id] at hReceived
        simp only [hHere, Bool.false_eq_true, if_false,
          Bool.false_or]
        have hAfter :
            pushedTo p.id s'.log =
              p.mail ++ pushedTo p.id es := by
          rw [hOut.log, pushedTo_append, hMail]
        generalize hEnd : d'.dead = dead at hReceived
        cases hReceived with
        | alive hAll hOpen =>
            refine .here ?_ hd' hEnd ?_ ?_
            · simpa using hOpen
            · exact { hP.of_same hSame with }
            · exact hAfter.trans (by rw [hAll])
        | ended hFirst hClosed =>
            refine .gone ?_ ?_ ?_
            · simpa using hClosed
            · -- It was the only connection of that owner.
              intro f' e he hOwner
              rcases hOut.back f' e he with ⟨b, hb, hId, _⟩
              have hFd :=
                hReg.owner_unique f' f b d hb hd
                  (hId.symm.trans (hOwner.trans hP.id))
              subst hFd
              rw [hd'] at he
              injection he with he
              rw [← he, hEnd]
            · rw [hAfter]
              exact (List.prefix_append_right_inj _).mpr
                hFirst
    | gone hGone hNo hMail =>
        have hNone : pushedTo p.id es = [] := by
          refine pushedTo_of_other ?_
          intro e he hOwner
          rcases hOut.about e he with ⟨f, d, hd, hLive, hIs⟩
          rw [hOwner] at hIs
          rw [hNo f d hd (Option.some.inj hIs).symm] at hLive
          cases hLive
        simp only [hGone, if_true]
        refine .gone ?_ (hNo.back hOut.back) ?_
        · simp
        · rw [hOut.log, pushedTo_append, hNone,
            List.append_nil]
          exact hMail

end Server

end SocketExchange

------------------------------------------------------------
-- Who Is Here
------------------------------------------------------------

namespace SocketExchange

namespace Server

variable {s s' : Server} {v : Service}
variable {fd : Fd} {c : Conn}

/- Every live connection is the connection of a party. -/
theorem Tracks.party_of
    (hReg : Registry s)
    (hHist : History s)
    (hRef : Tracks s v)
    (hConn : s.conns[fd]? = some c)
    (hLive : c.dead = false) :
    ∃ p ∈ v.parties, p.gone = false ∧ Mirrors c p := by
  have hOwner := hHist.owner_accepted hConn
  rw [← hRef.ids] at hOwner
  rcases List.mem_map.mp hOwner with ⟨p, hp, hId⟩
  cases hRef.stands p hp with
  | @here f d hHere hd _ hP _ =>
      have hFd :=
        hReg.owner_unique f fd d c hd hConn
          (hP.id.symm.trans hId)
      subst hFd
      rw [hConn] at hd
      injection hd with hSame
      subst hSame
      exact ⟨p, hp, hHere, hP⟩
  | gone _ hNo _ =>
      rw [hNo fd c hConn hId.symm] at hLive
      cases hLive

/- The service finds the party of a live connection. -/
theorem Tracks.party?_eq
    (hReg : Registry s)
    (hHist : History s)
    (hRef : Tracks s v)
    (hConn : s.conns[fd]? = some c)
    (hLive : c.dead = false) :
    ∃ p, v.party? c.ownerId = some p ∧ Mirrors c p := by
  rcases hRef.party_of hReg hHist hConn hLive with
    ⟨p, hp, hHere, hP⟩
  refine ⟨p, ?_, hP⟩
  have hNodup : (v.parties.map Party.id).Nodup := by
    rw [hRef.ids]
    exact acceptedOwners_nodup hHist.traced
  unfold Service.party?
  cases hFind :
      v.parties.find? fun p =>
        decide (p.id = c.ownerId) && !p.gone with
  | none =>
      have hNot := List.find?_eq_none.mp hFind p hp
      simp [hP.id, hHere] at hNot
  | some q =>
      have hq := List.mem_of_find?_eq_some hFind
      have hIs := List.find?_some hFind
      simp only [Bool.and_eq_true, decide_eq_true_eq] at hIs
      rw [List.inj_on_of_nodup_map hNodup hq hp
        (hIs.1.trans hP.id.symm)]

/- The names in use are those of the traders here. -/
theorem Tracks.taken_iff
    (hReg : Registry s)
    (hHist : History s)
    (hRef : Tracks s v)
    (name : Bytes) :
    v.Taken name ↔ name ∈ s.usernames := by
  constructor
  · rintro ⟨p, hp, hHere, hRole, hName⟩
    cases hRef.stands p hp with
    | here _ hd hLive hP _ =>
        rw [← hName, hP.name]
        exact hReg.name_complete _ _
          ⟨hd, hLive, hP.role.symm.trans hRole⟩
    | gone hGone _ _ =>
        rw [hHere] at hGone
        cases hGone
  · intro hName
    rcases hReg.name_sound name hName with
      ⟨f, d, hTrader, hIs⟩
    rcases hRef.party_of hReg hHist hTrader.conn
        hTrader.live with
      ⟨p, hp, hHere, hP⟩
    exact ⟨p, hp, hHere, hP.role.trans hTrader.role,
      hP.name.trans hIs⟩

/- The index finds the connections of the traders here. -/
theorem Tracks.owner_iff
    (hReg : Registry s)
    (hHist : History s)
    (hRef : Tracks s v)
    (k : Int)
    (fd : Fd) :
    s.ownerFd[k]? = some fd ↔
      ∃ c, s.conns[fd]? = some c ∧ c.dead = false ∧
        ∃ p ∈ v.parties, p.gone = false ∧
          p.role = .trader ∧ p.id = k ∧ Mirrors c p := by
  constructor
  · intro hOwner
    rcases hReg.owner_sound k fd hOwner with
      ⟨c, hTrader, hIs⟩
    rcases hRef.party_of hReg hHist hTrader.conn
        hTrader.live with
      ⟨p, hp, hHere, hP⟩
    exact ⟨c, hTrader.conn, hTrader.live, p, hp, hHere,
      hP.role.trans hTrader.role, hP.id.trans hIs, hP⟩
  · rintro ⟨c, hConn, hLive, p, _, _, hRole, hId, hP⟩
    rw [← hId, hP.id]
    exact hReg.owner_complete fd c
      ⟨hConn, hLive, hP.role.symm.trans hRole⟩

/- The exchange holds the book, as long as its ids last. -/
theorem Tracks.represents
    (hHist : History s)
    (hRef : Tracks s v)
    (hRoom : submits (callsOf s.log) < 2 ^ 32) :
    Represents s.exch v.book := by
  rw [hHist.exch, hRef.book]
  exact (represents_empty.run (hasRoom_empty hRoom)).2

theorem Tracks.refines
    (hReg : Registry s)
    (hHist : History s)
    (hRef : Tracks s v)
    (hRoom : submits (callsOf s.log) < 2 ^ 32) :
    Refines s v :=
  { hRef with
    orders := hRef.represents hHist hRoom
    names := fun name =>
      (hRef.taken_iff hReg hHist name).symm
    owners := hRef.owner_iff hReg hHist }

/-
  The exchange answers like the reference of the service, as
  long as its ids last.
-/
theorem Tracks.reply_eq
    (hHist : History s)
    (hRef : Tracks s v)
    {call : Call}
    (hRoom : submits (callsOf s.log ++ [call]) < 2 ^ 32) :
    (s.exch.step call).2 = (v.book.step call).2 := by
  have hLess :
      submits (callsOf s.log) ≤
        submits (callsOf s.log ++ [call]) := by
    rw [submits_append]
    exact Nat.le_add_right _ _
  have hAll :=
    (represents_empty.run (hasRoom_empty hRoom)).1
  have hBefore :=
    (represents_empty.run
      (hasRoom_empty (hLess.trans_lt hRoom))).1
  rw [Machine.replies_append, Machine.replies_append,
    hBefore] at hAll
  have hLast := List.append_cancel_left hAll
  rw [hHist.exch, hRef.book]
  exact (List.cons.inj hLast).1

/- A call that both answer alike. -/
theorem Tracks.called
    (hRef : Tracks s v)
    (owner : Int)
    {call : Call}
    (hReply : (s.exch.step call).2 = (v.book.step call).2) :
    Tracks (s.callExchange owner call)
      { v with
        book := (v.book.step call).1
        tape :=
          v.tape ++ tradesOf [(v.book.step call).2] } where
  book := by
    have hCalls :
        callsOf (s.callExchange owner call).log =
          callsOf s.log ++ [call] := by
      simp [callExchange, callsOf]
    rw [hCalls, Machine.final_append, ← hRef.book]
    rfl
  tape := by
    have hReplies :
        repliesOf (s.callExchange owner call).log =
          repliesOf s.log ++ [(v.book.step call).2] := by
      simp [callExchange, repliesOf, hReply]
    rw [hReplies, tradesOf_append, ← hRef.tape]
  ids := by
    rw [hRef.ids]
    simp [callExchange, acceptedOwners]
  stands := by
    intro p hp
    have hPushed :
        pushedTo p.id (s.callExchange owner call).log =
          pushedTo p.id s.log := by
      simp [callExchange, pushedTo]
    cases hRef.stands p hp with
    | here hHere hd hLive hP hMail =>
        exact .here hHere hd hLive hP
          (hPushed.trans hMail)
    | gone hGone hNo hMail =>
        exact .gone hGone hNo (hPushed.symm ▸ hMail)

end Server

end SocketExchange

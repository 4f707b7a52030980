import SocketExchange.Service.Model

/-
  What one input does to each party.

  Whatever the input, every party keeps its id, a trader
  stays a trader, whoever is gone stays gone and gets no
  more letters, and everyone else gets the letters that the
  input means for it: its own part in the new trades, the
  prints it follows, and a reply if the input asks for one.

  Main declarations:
    * `Input.asks`
    * `Service.Moved`
    * `Service.step_moved`
-/

------------------------------------------------------------
-- Kinds Of Letters
------------------------------------------------------------

namespace SocketExchange

namespace Msg

/- A report of one's own part in a trade. -/
def isFill : Msg → Bool
| .bought _ => true
| .sold _ => true
| _ => false

/- The trade of a print. -/
def print? : Msg → Option Trade
| .trade t => some t
| _ => none

/- A direct reply to a line. -/
def isReply : Msg → Bool
| .ok => true
| .error _ => true
| .orderAccepted _ => true
| .orderCancelled _ => true
| _ => false

end Msg

/- The line is neither blank nor a QUIT. -/
def asksReply (line : Bytes) : Bool :=
  match splitWs line with
  | [] => false
  | verb :: _ => decide (verb ≠ ascii "QUIT")

/- The input asks for a reply to this party. -/
def Input.asks (k : Int) : Input → Bool
| .say id line => decide (id = k) && asksReply line
| .overlong id => decide (id = k)
| _ => false

/- A trade's reports to its parties, by owner id. -/
def Trade.fillsOf (owner : Int) (t : Trade) : List Msg :=
  (if owner = t.buyerOwner then [.bought t] else []) ++
    (if owner = t.sellerOwner then [.sold t] else [])

end SocketExchange

------------------------------------------------------------
-- What Is Allowed
------------------------------------------------------------

namespace SocketExchange

/- The role a party must have for its wish. -/
def Wish.Allowed (role : Role) : Wish → Prop
| .login _ => role = .unknown
| .order _ _ _ _ => role = .trader
| .cancel _ => role = .trader
| .subscribe _ _ => role ≠ .trader
| .quit => True

namespace Service

variable {v : Service} {role : Role} {w : Wish}

theorem judgeLogin_ok
    {args : List Bytes}
    (hOk : v.judgeLogin role args = .ok w) :
    w.Allowed role ∧ w ≠ .quit := by
  unfold judgeLogin at hOk
  split at hOk
  · split at hOk
    · cases hOk
    · cases hOk
    · split at hOk
      · cases hOk
      · injection hOk with hIs
        subst hIs
        exact ⟨rfl, nofun⟩
  · cases hOk

theorem forTraders_ok
    {wish : Except String Wish}
    (hOk : forTraders role wish = .ok w) :
    role = .trader ∧ wish = .ok w := by
  unfold forTraders at hOk
  split at hOk
  · cases hOk
  · cases hOk
  · exact ⟨rfl, hOk⟩

theorem judgeOrder_ok
    {side : Side}
    {args : List Bytes}
    (hOk : judgeOrder side args = .ok w) :
    ∃ inst qty price, w = .order side inst qty price := by
  unfold judgeOrder at hOk
  split at hOk
  · split at hOk
    · cases hOk
    · split at hOk
      · cases hOk
      · split at hOk
        · cases hOk
        · injection hOk with hIs
          exact ⟨_, _, _, hIs.symm⟩
  · cases hOk

theorem judgeCancel_ok
    {args : List Bytes}
    (hOk : judgeCancel args = .ok w) :
    ∃ number, w = .cancel number := by
  unfold judgeCancel at hOk
  split at hOk
  · split at hOk
    · cases hOk
    · injection hOk with hIs
      exact ⟨_, hIs.symm⟩
  · cases hOk

theorem judgeSubscribe_ok
    {on : Bool}
    {args : List Bytes}
    (hOk : judgeSubscribe role on args = .ok w) :
    w.Allowed role ∧ w ≠ .quit := by
  unfold judgeSubscribe at hOk
  split at hOk
  · cases hOk
  · next hRole =>
      split at hOk
      · split at hOk
        · cases hOk
        · injection hOk with hIs
          subst hIs
          exact ⟨hRole, nofun⟩
      · cases hOk

/- A wish is granted to whom it is allowed. -/
theorem judge_ok
    {verb : Bytes}
    {args : List Bytes}
    (hOk : v.judge role verb args = .ok w) :
    w.Allowed role ∧ (w = .quit ↔ verb = ascii "QUIT") := by
  have hOther :
      ∀ text, verb = text → text ≠ ascii "QUIT" →
        w.Allowed role ∧ w ≠ .quit →
        w.Allowed role ∧
          (w = .quit ↔ verb = ascii "QUIT") := by
    intro text hVerb hNe hBoth
    subst hVerb
    exact ⟨hBoth.1, iff_of_false hBoth.2 hNe⟩
  have hOrder :
      ∀ side args,
        forTraders role (judgeOrder side args) = .ok w →
        w.Allowed role ∧ w ≠ .quit := by
    intro side args hThis
    rcases forTraders_ok hThis with ⟨hRole, hWish⟩
    rcases judgeOrder_ok hWish with ⟨_, _, _, rfl⟩
    exact ⟨hRole, nofun⟩
  unfold judge at hOk
  split at hOk
  · next hVerb =>
      exact hOther _ hVerb (by decide) (judgeLogin_ok hOk)
  split at hOk
  · next hVerb =>
      exact hOther _ hVerb (by decide) (hOrder _ _ hOk)
  split at hOk
  · next hVerb =>
      exact hOther _ hVerb (by decide) (hOrder _ _ hOk)
  split at hOk
  · next hVerb =>
      rcases forTraders_ok hOk with ⟨hRole, hWish⟩
      rcases judgeCancel_ok hWish with ⟨_, rfl⟩
      exact hOther _ hVerb (by decide) ⟨hRole, nofun⟩
  split at hOk
  · next hVerb =>
      exact hOther _ hVerb (by decide)
        (judgeSubscribe_ok hOk)
  split at hOk
  · next hVerb =>
      exact hOther _ hVerb (by decide)
        (judgeSubscribe_ok hOk)
  split at hOk
  · next hVerb =>
      injection hOk with hIs
      subst hIs
      exact ⟨trivial, iff_of_true rfl hVerb⟩
  · cases hOk

end Service

end SocketExchange

------------------------------------------------------------
-- The Trades Of The Reference
------------------------------------------------------------

namespace SocketExchange

namespace Reference

/-
  A submission trades with owners of resting orders only,
  and what rests afterwards rested before or is its own.
-/
theorem submit_owners
    (r : Reference)
    (side : Side)
    (inst : Fin 2)
    (qty price : UInt32)
    (owner : Int) :
    let known := fun k =>
      k = owner ∨ ∃ o ∈ r.resting, o.owner = k
    (∀ t ∈ (r.submit side inst qty price owner []).2.2,
      known t.buyerOwner ∧ known t.sellerOwner) ∧
    (∀ o ∈ (r.submit side inst qty price owner
        []).1.resting, known o.owner) := by
  intro known
  have hLoop :
      let m :=
        matchLoop side inst price owner
          { remaining := qty
            resting := r.resting
            out := [] }
      (∀ t ∈ m.out,
        known t.buyerOwner ∧ known t.sellerOwner) ∧
      (∀ o ∈ m.resting, known o.owner) := by
    refine Loop.iterate_inv
      (fun m : MatchState =>
        (∀ t ∈ m.out,
          known t.buyerOwner ∧ known t.sellerOwner) ∧
        (∀ o ∈ m.resting, known o.owner)) ?_ _ ?_
    · intro m m' hInv hStep
      rcases hInv with ⟨hOut, hResting⟩
      rcases matchStep_cases hStep with
        ⟨_, before, other, after, hSplit, _, _, _, hTrades,
          hNext⟩
      have hOther : known other.owner :=
        hResting other (by rw [hSplit]; simp)
      have hBefore : ∀ o ∈ before, known o.owner := by
        intro o ho
        exact hResting o (by rw [hSplit]; simp [ho])
      have hAfter : ∀ o ∈ after, known o.owner := by
        intro o ho
        exact hResting o (by rw [hSplit]; simp [ho])
      constructor
      · rw [hTrades]
        intro t ht
        rcases List.mem_append.mp ht with hOld | hNew
        · exact hOut t hOld
        · rw [List.mem_singleton.mp hNew]
          cases side with
          | buy => exact ⟨Or.inl rfl, hOther⟩
          | sell => exact ⟨hOther, Or.inl rfl⟩
      · rcases hNext with ⟨_, hRest⟩ | ⟨_, hRest⟩
        · rw [hRest]
          exact List.forall_mem_append.mpr
            ⟨hBefore, hAfter⟩
        · rw [hRest]
          exact List.forall_mem_append.mpr
            ⟨hBefore, List.forall_mem_cons.mpr
              ⟨hOther, hAfter⟩⟩
    · exact ⟨List.forall_mem_nil _,
        fun o ho => Or.inr ⟨o, ho, rfl⟩⟩
  refine ⟨hLoop.1, ?_⟩
  unfold submit
  dsimp only
  split
  · exact List.forall_mem_append.mpr
      ⟨hLoop.2, List.forall_mem_singleton.mpr
        (Or.inl rfl)⟩
  · exact hLoop.2

/- A cancellation adds nothing to what rests. -/
theorem cancel_resting_subset
    (r : Reference)
    (id : UInt32)
    (owner : Int) :
    ∀ o ∈ (r.cancel id owner).1.resting, o ∈ r.resting := by
  unfold cancel
  split
  · exact fun _ ho => ho
  · split
    · exact fun _ ho => ho
    · intro o ho
      exact List.mem_of_mem_eraseP ho

end Reference

end SocketExchange

------------------------------------------------------------
-- What One Input Does
------------------------------------------------------------

namespace SocketExchange

/- A party gets letters, unless it is gone. -/
def Party.receive (ms : List Msg) (p : Party) : Party :=
  if p.gone then p else { p with mail := p.mail ++ ms }

/-
  What an input that makes these trades does to a party. Of
  its letters the fills are its own, the prints are those it
  follows, and there is one reply if it asked for one.
-/
structure Party.Moves
    (i : Input)
    (trades : List Trade)
    (p q : Party) : Prop where
  id : q.id = p.id
  trader : p.role = .trader → q.role = .trader
  gone : p.gone = true → q.gone = true ∧ q.mail = p.mail
  here :
    p.gone = false →
      ∃ ms, q.mail = p.mail ++ ms ∧
        ms.filter Msg.isFill = trades.flatMap p.fills ∧
        ms.filterMap Msg.print? =
          trades.filter (fun t => p.follows t.inst) ∧
        ms.countP Msg.isReply =
          if i.asks p.id then 1 else 0

namespace Service

/- A trader, or someone whose order rests. -/
def Known (v : Service) (k : Int) : Prop :=
  (∃ p ∈ v.parties, p.role = .trader ∧ p.id = k) ∨
    ∃ o ∈ v.book.resting, o.owner = k

/- What an input other than a join does to the service. -/
structure Moved
    (v : Service)
    (i : Input)
    (v' : Service)
    (trades : List Trade)
    (H : Party → Party) : Prop where
  parties : v'.parties = v.parties.map H
  tape : v'.tape = v.tape ++ trades
  known :
    ∀ t ∈ trades,
      v.Known t.buyerOwner ∧ v.Known t.sellerOwner
  resting : ∀ o ∈ v'.book.resting, v.Known o.owner
  each : ∀ p ∈ v.parties, p.Moves i trades (H p)

end Service

section Letters

variable {m : Msg} {p q : Party} {i : Input}
variable {trades : List Trade} {ms : List Msg}

theorem Msg.isReply_only
    (hReply : m.isReply = true) :
    m.isFill = false ∧ m.print? = none := by
  cases m <;> first | exact ⟨rfl, rfl⟩ | cases hReply

/- A reply to some is nothing but a reply, to them. -/
theorem only_reply
    (hReply : m.isReply = true)
    (P : Prop)
    [Decidable P] :
    (if P then [m] else []).filter Msg.isFill = [] ∧
      (if P then [m] else []).filterMap Msg.print? = [] ∧
      (if P then [m] else []).countP Msg.isReply =
        if P then 1 else 0 := by
  rcases Msg.isReply_only hReply with ⟨hFill, hPrint⟩
  split
  · simp [hFill, hPrint, hReply]
  · simp

/- The letters of a trade, by kind. -/
theorem Party.letters_kinds (p : Party) (t : Trade) :
    (p.letters t).filter Msg.isFill = p.fills t ∧
      (p.letters t).filterMap Msg.print? =
        [t].filter (fun t => p.follows t.inst) ∧
      (p.letters t).countP Msg.isReply = 0 := by
  have hFills :
      (p.fills t).filter Msg.isFill = p.fills t ∧
        (p.fills t).filterMap Msg.print? = [] ∧
        (p.fills t).countP Msg.isReply = 0 := by
    unfold Party.fills
    split <;> split <;>
      simp [Msg.isFill, Msg.print?, Msg.isReply]
  rcases hFills with ⟨hFill, hPrint, hReply⟩
  unfold Party.letters
  cases hFollows : p.follows t.inst with
  | true =>
      simp [hFill, hPrint, hReply, hFollows, Msg.isFill,
        Msg.print?, Msg.isReply]
  | false => simp [hFill, hPrint, hReply, hFollows]

theorem Party.letters_all
    (p : Party)
    (trades : List Trade) :
    (trades.flatMap p.letters).filter Msg.isFill =
        trades.flatMap p.fills ∧
      (trades.flatMap p.letters).filterMap Msg.print? =
        trades.filter (fun t => p.follows t.inst) ∧
      (trades.flatMap p.letters).countP Msg.isReply = 0 := by
  induction trades with
  | nil => exact ⟨rfl, rfl, rfl⟩
  | cons t trades ih =>
      rcases p.letters_kinds t with
        ⟨hFill, hPrint, hReply⟩
      rcases ih with ⟨hFills, hPrints, hReplies⟩
      simp only [List.flatMap_cons, List.filter_append,
        List.filterMap_append, List.countP_append]
      refine ⟨by rw [hFill, hFills], ?_,
        by rw [hReply, hReplies]⟩
      rw [hPrint, hPrints, ← List.filter_append,
        List.singleton_append]

/- The letters of an order, by kind. -/
theorem Party.orderLetters_kinds
    (p : Party)
    (sender : Int)
    (number : UInt32)
    (trades : List Trade) :
    let ms := p.orderLetters sender number trades
    ms.filter Msg.isFill = trades.flatMap p.fills ∧
      ms.filterMap Msg.print? =
        trades.filter (fun t => p.follows t.inst) ∧
      ms.countP Msg.isReply =
        if p.id = sender then 1 else 0 := by
  intro ms
  have hReply : (Msg.orderAccepted number).isReply = true :=
    rfl
  rcases only_reply hReply (p.id = sender) with
    ⟨hFill, hPrint, hCount⟩
  rcases p.letters_all trades with
    ⟨hFills, hPrints, hReplies⟩
  simp only [ms, Party.orderLetters, List.filter_append,
    List.filterMap_append, List.countP_append, hFill, hPrint,
    hCount, hFills, hPrints, hReplies, List.nil_append,
    Nat.add_zero, and_self]

/- A party whose record changes and who gets letters. -/
theorem Party.Moves.receive
    {r : Party}
    (hId : r.id = p.id)
    (hTrader : p.role = .trader → r.role = .trader)
    (hGone : r.gone = p.gone)
    (hMail : r.mail = p.mail)
    (hFills :
      ms.filter Msg.isFill = trades.flatMap p.fills)
    (hPrints :
      ms.filterMap Msg.print? =
        trades.filter (fun t => p.follows t.inst))
    (hReplies :
      ms.countP Msg.isReply =
        if i.asks p.id then 1 else 0) :
    p.Moves i trades (r.receive ms) where
  id := by
    unfold Party.receive
    split
    · exact hId
    · exact hId
  trader := by
    unfold Party.receive
    intro hRole
    split
    · exact hTrader hRole
    · exact hTrader hRole
  gone := by
    intro hIs
    have hThis : r.gone = true := hGone.trans hIs
    unfold Party.receive
    rw [if_pos hThis]
    exact ⟨hThis, hMail⟩
  here := by
    intro hIs
    have hThis : ¬ r.gone = true := by
      rw [hGone, hIs]
      exact nofun
    unfold Party.receive
    rw [if_neg hThis]
    exact ⟨ms, by rw [hMail], hFills, hPrints, hReplies⟩

/- A party to whom no letter is sent. -/
theorem Party.Moves.quiet
    (hId : q.id = p.id)
    (hTrader : p.role = .trader → q.role = .trader)
    (hGone : p.gone = true → q.gone = true)
    (hMail : q.mail = p.mail)
    (hAsks : p.gone = false → i.asks p.id = false) :
    p.Moves i [] q where
  id := hId
  trader := hTrader
  gone := fun h => ⟨hGone h, hMail⟩
  here := fun h =>
    ⟨[], by rw [hMail, List.append_nil], rfl, rfl,
      by rw [hAsks h]; rfl⟩

end Letters

end SocketExchange

------------------------------------------------------------
-- Every Input
------------------------------------------------------------

namespace SocketExchange

namespace Service

variable {v : Service} {id : Int} {p : Party}
variable {role : Role} {verb : Bytes} {args : List Bytes}

/- The party that is found is here, and has this id. -/
theorem party?_some
    (hFind : v.party? id = some p) :
    p ∈ v.parties ∧ p.id = id ∧ p.gone = false := by
  have hIs := List.find?_some hFind
  simp only [Bool.and_eq_true, decide_eq_true_eq,
    Bool.not_eq_true'] at hIs
  exact ⟨List.mem_of_find?_eq_some hFind, hIs⟩

/- Nobody here has an id that is not found. -/
theorem party?_none
    (hFind : v.party? id = none)
    (hp : p ∈ v.parties)
    (hHere : p.gone = false) :
    p.id ≠ id := by
  intro hId
  have hNot := List.find?_eq_none.mp hFind p hp
  simp [hId, hHere] at hNot

/- A QUIT is never refused. -/
theorem judge_error
    {reason : String}
    (hError : v.judge role verb args = .error reason) :
    verb ≠ ascii "QUIT" := by
  rintro rfl
  have hOk :
      v.judge role (ascii "QUIT") args = .ok .quit := by
    unfold judge
    rw [if_neg (by decide), if_neg (by decide),
      if_neg (by decide), if_neg (by decide),
      if_neg (by decide), if_neg (by decide), if_pos rfl]
  rw [hOk] at hError
  cases hError

theorem cancelReply_isReply
    (number : UInt32)
    (result : Except String Unit) :
    (cancelReply number result).isReply = true := by
  cases result <;> rfl

/- Nothing is traded, and the book rests. -/
theorem Moved.still
    {i : Input}
    {v' : Service}
    {H : Party → Party}
    (hParties : v'.parties = v.parties.map H)
    (hTape : v'.tape = v.tape)
    (hBook : ∀ o ∈ v'.book.resting, o ∈ v.book.resting)
    (hEach : ∀ p ∈ v.parties, p.Moves i [] (H p)) :
    v.Moved i v' [] H where
  parties := hParties
  tape := by rw [hTape, List.append_nil]
  known := List.forall_mem_nil _
  resting := fun o ho => Or.inr ⟨o, hBook o ho, rfl⟩
  each := hEach

/- A reply to the party that said the line. -/
theorem answer_moved
    {line : Bytes}
    {m : Msg}
    (hReply : m.isReply = true)
    (hAsks : asksReply line = true) :
    v.Moved (.say id line) (v.answer id m) []
      (fun p =>
        p.receive (if p.id = id then [m] else [])) := by
  refine .still rfl rfl (fun _ ho => ho) ?_
  intro p _
  rcases only_reply hReply (p.id = id) with
    ⟨hFill, hPrint, hCount⟩
  refine .receive rfl (fun h => h) rfl rfl hFill hPrint ?_
  rw [hCount]
  simp [Input.asks, hAsks, eq_comm]

/- A reply to a party whose record changes. -/
theorem amend_answer_moved
    {line : Bytes}
    {m : Msg}
    {g : Party → Party}
    (hReply : m.isReply = true)
    (hAsks : asksReply line = true)
    (hKeeps :
      ∀ p, (g p).id = p.id ∧ (g p).gone = p.gone ∧
        (g p).mail = p.mail)
    (hTrader :
      ∀ p ∈ v.parties, p.id = id → p.role = .trader →
        (g p).role = .trader) :
    v.Moved (.say id line) ((v.amend id g).answer id m) []
      (fun p =>
        let q := if p.id = id then g p else p
        q.receive (if q.id = id then [m] else [])) := by
  refine .still (List.map_map ..) rfl (fun _ ho => ho) ?_
  intro p hp
  have hSame :
      (if p.id = id then g p else p).id = p.id ∧
        (if p.id = id then g p else p).gone = p.gone ∧
        (if p.id = id then g p else p).mail = p.mail := by
    split
    · exact hKeeps p
    · exact ⟨rfl, rfl, rfl⟩
  have hRole :
      p.role = .trader →
        (if p.id = id then g p else p).role = .trader := by
    intro hRole
    split
    · next hId => exact hTrader p hp hId hRole
    · exact hRole
  rcases hSame with ⟨hId, hGone, hMail⟩
  dsimp only
  rw [hId]
  rcases only_reply hReply (p.id = id) with
    ⟨hFill, hPrint, hCount⟩
  refine .receive hId hRole hGone hMail hFill hPrint ?_
  rw [hCount]
  simp [Input.asks, hAsks, eq_comm]

/- An order, and the letters about it. -/
theorem order_moved
    {line : Bytes}
    {p₀ : Party}
    (hAsks : asksReply line = true)
    (hFind : v.party? id = some p₀)
    (hRole : p₀.role = .trader)
    (side : Side)
    (inst : Fin 2)
    (qty price : UInt32) :
    ∃ trades H,
      v.Moved (.say id line)
        (v.grant id (.order side inst qty price)) trades
        H := by
  rcases party?_some hFind with ⟨hp, hId, _⟩
  rcases v.book.submit_owners side inst qty price id with
    ⟨hTrades, hResting⟩
  -- The sender is a trader, and all others have orders.
  have hKnown :
      ∀ k, (k = id ∨ ∃ o ∈ v.book.resting, o.owner = k) →
        v.Known k := by
    rintro k (rfl | hOrder)
    · exact Or.inl ⟨p₀, hp, hRole, hId⟩
    · exact Or.inr hOrder
  refine
    ⟨(v.book.submit side inst qty price id []).2.2,
      fun p =>
        p.receive
          (p.orderLetters id
            (v.book.submit side inst qty price id []).2.1
            (v.book.submit side inst qty price id []).2.2),
      ?_⟩
  refine
    { parties := rfl
      tape := rfl
      known := ?_
      resting := fun o ho => hKnown _ (hResting o ho)
      each := ?_ }
  · intro t ht
    rcases hTrades t ht with ⟨hBuyer, hSeller⟩
    exact ⟨hKnown _ hBuyer, hKnown _ hSeller⟩
  · intro p _
    rcases p.orderLetters_kinds id
        (v.book.submit side inst qty price id []).2.1
        (v.book.submit side inst qty price id []).2.2
      with ⟨hFill, hPrint, hCount⟩
    refine .receive rfl (fun h => h) rfl rfl hFill hPrint ?_
    rw [hCount]
    simp [Input.asks, hAsks, eq_comm]

theorem cancel_moved
    {line : Bytes}
    (hAsks : asksReply line = true)
    (number : UInt32) :
    ∃ H,
      v.Moved (.say id line)
        (v.grant id (.cancel number)) [] H := by
  refine ⟨_, .still rfl rfl
    (v.book.cancel_resting_subset number id) ?_⟩
  intro p _
  have hReply :=
    cancelReply_isReply number (v.book.cancel number id).2
  rcases only_reply hReply (p.id = id) with
    ⟨hFill, hPrint, hCount⟩
  refine .receive rfl (fun h => h) rfl rfl hFill hPrint ?_
  rw [hCount]
  simp [Input.asks, hAsks, eq_comm]

/- A party that is marked or leaves gets no letter. -/
theorem amend_moved
    {i : Input}
    {g : Party → Party}
    (hKeeps :
      ∀ p, (g p).id = p.id ∧ (g p).role = p.role ∧
        (p.gone = true → (g p).gone = true) ∧
        (g p).mail = p.mail)
    (hAsks : ∀ k, i.asks k = false) :
    v.Moved i (v.amend id g) []
      (fun p => if p.id = id then g p else p) := by
  refine .still rfl rfl (fun _ ho => ho) ?_
  intro p _
  rcases hKeeps p with ⟨hId, hRole, hGone, hMail⟩
  split
  · exact .quiet hId (fun h => hRole.trans h) hGone hMail
      (fun _ => hAsks _)
  · exact .quiet rfl (fun h => h) (fun h => h) rfl
      (fun _ => hAsks _)

/- A line that no party says, or that says nothing. -/
theorem idle_moved
    {i : Input}
    (hAsks :
      ∀ p ∈ v.parties, p.gone = false →
        i.asks p.id = false) :
    v.Moved i v [] (fun p => p) := by
  refine .still (List.map_id _).symm rfl (fun _ ho => ho) ?_
  intro p hp
  exact .quiet rfl (fun h => h) (fun h => h) rfl
    (hAsks p hp)

/- A line that is too long is refused, and marks a party. -/
theorem overlong_moved (k : Int) :
    v.Moved (.overlong k)
      ((v.answer k (.error "line too long")).amend k
        Party.parting) []
      (fun p =>
        let q :=
          p.receive
            (if p.id = k then [.error "line too long"]
              else [])
        if q.id = k then q.parting else q) := by
  refine .still (List.map_map ..) rfl (fun _ ho => ho) ?_
  intro p _
  have hReply :
      (Msg.error "line too long").isReply = true := rfl
  rcases only_reply hReply (p.id = k) with
    ⟨hFill, hPrint, hCount⟩
  have hMoves :
      p.Moves (.overlong k) []
        (p.receive
          (if p.id = k then [.error "line too long"]
            else [])) := by
    refine .receive rfl (fun h => h) rfl rfl hFill hPrint ?_
    rw [hCount]
    simp [Input.asks, eq_comm]
  dsimp only
  generalize p.receive _ = q at hMoves ⊢
  split
  · exact { hMoves with }
  · exact hMoves

/- What a granted wish does. -/
theorem grant_moved
    {line : Bytes}
    {w : Wish}
    (hNodup : (v.parties.map Party.id).Nodup)
    (hFind : v.party? id = some p)
    (hAllowed : w.Allowed p.role)
    (hAsks : asksReply line = true ↔ w ≠ .quit) :
    ∃ trades H,
      v.Moved (.say id line) (v.grant id w) trades H := by
  rcases party?_some hFind with ⟨hp, hId, _⟩
  cases w with
  | login name =>
      exact ⟨[], _, amend_answer_moved rfl
        (hAsks.mpr nofun) (fun _ => ⟨rfl, rfl, rfl⟩)
        (fun _ _ _ _ => rfl)⟩
  | order side inst qty price =>
      exact order_moved (hAsks.mpr nofun) hFind hAllowed
        side inst qty price
  | cancel number =>
      have hCancelled :
          ∃ H,
            v.Moved (.say id line)
              (v.grant id (.cancel number)) [] H :=
        cancel_moved (hAsks.mpr nofun) number
      exact ⟨[], hCancelled⟩
  | subscribe inst on =>
      refine ⟨[], _, amend_answer_moved rfl
        (hAsks.mpr nofun) (fun _ => ⟨rfl, rfl, rfl⟩) ?_⟩
      -- Whoever may subscribe is no trader.
      intro q hq hSame hRole
      have hEq : q = p :=
        List.inj_on_of_nodup_map hNodup hq hp
          (hSame.trans hId.symm)
      rw [hEq] at hRole
      exact absurd hRole hAllowed
  | quit =>
      refine ⟨[], _, amend_moved
        (fun _ => ⟨rfl, rfl, fun h => h, rfl⟩) ?_⟩
      intro k
      have hNot : asksReply line = false := by
        rw [Bool.eq_false_iff]
        intro h
        exact hAsks.mp h rfl
      simp [Input.asks, hNot]

/- Every input but a join moves the parties one by one. -/
theorem step_moved
    {i : Input}
    (hNodup : (v.parties.map Party.id).Nodup)
    (hJoin : ∀ k, i ≠ .join k) :
    ∃ trades H, v.Moved i (v.step i) trades H := by
  cases i with
  | join k => exact absurd rfl (hJoin k)
  | leave k =>
      exact ⟨[], _, amend_moved
        (fun _ => ⟨rfl, rfl, fun _ => rfl, rfl⟩)
        (fun _ => rfl)⟩
  | overlong k => exact ⟨[], _, overlong_moved k⟩
  | say k line =>
      cases hFind : v.party? k with
      | none =>
          have hStep : v.step (.say k line) = v := by
            simp only [step, hFind]
          rw [hStep]
          refine ⟨[], _, idle_moved ?_⟩
          intro p hp hHere
          have hNe : k ≠ p.id :=
            (party?_none hFind hp hHere).symm
          simp [Input.asks, hNe]
      | some p =>
          have hStep :
              v.step (.say k line) =
                v.settle k p.role (splitWs line) := by
            simp only [step, hFind]
          rw [hStep]
          cases hFields : splitWs line with
          | nil =>
              refine ⟨[], _, idle_moved ?_⟩
              intro q _ _
              simp [Input.asks, asksReply, hFields]
          | cons verb args =>
              have hAsks :
                  asksReply line = true ↔
                    verb ≠ ascii "QUIT" := by
                simp [asksReply, hFields]
              have hSettle :
                  v.settle k p.role (verb :: args) =
                    v.respond k
                      (v.judge p.role verb args) := rfl
              rw [hSettle]
              cases hJudge : v.judge p.role verb args with
              | error reason =>
                  exact ⟨[], _, answer_moved rfl
                    (hAsks.mpr (judge_error hJudge))⟩
              | ok w =>
                  rcases judge_ok hJudge with
                    ⟨hAllowed, hQuit⟩
                  exact grant_moved hNodup hFind hAllowed
                    (hAsks.trans (not_congr hQuit.symm))

end Service

end SocketExchange

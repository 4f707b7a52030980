import SocketExchange.Book.Reference
import SocketExchange.Server.Local

/-
  What the exchange server is for, without sockets.

  The service has one list of resting orders and one letter
  box for each party. It takes one input at a time: a party
  joins, says a line, says a line that is too long, or
  leaves. A letter is in its box as soon as it is posted, and
  nothing is ever lost on the way. There are no descriptors,
  no buffers, no partial sends and no teardown.

  Key definitions include:
    * `Party`, `Service`
    * `Service.judge`, `Service.grant`
    * `Service.step`, `Service.after`
    * `inputsOf`
-/

------------------------------------------------------------
-- Parties
------------------------------------------------------------

namespace SocketExchange

/-
  A party: what it may do, whether it is about to leave or
  gone, and every letter it was sent.
-/
structure Party where
  id : Int
  role : Role
  name : Bytes
  subs : Fin 2 → Bool
  leaving : Bool
  gone : Bool
  mail : List Msg

namespace Party

/- A party that has just joined. -/
def fresh (id : Int) : Party where
  id := id
  role := .unknown
  name := []
  subs := fun _ => false
  leaving := false
  gone := false
  mail := []

/- The reports a party gets of its own part in a trade. -/
def fills (p : Party) (t : Trade) : List Msg :=
  (if p.role = .trader ∧ p.id = t.buyerOwner then
      [.bought t] else []) ++
    (if p.role = .trader ∧ p.id = t.sellerOwner then
      [.sold t] else [])

/- The party follows the trades in this instrument. -/
def follows (p : Party) (inst : Fin 2) : Bool :=
  decide
    (p.role = .marketData ∧ p.subs inst = true ∧
      p.leaving = false)

/- The letters that a trade means for a party. -/
def letters (p : Party) (t : Trade) : List Msg :=
  p.fills t ++ (if p.follows t.inst then [.trade t] else [])

end Party

end SocketExchange

------------------------------------------------------------
-- The Service
------------------------------------------------------------

namespace SocketExchange

/-
  The book, everyone who ever joined, and the tape of all
  trades.
-/
structure Service where
  book : Reference
  parties : List Party
  tape : List Trade

/- What a line can want. -/
inductive Wish where
| login : Bytes → Wish
| order : Side → Fin 2 → UInt32 → UInt32 → Wish
| cancel : UInt32 → Wish
| subscribe : Fin 2 → Bool → Wish
| quit : Wish

/- What happens to the service. -/
inductive Input where
| join : Int → Input
| say : Int → Bytes → Input
| overlong : Int → Input
| leave : Int → Input
deriving DecidableEq

namespace Service

def start : Service where
  book := Reference.empty
  parties := []
  tape := []

/- Change the record of one party. -/
def amend
    (v : Service)
    (id : Int)
    (f : Party → Party) : Service :=
  { v with
    parties := v.parties.map fun p =>
      if p.id = id then f p else p }

/- Post letters to all who are not gone. -/
def post
    (v : Service)
    (letters : Party → List Msg) : Service :=
  { v with
    parties := v.parties.map fun p =>
      if p.gone then p
      else { p with mail := p.mail ++ letters p } }

/- Post one letter to one party. -/
def answer (v : Service) (id : Int) (m : Msg) : Service :=
  v.post fun p => if p.id = id then [m] else []

/- A trader who is not gone has this name. -/
def Taken (v : Service) (name : Bytes) : Prop :=
  ∃ p ∈ v.parties,
    p.gone = false ∧ p.role = .trader ∧ p.name = name

instance (v : Service) (name : Bytes) :
    Decidable (v.Taken name) := by
  unfold Taken
  infer_instance

end Service

end SocketExchange

------------------------------------------------------------
-- Judging A Line
------------------------------------------------------------

namespace SocketExchange

namespace Service

/- Only a party without a role can become a trader. -/
def judgeLogin
    (v : Service)
    (role : Role) :
    List Bytes → Except String Wish
| [name] =>
    match role with
    | .marketData =>
        .error "not permitted for this client type"
    | .trader => .error "already logged in"
    | .unknown =>
        if v.Taken name then .error "duplicate username"
        else .ok (.login name)
| _ => .error "bad arguments"

/- What only traders may ask for. -/
def forTraders
    (role : Role)
    (wish : Except String Wish) : Except String Wish :=
  match role with
  | .marketData =>
      .error "not permitted for this client type"
  | .unknown => .error "not logged in"
  | .trader => wish

def judgeOrder
    (side : Side) :
    List Bytes → Except String Wish
| [name, quantity, level] =>
    match instrumentIndex name with
    | none => .error "unknown instrument"
    | some inst =>
        match parseU32 quantity kMinValue kMaxValue with
        | none => .error "bad quantity"
        | some qty =>
            match parseU32 level kMinValue kMaxValue with
            | none => .error "bad price"
            | some price => .ok (.order side inst qty price)
| _ => .error "bad arguments"

def judgeCancel : List Bytes → Except String Wish
| [text] =>
    match parseU32 text 0 kMaxOrderId with
    | none => .error "bad order id"
    | some id => .ok (.cancel id)
| _ => .error "bad arguments"

/- Traders may not listen in on the market. -/
def judgeSubscribe
    (role : Role)
    (on : Bool)
    (args : List Bytes) : Except String Wish :=
  if role = .trader then
    .error "not permitted for this client type"
  else
    match args with
    | [name] =>
        match instrumentIndex name with
        | none => .error "unknown instrument"
        | some inst => .ok (.subscribe inst on)
    | _ => .error "bad arguments"

/- A line is refused for a reason, or its wish is granted. -/
def judge
    (v : Service)
    (role : Role)
    (verb : Bytes)
    (args : List Bytes) : Except String Wish :=
  if verb = ascii "LOGIN" then v.judgeLogin role args
  else if verb = ascii "BUY" then
    forTraders role (judgeOrder .buy args)
  else if verb = ascii "SELL" then
    forTraders role (judgeOrder .sell args)
  else if verb = ascii "CANCEL" then
    forTraders role (judgeCancel args)
  else if verb = ascii "SUBSCRIBE" then
    judgeSubscribe role true args
  else if verb = ascii "UNSUBSCRIBE" then
    judgeSubscribe role false args
  else if verb = ascii "QUIT" then .ok .quit
  else .error "unknown command"

end Service

end SocketExchange

------------------------------------------------------------
-- Granting A Wish
------------------------------------------------------------

namespace SocketExchange

/- A party becomes a trader with this name. -/
def Party.enrolled (name : Bytes) (p : Party) : Party :=
  { p with role := .trader, name := name }

/- A party turns the feed of an instrument on or off. -/
def Party.listening
    (inst : Fin 2)
    (on : Bool)
    (p : Party) : Party :=
  { p with
    role := .marketData
    subs := Function.update p.subs inst on }

/- A party has said that it will leave. -/
def Party.parting (p : Party) : Party :=
  { p with leaving := true }

/- A party has left. -/
def Party.departed (p : Party) : Party :=
  { p with gone := true }

/-
  The letters of an accepted order: the acceptance to the
  party that sent it, and what each trade means for each.
-/
def Party.orderLetters
    (sender : Int)
    (number : UInt32)
    (trades : List Trade)
    (p : Party) : List Msg :=
  (if p.id = sender then [.orderAccepted number] else []) ++
    trades.flatMap p.letters

namespace Service

/- The reply to a cancellation. -/
def cancelReply
    (number : UInt32) :
    Except String Unit → Msg
| .ok _ => .orderCancelled number
| .error reason => .error reason

def grant (v : Service) (id : Int) : Wish → Service
| .login name =>
    (v.amend id (Party.enrolled name)).answer id .ok
| .order side inst qty price =>
    let r := v.book.submit side inst qty price id []
    { v with book := r.1, tape := v.tape ++ r.2.2 }.post
      (Party.orderLetters id r.2.1 r.2.2)
| .cancel number =>
    let r := v.book.cancel number id
    { v with book := r.1 }.answer id
      (cancelReply number r.2)
| .subscribe inst on =>
    (v.amend id (Party.listening inst on)).answer id .ok
| .quit => v.amend id Party.parting

/- A refusal is answered, a wish is granted. -/
def respond
    (v : Service)
    (id : Int) :
    Except String Wish → Service
| .error reason => v.answer id (.error reason)
| .ok wish => v.grant id wish

/- The fields of a line of a party with this role. -/
def settle
    (v : Service)
    (id : Int)
    (role : Role) :
    List Bytes → Service
| [] => v
| verb :: args => v.respond id (v.judge role verb args)

/- The party with this id, unless it is gone. -/
def party? (v : Service) (id : Int) : Option Party :=
  v.parties.find? fun p => decide (p.id = id) && !p.gone

/-
  One input. A line that is too long is refused, and whoever
  said it is about to leave.
-/
def step (v : Service) : Input → Service
| .join id =>
    { v with parties := v.parties ++ [Party.fresh id] }
| .say id line =>
    match v.party? id with
    | none => v
    | some p => v.settle id p.role (splitWs line)
| .overlong id =>
    (v.answer id (.error "line too long")).amend id
      Party.parting
| .leave id => v.amend id Party.departed

/- The service after some inputs. -/
def after (v : Service) (inputs : List Input) : Service :=
  Machine.run step v inputs

end Service

end SocketExchange

------------------------------------------------------------
-- The Inputs Of A Run
------------------------------------------------------------

namespace SocketExchange

/-
  What an entry of a server's history means to the service.
-/
def Obs.input? : Obs → Option Input
| .accepted _ owner => some (.join owner)
| .line owner text => some (.say owner text)
| .overlong owner => some (.overlong owner)
| .closed owner _ _ => some (.leave owner)
| _ => none

/- The inputs of a run, in order. -/
def inputsOf (log : List Obs) : List Input :=
  log.filterMap Obs.input?

theorem inputsOf_append (log more : List Obs) :
    inputsOf (log ++ more) =
      inputsOf log ++ inputsOf more :=
  List.filterMap_append

end SocketExchange

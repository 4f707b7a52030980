import SocketExchange.System.Network

/-
  A trader's books, kept by reading the screen.

  The lines that the client of a trader printed say what was
  executed for it. Someone who reads nothing else, and knows
  what was ordered and cancelled, knows what still rests in
  the book of the exchange.

  Main declarations:
    * `readQty`, `screenQty`
    * `Server.Reachable.readQty_line`
    * `Network.screen_reconciles`
-/

------------------------------------------------------------
-- Reading A Line
------------------------------------------------------------

namespace SocketExchange

/- The first word of a report on one side. -/
def fillVerb : Side → Bytes
| .buy => ascii "BOUGHT"
| .sell => ascii "SOLD"

/- The quantity that a line reports for an account. -/
def readQty (a : Account) (line : Bytes) : Nat :=
  match splitWs line with
  | [verb, name, quantity, level] =>
      if verb = fillVerb a.side ∧
          instrumentIndex name = some a.inst ∧
          parseU32 level kMinValue kMaxValue =
            some a.price then
        match parseU32 quantity kMinValue kMaxValue with
        | some qty => qty.toNat
        | none => 0
      else 0
  | _ => 0

/- The quantity that a screen reports for an account. -/
def screenQty (a : Account) (lines : List Bytes) : Nat :=
  (lines.map (readQty a)).sum

/- A line with another first word reports nothing. -/
theorem readQty_of_head
    {a : Account}
    {line verb : Bytes}
    (hHead : (splitWs line).head? = some verb)
    (hOther : verb ≠ fillVerb a.side) :
    readQty a line = 0 := by
  unfold readQty
  split
  · next v name quantity level hFields =>
      rw [hFields] at hHead
      injection hHead with hVerb
      rw [if_neg]
      rintro ⟨hIs, _⟩
      exact hOther (hVerb.symm.trans hIs)
  · rfl

/- A report reads as the quantity of its trade. -/
theorem readQty_of_report
    {a : Account}
    {line : Bytes}
    {t : Trade}
    (hHead : (splitWs line).head? = some (fillVerb a.side))
    (hReads : ReadsAs line t) :
    readQty a line =
      if t.inst = a.inst ∧ t.price = a.price then
        t.qty.toNat
      else 0 := by
  rcases hReads with
    ⟨verb, name, quantity, level, hFields, hInst, hQty,
      hPrice⟩
  rw [hFields] at hHead
  injection hHead with hVerb
  unfold readQty
  rw [hFields]
  simp only [hVerb, hInst, hPrice, hQty, true_and,
    Option.some.injEq]

namespace Server

variable {s : Server} {owner : Int}

/- The line of a message reports what the message does. -/
theorem Reachable.readQty_line
    (hReach : Reachable s)
    (a : Account)
    {m : Msg}
    (hQueued : m ∈ pushedTo owner s.log) :
    readQty a m.line = reportedBy a m := by
  have hHead := Msg.head_splitWs_line m
  have hOther :
      ∀ side, ∀ verb ∈ ["OK", "ERROR", "ORDER_ACCEPTED",
          "ORDER_CANCELLED", "TRADE"],
        ascii verb ≠ fillVerb side := by
    intro side
    cases side <;> decide +kernel
  have hSides :
      ascii "BOUGHT" ≠ fillVerb .sell ∧
        ascii "SOLD" ≠ fillVerb .buy := by
    decide
  have hNot
      (hVerb : ascii m.verb ≠ fillVerb a.side) :
      readQty a m.line = 0 :=
    readQty_of_head hHead hVerb
  cases m with
  | bought t =>
      have hGives := hReach.givesBack hQueued rfl
      cases hSide : a.side with
      | buy =>
          have hVerb : (splitWs (Msg.bought t).line).head? =
              some (fillVerb a.side) := by
            rw [hSide]
            exact hHead
          rw [readQty_of_report hVerb hGives.reads]
          simp [reportedBy, hSide]
      | sell =>
          rw [hNot (by rw [hSide]; exact hSides.1)]
          simp [reportedBy, hSide]
  | sold t =>
      have hGives := hReach.givesBack hQueued rfl
      cases hSide : a.side with
      | buy =>
          rw [hNot (by rw [hSide]; exact hSides.2)]
          simp [reportedBy, hSide]
      | sell =>
          have hVerb : (splitWs (Msg.sold t).line).head? =
              some (fillVerb a.side) := by
            rw [hSide]
            exact hHead
          rw [readQty_of_report hVerb hGives.reads]
          simp [reportedBy, hSide]
  | _ => exact hNot (hOther a.side _ (by simp [Msg.verb]))

theorem Reachable.screenQty_lines
    (hReach : Reachable s)
    (a : Account) :
    screenQty a ((pushedTo owner s.log).map Msg.line) =
      reportedQty a (pushedTo owner s.log) := by
  unfold screenQty reportedQty
  rw [List.map_map]
  congr 1
  apply List.map_congr_left
  intro m hm
  exact hReach.readQty_line a hm

end Server

end SocketExchange

------------------------------------------------------------
-- The Books Of A User
------------------------------------------------------------

namespace SocketExchange

namespace Network

variable {n : Network} {k : Int} {u : Session} {c : Conn}

/-
  A trader can keep its books by reading its screen, as long
  as the exchange has ids left. When nothing is on its way
  between a user and its connection, then on every account
  of the user, what it submitted is what its screen reports
  as executed, what it took back by cancelling, and what
  rests in the book.
-/
theorem screen_reconciles
    (hReached : Reached n)
    (hRoom : submits (callsOf n.server.log) < 2 ^ 32)
    (hQuiet : Quiet n k u c)
    (a : Account)
    (hOwn : a.owner = k) :
    submittedQty a (callsOf n.server.log) =
      screenQty a u.client.printed +
        cancelledQty a Exchange.empty
          (callsOf n.server.log) +
        n.server.exch.restingQty a := by
  have hReach := hReached.flowing.reachable
  rcases hQuiet.conn with ⟨fd, hConn⟩
  have hScreen :
      u.client.printed =
        (pushedTo k n.server.log).map Msg.line :=
    hReached.flowing.screen hQuiet
  have hOwner : a.owner = c.ownerId :=
    hOwn.trans hQuiet.owner.symm
  have hReported :=
    hReach.settled.reported hRoom hConn hQuiet.live hOwner
  rw [hQuiet.owner] at hReported
  rw [hScreen, hReach.screenQty_lines, hReported]
  exact hReach.settled.balance hRoom a

/- One order rests, and nothing was executed. -/
theorem screen_reconciles_placing :
    5 =
      screenQty ⟨1, .sell, 0, 100⟩
          [ascii "OK", ascii "ORDER_ACCEPTED 0"] +
        0 + 5 := by
  have hBooks :=
    screen_reconciles placed_reached (by decide)
      placed_quiet ⟨1, .sell, 0, 100⟩ rfl
  have hGiven :
      submittedQty ⟨1, .sell, 0, 100⟩
          (callsOf placed.server.log) = 5 ∧
        cancelledQty ⟨1, .sell, 0, 100⟩ Exchange.empty
          (callsOf placed.server.log) = 0 ∧
        placed.server.exch.restingQty
          ⟨1, .sell, 0, 100⟩ = 5 := by
    decide
  have hScreen :
      placedUser.client.printed =
        [ascii "OK", ascii "ORDER_ACCEPTED 0"] := by
    decide
  rw [hGiven.1, hGiven.2.1, hGiven.2.2, hScreen] at hBooks
  exact hBooks

end Network

end SocketExchange

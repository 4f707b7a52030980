import SocketExchange.Machine.Loop
import SocketExchange.Book.Exchange
import SocketExchange.Wire.Framing

/-
  Tokenising, validation and message texts
  (`protocol.hpp`).

  Key definitions include:
    * `splitWs`
    * `parseU32`
    * `instrumentIndex`
    * `Msg`
    * `Msg.text`
-/

------------------------------------------------------------
-- Tokenising
------------------------------------------------------------

namespace SocketExchange

/- Space or tab. -/
def isWs (c : UInt8) : Bool :=
  c == 32 || c == 9

/- What `split_ws` has still to read, and its fields so far. -/
structure SplitState where
  rest : Bytes
  out : List Bytes

/-
  One turn of the outer loop: skip a run of separators, then
  take a run of other bytes as a field.
-/
def splitStep (s : SplitState) : Option SplitState :=
  match s.rest with
  | [] => none
  | _ :: _ =>
      match s.rest.dropWhile isWs with
      | [] => some { rest := [], out := s.out }
      | field =>
          some
            { rest := field.dropWhile fun c => !isWs c
              out :=
                s.out ++
                  [field.takeWhile fun c => !isWs c] }

/- Split on runs of spaces and tabs, skipping empty fields. -/
def splitWs (s : Bytes) : List Bytes :=
  (Loop.iterate splitStep s.length
    { rest := s, out := [] }).out

/- Every turn of the tokeniser reads at least one byte. -/
theorem splitStep_shorter
    (s s' : SplitState)
    (hStep : splitStep s = some s') :
    s'.rest.length < s.rest.length := by
  unfold splitStep at hStep
  cases hRest : s.rest with
  | nil => simp [hRest] at hStep
  | cons c rest =>
      simp only [hRest] at hStep
      cases hField : (c :: rest).dropWhile isWs with
      | nil =>
          simp only [hField] at hStep
          injection hStep with hNext
          subst hNext
          simp
      | cons d field =>
          simp only [hField] at hStep
          injection hStep with hNext
          subst hNext
          have hHead : isWs d = false := by
            have hDrop :=
              List.head?_dropWhile_not isWs (c :: rest)
            rw [hField] at hDrop
            simpa using hDrop
          have hLen :
              (d :: field).length ≤ (c :: rest).length := by
            rw [← hField]
            exact (List.dropWhile_suffix _).length_le
          have hTail :
              (field.dropWhile
                fun c => !isWs c).length ≤ field.length :=
            (List.dropWhile_suffix _).length_le
          simp only [List.dropWhile_cons, hHead,
            Bool.not_false, if_true]
          simp only [List.length_cons] at *
          omega

/- The tokeniser's fuel suffices: all input is read. -/
theorem splitWs_done (s : Bytes) :
    splitStep
      (Loop.iterate splitStep s.length
        { rest := s, out := [] }) = none :=
  Loop.iterate_done splitStep_shorter (Nat.le_refl _)

/- Fields are never empty. -/
theorem ne_nil_of_mem_splitWs
    {s field : Bytes}
    (hField : field ∈ splitWs s) :
    field ≠ [] := by
  have hInv :
      ∀ f ∈ (Loop.iterate splitStep s.length
          { rest := s, out := [] }).out, f ≠ [] := by
    refine Loop.iterate_inv
      (fun t : SplitState => ∀ f ∈ t.out, f ≠ [])
      ?_ _ (by simp)
    intro t t' hOut hStep f hf
    unfold splitStep at hStep
    split at hStep
    · cases hStep
    · split at hStep
      · injection hStep with hNext
        subst hNext
        exact hOut f hf
      · rename_i rest hNonempty
        injection hStep with hNext
        subst hNext
        rcases List.mem_append.mp hf with h | h
        · exact hOut f h
        · rw [List.mem_singleton] at h
          subst h
          intro hEmpty
          cases hDrop : t.rest.dropWhile isWs with
          | nil => exact hNonempty hDrop
          | cons d field =>
              have hHead : isWs d = false := by
                have hDrop' :=
                  List.head?_dropWhile_not isWs t.rest
                rw [hDrop] at hDrop'
                simpa using hDrop'
              rw [hDrop] at hEmpty
              simp [hHead] at hEmpty
  exact hInv field hField

end SocketExchange

------------------------------------------------------------
-- Validation
------------------------------------------------------------

namespace SocketExchange

def kInstruments : Fin 2 → String
| 0 => "JNST"
| 1 => "IMCT"

def kMinValue : UInt32 := 1

def kMaxValue : UInt32 := 2147483647

def kMaxOrderId : UInt32 := 2147483647

def isDigit (c : UInt8) : Bool :=
  48 ≤ c && c ≤ 57

/- `strtoull` on digits, saturating at `ULLONG_MAX`. -/
def strtoull (s : Bytes) : Nat :=
  min (2 ^ 64 - 1)
    (s.foldl (fun v c => 10 * v + (c.toNat - 48)) 0)

/- Strict decimal parse into `[lo, hi]`. -/
def parseU32
    (s : Bytes)
    (lo hi : UInt32) : Option UInt32 :=
  if s = [] then none
  else if s.length > 10 then none
  else if s.all isDigit then
    let v := strtoull s
    if v < lo.toNat ∨ v > hi.toNat then none
    else some (UInt32.ofNat v)
  else none

/- Exact match on an instrument name; `none` is `-1`. -/
def instrumentIndex (s : Bytes) : Option (Fin 2) :=
  (List.finRange 2).find? fun i =>
    s == ascii (kInstruments i)

end SocketExchange

------------------------------------------------------------
-- Message Builders
------------------------------------------------------------

namespace SocketExchange

/- `std::to_string`. -/
def decimal (n : UInt32) : Bytes :=
  (Nat.toDigits 10 n.toNat).map fun c => c.toNat.toUInt8

def msgOk : Bytes :=
  ascii "OK\n"

def msgError (reason : String) : Bytes :=
  ascii "ERROR " ++ ascii reason ++ ascii "\n"

def msgOrderAccepted (id : UInt32) : Bytes :=
  ascii "ORDER_ACCEPTED " ++ decimal id ++ ascii "\n"

def msgOrderCancelled (id : UInt32) : Bytes :=
  ascii "ORDER_CANCELLED " ++ decimal id ++ ascii "\n"

def msgExec
    (verb : String)
    (inst : Fin 2)
    (q p : UInt32) : Bytes :=
  ascii verb ++ ascii " " ++ ascii (kInstruments inst) ++
    ascii " " ++ decimal q ++ ascii " " ++ decimal p ++
    ascii "\n"

def msgBought (inst : Fin 2) (q p : UInt32) : Bytes :=
  msgExec "BOUGHT" inst q p

def msgSold (inst : Fin 2) (q p : UInt32) : Bytes :=
  msgExec "SOLD" inst q p

def msgTrade (inst : Fin 2) (q p : UInt32) : Bytes :=
  msgExec "TRADE" inst q p

/-
  A message to a client. Execution messages keep the trade
  they report, of which the text shows a part.
-/
inductive Msg where
| ok : Msg
| error : String → Msg
| orderAccepted : UInt32 → Msg
| orderCancelled : UInt32 → Msg
| bought : Trade → Msg
| sold : Trade → Msg
| trade : Trade → Msg
deriving DecidableEq, Repr

/- The bytes queued for a message. -/
def Msg.text : Msg → Bytes
| .ok => msgOk
| .error reason => msgError reason
| .orderAccepted id => msgOrderAccepted id
| .orderCancelled id => msgOrderCancelled id
| .bought t => msgBought t.inst t.qty t.price
| .sold t => msgSold t.inst t.qty t.price
| .trade t => msgTrade t.inst t.qty t.price

end SocketExchange

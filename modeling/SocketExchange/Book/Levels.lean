import SocketExchange.Book.Conservation
import SocketExchange.Book.Lifecycle
import SocketExchange.Lists.Rank

/-
  Price levels are independent.

  What happens at one instrument and price is decided by the
  orders entered there and the cancellations of those. A run
  is compared with the shorter run that has only these
  calls; in the shorter run the orders get other ids, so a
  cancellation is renumbered to the id its order has there.

  Main declarations:
    * `project`
    * `Focus`
    * `Focus.run`
    * `Exchange.run_levels_independent`
-/

------------------------------------------------------------
-- The Calls At One Key
------------------------------------------------------------

namespace SocketExchange

/- An instrument and a price. -/
abbrev Key := Fin 2 × UInt32

def Order.key (o : Order) : Key :=
  (o.inst, o.price)

def Trade.key (t : Trade) : Key :=
  (t.inst, t.price)

/-
  The id that an order at a key gets when only the orders at
  that key are entered. `past` has the key of every order so
  far, by id.
-/
def renumber
    (key : Key)
    (past : List Key)
    (id : UInt32) : UInt32 :=
  UInt32.ofNat (Rank.rank key past id.toNat)

/-
  The orders at a key, and the cancellations of orders that
  were entered at this key before.
-/
def project
    (key : Key) :
    List Key → List Call → List Call
| _, [] => []
| past, .submit side inst qty price owner :: calls =>
    if (inst, price) = key then
      .submit side inst qty price owner ::
        project key (past ++ [(inst, price)]) calls
    else project key (past ++ [(inst, price)]) calls
| past, .cancel id owner :: calls =>
    if past[id.toNat]? = some key then
      .cancel (renumber key past id) owner ::
        project key past calls
    else project key past calls

/- An order as the shorter run has it, if it is there. -/
def selected
    (key : Key)
    (past : List Key)
    (o : Order) : Option Order :=
  if o.key = key then
    some { o with id := renumber key past o.id }
  else none

theorem selected_eq_some_iff
    {key : Key}
    {past : List Key}
    {o o' : Order} :
    selected key past o = some o' ↔
      o.key = key ∧
        o' = { o with id := renumber key past o.id } := by
  unfold selected
  split
  · next hKey =>
      simp only [hKey, true_and, Option.some.injEq]
      exact eq_comm
  · next hKey => simp [hKey]

theorem submits_project_le
    (key : Key)
    (past : List Key)
    (calls : List Call) :
    submits (project key past calls) ≤ submits calls := by
  induction calls generalizing past with
  | nil => exact Nat.le_refl 0
  | cons call calls ih =>
      cases call with
      | submit side inst qty price owner =>
          have hRest := ih (past ++ [(inst, price)])
          unfold project
          split
          · simp only [submits]
            omega
          · simp only [submits]
            omega
      | cancel id owner =>
          unfold project
          split
          · exact ih past
          · exact ih past

end SocketExchange

------------------------------------------------------------
-- Trading At The Key And Elsewhere
------------------------------------------------------------

namespace SocketExchange

/-
  The shorter run's loop beside the longer one's: the same
  quantity and trades, and the selected orders.
-/
structure LoopFocus
    (sel : Order → Option Order)
    (m m' : Reference.MatchState) : Prop where
  remaining : m'.remaining = m.remaining
  out : m'.out = m.out
  resting : m'.resting = m.resting.filterMap sel

/-
  A selection that keeps the orders of one key, each under a
  new id.
-/
structure Selects
    (key : Key)
    (sel : Order → Option Order) : Prop where
  hit :
    ∀ o : Order, o.key = key →
      ∃ id, ∀ q,
        sel { o with remaining := q } =
          some { o with remaining := q, id := id }
  miss : ∀ o : Order, o.key ≠ key → sel o = none

theorem selects_selected
    (key : Key)
    (past : List Key) :
    Selects key (selected key past) where
  hit := by
    intro o hKey
    refine ⟨renumber key past o.id, ?_⟩
    intro q
    have hSame :
        ({ o with remaining := q } : Order).key = key :=
      hKey
    simp [selected, hSame]
  miss := by
    intro o hKey
    simp [selected, hKey]

namespace Reference

variable {key : Key} {sel : Order → Option Order}
variable {side : Side} {inst : Fin 2} {price : UInt32}
variable {owner : Int}

/- Orders that face an order at a key are at that key. -/
theorem key_of_restsAt
    {o : Order}
    (hAt : restsAt inst side price o = true) :
    o.key = (inst, price) := by
  rw [restsAt_iff] at hAt
  rw [Order.key, hAt.1, hAt.2.2]

/- A selected order faces whom it faced. -/
theorem restsAt_of_selected
    {o o' : Order}
    (hSel : Selects key sel)
    (hSelected : sel o = some o') :
    restsAt inst side price o' =
      restsAt inst side price o := by
  by_cases hKey : o.key = key
  · rcases hSel.hit o hKey with ⟨id, hId⟩
    have hSame := hId o.remaining
    change sel o = _ at hSame
    rw [hSelected] at hSame
    injection hSame with hSame
    subst hSame
    rfl
  · rw [hSel.miss o hKey] at hSelected
    cases hSelected

/- At the key both loops take the same turn. -/
theorem LoopFocus.step_at
    {m m' : MatchState}
    (hSel : Selects (inst, price) sel)
    (hFocus : LoopFocus sel m m') :
    Loop.Lockstep (LoopFocus sel)
      (matchStep side inst price owner m)
      (matchStep side inst price owner m') := by
  have hFaces :
      ∀ o ∈ m.resting, ∀ o', sel o = some o' →
        restsAt inst side.opposite price o' = true →
          restsAt inst side.opposite price o = true := by
    intro o _ o' hSelected hAt
    rw [← restsAt_of_selected hSel hSelected]
    exact hAt
  cases hLeft : matchStep side inst price owner m with
  | none =>
      have hRight :
          matchStep side inst price owner m' = none := by
        rw [matchStep_eq_none_iff] at hLeft ⊢
        rw [hFocus.remaining, hFocus.resting]
        rcases hLeft with hZero | hNone
        · exact Or.inl hZero
        · exact Or.inr
            (FirstMatch.none_selected hFaces hNone)
      rw [hRight]
      trivial
  | some n =>
      rcases matchStep_cases hLeft with
        ⟨hPos, before, other, after, hSplit, hBefore,
          hOther, hRem, hOut, hCase⟩
      rcases hSel.hit other (key_of_restsAt hOther) with
        ⟨id, hId⟩
      have hThis := hId other.remaining
      change sel other = some { other with id := id }
        at hThis
      have hFound :
          restsAt inst side.opposite price
            { other with id := id } = true := hOther
      rw [hSplit] at hFaces
      rcases FirstMatch.of_selected hFaces hBefore hThis
          hFound with ⟨hFind, hErase, hModify⟩
      rw [← hSplit, ← hFocus.resting] at hFind hErase hModify
      have hRight :
          ∃ n', matchStep side inst price owner m' =
              some n' ∧ LoopFocus sel n n' := by
        unfold matchStep
        simp only [smaller_eq_minU32, trade_eq]
        rw [hFocus.remaining, if_pos hPos]
        simp only [hFind]
        refine ⟨_, rfl, ?_, ?_, ?_⟩
        · exact hRem.symm
        · rw [hOut, hFocus.out]
          rfl
        · rcases hCase with
            ⟨hFilled, hNext⟩ | ⟨hRest, hNext⟩
          · rw [hNext, if_pos hFilled, hErase]
          · rw [hNext, if_neg hRest, hModify,
              List.filterMap_append, List.filterMap_cons,
              hId]
      rcases hRight with ⟨n', hStep, hNext⟩
      rw [hStep]
      exact hNext

/- Elsewhere the longer loop leaves the selection alone. -/
theorem matchLoop_elsewhere
    (hSel : Selects key sel)
    (hKey : (inst, price) ≠ key)
    (m : MatchState) :
    (matchLoop side inst price owner
        m).resting.filterMap sel =
      m.resting.filterMap sel := by
  refine Loop.iterate_inv
    (fun n : MatchState =>
      n.resting.filterMap sel = m.resting.filterMap sel)
    ?_ _ rfl
  intro n n' hOld hStep
  rcases matchStep_cases hStep with
    ⟨_, before, other, after, hSplit, _, hOther, _, _,
      hCase⟩
  have hAway : ∀ q, sel { other with remaining := q } =
      none := by
    intro q
    apply hSel.miss
    change other.key ≠ key
    rw [key_of_restsAt hOther]
    exact hKey
  have hThis := hAway other.remaining
  rw [← hOld, hSplit]
  rcases hCase with ⟨_, hNext⟩ | ⟨_, hNext⟩
  · rw [hNext, List.filterMap_append,
      List.filterMap_append, List.filterMap_cons]
    change sel other = none at hThis
    rw [hThis]
  · rw [hNext, List.filterMap_append,
      List.filterMap_append, List.filterMap_cons,
      List.filterMap_cons, hAway]
    change sel other = none at hThis
    rw [hThis]

/- The trades of a submission are at its own key. -/
theorem matchLoop_trades
    (m : MatchState)
    (hOut : m.out = []) :
    ∀ t ∈ (matchLoop side inst price owner m).out,
      t.key = (inst, price) := by
  refine Loop.iterate_inv
    (fun n : MatchState =>
      ∀ t ∈ n.out, t.key = (inst, price))
    ?_ _ (by simp [hOut])
  intro n n' hOld hStep t ht
  rcases matchStep_cases hStep with
    ⟨_, before, other, after, _, _, _, _, hNext, _⟩
  rw [hNext] at ht
  rcases List.mem_append.mp ht with hMem | hLast
  · exact hOld t hMem
  · rw [List.mem_singleton.mp hLast]
    rfl

/- At the key both loops end together. -/
theorem LoopFocus.matchLoop
    {m m' : MatchState}
    (hSel : Selects (inst, price) sel)
    (hFocus : LoopFocus sel m m') :
    LoopFocus sel
      (matchLoop side inst price owner m)
      (Reference.matchLoop side inst price owner m') := by
  have hShorter :
      m'.resting.length ≤ m.resting.length := by
    rw [hFocus.resting]
    exact List.length_filterMap_le _ _
  have hDone := matchLoop_done side inst price owner m'
  unfold Reference.matchLoop at hDone ⊢
  rw [← Loop.iterate_eq_of_done hDone
    (Nat.succ_le_succ hShorter)]
  exact Loop.iterate_rel
    (fun _ _ hRel => LoopFocus.step_at hSel hRel) _ hFocus

end Reference

end SocketExchange

------------------------------------------------------------
-- Two Runs Side By Side
------------------------------------------------------------

namespace SocketExchange

/-
  The shorter run beside the longer one, after the orders
  with the keys `past`.
-/
structure Focus
    (key : Key)
    (past : List Key)
    (r r' : Reference) : Prop where
  nextId : r.nextId = UInt32.ofNat past.length
  nextId' :
    r'.nextId = UInt32.ofNat (Rank.rank key past past.length)
  placed :
    ∀ o ∈ r.resting, past[o.id.toNat]? = some o.key
  resting :
    r'.resting = r.resting.filterMap (selected key past)

theorem focus_empty (key : Key) :
    Focus key [] Reference.empty Reference.empty where
  nextId := rfl
  nextId' := rfl
  placed := by simp [Reference.empty]
  resting := rfl

variable {key : Key} {past : List Key}
variable {r r' : Reference}

/- Orders keep their numbers as more orders come in. -/
theorem selected_append
    {o : Order}
    (hPlaced : past[o.id.toNat]? = some o.key)
    (more : List Key) :
    selected key (past ++ more) o = selected key past o := by
  have hLt : o.id.toNat < past.length :=
    (List.getElem?_eq_some_iff.mp hPlaced).1
  unfold selected renumber
  rw [Rank.rank_append key (Nat.le_of_lt hLt)]

theorem Focus.placed_append
    (hFocus : Focus key past r r')
    {o o' : Order}
    (hMem : o' ∈ r.resting)
    (hShrinks : o.Shrinks o')
    (more : List Key) :
    (past ++ more)[o.id.toNat]? = some o.key := by
  have hPlaced := hFocus.placed o' hMem
  have hLt := (List.getElem?_eq_some_iff.mp hPlaced).1
  rcases hShrinks with ⟨hId, _, hInst, hPrice, _⟩
  rw [hId, List.getElem?_append_left hLt, hPlaced,
    Order.key, Order.key, hInst, hPrice]

theorem Reference.submit_nextId
    (r : Reference)
    (side : Side)
    (inst : Fin 2)
    (qty price : UInt32)
    (owner : Int) :
    (r.submit side inst qty price owner []).1.nextId =
      r.nextId + 1 := rfl

/- The remainder rests, if there is one. -/
theorem Reference.submit_resting
    (r : Reference)
    (side : Side)
    (inst : Fin 2)
    (qty price : UInt32)
    (owner : Int) :
    (r.submit side inst qty price owner []).1.resting =
      (matchLoop side inst price owner
        { remaining := qty
          resting := r.resting
          out := [] }).resting ++
        if 0 < (matchLoop side inst price owner
            { remaining := qty
              resting := r.resting
              out := [] }).remaining then
          [{ id := r.nextId, side := side, inst := inst
             price := price
             remaining :=
               (matchLoop side inst price owner
                 { remaining := qty
                   resting := r.resting
                   out := [] }).remaining
             owner := owner }]
        else [] := by
  unfold submit
  dsimp only
  split
  · rfl
  · rw [List.append_nil]

/- Every order after a submission has its key in the past. -/
theorem Focus.submit_placed
    (hFocus : Focus key past r r')
    (hShort : past.length < 2 ^ 32)
    (side : Side)
    (inst : Fin 2)
    (qty price : UInt32)
    (owner : Int) :
    ∀ o ∈ (r.submit side inst qty price owner
        []).1.resting,
      (past ++ [(inst, price)])[o.id.toNat]? =
        some o.key := by
  intro o ho
  rw [Reference.submit_resting] at ho
  rcases List.mem_append.mp ho with hOld | hLast
  · rcases Reference.matchLoop_shrinks side inst price owner
        _ o hOld with ⟨o', hMem, hShrinks⟩
    exact hFocus.placed_append hMem hShrinks _
  · split at hLast
    · rw [List.mem_singleton.mp hLast]
      dsimp only
      rw [hFocus.nextId, UInt32.toNat_ofNat_of_lt' hShort]
      simp [Order.key]
    · cases hLast

/- The orders the loop left are selected as before. -/
theorem Focus.selected_loop
    (hFocus : Focus key past r r')
    (side : Side)
    (inst : Fin 2)
    (qty price : UInt32)
    (owner : Int)
    (more : List Key) :
    (Reference.matchLoop side inst price owner
        { remaining := qty
          resting := r.resting
          out := [] }).resting.filterMap
            (selected key (past ++ more)) =
      (Reference.matchLoop side inst price owner
        { remaining := qty
          resting := r.resting
          out := [] }).resting.filterMap
            (selected key past) := by
  apply List.filterMap_congr
  intro o ho
  rcases Reference.matchLoop_shrinks side inst price owner
      _ o ho with ⟨o', hMem, hShrinks⟩
  have hPlaced := hFocus.placed_append hMem hShrinks []
  rw [List.append_nil] at hPlaced
  exact selected_append hPlaced more

/- An order at the key is entered in both runs. -/
theorem Focus.submit_at
    {inst : Fin 2}
    {price : UInt32}
    (hFocus : Focus (inst, price) past r r')
    (hShort : past.length < 2 ^ 32)
    (side : Side)
    (qty : UInt32)
    (owner : Int) :
    (r'.submit side inst qty price owner []).2.2 =
        (r.submit side inst qty price owner []).2.2 ∧
      Focus (inst, price) (past ++ [(inst, price)])
        (r.submit side inst qty price owner []).1
        (r'.submit side inst qty price owner []).1 := by
  have hStart :
      LoopFocus (selected (inst, price) past)
        { remaining := qty, resting := r.resting, out := [] }
        { remaining := qty
          resting := r'.resting
          out := [] } :=
    ⟨rfl, rfl, hFocus.resting⟩
  have hLoop :
      LoopFocus (selected (inst, price) past)
        (Reference.matchLoop side inst price owner _)
        (Reference.matchLoop side inst price owner _) :=
    Reference.LoopFocus.matchLoop
      (selects_selected (inst, price) past) hStart
  refine ⟨hLoop.out, ?_, ?_, ?_, ?_⟩
  · rw [Reference.submit_nextId, hFocus.nextId]
    simp [UInt32.ofNat_add]
  · rw [Reference.submit_nextId, hFocus.nextId',
      Rank.rank_snoc, if_pos rfl, UInt32.ofNat_add]
    rfl
  · exact hFocus.submit_placed hShort side inst qty price
      owner
  · rw [Reference.submit_resting, Reference.submit_resting,
      hLoop.resting, hLoop.remaining,
      List.filterMap_append, hFocus.selected_loop]
    congr 1
    split
    · -- The new order is the next of its key.
      have hRank :
          renumber (inst, price) (past ++ [(inst, price)])
              r.nextId =
            r'.nextId := by
        unfold renumber
        rw [hFocus.nextId, UInt32.toNat_ofNat_of_lt' hShort,
          Rank.rank_append _ (Nat.le_refl _),
          hFocus.nextId']
      simp [selected, Order.key, hRank]
    · rfl

/- An order elsewhere is not seen at the key. -/
theorem Focus.submit_elsewhere
    {inst : Fin 2}
    {price : UInt32}
    (hFocus : Focus key past r r')
    (hKey : (inst, price) ≠ key)
    (hShort : past.length < 2 ^ 32)
    (side : Side)
    (qty : UInt32)
    (owner : Int) :
    Focus key (past ++ [(inst, price)])
      (r.submit side inst qty price owner []).1 r' := by
  refine ⟨?_, ?_, ?_, ?_⟩
  · rw [Reference.submit_nextId, hFocus.nextId]
    simp [UInt32.ofNat_add]
  · rw [hFocus.nextId', Rank.rank_snoc, if_neg hKey,
      Nat.add_zero]
  · exact hFocus.submit_placed hShort side inst qty price
      owner
  · rw [Reference.submit_resting, List.filterMap_append,
      hFocus.selected_loop,
      Reference.matchLoop_elsewhere
        (selects_selected key past) hKey, hFocus.resting]
    split
    · simp [selected, Order.key, hKey]
    · simp

/- Orders at a key are told apart by their new numbers. -/
theorem renumber_injective
    {a b : UInt32}
    (hShort : past.length < 2 ^ 32)
    (ha : past[a.toNat]? = some key)
    (hb : past[b.toNat]? = some key)
    (hSame : renumber key past a = renumber key past b) :
    a = b := by
  have hSmall :
      ∀ i, Rank.rank key past i < 2 ^ 32 := fun i =>
    Nat.lt_of_le_of_lt (Rank.rank_le_length key past i)
      hShort
  have hNat := congrArg UInt32.toNat hSame
  unfold renumber at hNat
  rw [UInt32.toNat_ofNat_of_lt' (hSmall _),
    UInt32.toNat_ofNat_of_lt' (hSmall _)] at hNat
  exact UInt32.toNat_inj.mp (Rank.rank_injective ha hb hNat)

/- A cancellation at the key happens in both runs. -/
theorem Focus.cancel_at
    {id : UInt32}
    (hFocus : Focus key past r r')
    (hShort : past.length < 2 ^ 32)
    (hAt : past[id.toNat]? = some key)
    (owner : Int) :
    Focus key past (r.cancel id owner).1
      (r'.cancel (renumber key past id) owner).1 := by
  -- The new number is found where the old id is.
  have hMiss :
      ∀ o ∈ r.resting, ∀ o', selected key past o = some o' →
        (o'.id == renumber key past id) = true →
          (o.id == id) = true := by
    intro o ho o' hSelected hId
    rcases selected_eq_some_iff.mp hSelected with
      ⟨hKey, rfl⟩
    have hPlaced := hFocus.placed o ho
    rw [hKey] at hPlaced
    rw [renumber_injective hShort hPlaced hAt
      (eq_of_beq hId)]
    exact beq_self_eq_true id
  unfold Reference.cancel
  cases hFind : r.resting.find? fun o => o.id == id with
  | none =>
      have hNone :
          r'.resting.find?
              (fun o => o.id == renumber key past id) =
            none := by
        rw [hFocus.resting, List.find?_eq_none]
        intro o ho
        have hGone :=
          FirstMatch.none_selected hMiss
            (fun o ho => Bool.eq_false_iff.mpr
              (List.find?_eq_none.mp hFind o ho)) o ho
        simp [hGone]
      rw [hNone]
      exact hFocus
  | some o =>
      rcases FirstMatch.split hFind with
        ⟨before, after, hSplit, hBefore, hId, hErase, _⟩
      have hIs := eq_of_beq hId
      have hKey : o.key = key := by
        have hPlaced := hFocus.placed o (by simp [hSplit])
        rw [hIs, hAt] at hPlaced
        injection hPlaced with hSame
        exact hSame.symm
      have hThis :
          selected key past o =
            some { o with id := renumber key past id } :=
        selected_eq_some_iff.mpr ⟨hKey, by rw [hIs]⟩
      have hFound :
          (({ o with id := renumber key past id } :
            Order).id == renumber key past id) = true :=
        beq_self_eq_true _
      rw [hSplit] at hMiss
      rcases FirstMatch.of_selected hMiss hBefore hThis
          hFound with ⟨hFind', hErase', _⟩
      rw [← hSplit, ← hFocus.resting] at hFind' hErase'
      rw [hFind']
      dsimp only
      split
      · exact hFocus
      · refine ⟨hFocus.nextId, hFocus.nextId', ?_, ?_⟩
        · intro o' ho'
          exact hFocus.placed o'
            (List.mem_of_mem_eraseP ho')
        · rw [hErase, hErase']

/- A cancellation elsewhere is not seen at the key. -/
theorem Focus.cancel_elsewhere
    {id : UInt32}
    (hFocus : Focus key past r r')
    (hAway : past[id.toNat]? ≠ some key)
    (owner : Int) :
    Focus key past (r.cancel id owner).1 r' := by
  unfold Reference.cancel
  cases hFind : r.resting.find? fun o => o.id == id with
  | none => exact hFocus
  | some o =>
      rcases FirstMatch.split hFind with
        ⟨before, after, hSplit, _, hId, hErase, _⟩
      have hKey : o.key ≠ key := by
        intro hSame
        have hPlaced := hFocus.placed o (by simp [hSplit])
        rw [hSame, eq_of_beq hId] at hPlaced
        exact hAway hPlaced
      dsimp only
      split
      · exact hFocus
      · refine ⟨hFocus.nextId, hFocus.nextId', ?_, ?_⟩
        · intro o' ho'
          exact hFocus.placed o'
            (List.mem_of_mem_eraseP ho')
        · rw [hErase, hFocus.resting, hSplit,
            List.filterMap_append, List.filterMap_append,
            List.filterMap_cons,
            (selects_selected key past).miss o hKey]

/-
  A whole run beside its projection: the same trades at the
  key.
-/
theorem Focus.run
    {calls : List Call}
    (hFocus : Focus key past r r')
    (hRoom : past.length + submits calls < 2 ^ 32) :
    (tradesOf (Machine.replies Reference.step r
        calls)).filter (fun t => t.key = key) =
      tradesOf (Machine.replies Reference.step r'
        (project key past calls)) := by
  induction calls generalizing past r r' with
  | nil => rfl
  | cons call calls ih =>
      cases call with
      | submit side inst qty price owner =>
          simp only [submits] at hRoom
          have hShort : past.length < 2 ^ 32 := by omega
          have hNext :
              (past ++ [(inst, price)]).length +
                submits calls < 2 ^ 32 := by
            simp only [List.length_append,
              List.length_singleton]
            omega
          have hTrades :
              ∀ t ∈ (r.submit side inst qty price owner
                []).2.2, t.key = (inst, price) :=
            Reference.matchLoop_trades _ rfl
          simp only [Machine.replies, Reference.step,
            tradesOf, List.filter_append, project]
          split
          · next hKey =>
              subst hKey
              rcases hFocus.submit_at hShort side qty
                  owner with ⟨hSame, hFocus'⟩
              simp only [Machine.replies, Reference.step,
                tradesOf]
              rw [hSame, ih hFocus' hNext,
                List.filter_eq_self.mpr]
              intro t ht
              simpa using hTrades t ht
          · next hKey =>
              rw [ih (hFocus.submit_elsewhere hKey hShort
                side qty owner) hNext,
                List.filter_eq_nil_iff.mpr,
                List.nil_append]
              intro t ht
              simpa [hTrades t ht] using hKey
      | cancel id owner =>
          simp only [submits] at hRoom
          have hShort : past.length < 2 ^ 32 := by omega
          simp only [Machine.replies, Reference.step,
            tradesOf, project]
          split
          · next hAt =>
              simp only [Machine.replies, Reference.step,
                tradesOf]
              exact ih (hFocus.cancel_at hShort hAt owner)
                hRoom
          · next hAway =>
              exact ih (hFocus.cancel_elsewhere hAway owner)
                hRoom

namespace Exchange

/-
  Price levels are independent: the trades at an instrument
  and price are those of the run that has only the orders
  entered there and the cancellations of these. Orders and
  cancellations elsewhere change neither which trades happen
  nor their order, quantities and parties.
-/
theorem run_levels_independent
    (calls : List Call)
    (hSubmits : submits calls < 2 ^ 32)
    (key : Key) :
    (tradesOf (Machine.replies step empty calls)).filter
        (fun t => t.key = key) =
      tradesOf (Machine.replies step empty
        (project key [] calls)) := by
  have hShorter :
      submits (project key [] calls) < 2 ^ 32 :=
    Nat.lt_of_le_of_lt (submits_project_le key [] calls)
      hSubmits
  rw [(represents_empty.run (hasRoom_empty hSubmits)).1,
    (represents_empty.run (hasRoom_empty hShorter)).1]
  exact (focus_empty key).run (by simpa using hSubmits)

/- A buyer at another price comes first and is cancelled. -/
theorem run_levels_independent_filling :
    tradesOf (Machine.replies step empty
        (project (0, 100) []
          (.submit .buy 0 2 99 3 :: .cancel 0 3 ::
            fillingCalls 0 ++ [.cancel 2 2]))) =
      [⟨0, 5, 100, 3, 1⟩, ⟨0, 3, 100, 3, 2⟩] := by
  rw [← run_levels_independent _ (by decide) (0, 100)]
  decide

end Exchange

end SocketExchange

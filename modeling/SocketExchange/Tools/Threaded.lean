import SocketExchange.Machine.Trail
import SocketExchange.Server.Model

/-
  The thread-per-connection server
  (`tools/threaded_server.cpp`), which the event loop is
  measured against: `main` accepts and starts a detached
  thread for each connection, and each thread reads until
  its peer is gone.

  A step is one system call or one access to `g_live`, by
  any of the threads, so that a run is any interleaving of
  them. What the kernel answers comes with the step.
  `opened` is the kernel's: the connections' descriptors
  that are open. `g_live` is an `int` that the source
  prints as an `unsigned`, and is kept as one.

  Main declarations:
    * `Threaded`, `Threaded.step`
    * `Threaded.prints`
    * `Threaded.Accounted`
    * `Threaded.run_accounted`
-/

------------------------------------------------------------
-- Threads And The Kernel
------------------------------------------------------------

namespace SocketExchange

/- What `main` does next. -/
inductive MainPoint where
| accept : MainPoint
| create : Fd → MainPoint
| count : MainPoint
| acceptFailed : String → MainPoint
| createFailed : Fd → String → Int → MainPoint
| giveUp : Fd → MainPoint
| stop : MainPoint
| pause : MainPoint
deriving DecidableEq, Repr

/- What a connection's thread does next. -/
inductive ThreadPoint where
| recv : Fd → ThreadPoint
| close : Fd → ThreadPoint
| leave : ThreadPoint
| gone : ThreadPoint
deriving DecidableEq, Repr

/- `EINTR` and `ECONNABORTED` are both tried again. -/
inductive AcceptAnswer where
| ok : Fd → AcceptAnswer
| again : AcceptAnswer
| error : String → AcceptAnswer

inductive RecvAnswer where
| bytes : RecvAnswer
| eof : RecvAnswer
| eintr : RecvAnswer
| error : RecvAnswer

inductive ThreadedStep where
| accept : AcceptAnswer → ThreadedStep
| create : Option (String × Int) → ThreadedStep
| main : ThreadedStep
| recv : Nat → RecvAnswer → ThreadedStep
| thread : Nat → ThreadedStep

/- A line on the standard error stream. -/
inductive Report where
| acceptFailed : UInt32 → String → Report
| createFailed : UInt32 → String → Int → Report
| live : UInt32 → Report
| stopped : UInt32 → Report
deriving DecidableEq, Repr

namespace Report

/- The number of live threads that a line claims. -/
def count : Report → UInt32
| .acceptFailed n _ => n
| .createFailed n _ _ => n
| .live n => n
| .stopped n => n

end Report

structure Threaded where
  main : MainPoint
  threads : List ThreadPoint
  gLive : UInt32
  opened : Finset Fd

end SocketExchange

------------------------------------------------------------
-- Steps
------------------------------------------------------------

namespace SocketExchange

namespace Threaded

/- Listening, before the first connection. -/
def start : Threaded where
  main := .accept
  threads := []
  gLive := 0
  opened := ∅

/- `accept` returned. -/
def accepted (s : Threaded) : AcceptAnswer → Threaded
| .ok fd =>
    { s with
      main := .create fd
      opened := insert fd s.opened }
| .again => s
| .error why => { s with main := .acceptFailed why }

/- `pthread_create` returned: a thread, or an error. -/
def created
    (s : Threaded)
    (fd : Fd) :
    Option (String × Int) → Threaded
| none =>
    { s with
      main := .count
      threads := s.threads ++ [.recv fd] }
| some (why, rc) =>
    { s with main := .createFailed fd why rc }

/-
  The rest of `main`: it counts the thread it has started,
  prints why it stops, closes the descriptor that got no
  thread, and waits for good.
-/
def mainStep (s : Threaded) : Threaded :=
  match s.main with
  | .count =>
      { s with main := .accept, gLive := s.gLive + 1 }
  | .acceptFailed _ => { s with main := .stop }
  | .createFailed fd _ _ => { s with main := .giveUp fd }
  | .giveUp fd =>
      { s with main := .stop, opened := s.opened.erase fd }
  | .stop => { s with main := .pause }
  | _ => s

/- The loop of `conn_thread` after `recv` has returned. -/
def received (fd : Fd) : RecvAnswer → ThreadPoint
| .bytes => .recv fd
| .eintr => .recv fd
| .eof => .close fd
| .error => .close fd

/- The end of `conn_thread`. -/
def threadStep
    (s : Threaded)
    (i : Nat) :
    ThreadPoint → Threaded
| .close fd =>
    { s with
      threads := s.threads.set i .leave
      opened := s.opened.erase fd }
| .leave =>
    { s with
      threads := s.threads.set i .gone
      gLive := s.gLive - 1 }
| _ => s

/- One step of the thread that the input names. -/
def step (s : Threaded) : ThreadedStep → Threaded
| .accept answer =>
    if s.main = .accept then s.accepted answer else s
| .create answer =>
    match s.main with
    | .create fd => s.created fd answer
    | _ => s
| .main => s.mainStep
| .recv i answer =>
    match s.threads[i]? with
    | some (.recv fd) =>
        { s with
          threads := s.threads.set i (received fd answer) }
    | _ => s
| .thread i =>
    match s.threads[i]? with
    | some point => s.threadStep i point
    | none => s

/- What `main` prints in a step. -/
def prints (s : Threaded) : ThreadedStep → List Report
| .main =>
    match s.main with
    | .count =>
        if (s.gLive + 1) % 250 = 0 then
          [.live (s.gLive + 1)]
        else []
    | .acceptFailed why => [.acceptFailed s.gLive why]
    | .createFailed _ why rc =>
        [.createFailed s.gLive why rc]
    | .stop => [.stopped s.gLive]
    | _ => []
| _ => []

/- `accept` returns a descriptor that is not open. -/
def Allowed (s : Threaded) : ThreadedStep → Prop
| .accept (.ok fd) => fd ∉ s.opened
| _ => True

end Threaded

end SocketExchange

------------------------------------------------------------
-- What The Threads Hold
------------------------------------------------------------

namespace SocketExchange

/- The descriptor that `main` has yet to hand over. -/
def MainPoint.fds : MainPoint → List Fd
| .create fd => [fd]
| .createFailed fd _ _ => [fd]
| .giveUp fd => [fd]
| _ => []

/- The descriptor that a thread has yet to close. -/
def ThreadPoint.fds : ThreadPoint → List Fd
| .recv fd => [fd]
| .close fd => [fd]
| .leave => []
| .gone => []

namespace Threaded

/- The descriptors in the hands of some thread. -/
def held (s : Threaded) : List Fd :=
  s.main.fds ++ s.threads.flatMap ThreadPoint.fds

/- The threads that have not returned. -/
def running (s : Threaded) : Nat :=
  s.threads.countP fun point => point ≠ .gone

/- A thread that `main` has started and not yet counted. -/
def uncounted (s : Threaded) : UInt32 :=
  if s.main = .count then 1 else 0

/-
  `g_live` is the number of running threads, but for the
  one that is not counted yet; and every open descriptor is
  in the hands of exactly one thread, every closed one in
  no thread's.
-/
structure Accounted (s : Threaded) : Prop where
  live : s.gLive + s.uncounted = UInt32.ofNat s.running
  held :
    ∀ fd, s.held.count fd = if fd ∈ s.opened then 1 else 0

theorem accounted_start : Accounted start where
  live := by decide
  held := by
    intro fd
    simp [start, Threaded.held, MainPoint.fds]

/- A thread's place in the list, before and after a step. -/
theorem exists_split
    {threads : List ThreadPoint}
    {i : Nat}
    {point : ThreadPoint}
    (hPoint : threads[i]? = some point) :
    ∃ before after,
      threads = before ++ point :: after ∧
        ∀ next,
          threads.set i next = before ++ next :: after := by
  rcases List.getElem?_eq_some_iff.mp hPoint with
    ⟨hLt, hAt⟩
  refine ⟨threads.take i, threads.drop (i + 1), ?_, ?_⟩
  · rw [← hAt, ← List.drop_eq_getElem_cons hLt,
      List.take_append_drop]
  · intro next
    rw [List.set_eq_take_append_cons_drop, if_pos hLt]

/- Closing a descriptor that only one thread holds. -/
theorem count_of_close
    {before after : List Fd}
    {fd : Fd}
    {opened : Finset Fd}
    (hHeld :
      ∀ x,
        (before ++ fd :: after).count x =
          if x ∈ opened then 1 else 0)
    (x : Fd) :
    (before ++ after).count x =
      if x ∈ opened.erase fd then 1 else 0 := by
  have hCount := hHeld x
  by_cases hSame : x = fd
  · have hGone : x ∉ opened.erase fd := by simp [hSame]
    rw [hSame, List.count_append, List.count_cons_self]
      at hCount
    rw [hSame, List.count_append] at *
    simp only [hGone, if_false]
    split at hCount <;> omega
  · have hSplit :
        (before ++ fd :: after).count x =
          (before ++ after).count x := by
      simp [List.count_append, List.count_cons_of_ne,
        Ne.symm hSame]
    rw [← hSplit, hCount]
    simp [hSame]

end Threaded

end SocketExchange

------------------------------------------------------------
-- Every Interleaving
------------------------------------------------------------

namespace SocketExchange

namespace Threaded

variable {s : Threaded}

namespace Accounted

/-
  `main` moves on, with the descriptors it holds, and no
  thread is started or counted.
-/
theorem main_moves
    (hAcc : Accounted s)
    (hNow : s.main ≠ .count)
    {point : MainPoint}
    (hNext : point ≠ .count)
    (hFds : point.fds = s.main.fds) :
    Accounted { s with main := point } where
  live := by
    have hLive := hAcc.live
    simp only [uncounted, if_neg hNow] at hLive
    simp only [uncounted, if_neg hNext]
    exact hLive
  held := by
    simpa only [Threaded.held, hFds] using hAcc.held

theorem accepted
    (hAcc : Accounted s)
    (hNow : s.main = .accept)
    {answer : AcceptAnswer}
    (hAllowed : s.Allowed (.accept answer)) :
    Accounted (s.accepted answer) := by
  cases answer with
  | again => exact hAcc
  | error why =>
      have hFds :
          (MainPoint.acceptFailed why).fds =
            s.main.fds := by
        rw [hNow]
        rfl
      exact hAcc.main_moves (by simp [hNow]) (by simp) hFds
  | ok fd =>
      have hLive := hAcc.live
      have hHeld := hAcc.held
      simp only [uncounted, hNow, reduceCtorEq, if_false]
        at hLive
      refine ⟨?_, ?_⟩
      · simp only [Threaded.accepted, uncounted,
          reduceCtorEq, if_false]
        exact hLive
      · intro x
        have hCount := hHeld x
        simp only [Threaded.held, hNow, MainPoint.fds,
          List.nil_append] at hCount
        simp only [Threaded.accepted, Threaded.held,
          MainPoint.fds, List.singleton_append,
          List.count_cons, hCount, Finset.mem_insert]
        by_cases hSame : x = fd
        · have hNew : fd ∉ s.opened := hAllowed
          simp [hSame, hNew]
        · simp [hSame, Ne.symm hSame]

theorem created
    (hAcc : Accounted s)
    {fd : Fd}
    (hNow : s.main = .create fd)
    (answer : Option (String × Int)) :
    Accounted (s.created fd answer) := by
  cases answer with
  | some failure =>
      have hFds :
          (MainPoint.createFailed fd failure.1
            failure.2).fds = s.main.fds := by
        rw [hNow]
        rfl
      exact hAcc.main_moves (by simp [hNow]) (by simp) hFds
  | none =>
      have hLive := hAcc.live
      simp only [uncounted, hNow, reduceCtorEq, if_false,
        UInt32.add_zero] at hLive
      refine ⟨?_, ?_⟩
      · have hMore :
            (s.created fd none).running =
              s.running + 1 := by
          simp [Threaded.created, running]
        rw [hMore, UInt32.ofNat_add, ← hLive]
        rfl
      · intro x
        have hCount := hAcc.held x
        simp only [Threaded.held, hNow, MainPoint.fds,
          List.singleton_append] at hCount
        refine Eq.trans ?_ hCount
        simp [Threaded.created, Threaded.held,
          MainPoint.fds, ThreadPoint.fds, List.count_cons]

theorem mainStep (hAcc : Accounted s) :
    Accounted s.mainStep := by
  have hLive := hAcc.live
  have hHeld := hAcc.held
  unfold Threaded.mainStep
  cases hNow : s.main with
  | accept => exact hAcc
  | create fd => exact hAcc
  | pause => exact hAcc
  | acceptFailed why =>
      refine hAcc.main_moves (by simp [hNow]) (by simp) ?_
      rw [hNow]
      rfl
  | createFailed fd why rc =>
      refine hAcc.main_moves (by simp [hNow]) (by simp) ?_
      rw [hNow]
      rfl
  | stop =>
      refine hAcc.main_moves (by simp [hNow]) (by simp) ?_
      rw [hNow]
      rfl
  | count =>
      simp only [uncounted, hNow, if_true] at hLive
      simp only [Threaded.held, hNow] at hHeld
      refine ⟨?_, hHeld⟩
      simp only [uncounted, reduceCtorEq, if_false,
        UInt32.add_zero]
      exact hLive
  | giveUp fd =>
      simp only [uncounted, hNow, reduceCtorEq, if_false]
        at hLive
      simp only [Threaded.held, hNow, MainPoint.fds]
        at hHeld
      refine ⟨?_, ?_⟩
      · simp only [uncounted, reduceCtorEq, if_false]
        exact hLive
      · exact count_of_close hHeld

/- A thread moves on, with the descriptor it holds. -/
theorem thread_moves
    (hAcc : Accounted s)
    {i : Nat}
    {point next : ThreadPoint}
    (hNow : s.threads[i]? = some point)
    (hPoint : point ≠ .gone)
    (hNext : next ≠ .gone)
    (hFds : next.fds = point.fds) :
    Accounted
      { s with threads := s.threads.set i next } := by
  rcases exists_split hNow with
    ⟨before, after, hSplit, hSet⟩
  have hLive := hAcc.live
  have hHeld := hAcc.held
  refine ⟨?_, ?_⟩
  · have hSame :
        running
            { s with threads := s.threads.set i next } =
          s.running := by
      simp only [running, hSet]
      simp [hSplit, hPoint, hNext]
    rw [hSame]
    exact hLive
  · intro x
    refine Eq.trans ?_ (hHeld x)
    simp only [Threaded.held, hSet]
    simp only [hSplit, List.flatMap_append,
      List.flatMap_cons, hFds]

theorem thread_closes
    (hAcc : Accounted s)
    {i : Nat}
    {fd : Fd}
    (hNow : s.threads[i]? = some (.close fd)) :
    Accounted (s.threadStep i (.close fd)) := by
  rcases exists_split hNow with
    ⟨before, after, hSplit, hSet⟩
  have hLive := hAcc.live
  have hHeld := hAcc.held
  refine ⟨?_, ?_⟩
  · have hSame :
        running (s.threadStep i (.close fd)) =
          s.running := by
      simp only [threadStep, running, hSet]
      simp [hSplit]
    rw [hSame]
    exact hLive
  · simp only [Threaded.held, hSplit, List.flatMap_append,
      List.flatMap_cons, ThreadPoint.fds,
      List.singleton_append, ← List.append_assoc] at hHeld
    intro x
    simp only [threadStep, Threaded.held, hSet,
      List.flatMap_append, List.flatMap_cons,
      ThreadPoint.fds, List.nil_append,
      ← List.append_assoc]
    exact count_of_close hHeld x

theorem thread_leaves
    (hAcc : Accounted s)
    {i : Nat}
    (hNow : s.threads[i]? = some .leave) :
    Accounted (s.threadStep i .leave) := by
  rcases exists_split hNow with
    ⟨before, after, hSplit, hSet⟩
  have hLive := hAcc.live
  have hHeld := hAcc.held
  refine ⟨?_, ?_⟩
  · have hFewer :
        s.running =
          running (s.threadStep i .leave) + 1 := by
      simp only [threadStep, running, hSet]
      simp [hSplit, Nat.add_assoc]
    rw [hFewer, UInt32.ofNat_add] at hLive
    have hOne : UInt32.ofNat 1 = 1 := rfl
    calc
      s.gLive - 1 + s.uncounted =
          s.gLive + s.uncounted - 1 := by grind
      _ = UInt32.ofNat
            (running (s.threadStep i .leave)) := by grind
  · intro x
    refine Eq.trans ?_ (hHeld x)
    simp only [threadStep, Threaded.held, hSet]
    simp only [hSplit, List.flatMap_append,
      List.flatMap_cons, ThreadPoint.fds]

theorem step
    (hAcc : Accounted s)
    {i : ThreadedStep}
    (hAllowed : s.Allowed i) :
    Accounted (s.step i) := by
  cases i with
  | accept answer =>
      by_cases hNow : s.main = .accept
      · simp only [Threaded.step, if_pos hNow]
        exact hAcc.accepted hNow hAllowed
      · simpa only [Threaded.step, if_neg hNow] using hAcc
  | create answer =>
      simp only [Threaded.step]
      split
      · next fd hNow => exact hAcc.created hNow answer
      · exact hAcc
  | main => exact hAcc.mainStep
  | recv i answer =>
      simp only [Threaded.step]
      split
      · next fd hNow =>
          refine hAcc.thread_moves hNow (by simp) ?_ ?_
          · cases answer <;> simp [received]
          · cases answer <;> rfl
      · exact hAcc
  | thread i =>
      simp only [Threaded.step]
      cases hNow : s.threads[i]? with
      | none => exact hAcc
      | some point =>
          cases point with
          | recv fd => exact hAcc
          | gone => exact hAcc
          | close fd => exact hAcc.thread_closes hNow
          | leave => exact hAcc.thread_leaves hNow

end Accounted

/- Every number `main` prints is exact when it is read. -/
theorem Accounted.prints_exact
    (hAcc : Accounted s)
    {i : ThreadedStep}
    {report : Report}
    (hPrints : report ∈ s.prints i) :
    report.count = UInt32.ofNat (s.step i).running := by
  have hLive := hAcc.live
  cases i with
  | accept answer => cases hPrints
  | create answer => cases hPrints
  | recv i answer => cases hPrints
  | thread i => cases hPrints
  | main =>
      cases hNow : s.main with
      | accept => simp [prints, hNow] at hPrints
      | create fd => simp [prints, hNow] at hPrints
      | giveUp fd => simp [prints, hNow] at hPrints
      | pause => simp [prints, hNow] at hPrints
      | count =>
          simp only [prints, hNow] at hPrints
          simp only [uncounted, hNow, if_true] at hLive
          split at hPrints
          · rw [List.mem_singleton.mp hPrints]
            simpa [Report.count, Threaded.step,
              Threaded.mainStep, hNow, running] using hLive
          · cases hPrints
      | acceptFailed why =>
          simp only [prints, hNow] at hPrints
          rw [List.mem_singleton.mp hPrints]
          simpa [Report.count, Threaded.step, uncounted,
            Threaded.mainStep, hNow, running] using hLive
      | createFailed fd why rc =>
          simp only [prints, hNow] at hPrints
          rw [List.mem_singleton.mp hPrints]
          simpa [Report.count, Threaded.step, uncounted,
            Threaded.mainStep, hNow, running] using hLive
      | stop =>
          simp only [prints, hNow] at hPrints
          rw [List.mem_singleton.mp hPrints]
          simpa [Report.count, Threaded.step, uncounted,
            Threaded.mainStep, hNow, running] using hLive

/-
  The books of the thread-per-connection server. However
  its threads interleave, `g_live` is the number of running
  threads, but for one that `main` has started and not yet
  counted; every open descriptor is in the hands of exactly
  one thread and is closed by that thread alone; and every
  number that `main` prints was the number of running
  threads when it was read.
-/
theorem run_accounted
    (steps : List ThreadedStep)
    (hAllowed :
      Machine.Permitted step Allowed start steps) :
    Accounted (Machine.run step start steps) ∧
      ∀ before i after, steps = before ++ i :: after →
        ∀ report ∈
            prints (Machine.run step start before) i,
          report.count =
            UInt32.ofNat
              (running
                (Machine.run step start
                  (before ++ [i]))) := by
  have hEach {part : List ThreadedStep}
      (hPart : Machine.Permitted step Allowed start part) :
      Accounted (Machine.run step start part) :=
    Machine.run_invariant Accounted
      (fun _ _ hAcc hNow => hAcc.step hNow)
      accounted_start hPart
  refine ⟨hEach hAllowed, ?_⟩
  intro before i after hSplit report hPrints
  rw [hSplit, Machine.permitted_append] at hAllowed
  rw [Machine.run_append]
  exact (hEach hAllowed.1).prints_exact hPrints

/-
  The first thread is gone before `main` counts it; then no
  second one can be started.
-/
def overtakingSteps : List ThreadedStep :=
  [.accept (.ok 5), .create none, .recv 0 .eof, .thread 0,
    .thread 0, .main, .accept (.ok 5),
    .create (some ("Resource temporarily unavailable", 35)),
    .main, .main, .main]

theorem run_accounted_overtaking :
    running (Machine.run step start overtakingSteps) = 0 ∧
      Accounted
        (Machine.run step start overtakingSteps) ∧
      prints
          (Machine.run step start
            (overtakingSteps.take 10))
          .main = [.stopped 0] := by
  have hAllowed :
      Machine.Permitted step Allowed start
        overtakingSteps := by
    simp [overtakingSteps, Machine.Permitted, Allowed,
      start, step, accepted, created, received, mainStep,
      threadStep]
  exact ⟨by decide, (run_accounted _ hAllowed).1,
    by decide⟩

end Threaded

end SocketExchange

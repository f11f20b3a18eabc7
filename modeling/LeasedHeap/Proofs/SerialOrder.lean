import LeasedHeap.Proofs.Decisions
import LeasedHeap.Proofs.Interleaving
import Mathlib.Data.List.Induction

/-
  Threads that take turns come to what some order comes to.

  Calls can be made one at a time, each of them whole.  When
  threads take turns, and storage is there for whatever the
  limit admits, a call takes its place in such an order at
  the step that decides it.  So the place lies between the
  start and the end of the call: the order keeps to that of
  the calls which do not overlap.  The threads come to the
  same verdicts, and the collector to the same counts.

  Key definitions include:
    * `Pool.callOnce` and `Pool.serial`
    * `Pool.Precedes`
    * `Worker.Follows`
    * `Pool.Tracks`
    * `Pool.Serializes`

  Main declarations:
    * `Worker.Follows.step`
    * `Pool.Tracks.step` and `Pool.exists_order`
    * `Pool.returned_sum`
    * `Pool.turns_are_serializable`
-/

namespace LeasedHeap

------------------------------------------------------------
-- One Call at a Time
------------------------------------------------------------

namespace Worker

/- The next call of a thread, with nothing in between. -/
def callOnce
    (t : Terms)
    (c : Counters)
    (th : Worker) : Counters × Worker :=
  match th.calls with
  | [] => (c, th)
  | call :: _ =>
      let ran := (call.steps t th.leases).run c []
      (ran.2.1, (th.start t).finish ran.1)

end Worker

namespace Pool

/- The next call of the thread in some place. -/
def callOnce
    (p : Pool)
    (i : Nat) : Pool :=
  match p.workers[i]? with
  | none => p
  | some th =>
      let (counters, th) := th.callOnce p.terms p.counters
      { p with counters, workers := p.workers.set i th }

/- Calls one at a time, in an order of the threads. -/
def serial
    (p : Pool)
    (order : List Nat) : Pool :=
  order.foldl callOnce p

/- The calls that a thread has ended. -/
def ended
    (p : Pool)
    (i : Nat) : Nat :=
  match p.workers[i]? with
  | none => 0
  | some th => th.results.length

/- The calls that a thread has begun. -/
def begun
    (p : Pool)
    (i : Nat) : Nat :=
  match p.workers[i]? with
  | none => 0
  | some th =>
      th.results.length + th.running.toList.length

/-
  In the turns of a schedule one call ends before another
  begins.  A call is named by its thread and its number.
-/
def Precedes
    (p : Pool)
    (schedule : List Nat)
    (x y : Nat × Nat) : Prop :=
  ∃ before after,
    schedule = before ++ after ∧
      x.2 < (p.run before).ended x.1 ∧
      (p.run before).begun y.1 ≤ y.2

end Pool

/-
  In an order of threads one call comes before another: the
  first part of the order has the one and not the other.
-/
def ComesBefore
    (order : List Nat)
    (x y : Nat × Nat) : Prop :=
  ∃ before after,
    order = before ++ after ∧
      x.2 < before.count x.1 ∧
      before.count y.1 ≤ y.2

namespace Pool

variable {p q : Pool}

@[simp]
theorem serial_append
    (p : Pool)
    (order more : List Nat) :
    p.serial (order ++ more) =
      (p.serial order).serial more :=
  List.foldl_append

@[simp]
theorem terms_callOnce
    (p : Pool)
    (i : Nat) :
    (p.callOnce i).terms = p.terms := by
  unfold callOnce
  split <;> rfl

@[simp]
theorem terms_serial
    (p : Pool)
    (order : List Nat) :
    (p.serial order).terms = p.terms := by
  induction order generalizing p with
  | nil => rfl
  | cons i order ih =>
      exact (ih (p.callOnce i)).trans (terms_callOnce p i)

@[simp]
theorem terms_step
    (p : Pool)
    (i : Nat) :
    (p.step i).terms = p.terms := by
  unfold step
  split <;> rfl

@[simp]
theorem terms_run
    (p : Pool)
    (schedule : List Nat) :
    (p.run schedule).terms = p.terms := by
  induction schedule generalizing p with
  | nil => rfl
  | cons i schedule ih =>
      exact (ih (p.step i)).trans (terms_step p i)

------------------------------------------------------------
-- One Call at a Time as Turns
------------------------------------------------------------

private theorem lt_length
    {i : Nat}
    {th : Worker}
    (hi : p.workers[i]? = some th) :
    i < p.workers.length :=
  (List.getElem?_eq_some_iff.mp hi).1

private theorem set_self
    {i : Nat}
    {th : Worker}
    (hi : p.workers[i]? = some th) :
    p.workers.set i th = p.workers := by
  rcases List.getElem?_eq_some_iff.mp hi with ⟨hLt, rfl⟩
  exact List.set_getElem_self hLt

/- One turn of the thread in some place. -/
theorem step_eq
    {i : Nat}
    {th : Worker}
    (hi : p.workers[i]? = some th) :
    p.step i =
      { p with
        counters := (th.step p.terms p.counters).1
        workers :=
          p.workers.set i
            (th.step p.terms p.counters).2 } := by
  unfold step
  rw [hi]

/-
  A thread that is in a call ends it when it takes turns by
  itself.
-/
private theorem exists_turns_running
    {i : Nat}
    {th : Worker}
    {s : Steps CallResult}
    (hi : p.workers[i]? = some th)
    (hRunning : th.running = some s) :
    ∃ n,
      p.run (List.replicate n i) =
        { p with
          counters := (s.run p.counters []).2.1
          workers :=
            p.workers.set i
              (th.finish (s.run p.counters []).1) } := by
  suffices hLog :
      ∀ log, ∃ n,
        p.run (List.replicate n i) =
          { p with
            counters := (s.run p.counters log).2.1
            workers :=
              p.workers.set i
                (th.finish (s.run p.counters log).1) } from
    hLog []
  intro log
  induction s generalizing p th log with
  | done r =>
      refine ⟨1, ?_⟩
      have hStep := step_eq hi
      rw [Worker.step, hRunning] at hStep
      exact hStep
  | note n rest ih =>
      have hStep := step_eq hi
      rw [Worker.step, hRunning] at hStep
      have hNext :
          (p.step i).workers[i]? =
            some { th with running := some rest } := by
        rw [hStep]
        exact List.getElem?_set_self (lt_length hi)
      rcases ih hNext rfl (n :: log) with ⟨k, hRun⟩
      refine ⟨k + 1, hRun.trans ?_⟩
      rw [hStep]
      simp [Steps.run, Worker.finish]
  | act op rest ih =>
      have hStep := step_eq hi
      rw [Worker.step, hRunning] at hStep
      have hNext :
          (p.step i).workers[i]? =
            some
              { th with
                running := some (rest (p.counters.act op).1)
                owed :=
                  th.owed +
                    op.counted (p.counters.act op).1 } := by
        rw [hStep]
        exact List.getElem?_set_self (lt_length hi)
      rcases ih _ hNext rfl log with ⟨k, hRun⟩
      refine ⟨k + 1, hRun.trans ?_⟩
      rw [hStep]
      simp [Steps.run, Worker.finish]

/- One whole call of the thread in some place. -/
theorem callOnce_eq
    {i : Nat}
    {th : Worker}
    (hi : p.workers[i]? = some th) :
    p.callOnce i =
      { p with
        counters := (th.callOnce p.terms p.counters).1
        workers :=
          p.workers.set i
            (th.callOnce p.terms p.counters).2 } := by
  unfold callOnce
  rw [hi]

/- A call that is made whole is a call that is not interrupted. -/
theorem exists_turns_callOnce
    {i : Nat}
    (hIdle :
      ∀ th, p.workers[i]? = some th → th.running = none) :
    ∃ n, p.run (List.replicate n i) = p.callOnce i := by
  cases hi : p.workers[i]? with
  | none =>
      refine ⟨0, ?_⟩
      unfold callOnce
      rw [hi]
      rfl
  | some th =>
      rw [callOnce_eq hi]
      unfold Worker.callOnce
      cases hCalls : th.calls with
      | nil =>
          refine ⟨0, ?_⟩
          simp only
          rw [set_self hi]
          rfl
      | cons call calls =>
          have hStep := step_eq hi
          rw [Worker.step, hIdle th hi] at hStep
          have hNext :
              (p.step i).workers[i]? =
                some (th.start p.terms) := by
            rw [hStep]
            exact List.getElem?_set_self (lt_length hi)
          have hRunning :
              (th.start p.terms).running =
                some (call.steps p.terms th.leases) := by
            simp only [Worker.start, hCalls]
          rcases exists_turns_running hNext hRunning with
            ⟨k, hRun⟩
          refine ⟨k + 1, hRun.trans ?_⟩
          rw [hStep]
          simp

/- A thread that makes a call whole is in no call after it. -/
theorem idle_callOnce
    (hIdle : ∀ th ∈ p.workers, th.running = none)
    (i : Nat) :
    ∀ th ∈ (p.callOnce i).workers, th.running = none := by
  unfold callOnce
  split
  · exact hIdle
  · rename_i u hi
    intro th hMem
    rcases List.mem_or_eq_of_mem_set hMem with hOld | rfl
    · exact hIdle th hOld
    · unfold Worker.callOnce
      split
      · exact hIdle u (List.mem_of_getElem? hi)
      · rfl

theorem idle_serial
    (hIdle : ∀ th ∈ p.workers, th.running = none)
    (order : List Nat) :
    ∀ th ∈ (p.serial order).workers, th.running = none := by
  induction order generalizing p with
  | nil => exact hIdle
  | cons i order ih => exact ih (idle_callOnce hIdle i)

/- An order of whole calls is a schedule of turns. -/
theorem exists_turns_serial
    (hIdle : ∀ th ∈ p.workers, th.running = none)
    (order : List Nat) :
    ∃ schedule, p.run schedule = p.serial order := by
  induction order generalizing p with
  | nil => exact ⟨[], rfl⟩
  | cons i order ih =>
      rcases exists_turns_callOnce
          (fun th hi =>
            hIdle th (List.mem_of_getElem? hi)) with
        ⟨n, hOnce⟩
      rcases ih (idle_callOnce hIdle i) with
        ⟨schedule, hRest⟩
      refine ⟨List.replicate n i ++ schedule, ?_⟩
      unfold run at hOnce hRest ⊢
      rw [List.foldl_append, hOnce, hRest]
      rfl

end Pool

------------------------------------------------------------
-- Following a Thread
------------------------------------------------------------

namespace Worker

/- What a thread has come to, but for what refusals tell. -/
def verdicts (th : Worker) : List CallResult :=
  th.results.map CallResult.verdict

/-
  One thread takes turns, and another makes its calls whole.
  The other is behind as long as the call that is running is
  not decided, and ahead when it is.
-/
inductive Follows
    (t : Terms)
    (th u : Worker) : Prop where
| between :
    th.running = none →
    u.calls = th.calls →
    u.leases = th.leases →
    u.verdicts = th.verdicts →
    Follows t th u
| undecided (call : Call) :
    th.running = some (call.steps t u.leases) →
    u.calls = call :: th.calls →
    (u.start t).leases = th.leases →
    u.verdicts = th.verdicts →
    Follows t th u
| decided (s : Steps CallResult) (r : CallResult) :
    th.running = some s →
    s.Settles t (fun r' => r'.verdict = r.verdict) →
    u.calls = th.calls →
    u.leases = (th.finish r).leases →
    u.verdicts = (th.finish r).verdicts →
    Follows t th u

variable {t : Terms}
variable {th u : Worker}
variable {c c' : Counters}

/- What a call comes to is known from its verdict. -/
theorem finish_congr
    (th : Worker)
    {r r' : CallResult}
    (hVerdict : r.verdict = r'.verdict) :
    (th.finish r).leases = (th.finish r').leases ∧
      (th.finish r).verdicts = (th.finish r').verdicts := by
  refine ⟨?_, ?_⟩
  · have hLeases :
        ∀ r, (th.finish r).leases =
          (th.finish r.verdict).leases := by
      intro r
      cases r <;> rfl
    rw [hLeases r, hVerdict, ← hLeases r']
  · simp only [verdicts, finish, List.map_cons, hVerdict]

/- What making a call whole does. -/
theorem callOnce_eq
    {call : Call}
    {calls : List Call}
    (hCalls : u.calls = call :: calls) :
    u.callOnce t c =
      (((call.steps t u.leases).run c []).2.1,
        (u.start t).finish
          ((call.steps t u.leases).run c []).1) := by
  unfold callOnce
  rw [hCalls]

/- The calls that are left after one was made whole. -/
theorem calls_callOnce
    {call : Call}
    {calls : List Call}
    (hCalls : u.calls = call :: calls) :
    (u.callOnce t c).2.calls = calls := by
  rw [callOnce_eq hCalls]
  simp only [finish, start, hCalls]

/- A call that started and ended leaves what it came to. -/
private theorem finish_start
    {call : Call}
    (r : CallResult)
    (hCalls : u.calls = call :: th.calls)
    (hLeases : (u.start t).leases = th.leases)
    (hVerdicts : u.verdicts = th.verdicts) :
    ((u.start t).finish r).calls = th.calls ∧
      ((u.start t).finish r).leases =
          (th.finish r).leases ∧
        ((u.start t).finish r).verdicts =
          (th.finish r).verdicts := by
  refine ⟨?_, ?_, ?_⟩
  · simp only [finish, start, hCalls]
  · simp only [finish, hLeases]
  · unfold verdicts at hVerdicts ⊢
    simp only [finish, List.map_cons, start, hCalls,
      hVerdicts]

/- A call that starts is not decided yet. -/
private theorem follows_start
    (hRunning : th.running = none)
    (hCalls : u.calls = th.calls)
    (hLeases : u.leases = th.leases)
    (hVerdicts : u.verdicts = th.verdicts) :
    (th.start t).Follows t u := by
  cases hNext : th.calls with
  | nil =>
      simp only [start, hNext]
      exact .between hRunning hCalls hLeases hVerdicts
  | cons call calls =>
      rw [hNext] at hCalls
      refine .undecided call ?_ ?_ ?_ ?_
      · simp only [start, hNext, hLeases]
      · simp only [start, hNext, hCalls]
      · simp only [start, hNext, hCalls, hLeases]
      · simp only [start, hNext, verdicts] at hVerdicts ⊢
        exact hVerdicts

/-
  When a thread takes a turn, the thread that follows it does
  nothing or makes its next call, and follows it still.  Both
  see the same live bytes, before and after.
-/
theorem Follows.step
    (hFollows : th.Follows t u)
    (hProvides :
      ∀ n, t.limit.admits n → t.provides n = true)
    (hExact : ∀ call ∈ u.calls, call.Exact)
    (hSame : c'.live = c.live)
    (hBefore : t.limit.admits c.live)
    (hAfter : t.limit.admits (th.step t c).1.live) :
    ((th.step t c).2.Follows t u ∧
        (th.step t c).1.live = c.live) ∨
      ((∃ call calls, u.calls = call :: calls) ∧
        (th.step t c).2.Follows t (u.callOnce t c').2 ∧
        (th.step t c).1.live =
          (u.callOnce t c').1.live) := by
  cases hFollows with
  | between hRunning hCalls hLeases hVerdicts =>
      left
      rw [Worker.step, hRunning]
      exact
        ⟨follows_start hRunning hCalls hLeases hVerdicts,
          rfl⟩
  | undecided call hRunning hCalls hLeases hVerdicts =>
      right
      refine ⟨⟨call, _, hCalls⟩, ?_⟩
      have hDecides :=
        Call.decides_steps hProvides u.leases
          (hExact call (by rw [hCalls]; exact List.mem_cons_self))
      rw [Worker.step, hRunning] at hAfter ⊢
      rw [callOnce_eq hCalls]
      generalize call.steps t u.leases = s
        at hDecides hAfter ⊢
      have hFinish := fun r =>
        finish_start r hCalls hLeases hVerdicts
      cases s with
      | done r =>
          rcases hFinish r with ⟨hNext, hHeld, hTold⟩
          exact ⟨.between rfl hNext hHeld hTold, hSame.symm⟩
      | note n rest => exact hDecides.elim
      | act op rest =>
          rcases hDecides c hBefore with ⟨hLive, hRest⟩
          simp only at hAfter
          have hRun :=
            hDecides.run (hSame ▸ hBefore)
              (hSame ▸ hLive ▸ hAfter) []
          rw [hSame] at hRun
          rcases hFinish ((Steps.act op rest).run c' []).1
            with ⟨hNext, hHeld, hTold⟩
          refine
            ⟨.decided _ _ rfl ?_ hNext hHeld hTold,
              hLive.trans hRun.2.symm⟩
          rw [hRun.1]
          exact hRest
  | decided s r hRunning hSettles hCalls hLeases hVerdicts =>
      left
      rw [Worker.step, hRunning]
      cases s with
      | done r' =>
          have hSame := finish_congr th hSettles
          refine ⟨.between rfl hCalls ?_ ?_, rfl⟩
          · exact hLeases.trans hSame.1.symm
          · exact hVerdicts.trans hSame.2.symm
      | note n rest =>
          exact
            ⟨.decided rest r rfl hSettles hCalls hLeases
              hVerdicts, rfl⟩
      | act op rest =>
          rcases hSettles c hBefore with ⟨hLive, hRest⟩
          exact
            ⟨.decided _ r rfl hRest hCalls hLeases hVerdicts,
              hLive⟩

/-
  The thread that follows has ended what this one has ended,
  and no more than it has begun.
-/
theorem Follows.length_le
    (hFollows : th.Follows t u) :
    th.results.length ≤ u.results.length ∧
      u.results.length ≤
        th.results.length + th.running.toList.length := by
  have hLength :
      ∀ u' : Worker, u.verdicts = u'.verdicts →
        u.results.length = u'.results.length := by
    intro u' hVerdicts
    have hLengths := congrArg List.length hVerdicts
    simpa [verdicts] using hLengths
  cases hFollows with
  | between hRunning hCalls hLeases hVerdicts =>
      have hSame := hLength th hVerdicts
      omega
  | undecided call hRunning hCalls hLeases hVerdicts =>
      have hSame := hLength th hVerdicts
      omega
  | decided s r hRunning hSettles hCalls hLeases hVerdicts =>
      have hSame := hLength (th.finish r) hVerdicts
      simp only [finish, List.length_cons] at hSame
      rw [hRunning]
      simp only [Option.toList_some, List.length_singleton]
      omega

/- The same calls to come, the same leases and verdicts. -/
structure Alike (th u : Worker) : Prop where
  calls : u.calls = th.calls
  leases : u.leases = th.leases
  verdicts : u.verdicts = th.verdicts

/- A thread that is in no call is like the one that follows. -/
theorem Follows.alike
    (hFollows : th.Follows t u)
    (hIdle : th.running = none) :
    th.Alike u := by
  cases hFollows with
  | between hRunning hCalls hLeases hVerdicts =>
      exact ⟨hCalls, hLeases, hVerdicts⟩
  | undecided call hRunning =>
      rw [hIdle] at hRunning
      cases hRunning
  | decided s r hRunning =>
      rw [hIdle] at hRunning
      cases hRunning

theorem rel_alike
    {a b : Option Worker}
    (hRel : Option.Rel (Follows t) a b)
    (hIdle : ∀ th, a = some th → th.running = none) :
    Option.Rel Alike a b := by
  cases hRel with
  | none => exact .none
  | some hFollows =>
      exact .some (hFollows.alike (hIdle _ rfl))

end Worker

------------------------------------------------------------
-- Following a Pool
------------------------------------------------------------

namespace Pool

/-
  Whole calls in an order follow a pool whose threads take
  turns: thread by thread, and in the live bytes.
-/
structure Tracks
    (start p : Pool)
    (order : List Nat) : Prop where
  live :
    (start.serial order).counters.live = p.counters.live
  workers :
    ∀ i : Nat, Option.Rel (Worker.Follows start.terms)
      p.workers[i]? (start.serial order).workers[i]?
  counted :
    ∀ i, order.count i = (start.serial order).ended i
  exact :
    ∀ u ∈ (start.serial order).workers,
      ∀ call ∈ u.calls, call.Exact

variable {start p : Pool}
variable {order : List Nat}

/- At the start no call was made. -/
theorem tracks_ofCalls
    (t : Terms)
    {calls : List (List Call)}
    (hExact : ∀ cs ∈ calls, ∀ call ∈ cs, call.Exact) :
    (ofCalls t calls).Tracks (ofCalls t calls) [] := by
  refine ⟨rfl, fun i => ?_, fun i => ?_, ?_⟩
  · change Option.Rel _ (calls.map Worker.ofCalls)[i]?
      (calls.map Worker.ofCalls)[i]?
    rw [List.getElem?_map]
    cases calls[i]? with
    | none => exact .none
    | some cs => exact .some (.between rfl rfl rfl rfl)
  · change 0 = (ofCalls t calls).ended i
    simp only [ended, ofCalls, List.getElem?_map]
    cases calls[i]? <;> rfl
  · intro u hu call hCall
    rcases List.mem_map.mp hu with ⟨cs, hMem, rfl⟩
    exact hExact cs hMem call hCall

/- One thread in each of two pools is replaced. -/
private theorem rel_set
    {t : Terms}
    {ws us : List Worker}
    {i : Nat}
    {th th' u u' : Worker}
    (hRel :
      ∀ j : Nat,
        Option.Rel (Worker.Follows t) ws[j]? us[j]?)
    (hi : ws[i]? = some th)
    (hu : us[i]? = some u)
    (hFollows : th'.Follows t u')
    (j : Nat) :
    Option.Rel (Worker.Follows t)
      (ws.set i th')[j]? (us.set i u')[j]? := by
  by_cases hj : i = j
  · subst hj
    rw [List.getElem?_set_self
        (List.getElem?_eq_some_iff.mp hi).1,
      List.getElem?_set_self
        (List.getElem?_eq_some_iff.mp hu).1]
    exact .some hFollows
  · rw [List.getElem?_set_ne hj, List.getElem?_set_ne hj]
    exact hRel j

/- Calls that a thread has ended when another made one. -/
private theorem ended_callOnce
    {i : Nat}
    {u : Worker}
    (hu : p.workers[i]? = some u)
    (hCalls : ∃ call calls, u.calls = call :: calls)
    (j : Nat) :
    (p.callOnce i).ended j =
      p.ended j + [i].count j := by
  rcases hCalls with ⟨call, calls, hCalls⟩
  unfold callOnce ended
  rw [hu]
  simp only
  by_cases hj : i = j
  · subst hj
    rw [List.getElem?_set_self (lt_length hu), hu,
      Worker.callOnce_eq hCalls]
    simp [Worker.finish, Worker.start, hCalls]
  · rw [List.getElem?_set_ne hj]
    simp [hj]

/- A turn that decides no call leaves the order as it is. -/
private theorem Tracks.stays
    {counters : Counters}
    {i : Nat}
    {th th' u : Worker}
    (hTracks : start.Tracks p order)
    (hi : p.workers[i]? = some th)
    (hu : (start.serial order).workers[i]? = some u)
    (hFollows : th'.Follows start.terms u)
    (hLive : counters.live = p.counters.live) :
    start.Tracks
      ⟨start.terms, counters, p.workers.set i th'⟩
      order := by
  refine
    ⟨hTracks.live.trans hLive.symm, fun j => ?_,
      hTracks.counted, hTracks.exact⟩
  have hSet := rel_set hTracks.workers hi hu hFollows j
  rw [set_self hu] at hSet
  exact hSet

/- The call that a turn decides is the next in the order. -/
private theorem Tracks.decides
    {counters : Counters}
    {i : Nat}
    {th th' u : Worker}
    (hTracks : start.Tracks p order)
    (hi : p.workers[i]? = some th)
    (hu : (start.serial order).workers[i]? = some u)
    (hCalls : ∃ call calls, u.calls = call :: calls)
    (hFollows :
      th'.Follows start.terms
        (u.callOnce start.terms
          (start.serial order).counters).2)
    (hLive :
      counters.live =
        (u.callOnce start.terms
          (start.serial order).counters).1.live) :
    start.Tracks
      ⟨start.terms, counters, p.workers.set i th'⟩
      (order ++ [i]) := by
  have hOnce :
      start.serial (order ++ [i]) =
        (start.serial order).callOnce i := by
    rw [serial_append]
    rfl
  have hMade := callOnce_eq hu
  rw [terms_serial] at hMade
  refine ⟨?_, fun j => ?_, fun j => ?_, ?_⟩
  · rw [hOnce, hMade]
    exact hLive.symm
  · rw [hOnce, hMade]
    exact rel_set hTracks.workers hi hu hFollows j
  · rw [hOnce, ended_callOnce hu hCalls, List.count_append,
      hTracks.counted]
  · rw [hOnce, hMade]
    intro v hv call hCall
    rcases List.mem_or_eq_of_mem_set hv with hOld | rfl
    · exact hTracks.exact v hOld call hCall
    · rcases hCalls with ⟨first, calls, hCalls⟩
      rw [Worker.calls_callOnce hCalls] at hCall
      apply hTracks.exact u (List.mem_of_getElem? hu)
      rw [hCalls]
      exact List.mem_cons_of_mem _ hCall

/- A turn is followed by nothing, or by one whole call. -/
theorem Tracks.step
    (hTracks : start.Tracks p order)
    (hTerms : p.terms = start.terms)
    (hProvides :
      ∀ n, start.terms.limit.admits n →
        start.terms.provides n = true)
    (hBefore : p.terms.limit.admits p.counters.live)
    (i : Nat)
    (hAfter :
      p.terms.limit.admits (p.step i).counters.live) :
    ∃ more, start.Tracks (p.step i) (order ++ more) := by
  have hRel := hTracks.workers i
  cases hi : p.workers[i]? with
  | none =>
      refine ⟨[], ?_⟩
      have hStep : p.step i = p := by
        unfold Pool.step
        rw [hi]
      rw [hStep, List.append_nil]
      exact hTracks
  | some th =>
      rw [hi] at hRel
      cases hu : (start.serial order).workers[i]? with
      | none =>
          rw [hu] at hRel
          cases hRel
      | some u =>
          rw [hu] at hRel
          have hExact :=
            hTracks.exact u (List.mem_of_getElem? hu)
          rw [step_eq hi, hTerms] at hAfter ⊢
          rw [hTerms] at hBefore
          rcases hRel with ⟨hFollows⟩
          rcases
              hFollows.step hProvides hExact hTracks.live
                hBefore hAfter with
            ⟨hStill, hLive⟩ | ⟨hCalls, hNext, hLive⟩
          · refine ⟨[], ?_⟩
            rw [List.append_nil]
            exact hTracks.stays hi hu hStill hLive
          · exact
              ⟨[i], hTracks.decides hi hu hCalls hNext hLive⟩

/-
  What is ended is in the order, and what is in the order has
  begun.
-/
theorem Tracks.count_between
    (hTracks : start.Tracks p order)
    (i : Nat) :
    p.ended i ≤ order.count i ∧
      order.count i ≤ p.begun i := by
  rw [hTracks.counted]
  have hRel := hTracks.workers i
  unfold ended begun
  rcases hi : p.workers[i]? with _ | th <;>
    rcases hu : (start.serial order).workers[i]? with
      _ | u <;>
    rw [hi, hu] at hRel
  · exact ⟨Nat.le_refl _, Nat.le_refl _⟩
  · cases hRel
  · cases hRel
  · rcases hRel with ⟨hFollows⟩
    exact hFollows.length_le

/-
  Every schedule is followed by an order, in which the calls
  stand as they were ended and begun.  The order grows with
  the schedule, so the induction is on the last turn.
-/
theorem exists_order
    {t : Terms}
    {calls : List (List Call)}
    (hProvides :
      ∀ n, t.limit.admits n → t.provides n = true)
    (hExact : ∀ cs ∈ calls, ∀ call ∈ cs, call.Exact)
    (schedule : List Nat) :
    ∃ order,
      (ofCalls t calls).Tracks
          ((ofCalls t calls).run schedule) order ∧
        ∀ before after, schedule = before ++ after →
          ∃ first last,
            order = first ++ last ∧
              ∀ i,
                ((ofCalls t calls).run before).ended i ≤
                    first.count i ∧
                  first.count i ≤
                    ((ofCalls t calls).run before).begun
                      i := by
  induction schedule using List.reverseRecOn with
  | nil =>
      have hTracks := tracks_ofCalls t hExact
      refine ⟨[], hTracks, ?_⟩
      intro before after hSplit
      rcases List.nil_eq_append_iff.mp hSplit with ⟨rfl, rfl⟩
      exact ⟨[], [], rfl, hTracks.count_between⟩
  | append_singleton schedule i ih =>
      rcases ih with ⟨order, hTracks, hPrefixes⟩
      have hStep :
          (ofCalls t calls).run (schedule ++ [i]) =
            ((ofCalls t calls).run schedule).step i := by
        unfold run
        rw [List.foldl_append]
        rfl
      rcases (kept_ofCalls t calls).run schedule with
        ⟨ws, hBefore⟩
      rcases hBefore.step i with ⟨ws', hAfter⟩
      have hLimit := hAfter.limit
      rw [terms_step] at hLimit
      rcases hTracks.step (terms_run _ _) hProvides
          hBefore.limit i hLimit with
        ⟨more, hNext⟩
      rw [← hStep] at hNext
      refine ⟨order ++ more, hNext, ?_⟩
      intro before after hSplit
      rcases List.eq_nil_or_concat after with
        rfl | ⟨after, j, rfl⟩
      · rw [List.append_nil] at hSplit
        subst hSplit
        exact
          ⟨order ++ more, [], (List.append_nil _).symm,
            hNext.count_between⟩
      · rw [List.concat_eq_append, ← List.append_assoc]
          at hSplit
        rcases List.append_inj' hSplit rfl with ⟨hSplit, _⟩
        rcases hPrefixes before after hSplit with
          ⟨first, last, rfl, hCount⟩
        exact
          ⟨first, last ++ more, List.append_assoc _ _ _,
            hCount⟩

end Pool

------------------------------------------------------------
-- What Was Returned
------------------------------------------------------------

/- One of some numbers is taken out. -/
private theorem sum_map_eraseIdx
    {f : UInt64 → Nat}
    {leases : List UInt64}
    {k : Nat}
    {bytes : UInt64}
    (hk : leases[k]? = some bytes) :
    f bytes + ((leases.eraseIdx k).map f).sum =
      (leases.map f).sum := by
  rcases List.getElem?_eq_some_iff.mp hk with ⟨hLt, rfl⟩
  have hPerm := List.getElem_cons_eraseIdx_perm hLt
  have hSum := (hPerm.map f).sum_eq
  rw [List.map_cons, List.sum_cons] at hSum
  exact hSum

namespace Worker

variable {t : Terms}

/- What a thread was granted it holds or gives to be returned. -/
theorem granted_step
    (f : UInt64 → Nat)
    (c : Counters)
    (th : Worker) :
    ((th.step t c).2.granted.map f).sum +
        (th.leases.map f).sum =
      (th.granted.map f).sum +
        ((th.step t c).2.leases.map f).sum +
        (th.starting?.toList.map f).sum := by
  cases hRunning : th.running with
  | none =>
      cases hCalls : th.calls with
      | nil => simp [step, hRunning, start, hCalls, starting?]
      | cons call calls =>
          simp only [step, hRunning, start, hCalls, starting?,
            granted]
          cases call with
          | drop k =>
              simp only [Call.returned?]
              cases hk : th.leases[k]? with
              | none =>
                  rw [List.eraseIdx_of_length_le
                    (List.getElem?_eq_none_iff.mp hk)]
                  rfl
              | some bytes =>
                  have hSum := sum_map_eraseIdx (f := f) hk
                  simp
                  omega
          | allocate size => rfl
          | array width hint count => rfl
          | resetPeak => rfl
  | some s =>
      cases s with
      | done r =>
          simp only [step, hRunning, starting?, granted]
          cases r with
          | leased bytes =>
              simp [finish, CallResult.leased?]
              omega
          | refused refusal => rfl
          | settled => rfl
      | note n rest =>
          simp [step, hRunning, starting?, granted]
      | act op rest =>
          simp [step, hRunning, starting?, granted]

end Worker

namespace Pool

variable {p : Pool}

/- The sum of a weight over what all threads were granted. -/
def grantedSum
    (p : Pool)
    (f : UInt64 → Nat) : Nat :=
  (p.workers.map (fun th => (th.granted.map f).sum)).sum

/- The sum of a weight over what all threads hold. -/
def heldSum
    (p : Pool)
    (f : UInt64 → Nat) : Nat :=
  (p.workers.map (fun th => (th.leases.map f).sum)).sum

theorem grantedSum_step
    (p : Pool)
    (f : UInt64 → Nat)
    (i : Nat) :
    (p.step i).grantedSum f + p.heldSum f =
      p.grantedSum f + (p.step i).heldSum f +
        ((p.workers[i]?.bind
          Worker.starting?).toList.map f).sum := by
  cases hi : p.workers[i]? with
  | none =>
      have hStep : p.step i = p := by
        unfold step
        rw [hi]
      rw [hStep]
      rfl
  | some th =>
      have hThread :=
        th.granted_step (t := p.terms) f p.counters
      have hGranted :=
        sum_map_set (fun th => (th.granted.map f).sum) hi
          (th.step p.terms p.counters).2
      have hHeld :=
        sum_map_set (fun th => (th.leases.map f).sum) hi
          (th.step p.terms p.counters).2
      rw [step_eq hi]
      unfold grantedSum heldSum
      simp only [Option.bind_some] at hGranted hHeld ⊢
      omega

/- What was granted and is not held was given to be returned. -/
theorem grantedSum_run
    (p : Pool)
    (f : UInt64 → Nat)
    (schedule : List Nat) :
    (p.run schedule).grantedSum f + p.heldSum f =
      p.grantedSum f + (p.run schedule).heldSum f +
        ((p.returned schedule).map f).sum := by
  induction schedule generalizing p with
  | nil => rfl
  | cons i schedule ih =>
      have hStep := p.grantedSum_step f i
      have hRun := ih (p.step i)
      simp only [returned, List.map_append, List.sum_append]
      change ((p.step i).run schedule).grantedSum f + _ = _ at hRun
      change
        ((p.step i).run schedule).grantedSum f + _ =
          _ + ((p.step i).run schedule).heldSum f + _
      omega

theorem grantedSum_run_ofCalls
    (t : Terms)
    (calls : List (List Call))
    (f : UInt64 → Nat)
    (schedule : List Nat) :
    ((ofCalls t calls).run schedule).grantedSum f =
      ((ofCalls t calls).run schedule).heldSum f +
        (((ofCalls t calls).returned schedule).map
          f).sum := by
  have hRun := (ofCalls t calls).grantedSum_run f schedule
  have hNone :
      (ofCalls t calls).grantedSum f = 0 ∧
        (ofCalls t calls).heldSum f = 0 := by
    unfold grantedSum heldSum ofCalls
    simp only [List.map_map]
    constructor <;>
      exact
        List.sum_eq_zero
          (by simp [Worker.ofCalls, Worker.granted])
  omega

theorem sum_granted
    (p : Pool)
    (f : UInt64 → Nat) :
    (p.granted.map f).sum = p.grantedSum f := by
  unfold granted grantedSum
  rw [List.map_flatMap, List.flatMap_def, List.sum_flatten,
    List.map_map]
  rfl

------------------------------------------------------------
-- Serial Orders
------------------------------------------------------------

/-
  An order of whole calls comes to what the turns of a
  schedule come to: every thread has made the same calls,
  with the same verdicts, and the collector has counted the
  same.  Each thread makes its calls in its own order, and
  calls that do not overlap stand as they were made.
-/
structure Serializes
    (p : Pool)
    (schedule order : List Nat) : Prop where
  workers :
    ∀ i : Nat, Option.Rel Worker.Alike
      (p.run schedule).workers[i]?
      (p.serial order).workers[i]?
  live :
    (p.serial order).counters.live =
      (p.run schedule).counters.live
  allocations :
    (p.serial order).counters.allocations =
      (p.run schedule).counters.allocations
  allocated :
    (p.serial order).counters.allocated =
      (p.run schedule).counters.allocated
  releases :
    (p.serial order).counters.releases =
      (p.run schedule).counters.releases
  reclaimed :
    (p.serial order).counters.reclaimed =
      (p.run schedule).counters.reclaimed
  counted :
    ∀ i, order.count i = (p.run schedule).ended i
  ordered :
    ∀ x y, p.Precedes schedule x y → ComesBefore order x y
  turns : ∃ turns, p.run turns = p.serial order

variable {q : Pool}

/- What like threads were granted, and what they hold. -/
private theorem sums_of_alike
    (hAlike :
      ∀ i : Nat,
        Option.Rel Worker.Alike p.workers[i]? q.workers[i]?)
    (f : UInt64 → Nat) :
    q.grantedSum f = p.grantedSum f ∧
      q.heldSum f = p.heldSum f := by
  have hMap :
      ∀ g : Worker → Nat,
        (∀ th u, th.Alike u → g u = g th) →
          q.workers.map g = p.workers.map g := by
    intro g hg
    have hOption :
        ∀ a b : Option Worker,
          Option.Rel Worker.Alike a b →
            b.map g = a.map g := by
      intro a b hRel
      cases hRel with
      | none => rfl
      | some hRel => exact congrArg some (hg _ _ hRel)
    apply List.ext_getElem?
    intro i
    rw [List.getElem?_map, List.getElem?_map]
    exact hOption _ _ (hAlike i)
  have hGranted :
      ∀ th : Worker,
        th.granted =
          th.verdicts.filterMap CallResult.leased? := by
    intro th
    unfold Worker.granted Worker.verdicts
    rw [List.filterMap_map]
    congr 1
    funext r
    cases r <;> rfl
  unfold grantedSum heldSum
  refine
    ⟨congrArg List.sum (hMap _ ?_),
      congrArg List.sum (hMap _ ?_)⟩
  · intro th u hRel
    rw [hGranted, hGranted, hRel.verdicts]
  · intro th u hRel
    rw [hRel.leases]

/- The counts of a schedule after which no call is running. -/
private theorem counts_of_idle
    {t : Terms}
    {calls : List (List Call)}
    {schedule : List Nat}
    (hRun : (ofCalls t calls).run schedule = p)
    (hIdle : p.isIdle) :
    p.counters.allocations =
        UInt64.ofNat (p.grantedSum (fun _ => 1)) ∧
      p.counters.allocated =
        UInt64.ofNat (p.grantedSum UInt64.toNat) ∧
      p.counters.releases =
        UInt64.ofNat
          (p.grantedSum (fun _ => 1) -
            p.heldSum (fun _ => 1)) ∧
      p.counters.reclaimed =
        UInt64.ofNat
          (p.grantedSum UInt64.toNat -
            p.heldSum UInt64.toNat) := by
  rcases (kept_ofCalls t calls).run schedule with
    ⟨ws, hKept⟩
  have hSums := fun f =>
    grantedSum_run_ofCalls t calls f schedule
  rw [hRun] at hKept
  rw [hRun] at hSums
  rcases hKept.sound.idle hIdle with
    ⟨hAllocations, hAllocated, hReleases, hReclaimed⟩
  rw [hAllocations, hAllocated, hReleases, hReclaimed,
    sum_granted, List.nil_append, hSums, hSums,
    Nat.add_sub_cancel_left, Nat.add_sub_cancel_left,
    ← hSums]
  have hLength : ∀ l : List UInt64,
      (l.map (fun _ => 1)).sum = l.length := by
    simp
  rw [← hLength p.granted, sum_granted, hLength]
  exact ⟨rfl, rfl, rfl, rfl⟩

/-
  What one call precedes in a schedule it comes before in an
  order that grew with the schedule.
-/
private theorem comesBefore_of_precedes
    {schedule order : List Nat}
    {x y : Nat × Nat}
    (hPrefixes :
      ∀ before after, schedule = before ++ after →
        ∃ first last,
          order = first ++ last ∧
            ∀ i,
              (p.run before).ended i ≤ first.count i ∧
                first.count i ≤ (p.run before).begun i)
    (hPrecedes : p.Precedes schedule x y) :
    ComesBefore order x y := by
  rcases hPrecedes with
    ⟨before, after, hSplit, hEnded, hBegun⟩
  rcases hPrefixes before after hSplit with
    ⟨first, last, hOrder, hCount⟩
  exact
    ⟨first, last, hOrder,
      Nat.lt_of_lt_of_le hEnded (hCount x.1).1,
      Nat.le_trans (hCount y.1).2 hBegun⟩

/-
  Threads lease blocks and exact arrays and drop what they
  hold, on an allocator that provides all that the limit
  admits.  However they take turns, when no call is running
  there is an order of whole calls that comes to the same.
-/
theorem turns_are_serializable
    (t : Terms)
    (calls : List (List Call))
    (schedule : List Nat)
    (hProvides :
      ∀ n, t.limit.admits n → t.provides n = true)
    (hExact : ∀ cs ∈ calls, ∀ call ∈ cs, call.Exact)
    (hIdle : ((ofCalls t calls).run schedule).isIdle) :
    ∃ order, (ofCalls t calls).Serializes schedule order := by
  rcases exists_order hProvides hExact schedule with
    ⟨order, hTracks, hPrefixes⟩
  have hStart :
      ∀ th ∈ (ofCalls t calls).workers,
        th.running = none := by
    intro th hMem
    rcases List.mem_map.mp hMem with ⟨cs, _, rfl⟩
    rfl
  have hNone :
      ∀ th ∈ ((ofCalls t calls).run schedule).workers,
        th.running = none := by
    intro th hMem
    have hAll := List.all_eq_true.mp hIdle th hMem
    simpa [Worker.isIdle] using hAll
  have hAlike :
      ∀ i : Nat, Option.Rel Worker.Alike
        ((ofCalls t calls).run schedule).workers[i]?
        ((ofCalls t calls).serial order).workers[i]? := by
    intro i
    exact
      Worker.rel_alike (hTracks.workers i)
        (fun th hi => hNone th (List.mem_of_getElem? hi))
  have hSerialIdle :
      ((ofCalls t calls).serial order).isIdle := by
    refine List.all_eq_true.mpr (fun th hMem => ?_)
    rw [Worker.isIdle, idle_serial hStart order th hMem]
    rfl
  rcases exists_turns_serial hStart order with
    ⟨turns, hTurns⟩
  have hCounts := counts_of_idle rfl hIdle
  have hSerial := counts_of_idle hTurns hSerialIdle
  have hSums := sums_of_alike hAlike
  rw [(hSums _).1, (hSums _).1, (hSums _).2, (hSums _).2]
    at hSerial
  refine
    ⟨order, hAlike, hTracks.live,
      hSerial.1.trans hCounts.1.symm,
      hSerial.2.1.trans hCounts.2.1.symm,
      hSerial.2.2.1.trans hCounts.2.2.1.symm,
      hSerial.2.2.2.trans hCounts.2.2.2.symm, ?_,
      fun x y => comesBefore_of_precedes hPrefixes,
      turns, hTurns⟩
  intro i
  have hCount := hTracks.count_between i
  have hSame :
      ((ofCalls t calls).run schedule).begun i =
        ((ofCalls t calls).run schedule).ended i := by
    unfold begun ended
    cases hi :
        ((ofCalls t calls).run schedule).workers[i]? with
    | none => rfl
    | some th =>
        simp [hNone th (List.mem_of_getElem? hi)]
  omega

/-
  An array finds no room while a block is leased.  The next
  one finds the bytes that the drop of the block has given
  back and not yet counted as returned.
-/
theorem turns_are_serializable_contended :
    let t : Terms :=
      ⟨⟨some 8⟩, fun n => decide (n.toNat < 2 ^ 47)⟩
    let p :=
      ofCalls t
        [[.allocate 8, .drop 0],
          [.array 1 4 4, .array 1 4 4]]
    let schedule :=
      [0, 1, 0, 1, 1, 1, 1, 0, 0, 0, 0, 0, 1, 0,
        0, 1, 1, 0, 0, 1, 1, 1, 0, 0, 1, 1, 1, 1]
    (∀ n, t.limit.admits n → t.provides n = true) ∧
      (p.run schedule).isIdle ∧
      ∃ order, p.Serializes schedule order := by
  intro t p schedule
  have hProvides :
      ∀ n, t.limit.admits n → t.provides n = true := by
    intro n hAdmits
    have hLe : n ≤ 8 := of_decide_eq_true hAdmits
    refine decide_eq_true ?_
    exact
      Nat.lt_of_le_of_lt (UInt64.le_iff_toNat_le.mp hLe)
        (by decide)
  have hIdle : (p.run schedule).isIdle := by decide +kernel
  refine ⟨hProvides, hIdle, ?_⟩
  refine
    turns_are_serializable t _ schedule hProvides ?_ hIdle
  simp [Call.Exact]

end Pool

end LeasedHeap

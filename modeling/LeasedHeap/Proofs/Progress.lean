import LeasedHeap.Proofs.Returns

/-
  Threads come to their end.

  A thread has so much work: its errands, the handles that it
  is still to count, what it is still to give up and what is
  left of a return.  Together with what objects can still
  start, every turn of a thread that is not done leaves less.
  So in every schedule in which each thread gets turns enough
  all threads are done.

  Key definitions include:
    * `Hand.isDone`
    * `Hand.work` and `Crew.work`

  Main declarations:
    * `Hand.Acts.work_lt`
    * `Crew.Kept.count_add_work_le`
    * `Crew.Kept.done_of_turns`
-/

namespace LeasedHeap

------------------------------------------------------------
-- Work
------------------------------------------------------------

/- The turns that are left of a call that is alone. -/
def Steps.turns
    {α : Type} : Steps α → Nat
| .done _ => 1
| .act op rest =>
    (rest (Counters.zero.act op).1).turns + 1
| .note _ rest => rest.turns + 1

namespace Hand

/- Nothing is under way, and no errand is left. -/
def isDone (th : Hand) : Bool :=
  th.errands.isEmpty && th.isIdle

/- The work of a thread. -/
def work (th : Hand) : Nat :=
  64 * th.errands.length +
      (th.cloning.elim 0 (fun x => x.2.length + 1)) +
    8 * Frame.loads th.frames +
      (th.returning.elim 0 (fun x => x.2.turns))

/- A thread that is done stays as it is. -/
theorem step_of_isDone
    {κ : Type}
    {th : Hand}
    (hDone : th.isDone = true)
    (h : Heap κ) :
    th.step h = (h, th) := by
  simp only [isDone, isIdle, Bool.and_eq_true,
    List.isEmpty_iff, Option.isNone_iff_eq_none] at hDone
  rcases hDone with
    ⟨hErrands, ⟨hCloning, hFrames⟩, hReturning⟩
  simp only [step, hReturning, reclaim, hFrames, clone,
    hCloning, start, hErrands]

end Hand

/- The work of all threads, and what objects can start. -/
def Crew.work
    {κ : Type}
    (crew : Crew κ) : Nat :=
  8 * crew.heap.objects.total Object.load +
    (crew.hands.map Hand.work).sum

------------------------------------------------------------
-- Less Work
------------------------------------------------------------

/- One more handle is no more work. -/
private theorem Heap.load_retain
    {κ : Type}
    (h : Heap κ)
    (i : ObjectId) :
    (h.retain i).objects.total Object.load =
      h.objects.total Object.load := by
  unfold retain
  split
  · rename_i o hGet
    have hSet :=
      Table.total_set Object.load hGet
        { o with handles := o.handles + 1 }
    simp only [Object.load] at hSet ⊢
    omega
  · rfl

/- A return has fewer turns left after each. -/
private theorem Heap.turns_advance
    {κ : Type}
    (h : Heap κ)
    (c : CollectorId)
    (bytes : UInt64)
    {st : Phase}
    (hNot : st.steps bytes ≠ .done ()) :
    (h.advance c (st.steps bytes)).1.turns <
      (st.steps bytes).turns := by
  cases st with
  | begun => exact Nat.lt_succ_self 4
  | subtracted before => exact Nat.lt_succ_self 3
  | counted before => exact Nat.lt_succ_self 2
  | added before => exact Nat.lt_succ_self 1
  | told => exact absurd rfl hNot

namespace Hand

variable {κ : Type}
variable {h h' : Heap κ}
variable {th th' : Hand}

/- A value is one list or one closure, or nothing to count. -/
private theorem length_objects_le
    (v : Value) :
    v.objects.length ≤ 2 := by
  cases v <;> simp [Value.objects]

/- An errand is more work than what it starts. -/
private theorem work_start_lt
    (hFrames : th.frames = [])
    (hCloning : th.cloning = none)
    (hErrands : th.errands ≠ []) :
    th.start.work < th.work := by
  rcases hList : th.errands with _ | ⟨e, errands⟩
  · exact absurd hList hErrands
  · cases e with
    | clone k =>
        simp only [start, hList, work, hCloning, hFrames]
        cases hk : th.values[k]? with
        | none => simp
        | some v =>
            have hLe := length_objects_le v
            simp
            omega
    | drop k =>
        simp only [start, hList, work, hCloning, hFrames]
        cases hk : th.values[k]? with
        | none => simp
        | some v =>
            simp [Frame.load]
            omega

/- Every turn of a thread that is not done leaves less work. -/
theorem Acts.work_lt
    {y : Option (Lease × Phase)}
    (hActs : th.Acts h h' th')
    (hInPhase : Shift.InPhase (th, y))
    (hNot : th.isDone = false) :
    8 * h'.objects.total Object.load + th'.work <
      8 * h.objects.total Object.load + th.work := by
  cases hActs with
  | ends c hReturning =>
      simp only [work, hReturning]
      simp [Steps.turns]
  | advances c s hReturning hNotDone =>
      have hSome : th.returning = _ := hInPhase
      rw [hReturning] at hSome
      rcases y with _ | ⟨l, st⟩
      · cases hSome
      · have hCall : (c, s) = (l.owner, st.steps l.bytes) :=
          Option.some.inj hSome
        cases hCall
        have hLt :=
          Heap.turns_advance h l.owner l.bytes hNotDone
        simp only [Heap.objects_advance, work, hReturning,
          Option.elim]
        omega
  | returns l fs hIdle hFrames =>
      have hTurns : (Steps.release l.bytes).turns = 5 := rfl
      simp only [work, hIdle, hFrames, Option.elim,
        Frame.loads_cons, Frame.load, hTurns]
      omega
  | reclaims f fs hIdle hFrames hNotLease =>
      have hLt := Heap.load_step_lt h f fs
      simp only [Heap.load] at hLt
      simp only [work, hFrames]
      omega
  | counts v i is hIdle hFrames hCloning =>
      simp only [Heap.load_retain, work, hCloning,
        Option.elim, List.length_cons]
      omega
  | clones v hIdle hFrames hCloning =>
      simp only [work, hCloning, Option.elim]
      simp
  | starts hIdle hFrames hCloning =>
      have hErrands : th.errands ≠ [] := by
        intro hNil
        simp [isDone, isIdle, hNil, hIdle, hFrames,
          hCloning] at hNot
      have hLt := work_start_lt hFrames hCloning hErrands
      omega

end Hand

------------------------------------------------------------
-- Turns Enough
------------------------------------------------------------

namespace Crew

variable {κ : Type}
variable {crew : Crew κ}
variable {xs : List Shift}
variable {reserved : List Lease}
variable {k : Nat}
variable {th : Hand}

/- A turn of a thread that is done changes nothing. -/
private theorem step_of_isDone
    (hk : crew.hands[k]? = some th)
    (hDone : th.isDone = true) :
    crew.step k = crew := by
  rcases List.getElem?_eq_some_iff.mp hk with ⟨hLt, rfl⟩
  rw [step_eq hk, Hand.step_of_isDone hDone,
    List.set_getElem_self]

/- There are as many threads after a turn. -/
private theorem length_step
    (crew : Crew κ)
    (k : Nat) :
    (crew.step k).hands.length = crew.hands.length := by
  cases hk : crew.hands[k]? with
  | none => rw [step_eq_self hk]
  | some th =>
      rw [step_eq hk]
      exact List.length_set

theorem length_run
    (crew : Crew κ)
    (schedule : List Nat) :
    (crew.run schedule).hands.length =
      crew.hands.length := by
  induction schedule generalizing crew with
  | nil => rfl
  | cons k schedule ih =>
      exact (ih (crew.step k)).trans (length_step crew k)

/- A thread that is done stays as it is in every schedule. -/
private theorem run_of_isDone
    (hk : crew.hands[k]? = some th)
    (hDone : th.isDone = true)
    (schedule : List Nat) :
    (crew.run schedule).hands[k]? = some th := by
  induction schedule generalizing crew with
  | nil => exact hk
  | cons j schedule ih =>
      apply ih
      by_cases hj : j = k
      · subst hj
        rw [step_of_isDone hk hDone]
        exact hk
      · cases hThread : crew.hands[j]? with
        | none =>
            rw [step_eq_self hThread]
            exact hk
        | some other =>
            rw [step_eq hThread]
            exact (List.getElem?_set_ne hj).trans hk

/- A turn of a thread that is not done leaves less work. -/
private theorem Kept.work_step_lt
    (hKept : crew.Kept xs reserved)
    (hk : crew.hands[k]? = some th)
    (hNot : th.isDone = false) :
    (crew.step k).work < crew.work := by
  have hThread : xs[k]?.map Prod.fst = some th := by
    rw [← List.getElem?_map, ← hKept.hands]
    exact hk
  rcases Option.map_eq_some_iff.mp hThread with
    ⟨⟨now, y⟩, hShift, rfl⟩
  have hLt :=
    (now.acts_step crew.heap).work_lt
      (hKept.booked.inPhase _
        (List.mem_of_getElem? hShift)) hNot
  have hSum :=
    sum_map_set Hand.work hk (now.step crew.heap).2
  rw [step_eq hk]
  unfold work
  simp only at hSum ⊢
  omega

/- No turn makes more work. -/
private theorem Kept.work_step_le
    (hKept : crew.Kept xs reserved)
    (j : Nat) :
    (crew.step j).work ≤ crew.work := by
  cases hj : crew.hands[j]? with
  | none => rw [step_eq_self hj]
  | some th =>
      cases hDone : th.isDone with
      | true => rw [step_of_isDone hj hDone]
      | false =>
          exact Nat.le_of_lt (hKept.work_step_lt hj hDone)

/-
  A thread that is not done in the end has left less work in
  each of its turns.
-/
theorem Kept.count_add_work_le
    (hKept : crew.Kept xs reserved)
    (schedule : List Nat)
    (hk : (crew.run schedule).hands[k]? = some th)
    (hNot : th.isDone = false) :
    schedule.count k + (crew.run schedule).work ≤
      crew.work := by
  induction schedule generalizing crew xs with
  | nil => simp [Crew.run]
  | cons j schedule ih =>
      rcases hKept.step j with ⟨_, xs', hStep⟩
      have hRest := ih hStep hk
      have hRun :
          crew.run (j :: schedule) =
            (crew.step j).run schedule :=
        rfl
      rw [hRun]
      by_cases hj : j = k
      · subst hj
        rw [List.count_cons_self]
        have hLt : (crew.step j).work < crew.work := by
          cases hThread : crew.hands[j]? with
          | none =>
              have hLength :=
                List.getElem?_eq_none_iff.mp hThread
              have hIndex :=
                (List.getElem?_eq_some_iff.mp hk).1
              rw [length_run] at hIndex
              omega
          | some now =>
              cases hDone : now.isDone with
              | false => exact hKept.work_step_lt hThread hDone
              | true =>
                  have hEnd :=
                    run_of_isDone hThread hDone
                      (j :: schedule)
                  rw [hk] at hEnd
                  cases hEnd
                  rw [hDone] at hNot
                  cases hNot
        omega
      · have hLe := hKept.work_step_le j
        rw [List.count_cons_of_ne hj]
        omega

/- Threads that get turns enough are done. -/
theorem Kept.done_of_turns
    (hKept : crew.Kept xs reserved)
    {schedule : List Nat}
    (hTurns :
      ∀ k, k < crew.hands.length →
        crew.work < schedule.count k) :
    ∀ th ∈ (crew.run schedule).hands, th.isDone = true := by
  intro th hMem
  rcases List.mem_iff_getElem?.mp hMem with ⟨k, hk⟩
  cases hDone : th.isDone with
  | true => rfl
  | false =>
      have hLe := hKept.count_add_work_le schedule hk hDone
      have hLt := (List.getElem?_eq_some_iff.mp hk).1
      rw [length_run] at hLt
      have hCount := hTurns k hLt
      omega

end Crew

end LeasedHeap

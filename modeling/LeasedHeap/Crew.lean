import LeasedHeap.Reclaim

/-
  Threads that share the values of one heap.

  A thread holds values, and clones and drops them.  In one
  turn it counts one handle of one object up or down, takes
  the items out of one payload that nobody else can see, or
  does one indivisible operation on a collector's counters.
  Who takes a turn is up to a schedule, as it is in a `Pool`.

  Key definitions include:
    * `Errand`
    * `Hand`
    * `Hand.step`
    * `Crew`
    * `Crew.run`
-/

namespace LeasedHeap

------------------------------------------------------------
-- Single Turns
------------------------------------------------------------

/- The objects whose handles a value counts. -/
def Value.objects : Value → List ObjectId
| .integer _ => []
| .list p => [p]
| .closure c => [c.environment, c.code]

/- Carry out the next step of a call on a collector. -/
def Heap.advance
    {κ α : Type}
    (h : Heap κ)
    (c : CollectorId) : Steps α → Steps α × Heap κ
| .done a => (.done a, h)
| .note n rest => (rest, h.record (.heap c n))
| .act a rest =>
    let col := h.collector c
    let (r, counters) := col.counters.act a
    (rest r,
      { h with
        collectors :=
          h.collectors.setIfInBounds c { col with counters } })

------------------------------------------------------------
-- Threads
------------------------------------------------------------

/- What a thread does with the values that it holds. -/
inductive Errand where
/- Clone the value in some place. -/
| clone : Nat → Errand
/- Drop the value in some place. -/
| drop : Nat → Errand
deriving DecidableEq, Repr

/-
  A thread: the errands to come, the values held, the value
  that is being cloned with the objects whose handles are
  still to be counted, what is still to be given up, and
  what is left of the return of a lease.
-/
structure Hand where
  errands : List Errand
  values : List Value
  cloning : Option (Value × List ObjectId)
  frames : List Frame
  returning : Option (CollectorId × Steps Unit)

namespace Hand

variable {κ : Type}

/- A thread that holds values and has done nothing yet. -/
def ofErrands
    (values : List Value)
    (errands : List Errand) : Hand where
  errands := errands
  values := values
  cloning := none
  frames := []
  returning := none

/- Start an errand.  A value to drop leaves the hand. -/
def start (th : Hand) : Hand :=
  match th.errands with
  | [] => th
  | .clone k :: errands =>
      { th with
        errands
        cloning := th.values[k]?.map fun v => (v, v.objects) }
  | .drop k :: errands =>
      { th with
        errands
        values := th.values.eraseIdx k
        frames := th.values[k]?.toList.map .value }

/- Go on with the clone of a value, or start an errand. -/
def clone
    (h : Heap κ)
    (th : Hand) : Heap κ × Hand :=
  match th.cloning with
  | none => (h, th.start)
  | some (v, []) =>
      (h,
        { th with
          values := th.values ++ [v]
          cloning := none })
  | some (v, i :: is) =>
      (h.retain i, { th with cloning := some (v, is) })

/- Give something up, if something is to be given up. -/
def reclaim
    (h : Heap κ)
    (th : Hand) : Heap κ × Hand :=
  match th.frames with
  | [] => th.clone h
  | .lease l :: frames =>
      (h,
        { th with
          frames
          returning :=
            some (l.owner, Steps.release l.bytes) })
  | f :: frames =>
      let (started, h) := h.step f
      (h, { th with frames := started ++ frames })

/- One turn of a thread. -/
def step
    (h : Heap κ)
    (th : Hand) : Heap κ × Hand :=
  match th.returning with
  | none => th.reclaim h
  | some (_, .done ()) => (h, { th with returning := none })
  | some (c, s) =>
      let (s, h) := h.advance c s
      (h, { th with returning := some (c, s) })

/- Nothing is under way. -/
def isIdle (th : Hand) : Bool :=
  th.cloning.isNone && th.frames.isEmpty &&
    th.returning.isNone

end Hand

------------------------------------------------------------
-- Crews
------------------------------------------------------------

/- Threads, and the heap that they share. -/
structure Crew (κ : Type) where
  heap : Heap κ
  hands : List Hand

namespace Crew

variable {κ : Type}

/- A turn of the thread in some place. -/
def step
    (crew : Crew κ)
    (i : Nat) : Crew κ :=
  match crew.hands[i]? with
  | none => crew
  | some th =>
      let (heap, th) := th.step crew.heap
      { heap, hands := crew.hands.set i th }

/- Turns in the order of a schedule. -/
def run
    (crew : Crew κ)
    (schedule : List Nat) : Crew κ :=
  schedule.foldl step crew

/- Nothing is under way in any thread. -/
def isIdle (crew : Crew κ) : Bool :=
  crew.hands.all Hand.isIdle

end Crew

end LeasedHeap

import LeasedHeap.Accounting

/-
  Threads that share one collector.

  A thread makes one call after another; each of its turns
  is one indivisible operation on the counters at the most.
  A schedule names the thread whose turn it is, so all
  schedules are all the ways in which threads can interleave.

  Key definitions include:
    * `Call`
    * `Call.steps`
    * `Worker`
    * `Worker.step`
    * `Pool`
    * `Pool.run`
-/

namespace LeasedHeap

------------------------------------------------------------
-- Calls
------------------------------------------------------------

/- What a thread asks of the collector. -/
inductive Call where
/- A block of bytes. -/
| allocate : UInt64 → Call
/-
  An array: the width of an item, the items announced, the
  items given.
-/
| array : UInt64 → UInt64 → Nat → Call
/- Return the lease in some place among those held. -/
| drop : Nat → Call
/- Restart the peak. -/
| resetPeak : Call
deriving DecidableEq, Repr

/- What a call comes to. -/
inductive CallResult where
/- A lease of some bytes. -/
| leased : UInt64 → CallResult
| refused : Refusal → CallResult
/- Nothing to hold, and nothing refused. -/
| settled : CallResult
deriving DecidableEq, Repr

namespace Call

/- The lease that a call returns. -/
def returned?
    (leases : List UInt64) : Call → Option UInt64
| .drop k => leases[k]?
| _ => none

/- The steps of a call of a thread that holds some leases. -/
def steps
    (t : Terms)
    (leases : List UInt64) : Call → Steps CallResult
| .allocate size => do
    match ← t.allocate size with
    | .ok () => return .leased size
    | .error r => return .refused r
| .array width hint count => do
    match ← t.openArray width hint with
    | .error r => return .refused r
    | .ok hinted =>
        match ← t.closeArray width hinted count with
        | .ok size => return .leased size
        | .error r => return .refused r
| .drop k => do
    match leases[k]? with
    | none => return .settled
    | some bytes =>
        Steps.release bytes
        return .settled
| .resetPeak => do
    Steps.resetPeak
    return .settled

end Call

------------------------------------------------------------
-- Threads
------------------------------------------------------------

/-
  A thread: the calls to come, what is left of the call that
  is running, the bytes that this call has counted as live
  and not given back, the leases held, and the results so
  far, the newest first.
-/
structure Worker where
  calls : List Call
  running : Option (Steps CallResult)
  owed : Int
  leases : List UInt64
  results : List CallResult

/- The bytes that an operation counts as live. -/
def Atomic.counted : (a : Atomic) → a.Reply → Int
| .addWithin _ n, some _ => n.toNat
| .giveBack n, _ => -n.toNat
| _, _ => 0

namespace Worker

/- A thread that has made no call. -/
def ofCalls (calls : List Call) : Worker where
  calls := calls
  running := none
  owed := 0
  leases := []
  results := []

/- Start the next call.  A lease to return leaves the hand. -/
def start
    (t : Terms)
    (th : Worker) : Worker :=
  match th.calls with
  | [] => th
  | call :: calls =>
      { th with
        calls
        running := some (call.steps t th.leases)
        owed :=
          ((call.returned? th.leases).getD 0).toNat
        leases :=
          match call with
          | .drop k => th.leases.eraseIdx k
          | _ => th.leases }

/- End the running call. -/
def finish
    (th : Worker)
    (r : CallResult) : Worker :=
  { th with
    running := none
    owed := 0
    leases :=
      match r with
      | .leased bytes => th.leases ++ [bytes]
      | _ => th.leases
    results := r :: th.results }

/- One turn of a thread. -/
def step
    (t : Terms)
    (c : Counters)
    (th : Worker) : Counters × Worker :=
  match th.running with
  | none => (c, th.start t)
  | some (.done r) => (c, th.finish r)
  | some (.note _ rest) => (c, { th with running := some rest })
  | some (.act a rest) =>
      let (r, c) := c.act a
      (c,
        { th with
          running := some (rest r)
          owed := th.owed + a.counted r })

/- No call is running. -/
def isIdle (th : Worker) : Bool :=
  th.running.isNone

end Worker

------------------------------------------------------------
-- Pools
------------------------------------------------------------

/- Threads, and the counters that they share. -/
structure Pool where
  terms : Terms
  counters : Counters
  workers : List Worker

namespace Pool

/- A turn of the thread in some place. -/
def step
    (p : Pool)
    (i : Nat) : Pool :=
  match p.workers[i]? with
  | none => p
  | some th =>
      let (counters, th) := th.step p.terms p.counters
      { p with counters, workers := p.workers.set i th }

/- Turns in the order of a schedule. -/
def run
    (p : Pool)
    (schedule : List Nat) : Pool :=
  schedule.foldl step p

/- No call of any thread is running. -/
def isIdle (p : Pool) : Bool :=
  p.workers.all Worker.isIdle

/- Threads that start on a collector with no leases. -/
def ofCalls
    (t : Terms)
    (calls : List (List Call)) : Pool where
  terms := t
  counters := .zero
  workers := calls.map .ofCalls

end Pool

end LeasedHeap

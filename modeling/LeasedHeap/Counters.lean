import LeasedHeap.Limit

/-
  The counters of a collector and the indivisible operations
  on them.

  Threads that share a collector meet only in its counters,
  and every access is one `Atomic`: it reads and writes the
  counters at one moment.  All counters are words and wrap.

  Key definitions include:
    * `Counters`
    * `Atomic`
    * `Atomic.Reply`
    * `Counters.act`
-/

namespace LeasedHeap

------------------------------------------------------------
-- Counters
------------------------------------------------------------

/-
  What a collector counts: bytes live now and at their peak,
  leases issued and returned, and the bytes of both.
-/
structure Counters where
  live : UInt64
  peak : UInt64
  allocations : UInt64
  releases : UInt64
  allocated : UInt64
  reclaimed : UInt64
deriving DecidableEq, Repr

namespace Counters

/- A collector starts with nothing. -/
def zero : Counters :=
  ⟨0, 0, 0, 0, 0, 0⟩

/- Leases that are out, as the two counts tell it. -/
def liveAllocations (c : Counters) : UInt64 :=
  Word.satSub c.allocations c.releases

end Counters

------------------------------------------------------------
-- Indivisible Operations
------------------------------------------------------------

/- One indivisible operation on shared counters. -/
inductive Atomic where
/- Add to the live bytes if they stay words within a limit. -/
| addWithin : Limit → UInt64 → Atomic
/- Subtract from the live bytes. -/
| giveBack : UInt64 → Atomic
/- Read the live bytes. -/
| loadLive : Atomic
/- Raise the peak to a number, if it is below. -/
| raisePeak : UInt64 → Atomic
/- Overwrite the peak. -/
| storePeak : UInt64 → Atomic
/- Count one lease issued. -/
| countAllocation : Atomic
/- Count one lease returned. -/
| countRelease : Atomic
/- Add to the bytes issued. -/
| addAllocated : UInt64 → Atomic
/- Add to the bytes returned. -/
| addReclaimed : UInt64 → Atomic
deriving DecidableEq, Repr

namespace Atomic

/-
  What an operation answers: the live bytes before it, where
  it reads them.
-/
abbrev Reply : Atomic → Type
| .addWithin _ _ => Option UInt64
| .giveBack _ => UInt64
| .loadLive => UInt64
| .raisePeak _ => Unit
| .storePeak _ => Unit
| .countAllocation => Unit
| .countRelease => Unit
| .addAllocated _ => Unit
| .addReclaimed _ => Unit

end Atomic

namespace Counters

/- Carry out one indivisible operation. -/
def act
    (c : Counters) :
    (a : Atomic) → a.Reply × Counters
| .addWithin limit n =>
    match Word.add? c.live n with
    | none => (none, c)
    | some next =>
        if limit.admits next then
          (some c.live, { c with live := next })
        else
          (none, c)
| .giveBack n => (c.live, { c with live := c.live - n })
| .loadLive => (c.live, c)
| .raisePeak n => ((), { c with peak := max c.peak n })
| .storePeak n => ((), { c with peak := n })
| .countAllocation =>
    ((), { c with allocations := c.allocations + 1 })
| .countRelease =>
    ((), { c with releases := c.releases + 1 })
| .addAllocated n =>
    ((), { c with allocated := c.allocated + n })
| .addReclaimed n =>
    ((), { c with reclaimed := c.reclaimed + n })

end Counters

end LeasedHeap

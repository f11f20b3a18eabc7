import LeasedHeap.Steps

/-
  How a collector accounts for memory.

  A request first reserves its bytes, so that the limit is
  checked before any memory is touched; a granted request
  turns its reservation into a lease, a refused one returns
  it.  An array reserves what its source announces before
  the items are pulled and settles the difference after.

  Key definitions include:
    * `Terms`
    * `Terms.reserve`
    * `Terms.allocate`
    * `Terms.openArray`
    * `Terms.closeArray`
    * `Steps.lease`
    * `Steps.release`
    * `Steps.resetPeak`
-/

namespace LeasedHeap

------------------------------------------------------------
-- Terms
------------------------------------------------------------

/-
  What a request is checked against: the collector's limit,
  and how many bytes at a time the underlying allocator
  provides.
-/
structure Terms where
  limit : Limit
  provides : UInt64 → Bool

namespace Terms

/- A request for no bytes needs no storage. -/
def grants
    (t : Terms)
    (bytes : UInt64) : Bool :=
  bytes == 0 || t.provides bytes

end Terms

------------------------------------------------------------
-- Leases
------------------------------------------------------------

namespace Steps

/- Turn a reservation of `bytes` into a lease. -/
def lease (bytes live : UInt64) : Steps Unit := do
  atomic (.raisePeak live)
  atomic .countAllocation
  atomic (.addAllocated bytes)
  report (.allocated bytes live)

/- Return a lease of `bytes`. -/
def release (bytes : UInt64) : Steps Unit := do
  let before ← atomic (.giveBack bytes)
  atomic .countRelease
  atomic (.addReclaimed bytes)
  report (.released bytes (Word.satSub before bytes))

/- Restart the peak from the live bytes. -/
def resetPeak : Steps Unit := do
  let live ← atomic .loadLive
  atomic (.storePeak live)

/- Return a reservation that became no lease. -/
def unreserve (bytes : UInt64) : Steps Unit := do
  let _ ← atomic (.giveBack bytes)

end Steps

------------------------------------------------------------
-- Requests
------------------------------------------------------------

namespace Terms

open Steps

/- Refuse a request, telling what is live now. -/
def refuse
    (t : Terms)
    (requested : UInt64) : Steps Refusal := do
  let live ← atomic .loadLive
  report (.refused ⟨requested, live, t.limit⟩)
  return ⟨requested, live, t.limit⟩

/-
  Count bytes as live, unless that would pass the limit.
  The answer is the live bytes with the reservation.
-/
def reserve
    (t : Terms)
    (bytes : UInt64) :
    Steps (Except Refusal UInt64) := do
  match ← atomic (.addWithin t.limit bytes) with
  | some before => return .ok (Word.satAdd before bytes)
  | none => return .error (← t.refuse bytes)

/- Lease a block of bytes. -/
def allocate
    (t : Terms)
    (size : UInt64) :
    Steps (Except Refusal Unit) := do
  match ← t.reserve size with
  | .error r => return .error r
  | .ok live =>
      if t.grants size then
        lease size live
        return .ok ()
      else
        unreserve size
        return .error (← t.refuse size)

/-
  Start an array whose source announces at least `hint`
  items of `width` bytes.  The answer is the bytes that are
  reserved while the items are pulled.
-/
def openArray
    (t : Terms)
    (width hint : UInt64) :
    Steps (Except Refusal UInt64) := do
  match Word.mul? hint width with
  | none => return .error (← t.refuse Word.top)
  | some hinted =>
      match ← t.reserve hinted with
      | .error r => return .error r
      | .ok _ =>
          if t.grants hinted then
            return .ok hinted
          else
            unreserve hinted
            return .error (← t.refuse hinted)

/-
  Finish an array that has pulled `count` items while
  `hinted` bytes were reserved.  The answer is the bytes of
  the lease.  An array that outgrew its reservation reserves
  the rest first; one that stayed below returns the excess.
-/
def closeArray
    (t : Terms)
    (width hinted : UInt64)
    (count : Nat) :
    Steps (Except Refusal UInt64) := do
  match Word.ofNat? (count * width.toNat) with
  | none =>
      unreserve hinted
      return .error (← t.refuse Word.top)
  | some size =>
      if hinted ≤ size then
        match ← t.reserve (size - hinted) with
        | .ok live =>
            lease size live
            return .ok size
        | .error _ =>
            unreserve hinted
            return .error (← t.refuse size)
      else
        unreserve (hinted - size)
        let live ← atomic .loadLive
        lease size live
        return .ok size

end Terms

end LeasedHeap

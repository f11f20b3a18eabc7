import LeasedHeap.Proofs.Calls
import LeasedHeap.Proofs.Release

/-
  The books of a heap: what the trace, the counters and the
  objects tell about leases.

  A lease is issued once and returned at most once; what was
  not returned is held by an object or waits in a frame.  The
  counters count just that, and their live bytes are the
  bytes of the leases that are out and the bytes reserved by
  array calls that are under way, as natural numbers.

  Sums are over arbitrary weights of leases, so that equal
  sums are equal collections.

  Main declarations:
    * `Heap.owing`
    * `Heap.Balanced`
    * `Heap.Balanced.of_owing`
    * `Heap.Balanced.tally`
-/

namespace LeasedHeap

------------------------------------------------------------
-- Leases in Notices and Events
------------------------------------------------------------

namespace Notice

/- The bytes of a lease that is issued. -/
def issued? : Notice → Option UInt64
| .allocated bytes _ => some bytes
| _ => none

/- The bytes of a lease that is returned. -/
def returned? : Notice → Option UInt64
| .released bytes _ => some bytes
| _ => none

end Notice

namespace Event

/- A lease that is issued. -/
def issued? : Event → Option Lease
| .heap c n => n.issued?.map (fun bytes => ⟨c, bytes⟩)
| _ => none

/- A lease that is returned. -/
def returned? : Event → Option Lease
| .heap c n => n.returned?.map (fun bytes => ⟨c, bytes⟩)
| _ => none

end Event

namespace Notice

variable (bytes live : UInt64)

@[simp]
theorem issued?_allocated :
    (allocated bytes live).issued? = some bytes :=
  rfl

@[simp]
theorem issued?_released :
    (released bytes live).issued? = none :=
  rfl

@[simp]
theorem returned?_allocated :
    (allocated bytes live).returned? = none :=
  rfl

@[simp]
theorem returned?_released :
    (released bytes live).returned? = some bytes :=
  rfl

end Notice

/- The notices of a collector issue its leases. -/
theorem filterMap_issued_heap
    (c : CollectorId)
    (ns : List Notice) :
    (ns.map (Event.heap c)).filterMap Event.issued? =
      (ns.filterMap Notice.issued?).map
        (fun bytes => ⟨c, bytes⟩) := by
  rw [List.filterMap_map, List.map_filterMap]
  rfl

/- The notices of a collector return its leases. -/
theorem filterMap_returned_heap
    (c : CollectorId)
    (ns : List Notice) :
    (ns.map (Event.heap c)).filterMap Event.returned? =
      (ns.filterMap Notice.returned?).map
        (fun bytes => ⟨c, bytes⟩) := by
  rw [List.filterMap_map, List.map_filterMap]
  rfl

------------------------------------------------------------
-- Weights of Leases
------------------------------------------------------------

namespace Lease

/- The bytes that a lease takes of a collector. -/
def bytesAt
    (c : CollectorId)
    (l : Lease) : Nat :=
  if l.owner = c then l.bytes.toNat else 0

/- One for each lease of a collector. -/
def countAt
    (c : CollectorId)
    (l : Lease) : Nat :=
  if l.owner = c then 1 else 0

end Lease

/- The sum of a weight over some leases. -/
def Lease.sum
    (f : Lease → Nat)
    (ls : List Lease) : Nat :=
  (ls.map f).sum

namespace Lease

variable (f : Lease → Nat)

@[simp]
theorem sum_nil : Lease.sum f [] = 0 :=
  rfl

@[simp]
theorem sum_cons
    (l : Lease)
    (ls : List Lease) :
    Lease.sum f (l :: ls) = f l + Lease.sum f ls := by
  simp [Lease.sum]

@[simp]
theorem sum_append
    (ls ms : List Lease) :
    Lease.sum f (ls ++ ms) =
      Lease.sum f ls + Lease.sum f ms := by
  simp [Lease.sum]

/- Leases of one collector, summed by what they weigh there. -/
theorem sum_map_mk
    (c : CollectorId)
    (bs : List UInt64) :
    Lease.sum f (bs.map (fun b => ⟨c, b⟩)) =
      (bs.map (fun b => f ⟨c, b⟩)).sum := by
  simp [Lease.sum, Function.comp_def]

end Lease

/- The lease of an object that has one. -/
def Cell.lease?
    {κ : Type} : Cell κ → Option Lease
| .payload p => some p.lease
| .code _ => none

/- The leases that are to be returned. -/
def Frame.leases (fs : List Frame) : List Lease :=
  fs.filterMap fun
    | .lease l => some l
    | _ => none

@[simp]
theorem Frame.leases_append
    (fs gs : List Frame) :
    Frame.leases (fs ++ gs) =
      Frame.leases fs ++ Frame.leases gs := by
  simp [Frame.leases]

/- An object's frames return its lease. -/
theorem Cell.leases_dropFrames
    {κ : Type}
    (cell : Cell κ) :
    Frame.leases cell.dropFrames = cell.lease?.toList := by
  cases cell <;>
    simp [Frame.leases, Cell.dropFrames, Cell.lease?,
      List.filterMap_map]

/- The frames of a value's handles return no lease. -/
theorem Value.leases_handleFrames
    (v : Value) :
    Frame.leases v.handleFrames = [] := by
  cases v <;> rfl

------------------------------------------------------------
-- The Books of a Heap
------------------------------------------------------------

namespace Heap

variable {κ : Type}

/- The leases that the trace tells were issued. -/
def issued (h : Heap κ) : List Lease :=
  h.log.filterMap Event.issued?

/- The leases that the trace tells were returned. -/
def returned (h : Heap κ) : List Lease :=
  h.log.filterMap Event.returned?

/- The weight of the leases that objects hold. -/
def leased
    (h : Heap κ)
    (f : Lease → Nat) : Nat :=
  h.objects.total (fun o => Lease.sum f o.cell.lease?.toList)

/-
  The weight of what is out: the leases that objects hold or
  frames are to return, and what is reserved.
-/
def owing
    (h : Heap κ)
    (f : Lease → Nat)
    (fs : List Frame)
    (reserved : List Lease) : Nat :=
  h.leased f + Lease.sum f (Frame.leases fs) +
    Lease.sum f reserved

/- The counters of a collector. -/
def counters
    (h : Heap κ)
    (c : CollectorId) : Counters :=
  (h.collector c).counters

/-
  The books agree.  `fs` are the frames that are left, and
  `reserved` what the array calls under way have reserved.
-/
structure Balanced
    (h : Heap κ)
    (fs : List Frame)
    (reserved : List Lease) : Prop where
  kept :
    ∀ f, Lease.sum f h.issued =
      Lease.sum f h.returned + h.owing f fs []
  owned :
    ∀ c, h.collectors.size ≤ c →
      h.owing (Lease.countAt c) fs reserved = 0
  live :
    ∀ c, (h.counters c).live.toNat =
      h.owing (Lease.bytesAt c) fs reserved
  allocations :
    ∀ c, (h.counters c).allocations =
      UInt64.ofNat (Lease.sum (Lease.countAt c) h.issued)
  allocated :
    ∀ c, (h.counters c).allocated =
      UInt64.ofNat (Lease.sum (Lease.bytesAt c) h.issued)
  releases :
    ∀ c, (h.counters c).releases =
      UInt64.ofNat (Lease.sum (Lease.countAt c) h.returned)
  reclaimed :
    ∀ c, (h.counters c).reclaimed =
      UInt64.ofNat (Lease.sum (Lease.bytesAt c) h.returned)

variable {h : Heap κ}
variable {fs fs' : List Frame}
variable {reserved reserved' : List Lease}

/-
  Only the counters, the leases in the trace and what is out
  matter.
-/
theorem Balanced.of_counters
    {h' : Heap κ}
    (hBalanced : h.Balanced fs reserved)
    (hSize : h.collectors.size ≤ h'.collectors.size)
    (hCounters : ∀ c, h'.counters c = h.counters c)
    (hIssued : h'.issued = h.issued)
    (hReturned : h'.returned = h.returned)
    (hOwing :
      ∀ f, h'.owing f fs' [] = h.owing f fs []) :
    h'.Balanced fs' reserved := by
  have hReserved :
      ∀ f, h'.owing f fs' reserved =
        h.owing f fs reserved := by
    intro f
    have hAt := hOwing f
    simp only [owing, Lease.sum_nil, Nat.add_zero] at hAt ⊢
    rw [hAt]
  refine ⟨?_, ?_, ?_, ?_, ?_, ?_, ?_⟩
  · intro f
    rw [hIssued, hReturned, hOwing f]
    exact hBalanced.kept f
  · intro c hc
    rw [hReserved]
    exact hBalanced.owned c (Nat.le_trans hSize hc)
  · intro c
    rw [hCounters, hReserved]
    exact hBalanced.live c
  · intro c
    rw [hCounters, hIssued]
    exact hBalanced.allocations c
  · intro c
    rw [hCounters, hIssued]
    exact hBalanced.allocated c
  · intro c
    rw [hCounters, hReturned]
    exact hBalanced.releases c
  · intro c
    rw [hCounters, hReturned]
    exact hBalanced.reclaimed c

/-
  Leases may move between objects and frames as long as none
  is lost.
-/
theorem Balanced.of_owing
    {h' : Heap κ}
    (hBalanced : h.Balanced fs reserved)
    (hCollectors : h'.collectors = h.collectors)
    (hLog : h'.log = h.log)
    (hOwing :
      ∀ f, h'.owing f fs' [] = h.owing f fs []) :
    h'.Balanced fs' reserved := by
  refine
    hBalanced.of_counters (Nat.le_of_eq ?_) ?_ ?_ ?_ hOwing
  · rw [hCollectors]
  · intro c
    unfold counters collector
    rw [hCollectors]
  · unfold issued
    rw [hLog]
  · unfold returned
    rw [hLog]

/- A lease that is to be returned has a collector. -/
theorem Balanced.lt_of_pending
    {l : Lease}
    (hBalanced : h.Balanced fs reserved)
    (hMem : l ∈ Frame.leases fs) :
    l.owner < h.collectors.size := by
  by_contra hNot
  have hOwned :=
    hBalanced.owned l.owner (Nat.le_of_not_lt hNot)
  have hLe :
      Lease.countAt l.owner l ≤
        Lease.sum (Lease.countAt l.owner)
          (Frame.leases fs) :=
    List.single_le_sum (by simp) _
      (List.mem_map_of_mem hMem)
  simp [owing, Lease.countAt] at hOwned hLe
  omega

/- What is reserved has a collector. -/
theorem Balanced.lt_of_reserved
    {l : Lease}
    (hBalanced : h.Balanced fs reserved)
    (hMem : l ∈ reserved) :
    l.owner < h.collectors.size := by
  by_contra hNot
  have hOwned :=
    hBalanced.owned l.owner (Nat.le_of_not_lt hNot)
  have hLe :
      Lease.countAt l.owner l ≤
        Lease.sum (Lease.countAt l.owner) reserved :=
    List.single_le_sum (by simp) _
      (List.mem_map_of_mem hMem)
  simp [owing, Lease.countAt] at hOwned hLe
  omega

------------------------------------------------------------
-- Calls
------------------------------------------------------------

end Heap

/- What a call did to the counters is in its notices. -/
structure Counters.Told
    (before after : Counters)
    (ns : List Notice) : Prop where
  allocations :
    after.allocations =
      before.allocations +
        UInt64.ofNat (ns.filterMap Notice.issued?).length
  allocated :
    after.allocated =
      before.allocated +
        UInt64.ofNat
          ((ns.filterMap Notice.issued?).map
            UInt64.toNat).sum
  releases :
    after.releases =
      before.releases +
        UInt64.ofNat (ns.filterMap Notice.returned?).length
  reclaimed :
    after.reclaimed =
      before.reclaimed +
        UInt64.ofNat
          ((ns.filterMap Notice.returned?).map
            UInt64.toNat).sum

namespace Lease

/- Leases of a collector are counted there one by one. -/
theorem sum_countAt_self
    (c : CollectorId)
    (bs : List UInt64) :
    Lease.sum (countAt c) (bs.map (fun b => ⟨c, b⟩)) =
      bs.length := by
  rw [sum_map_mk]
  simp [countAt]

/- Leases of a collector count with their bytes there. -/
theorem sum_bytesAt_self
    (c : CollectorId)
    (bs : List UInt64) :
    Lease.sum (bytesAt c) (bs.map (fun b => ⟨c, b⟩)) =
      (bs.map UInt64.toNat).sum := by
  rw [sum_map_mk]
  simp [bytesAt]

/- Leases of another collector do not count. -/
theorem sum_eq_zero_of_mk
    {f : Lease → Nat}
    {c : CollectorId}
    (hZero : ∀ b, f ⟨c, b⟩ = 0)
    (bs : List UInt64) :
    Lease.sum f (bs.map (fun b => ⟨c, b⟩)) = 0 := by
  rw [sum_map_mk]
  simp [hZero]

@[simp]
theorem bytesAt_self
    (c : CollectorId)
    (b : UInt64) :
    bytesAt c ⟨c, b⟩ = b.toNat := by
  simp [bytesAt]

theorem countAt_of_ne
    {c d : CollectorId}
    (hNe : d ≠ c)
    (b : UInt64) :
    countAt d ⟨c, b⟩ = 0 := by
  simp [countAt, Ne.symm hNe]

theorem bytesAt_of_ne
    {c d : CollectorId}
    (hNe : d ≠ c)
    (b : UInt64) :
    bytesAt d ⟨c, b⟩ = 0 := by
  simp [bytesAt, Ne.symm hNe]

end Lease

namespace Heap

variable {κ : Type}
variable {h : Heap κ}
variable {fs fs' : List Frame}
variable {reserved reserved' : List Lease}
variable {c : CollectorId}
variable {counters : Counters}
variable {ns : List Notice}

/- A heap after a call that left counters and notices. -/
def tally
    (h : Heap κ)
    (c : CollectorId)
    (counters : Counters)
    (ns : List Notice) : Heap κ :=
  { h with
    collectors :=
      h.collectors.setIfInBounds c
        { h.collector c with counters }
    log := ns.map (.heap c) ++ h.log }

theorem perform_eq
    {α : Type}
    (h : Heap κ)
    (c : CollectorId)
    (s : Steps α) :
    h.perform c s =
      ((s.run (h.counters c) []).1,
        h.tally c (s.run (h.counters c) []).2.1
          (s.run (h.counters c) []).2.2) :=
  rfl

theorem counters_tally
    (hc : c < h.collectors.size)
    (d : CollectorId) :
    (h.tally c counters ns).counters d =
      if d = c then counters else h.counters d := by
  unfold Heap.counters collector tally
  simp only [Array.getElem?_setIfInBounds]
  by_cases hd : d = c
  · simp [hd, hc]
  · simp [hd, Ne.symm hd]

theorem issued_tally :
    (h.tally c counters ns).issued =
      (ns.filterMap Notice.issued?).map (fun b => ⟨c, b⟩) ++
        h.issued := by
  unfold issued tally
  rw [List.filterMap_append, filterMap_issued_heap]

theorem returned_tally :
    (h.tally c counters ns).returned =
      (ns.filterMap Notice.returned?).map
          (fun b => ⟨c, b⟩) ++ h.returned := by
  unfold returned tally
  rw [List.filterMap_append, filterMap_returned_heap]

/-
  A counter after a call.  `weigh` tells what leases count
  for a collector, and `told` the leases of the call.
-/
private theorem counter_tally
    {field : Counters → UInt64}
    {weigh : CollectorId → Lease → Nat}
    {told : List UInt64}
    {before : List Lease}
    (hc : c < h.collectors.size)
    (hNow :
      field counters =
        field (h.counters c) +
          UInt64.ofNat
            (Lease.sum (weigh c) (told.map (⟨c, ·⟩))))
    (hElse : ∀ d, d ≠ c → ∀ b, weigh d ⟨c, b⟩ = 0)
    (hBefore :
      ∀ d, field (h.counters d) =
        UInt64.ofNat (Lease.sum (weigh d) before))
    (d : CollectorId) :
    field ((h.tally c counters ns).counters d) =
      UInt64.ofNat
        (Lease.sum (weigh d)
          (told.map (⟨c, ·⟩) ++ before)) := by
  rw [counters_tally hc, Lease.sum_append]
  by_cases hd : d = c
  · subst hd
    rw [if_pos rfl, hNow, hBefore, ← UInt64.ofNat_add,
      Nat.add_comm]
  · rw [if_neg hd, hBefore,
      Lease.sum_eq_zero_of_mk (hElse d hd), Nat.zero_add]

/-
  A call keeps the books if its notices tell what it did to
  the counters, and if what it issued and returned and what
  it left of the live bytes is what is out afterwards.
-/
theorem Balanced.tally
    (hBalanced : h.Balanced fs reserved)
    (hc : c < h.collectors.size)
    (hTold : (h.counters c).Told counters ns)
    (hLive :
      counters.live.toNat =
        h.owing (Lease.bytesAt c) fs' reserved')
    (hKept :
      ∀ f,
        ((ns.filterMap Notice.issued?).map
            (fun b => f ⟨c, b⟩)).sum + h.owing f fs [] =
          ((ns.filterMap Notice.returned?).map
            (fun b => f ⟨c, b⟩)).sum + h.owing f fs' [])
    (hElse :
      ∀ f, (∀ b, f ⟨c, b⟩ = 0) →
        h.owing f fs' reserved' = h.owing f fs reserved) :
    (h.tally c counters ns).Balanced fs' reserved' := by
  have hOwing :
      ∀ f gs ls, (h.tally c counters ns).owing f gs ls =
        h.owing f gs ls :=
    fun _ _ _ => rfl
  have hCount :
      ∀ d, d ≠ c → ∀ b, Lease.countAt d ⟨c, b⟩ = 0 :=
    fun _ hd => Lease.countAt_of_ne hd
  have hBytes :
      ∀ d, d ≠ c → ∀ b, Lease.bytesAt d ⟨c, b⟩ = 0 :=
    fun _ hd => Lease.bytesAt_of_ne hd
  refine ⟨?_, ?_, ?_, ?_, ?_, ?_, ?_⟩
  · intro f
    have hBefore := hBalanced.kept f
    have hNow := hKept f
    rw [issued_tally, returned_tally, hOwing,
      Lease.sum_append, Lease.sum_append, Lease.sum_map_mk,
      Lease.sum_map_mk]
    omega
  · intro d hd
    have hSize : h.collectors.size ≤ d := by
      simpa [Heap.tally] using hd
    have hNe : d ≠ c :=
      Ne.symm (Nat.ne_of_lt (Nat.lt_of_lt_of_le hc hSize))
    rw [hOwing, hElse _ (Lease.countAt_of_ne hNe)]
    exact hBalanced.owned d hSize
  · intro d
    rw [counters_tally hc, hOwing]
    split
    · rename_i hd
      rw [hd]
      exact hLive
    · rename_i hd
      rw [hElse _ (Lease.bytesAt_of_ne hd)]
      exact hBalanced.live d
  · rw [issued_tally]
    refine
      counter_tally hc ?_ hCount hBalanced.allocations
    rw [Lease.sum_countAt_self]
    exact hTold.allocations
  · rw [issued_tally]
    refine counter_tally hc ?_ hBytes hBalanced.allocated
    rw [Lease.sum_bytesAt_self]
    exact hTold.allocated
  · rw [returned_tally]
    refine counter_tally hc ?_ hCount hBalanced.releases
    rw [Lease.sum_countAt_self]
    exact hTold.releases
  · rw [returned_tally]
    refine counter_tally hc ?_ hBytes hBalanced.reclaimed
    rw [Lease.sum_bytesAt_self]
    exact hTold.reclaimed

end Heap

end LeasedHeap

import LeasedHeap.Accounting

/-
  What calls on a collector come to.

  With nothing in between, a call is a function of the
  counters.  A request secures its bytes or is refused and
  leaves the counters as they were; a lease and its return
  change all that they count at once.

  Main declarations:
    * `Counters.room?`
    * `Terms.secured?`
    * `Terms.run_allocate`
    * `Terms.run_openArray`
    * `Terms.run_closeArray`
-/

namespace LeasedHeap

/- The larger of two words is the larger of the numbers. -/
theorem Word.toNat_max
    (a b : UInt64) :
    (max a b).toNat = max a.toNat b.toNat := by
  change (if a ≤ b then b else a).toNat = _
  split
  · rename_i hLe
    rw [Nat.max_eq_right (UInt64.le_iff_toNat_le.mp hLe)]
  · rename_i hNot
    rw [UInt64.le_iff_toNat_le] at hNot
    rw [Nat.max_eq_left (Nat.le_of_not_le hNot)]

/-
  Where `hinted` of the live bytes are reserved for `size`:
  to add what is missing is to put all in their place.
-/
theorem Word.toNat_add_rest
    {live hinted size : UInt64}
    (hLe : hinted ≤ live)
    (hMore : hinted ≤ size) :
    live.toNat + (size - hinted).toNat =
      live.toNat - hinted.toNat + size.toNat := by
  have hRest := UInt64.toNat_sub_of_le _ _ hMore
  rw [UInt64.le_iff_toNat_le] at hLe hMore
  omega

/- So is to take away what is not needed. -/
theorem Word.toNat_sub_spare
    {live hinted size : UInt64}
    (hLe : hinted ≤ live)
    (hLess : size ≤ hinted) :
    (live - (hinted - size)).toNat =
      live.toNat - hinted.toNat + size.toNat := by
  have hSpare := UInt64.toNat_sub_of_le _ _ hLess
  rw [UInt64.le_iff_toNat_le] at hLe hLess
  have hExcess : hinted - size ≤ live := by
    rw [UInt64.le_iff_toNat_le]
    omega
  rw [UInt64.toNat_sub_of_le _ _ hExcess]
  omega

------------------------------------------------------------
-- Limits
------------------------------------------------------------

namespace Limit

variable {l : Limit}

/- A limit admits less than it admits. -/
theorem admits_of_le
    {a b : UInt64}
    (hLe : a ≤ b)
    (hAdmits : l.admits b) :
    l.admits a := by
  unfold admits at hAdmits ⊢
  split
  · rfl
  · rename_i bound hBound
    simp only [hBound, decide_eq_true_iff] at hAdmits
    exact decide_eq_true (UInt64.le_trans hLe hAdmits)

theorem admits_max
    {a b : UInt64}
    (hLeft : l.admits a)
    (hRight : l.admits b) :
    l.admits (max a b) := by
  change l.admits (if a ≤ b then b else a)
  split
  · exact hRight
  · exact hLeft

/- Any limit admits nothing. -/
theorem admits_zero :
    l.admits 0 := by
  unfold admits
  split
  · rfl
  · exact decide_eq_true UInt64.zero_le

end Limit

------------------------------------------------------------
-- Changes of Counters
------------------------------------------------------------

namespace Counters

/- The counters with other live bytes. -/
def withLive
    (c : Counters)
    (live : UInt64) : Counters :=
  { c with live }

/- The counters after a lease of bytes already live. -/
def leased
    (c : Counters)
    (bytes live : UInt64) : Counters :=
  { c with
    peak := max c.peak live
    allocations := c.allocations + 1
    allocated := c.allocated + bytes }

/- The counters after the return of a lease. -/
def returned
    (c : Counters)
    (bytes : UInt64) : Counters :=
  { c with
    live := c.live - bytes
    releases := c.releases + 1
    reclaimed := c.reclaimed + bytes }

/- The live bytes with some more, within a limit. -/
def room?
    (c : Counters)
    (limit : Limit)
    (bytes : UInt64) : Option UInt64 :=
  (Word.add? c.live bytes).filter limit.admits

theorem room?_eq_some_iff
    {c : Counters}
    {limit : Limit}
    {bytes next : UInt64} :
    c.room? limit bytes = some next ↔
      next.toNat = c.live.toNat + bytes.toNat ∧
        limit.admits next := by
  unfold room?
  rw [Option.filter_eq_some_iff, Word.add?_eq_some_iff]

/- Bytes that fit are added without a wrap. -/
theorem eq_add_of_room?
    {c : Counters}
    {limit : Limit}
    {bytes next : UInt64}
    (hRoom : c.room? limit bytes = some next) :
    next = c.live + bytes := by
  have hNext := (room?_eq_some_iff.mp hRoom).1
  have hLt := next.toNat_lt
  apply UInt64.toNat_inj.mp
  rw [UInt64.toNat_add]
  omega

end Counters

/- The live bytes with a request that can be granted. -/
def Terms.secured?
    (t : Terms)
    (c : Counters)
    (bytes : UInt64) : Option UInt64 :=
  if t.grants bytes then c.room? t.limit bytes else none

/- A refusal of a request on some counters. -/
def Terms.refusal
    (t : Terms)
    (c : Counters)
    (requested : UInt64) : Refusal :=
  ⟨requested, c.live, t.limit⟩

------------------------------------------------------------
-- Leases
------------------------------------------------------------

namespace Steps

variable {c : Counters}
variable {log : List Notice}

theorem run_lease
    (bytes live : UInt64) :
    (lease bytes live).run c log =
      ((), c.leased bytes live,
        .allocated bytes live :: log) :=
  rfl

theorem run_release
    (bytes : UInt64) :
    (release bytes).run c log =
      ((), c.returned bytes,
        .released bytes (Word.satSub c.live bytes) :: log) :=
  rfl

theorem run_resetPeak :
    resetPeak.run c log =
      ((), { c with peak := c.live }, log) :=
  rfl

theorem run_unreserve
    (bytes : UInt64) :
    (unreserve bytes).run c log =
      ((), c.withLive (c.live - bytes), log) :=
  rfl

end Steps

------------------------------------------------------------
-- Requests
------------------------------------------------------------

namespace Terms

variable (t : Terms)
variable (c : Counters)
variable (log : List Notice)

theorem run_refuse
    (requested : UInt64) :
    (t.refuse requested).run c log =
      (t.refusal c requested, c,
        .refused (t.refusal c requested) :: log) :=
  rfl

/- A reservation is granted if there is room for it. -/
theorem run_reserve
    (bytes : UInt64) :
    (t.reserve bytes).run c log =
      match c.room? t.limit bytes with
      | some next => (.ok next, c.withLive next, log)
      | none =>
          (.error (t.refusal c bytes), c,
            .refused (t.refusal c bytes) :: log) := by
  simp only [reserve, Steps.bind_eq, Steps.run_bind]
  unfold Counters.room?
  cases hAdd : Word.add? c.live bytes with
  | none =>
      simp [Steps.atomic, Steps.run, Counters.act, hAdd,
        Steps.run_bind, run_refuse]
  | some next =>
      by_cases hAdmits : t.limit.admits next
      · simp [Steps.atomic, Steps.run, Counters.act, hAdd,
          hAdmits, Option.filter, Word.satAdd,
          Counters.withLive]
      · simp [Steps.atomic, Steps.run, Counters.act, hAdd,
          hAdmits, Option.filter, Steps.run_bind, run_refuse]

/- Bytes that were added can be taken back. -/
private theorem withLive_withLive_sub
    {bytes next : UInt64}
    (hRoom : c.room? t.limit bytes = some next) :
    (c.withLive next).withLive
        ((c.withLive next).live - bytes) = c := by
  rw [Counters.eq_add_of_room? hRoom]
  simp [Counters.withLive]

/- A block is leased if its bytes can be secured. -/
theorem run_allocate
    (size : UInt64) :
    (t.allocate size).run c log =
      match t.secured? c size with
      | some next =>
          (.ok (), (c.withLive next).leased size next,
            .allocated size next :: log)
      | none =>
          (.error (t.refusal c size), c,
            .refused (t.refusal c size) :: log) := by
  simp only [allocate, Steps.bind_eq, Steps.run_bind,
    run_reserve]
  unfold secured?
  cases hRoom : c.room? t.limit size with
  | none => simp [Steps.run]
  | some next =>
      by_cases hGrants : t.grants size
      · simp [hGrants, Steps.run_bind, Steps.run_lease,
          Steps.run]
      · simp [hGrants, Steps.run_bind, Steps.run_unreserve,
          run_refuse, Steps.run,
          withLive_withLive_sub t c hRoom]

/- An array starts if its announced bytes can be secured. -/
theorem run_openArray
    (width hint : UInt64) :
    (t.openArray width hint).run c log =
      match Word.mul? hint width with
      | none =>
          (.error (t.refusal c Word.top), c,
            .refused (t.refusal c Word.top) :: log)
      | some hinted =>
          match t.secured? c hinted with
          | some next => (.ok hinted, c.withLive next, log)
          | none =>
              (.error (t.refusal c hinted), c,
                .refused (t.refusal c hinted) :: log) := by
  unfold openArray
  cases hMul : Word.mul? hint width with
  | none => simp [Steps.run_bind, run_refuse, Steps.run]
  | some hinted =>
      simp only [Steps.bind_eq, Steps.run_bind, run_reserve]
      unfold secured?
      cases hRoom : c.room? t.limit hinted with
      | none => simp [Steps.run]
      | some next =>
          by_cases hGrants : t.grants hinted
          · simp [hGrants, Steps.run]
          · simp [hGrants, Steps.run_bind,
              Steps.run_unreserve, run_refuse, Steps.run,
              withLive_withLive_sub t c hRoom]

/-
  An array is leased if what it has outgrown its reservation
  by can be reserved; a refusal gives the reservation back
  first.
-/
theorem run_closeArray
    (width hinted : UInt64)
    (count : Nat) :
    (t.closeArray width hinted count).run c log =
      let given := c.withLive (c.live - hinted)
      match Word.ofNat? (count * width.toNat) with
      | none =>
          (.error (t.refusal given Word.top), given,
            .refused (t.refusal given Word.top) :: log)
      | some size =>
          if hinted ≤ size then
            match c.room? t.limit (size - hinted) with
            | some next =>
                (.ok size, (c.withLive next).leased size next,
                  .allocated size next :: log)
            | none =>
                (.error (t.refusal given size), given,
                  .refused (t.refusal given size) ::
                    .refused
                      (t.refusal c (size - hinted)) :: log)
          else
            let live := c.live - (hinted - size)
            (.ok size, (c.withLive live).leased size live,
              .allocated size live :: log) := by
  unfold closeArray
  cases hSize : Word.ofNat? (count * width.toNat) with
  | none =>
      simp [Steps.run_bind, Steps.run_unreserve, run_refuse,
        Steps.run]
  | some size =>
      by_cases hLe : hinted ≤ size
      · simp only [hLe, if_true, Steps.bind_eq,
          Steps.run_bind, run_reserve]
        cases hRoom : c.room? t.limit (size - hinted) with
        | none =>
            simp [Steps.run_bind, Steps.run_unreserve,
              run_refuse, Steps.run]
        | some next =>
            simp [Steps.run_bind, Steps.run_lease, Steps.run]
      · simp [hLe, Steps.run_bind, Steps.run_unreserve,
          Steps.run_lease, Steps.run, Steps.atomic,
          Counters.act, Counters.withLive]

end Terms

end LeasedHeap

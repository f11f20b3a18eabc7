import LeasedHeap.Proofs.Books

/-
  Every call and every step keeps the books.

  A granted request leaves a lease in hand, which is a frame
  that would return it until an object takes it over; an
  array call under way has its bytes reserved.  A refused
  request leaves everything as it was.

  Main declarations:
    * `Heap.Balanced.step` and `Heap.Balanced.reclaim`
    * `Heap.Balanced.allocate`
    * `Heap.Balanced.openArray`
    * `Heap.Balanced.closeArray`
    * `Heap.Balanced.issue`
-/

namespace LeasedHeap

------------------------------------------------------------
-- What the Calls Tell
------------------------------------------------------------

namespace Counters

variable {c : Counters}

/- Refusals tell of no lease. -/
theorem Told.of_live
    {live peak : UInt64}
    {ns : List Notice}
    (hIssued : ns.filterMap Notice.issued? = [])
    (hReturned : ns.filterMap Notice.returned? = []) :
    c.Told { c with live, peak } ns := by
  refine ⟨?_, ?_, ?_, ?_⟩ <;> simp [hIssued, hReturned]

/- A lease is told with its bytes. -/
theorem told_leased
    (live bytes : UInt64) :
    c.Told ((c.withLive live).leased bytes live)
      [.allocated bytes live] := by
  refine ⟨?_, ?_, ?_, ?_⟩ <;>
    simp [withLive, leased, List.filterMap_cons]

/- The return of a lease is told with its bytes. -/
theorem told_returned
    (live bytes : UInt64) :
    c.Told (c.returned bytes) [.released bytes live] := by
  refine ⟨?_, ?_, ?_, ?_⟩ <;>
    simp [returned, List.filterMap_cons]

end Counters

------------------------------------------------------------
-- What Is Out
------------------------------------------------------------

namespace Heap

variable {κ : Type}
variable {h : Heap κ}
variable {fs : List Frame}
variable {reserved : List Lease}
variable {c : CollectorId}

/- A lease in hand is out. -/
theorem owing_cons_lease
    (f : Lease → Nat)
    (l : Lease)
    (fs : List Frame)
    (reserved : List Lease) :
    h.owing f (.lease l :: fs) reserved =
      f l + h.owing f fs reserved := by
  simp only [owing, Frame.leases, List.filterMap_cons,
    Lease.sum_cons]
  omega

/- Bytes reserved are out. -/
theorem owing_cons_reserved
    (f : Lease → Nat)
    (fs : List Frame)
    (l : Lease)
    (reserved : List Lease) :
    h.owing f fs (l :: reserved) =
      f l + h.owing f fs reserved := by
  simp only [owing, Lease.sum_cons]
  omega

/- Reservations may end in any order. -/
theorem owing_eraseIdx
    (f : Lease → Nat)
    (fs : List Frame)
    {l : Lease}
    {k : Nat}
    (hk : reserved[k]? = some l) :
    h.owing f fs reserved =
      f l + h.owing f fs (reserved.eraseIdx k) := by
  have hPerm : reserved.Perm (l :: reserved.eraseIdx k) := by
    rcases List.getElem?_eq_some_iff.mp hk with ⟨hLt, rfl⟩
    exact (List.getElem_cons_eraseIdx_perm hLt).symm
  have hSum :
      Lease.sum f reserved =
        Lease.sum f (l :: reserved.eraseIdx k) :=
    (hPerm.map f).sum_eq
  rw [Lease.sum_cons] at hSum
  simp only [owing, hSum]
  omega

/- Replacing an object keeps what is leased with its lease. -/
theorem leased_set
    (f : Lease → Nat)
    {p : ObjectId}
    {old new : Object κ}
    (hOld : h.objects.get? p = some old)
    (hLease : new.cell.lease? = old.cell.lease?) :
    ({ h with objects := h.objects.set p new }).leased f =
      h.leased f := by
  have hSum :=
    Table.total_set
      (fun o : Object κ => Lease.sum f o.cell.lease?.toList)
      hOld new
  simp only [hLease] at hSum
  unfold leased
  simp only
  omega

/- An object that goes takes its lease along. -/
theorem leased_erase
    (f : Lease → Nat)
    {p : ObjectId}
    {old : Object κ}
    (hOld : h.objects.get? p = some old) :
    ({ h with objects := h.objects.erase p }).leased f +
        Lease.sum f old.cell.lease?.toList =
      h.leased f :=
  Table.total_erase
    (fun o : Object κ => Lease.sum f o.cell.lease?.toList)
    hOld

/- A new object brings its lease along. -/
theorem leased_issue
    (f : Lease → Nat)
    (cell : Cell κ) :
    (h.issue cell).leased f =
      h.leased f + Lease.sum f cell.lease?.toList := by
  simp [leased, Heap.issue]

/- Taking items out leaves the lease. -/
theorem leased_take
    (f : Lease → Nat)
    (p : ObjectId) :
    (h.take p).2.leased f = h.leased f := by
  rcases take_cases h p with
    ⟨lease, contents, hGet, hTake⟩ | ⟨_, hTake⟩
  · rw [hTake]
    exact leased_set f hGet rfl
  · rw [hTake]

/- A counted handle changes no lease. -/
theorem leased_retain
    (f : Lease → Nat)
    (i : ObjectId) :
    (h.retain i).leased f = h.leased f := by
  unfold retain
  split
  · rename_i o hGet
    exact leased_set f hGet rfl
  · rfl

/- A handle that goes leaves the lease or puts it in hand. -/
theorem leased_release
    (f : Lease → Nat)
    (i : ObjectId) :
    (h.release i).2.leased f +
        Lease.sum f (Frame.leases (h.release i).1) =
      h.leased f := by
  rcases release_cases h i with
    ⟨_, hRelease⟩ | ⟨n, cell, hGet, hRelease⟩ |
      ⟨n, cell, hGet, _, hRelease⟩
  · rw [hRelease]
    simp [Frame.leases]
  · have hSet :
        ({ h with
            objects :=
              h.objects.set i ⟨n + 1, cell⟩ }).leased f =
          h.leased f :=
      leased_set f hGet rfl
    rw [hRelease]
    simpa [Frame.leases] using hSet
  · rw [hRelease, Cell.leases_dropFrames]
    exact leased_erase f hGet

------------------------------------------------------------
-- Steps
------------------------------------------------------------

/- Objects that keep their leases keep the books. -/
theorem Balanced.of_leased
    {h' : Heap κ}
    {fs' : List Frame}
    (hBalanced : h.Balanced fs reserved)
    (hCollectors : h'.collectors = h.collectors)
    (hLog : h'.log = h.log)
    (hLeased : ∀ f, h'.leased f = h.leased f)
    (hFrames : Frame.leases fs' = Frame.leases fs) :
    h'.Balanced fs' reserved := by
  apply hBalanced.of_owing hCollectors hLog
  intro f
  simp only [owing, hLeased, hFrames]

theorem take_collectors
    (h : Heap κ)
    (p : ObjectId) :
    (h.take p).2.collectors = h.collectors ∧
      (h.take p).2.log = h.log := by
  rcases take_cases h p with
    ⟨lease, contents, _, hTake⟩ | ⟨_, hTake⟩ <;>
    rw [hTake] <;> exact ⟨rfl, rfl⟩

theorem release_collectors
    (h : Heap κ)
    (i : ObjectId) :
    (h.release i).2.collectors = h.collectors ∧
      (h.release i).2.log = h.log := by
  rcases release_cases h i with
    ⟨_, hRelease⟩ | ⟨n, cell, _, hRelease⟩ |
      ⟨n, cell, _, _, hRelease⟩ <;>
    rw [hRelease] <;> exact ⟨rfl, rfl⟩

theorem retain_collectors
    (h : Heap κ)
    (i : ObjectId) :
    (h.retain i).collectors = h.collectors ∧
      (h.retain i).log = h.log := by
  unfold retain
  split <;> exact ⟨rfl, rfl⟩

/- Every frame but a lease leaves the counters as they are. -/
theorem step_collectors
    {f : Frame}
    (hNot : ∀ l, f ≠ .lease l) :
    (h.step f).2.collectors = h.collectors ∧
      (h.step f).2.log = h.log := by
  cases f with
  | value v =>
      cases hv : v.payload? with
      | none => simp only [Heap.step, hv, and_self]
      | some p =>
          simp only [Heap.step, hv]
          exact take_collectors h p
  | activation v pending =>
      cases pending with
      | nil => exact ⟨rfl, rfl⟩
      | cons w pending =>
          cases hw : w.payload? with
          | none => simp only [Heap.step, hw, and_self]
          | some p =>
              simp only [Heap.step, hw]
              exact take_collectors h p
  | handle i => exact release_collectors h i
  | lease l => exact absurd rfl (hNot l)

/- The return of a lease keeps the books. -/
theorem Balanced.returned
    {l : Lease}
    (hBalanced : h.Balanced (.lease l :: fs) reserved) :
    (h.perform l.owner
      (Steps.release l.bytes)).2.Balanced fs reserved := by
  have hOwner : l.owner < h.collectors.size :=
    hBalanced.lt_of_pending (by simp [Frame.leases])
  rw [perform_eq, Steps.run_release]
  refine
    hBalanced.tally hOwner (Counters.told_returned _ _)
      ?_ ?_ ?_
  · have hLive := hBalanced.live l.owner
    rw [owing_cons_lease, Lease.bytesAt, if_pos rfl] at hLive
    have hLe : l.bytes ≤ (h.counters l.owner).live := by
      rw [UInt64.le_iff_toNat_le]
      omega
    simp only [Counters.returned]
    rw [UInt64.toNat_sub_of_le _ _ hLe]
    omega
  · intro f
    rw [owing_cons_lease]
    simp [List.filterMap_cons]
  · intro f hZero
    rw [owing_cons_lease, hZero l.bytes, Nat.zero_add]

/- Each step of reclaiming keeps the books. -/
theorem Balanced.step
    {f : Frame}
    (hBalanced : h.Balanced (f :: fs) reserved) :
    (h.step f).2.Balanced ((h.step f).1 ++ fs) reserved := by
  cases f with
  | value v =>
      cases hv : v.payload? with
      | none =>
          simp only [Heap.step, hv]
          exact hBalanced.of_leased rfl rfl (fun _ => rfl) rfl
      | some p =>
          simp only [Heap.step, hv]
          exact
            hBalanced.of_leased (take_collectors h p).1
              (take_collectors h p).2
              (fun f => leased_take f p) rfl
  | activation v pending =>
      cases pending with
      | nil =>
          simp only [Heap.step]
          apply hBalanced.of_leased rfl rfl (fun _ => rfl)
          rw [Frame.leases_append, Value.leases_handleFrames]
          rfl
      | cons w pending =>
          cases hw : w.payload? with
          | none =>
              simp only [Heap.step, hw]
              exact
                hBalanced.of_leased rfl rfl (fun _ => rfl)
                  rfl
          | some p =>
              simp only [Heap.step, hw]
              exact
                hBalanced.of_leased (take_collectors h p).1
                  (take_collectors h p).2
                  (fun f => leased_take f p) rfl
  | handle i =>
      apply
        hBalanced.of_owing (release_collectors h i).1
          (release_collectors h i).2
      intro f
      have hSum := leased_release (h := h) f i
      simp only [Heap.step, owing, Frame.leases_append,
        Lease.sum_append, Lease.sum_nil]
      simp only [Frame.leases, List.filterMap_cons] at hSum ⊢
      omega
  | lease l =>
      simp only [Heap.step, List.nil_append]
      exact hBalanced.returned

/- When frames are given up the books agree without them. -/
theorem Balanced.reclaim
    {gs : List Frame}
    (hBalanced : h.Balanced (fs ++ gs) reserved) :
    (h.reclaim fs).Balanced gs reserved := by
  induction h, fs using Heap.reclaim.induct with
  | case1 h =>
      rw [Heap.reclaim]
      exact hBalanced
  | case2 h f fs next ih =>
      rw [Heap.reclaim]
      apply ih
      rw [List.append_assoc]
      exact hBalanced.step

------------------------------------------------------------
-- Requests
------------------------------------------------------------

/- A lease in hand goes to the object that is made for it. -/
theorem Balanced.issue
    {l : Lease}
    {contents : Contents}
    (hBalanced : h.Balanced (.lease l :: fs) reserved) :
    (h.issue (.payload ⟨l, contents⟩)).Balanced fs
      reserved := by
  refine hBalanced.of_owing ?_ ?_ ?_
  · rfl
  · rfl
  intro f
  rw [owing_cons_lease]
  simp only [owing, leased_issue]
  simp [Cell.lease?]
  omega

/- An object without a lease changes nothing in the books. -/
theorem Balanced.issue_code
    {code : Code κ}
    (hBalanced : h.Balanced fs reserved) :
    (h.issue (.code code)).Balanced fs reserved := by
  refine hBalanced.of_owing ?_ ?_ ?_
  · rfl
  · rfl
  intro f
  simp [owing, leased_issue, Cell.lease?]

/-
  A call that issues and returns nothing keeps the books if
  the live bytes follow what is reserved.
-/
theorem Balanced.reserve
    {counters : Counters}
    {ns : List Notice}
    {reserved' : List Lease}
    (hBalanced : h.Balanced fs reserved)
    (hc : c < h.collectors.size)
    (hTold : (h.counters c).Told counters ns)
    (hIssued : ns.filterMap Notice.issued? = [])
    (hReturned : ns.filterMap Notice.returned? = [])
    (hLive :
      counters.live.toNat =
        h.owing (Lease.bytesAt c) fs reserved')
    (hElse :
      ∀ f, (∀ b, f ⟨c, b⟩ = 0) →
        h.owing f fs reserved' = h.owing f fs reserved) :
    (h.tally c counters ns).Balanced fs reserved' := by
  refine hBalanced.tally hc hTold hLive ?_ hElse
  intro f
  simp [hIssued, hReturned]

/- The restart of a peak changes no book. -/
theorem Balanced.resetPeak
    (hBalanced : h.Balanced fs reserved) :
    (h.perform c Steps.resetPeak).2.Balanced fs
      reserved := by
  by_cases hc : c < h.collectors.size
  · rw [perform_eq, Steps.run_resetPeak]
    exact
      hBalanced.reserve hc (Counters.Told.of_live rfl rfl)
        rfl rfl (hBalanced.live c) (fun _ _ => rfl)
  · refine hBalanced.of_owing ?_ ?_ ?_
    · exact
        Array.setIfInBounds_eq_of_size_le
          (Nat.le_of_not_lt hc)
    · rfl
    · exact fun _ => rfl

/- One more copy of a reference changes no book. -/
theorem Balanced.retain
    (hBalanced : h.Balanced fs reserved)
    (i : ObjectId) :
    (h.retain i).Balanced fs reserved := by
  refine
    hBalanced.of_leased ?_ ?_
      (fun f => leased_retain f i) rfl
  · unfold Heap.retain
    split <;> rfl
  · unfold Heap.retain
    split <;> rfl

theorem Balanced.retainRef
    (hBalanced : h.Balanced fs reserved)
    (r : Ref) :
    (h.retainRef r).Balanced fs reserved := by
  cases r with
  | value v =>
      cases v with
      | integer n => exact hBalanced
      | list p => exact hBalanced.retain p
      | closure c => exact (hBalanced.retain _).retain _
  | array p => exact hBalanced.retain p
  | code q => exact hBalanced.retain q

/- A new collector has leased nothing. -/
theorem Balanced.newCollector
    (hBalanced : h.Balanced fs reserved)
    (config : Config) :
    ({ h with
        collectors :=
          h.collectors.push (.ofConfig config) }).Balanced
      fs reserved := by
  refine
    hBalanced.of_counters ?_ ?_ rfl rfl (fun _ => rfl)
  · simp
  · intro c
    unfold counters collector
    simp only [Array.getElem?_push]
    split
    · rename_i hc
      rw [hc, Array.getElem?_size]
      rfl
    · rfl

/- A refusal that changes no counter changes no book. -/
private theorem Balanced.refused
    {r : Refusal}
    (hBalanced : h.Balanced fs reserved)
    (hc : c < h.collectors.size) :
    (h.tally c (h.counters c) [.refused r]).Balanced fs
      reserved :=
  hBalanced.reserve hc (Counters.Told.of_live rfl rfl)
    rfl rfl (hBalanced.live c) (fun _ _ => rfl)

/- What is leased of bytes not yet out puts a lease in hand. -/
private theorem Balanced.leased
    {reserved' : List Lease}
    {size live : UInt64}
    (hBalanced : h.Balanced fs reserved)
    (hc : c < h.collectors.size)
    (hLive :
      live.toNat =
        size.toNat +
          h.owing (Lease.bytesAt c) fs reserved')
    (hElse :
      ∀ f, (∀ b, f ⟨c, b⟩ = 0) →
        h.owing f fs reserved' = h.owing f fs reserved) :
    (h.tally c
        (((h.counters c).withLive live).leased size live)
        [.allocated size live]).Balanced
      (.lease ⟨c, size⟩ :: fs) reserved' := by
  refine
    hBalanced.tally hc (Counters.told_leased _ _) ?_ ?_ ?_
  · rw [owing_cons_lease, Lease.bytesAt_self]
    exact hLive
  · intro f
    rw [owing_cons_lease]
    simp [List.filterMap_cons]
  · intro f hZero
    rw [owing_cons_lease, hZero size, Nat.zero_add]
    exact hElse f hZero

/- A block is leased or refused. -/
theorem Balanced.allocate
    (hBalanced : h.Balanced fs reserved)
    (hc : c < h.collectors.size)
    (size : UInt64) :
    (∃ h',
      h.perform c ((h.terms c).allocate size) =
          (.ok (), h') ∧
        h'.objects = h.objects ∧
          h'.Balanced (.lease ⟨c, size⟩ :: fs) reserved) ∨
      (∃ r h',
        h.perform c ((h.terms c).allocate size) =
            (.error r, h') ∧
          h'.objects = h.objects ∧
            h'.Balanced fs reserved) := by
  rw [perform_eq, Terms.run_allocate]
  cases hRoom : (h.terms c).secured? (h.counters c) size with
  | none =>
      exact Or.inr ⟨_, _, rfl, rfl, hBalanced.refused hc⟩
  | some next =>
      refine Or.inl ⟨_, rfl, rfl, ?_⟩
      refine hBalanced.leased hc ?_ (fun _ _ => rfl)
      unfold Terms.secured? at hRoom
      split at hRoom
      · have hNext :=
          (Counters.room?_eq_some_iff.mp hRoom).1
        rw [hBalanced.live c] at hNext
        omega
      · cases hRoom

/- An array call reserves what was announced or is refused. -/
theorem Balanced.openArray
    (hBalanced : h.Balanced fs reserved)
    (hc : c < h.collectors.size)
    (width hint : UInt64) :
    (∃ hinted h',
      h.perform c ((h.terms c).openArray width hint) =
          (.ok hinted, h') ∧
        h'.objects = h.objects ∧
          h'.Balanced fs (⟨c, hinted⟩ :: reserved)) ∨
      (∃ r h',
        h.perform c ((h.terms c).openArray width hint) =
            (.error r, h') ∧
          h'.objects = h.objects ∧
            h'.Balanced fs reserved) := by
  rw [perform_eq, Terms.run_openArray]
  cases hMul : Word.mul? hint width with
  | none =>
      exact Or.inr ⟨_, _, rfl, rfl, hBalanced.refused hc⟩
  | some hinted =>
      cases hRoom :
          (h.terms c).secured? (h.counters c) hinted with
      | none =>
          simp only [hRoom]
          exact
            Or.inr ⟨_, _, rfl, rfl, hBalanced.refused hc⟩
      | some next =>
          simp only [hRoom]
          refine Or.inl ⟨_, _, rfl, rfl, ?_⟩
          refine
            hBalanced.reserve hc
              (Counters.Told.of_live rfl rfl) rfl rfl ?_ ?_
          · unfold Terms.secured? at hRoom
            split at hRoom
            · have hNext :=
                (Counters.room?_eq_some_iff.mp hRoom).1
              rw [hBalanced.live c] at hNext
              rw [owing_cons_reserved, Lease.bytesAt_self]
              simp only [Counters.withLive]
              omega
            · cases hRoom
          · intro f hZero
            rw [owing_cons_reserved, hZero hinted,
              Nat.zero_add]

/-
  An array call leases what its items take or is refused;
  its reservation is gone.
-/
theorem Balanced.closeArray
    {k : Nat}
    {hinted : UInt64}
    (hBalanced : h.Balanced fs reserved)
    (hk : reserved[k]? = some ⟨c, hinted⟩)
    (width : UInt64)
    (count : Nat) :
    (∃ size h',
      h.perform c
          ((h.terms c).closeArray width hinted count) =
          (.ok size, h') ∧
        h'.objects = h.objects ∧
          h'.Balanced (.lease ⟨c, size⟩ :: fs)
            (reserved.eraseIdx k)) ∨
      (∃ r h',
        h.perform c
            ((h.terms c).closeArray width hinted count) =
            (.error r, h') ∧
          h'.objects = h.objects ∧
            h'.Balanced fs (reserved.eraseIdx k)) := by
  have hc : c < h.collectors.size :=
    hBalanced.lt_of_reserved (List.mem_of_getElem? hk)
  have hLive := hBalanced.live c
  rw [owing_eraseIdx _ fs hk, Lease.bytesAt_self] at hLive
  have hLe : hinted ≤ (h.counters c).live := by
    rw [UInt64.le_iff_toNat_le]
    omega
  have hElse :
      ∀ f, (∀ b, f ⟨c, b⟩ = 0) →
        h.owing f fs (reserved.eraseIdx k) =
          h.owing f fs reserved := by
    intro f hZero
    rw [owing_eraseIdx f fs hk, hZero hinted, Nat.zero_add]
  have hGiven :
      ∀ ns, ns.filterMap Notice.issued? = [] →
        ns.filterMap Notice.returned? = [] →
          (h.tally c
            ((h.counters c).withLive
              ((h.counters c).live - hinted)) ns).Balanced
            fs (reserved.eraseIdx k) := by
    intro ns hIssued hReturned
    refine
      hBalanced.reserve hc
        (Counters.Told.of_live hIssued hReturned) hIssued
        hReturned ?_ hElse
    simp only [Counters.withLive]
    rw [UInt64.toNat_sub_of_le _ _ hLe]
    omega
  rw [perform_eq, Terms.run_closeArray]
  simp only
  cases hSize : Word.ofNat? (count * width.toNat) with
  | none =>
      exact Or.inr ⟨_, _, rfl, rfl, hGiven _ rfl rfl⟩
  | some size =>
      by_cases hFits : hinted ≤ size
      · simp only [hFits, if_true]
        cases hRoom :
            (h.counters c).room? (h.terms c).limit
              (size - hinted) with
        | none =>
            exact Or.inr ⟨_, _, rfl, rfl, hGiven _ rfl rfl⟩
        | some next =>
            refine Or.inl ⟨_, _, rfl, rfl, ?_⟩
            refine hBalanced.leased hc ?_ hElse
            have hNext :=
              (Counters.room?_eq_some_iff.mp hRoom).1
            rw [Word.toNat_add_rest hLe hFits] at hNext
            omega
      · simp only [hFits, if_false]
        refine Or.inl ⟨_, _, rfl, rfl, ?_⟩
        refine hBalanced.leased hc ?_ hElse
        have hLess : size ≤ hinted :=
          UInt64.le_of_lt (UInt64.not_le.mp hFits)
        rw [Word.toNat_sub_spare hLe hLess]
        omega

end Heap

end LeasedHeap

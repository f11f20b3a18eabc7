import LeasedHeap.Proofs.Soundness
import LeasedHeap.Proofs.Waning

/-
  The payloads that a run has made.

  Keys are given out in order and never twice, so what a move
  makes is what it finds under new keys.  Of all that a run
  has made, what is still there holds the lease it was made
  under, and the trace tells of the others that their leases
  were returned.

  Main declarations:
    * `Heap.made` and `Moment.makes`
    * `Moment.Recorded`
    * `Moment.Recorded.step` and `Moment.Recorded.run`
    * `Moment.Recorded.leased_eq`
-/

namespace LeasedHeap

------------------------------------------------------------
-- Leases by Key
------------------------------------------------------------

/- A payload that is taken apart keeps its lease. -/
theorem Cell.Fades.lease?_eq
    {κ : Type}
    {a b : Cell κ}
    (hFades : a.Fades b) :
    b.lease? = a.lease? := by
  cases hFades <;> rfl

namespace Heap

variable {κ : Type}

/- The lease that an object holds. -/
def lease?
    (h : Heap κ)
    (p : ObjectId) : Option Lease :=
  (h.objects.get? p).bind (fun o => o.cell.lease?)

/- The payloads under the keys given out between two heaps. -/
def made (h h' : Heap κ) : List (ObjectId × Payload) :=
  (List.range' h.next (h'.next - h.next)).filterMap
    (fun p => (h'.payload? p).map (Prod.mk p))

/- What the lease of a key weighs. -/
def weight
    (h : Heap κ)
    (f : Lease → Nat)
    (p : ObjectId) : Nat :=
  ((h.lease? p).map f).getD 0

variable {h h' : Heap κ}

theorem payload?_eq_some_iff
    {p : ObjectId}
    {payload : Payload} :
    h.payload? p = some payload ↔
      ∃ n, h.objects.get? p = some ⟨n, .payload payload⟩ := by
  unfold payload?
  cases hGet : h.objects.get? p with
  | none => simp
  | some o =>
      rcases o with ⟨n, payload' | code⟩ <;> simp

/- The lease of an object is that of its payload. -/
theorem lease?_eq_map
    (h : Heap κ)
    (p : ObjectId) :
    h.lease? p = (h.payload? p).map Payload.lease := by
  unfold lease? payload?
  cases h.objects.get? p with
  | none => rfl
  | some o => rcases o with ⟨n, payload | code⟩ <;> rfl

/- The keys between two bounds. -/
private theorem mem_range'_sub
    {a b p : Nat} :
    p ∈ List.range' a (b - a) ↔ a ≤ p ∧ p < b := by
  rw [List.mem_range'_1]
  omega

/- What was made is there under a key given out since. -/
theorem mem_made_iff
    {e : ObjectId × Payload} :
    e ∈ h.made h' ↔
      (h.next ≤ e.1 ∧ e.1 < h'.next) ∧
        h'.payload? e.1 = some e.2 := by
  unfold made
  rw [List.mem_filterMap]
  constructor
  · rintro ⟨p, hRange, hMake⟩
    rcases Option.map_eq_some_iff.mp hMake with
      ⟨payload, hPayload, rfl⟩
    exact ⟨mem_range'_sub.mp hRange, hPayload⟩
  · rintro ⟨hBounds, hPayload⟩
    refine ⟨e.1, mem_range'_sub.mpr hBounds, ?_⟩
    rw [hPayload]
    rfl

/- Each key is made once. -/
theorem nodup_made
    (h h' : Heap κ) :
    ((h.made h').map Prod.fst).Nodup := by
  have hSub :
      ((h.made h').map Prod.fst).Sublist
        (List.range' h.next (h'.next - h.next)) := by
    unfold made
    generalize List.range' h.next (h'.next - h.next) = ps
    induction ps with
    | nil => exact .slnil
    | cons p ps ih =>
        cases hPayload : h'.payload? p with
        | none =>
            simp only [List.filterMap_cons, hPayload]
            exact ih.cons p
        | some payload =>
            simp only [List.filterMap_cons, hPayload]
            exact ih.cons_cons p
  exact hSub.nodup List.nodup_range'

/- If no key was given out, nothing was made. -/
theorem made_eq_nil
    (hNext : h'.next ≤ h.next) :
    h.made h' = [] := by
  unfold made
  rw [Nat.sub_eq_zero_of_le hNext]
  rfl

/- What is leased is leased by key. -/
theorem leased_eq_sum
    (h : Heap κ)
    (f : Lease → Nat) :
    h.leased f = ∑ p ∈ Finset.range h.next, h.weight f p := by
  unfold leased
  rw [Table.total_eq_sum]
  apply Finset.sum_congr rfl
  intro p _
  unfold weight lease?
  cases h.objects.get? p with
  | none => rfl
  | some o => cases hLease : o.cell.lease? <;> simp [hLease]

/- What the payloads that were made weigh, by key. -/
private theorem sum_made
    (h h' : Heap κ)
    (f : Lease → Nat) :
    Lease.sum f ((h.made h').map (·.2.lease)) =
      ((List.range' h.next (h'.next - h.next)).map
        (h'.weight f)).sum := by
  unfold made
  generalize List.range' h.next (h'.next - h.next) = ps
  induction ps with
  | nil => rfl
  | cons p ps ih =>
      have hLease := lease?_eq_map h' p
      rw [List.map_cons, List.sum_cons, ← ih, weight, hLease]
      cases hPayload : h'.payload? p <;> simp [hPayload]

/-
  If the leases of old keys stay, what is leased grows by
  what was made.
-/
theorem leased_made
    (hLe : h.next ≤ h'.next)
    (hOld : ∀ p, p < h.next → h'.lease? p = h.lease? p)
    (f : Lease → Nat) :
    h'.leased f =
      h.leased f +
        Lease.sum f ((h.made h').map (·.2.lease)) := by
  rw [leased_eq_sum, leased_eq_sum, sum_made]
  obtain ⟨n, hn⟩ : ∃ n, h'.next = h.next + n :=
    ⟨_, (Nat.add_sub_of_le hLe).symm⟩
  rw [hn, Finset.sum_range_add, Nat.add_sub_cancel_left,
    List.range'_eq_map_range, List.map_map]
  congr 1
  apply Finset.sum_congr rfl
  intro p hp
  unfold weight
  rw [hOld p (Finset.mem_range.mp hp)]

------------------------------------------------------------
-- What the Reclaimer Keeps
------------------------------------------------------------

/-
  Nothing comes under an old key, and what stays keeps its
  lease.
-/
structure Lasting (h h' : Heap κ) : Prop where
  le : h.next ≤ h'.next
  old :
    ∀ p o', p < h.next → h'.objects.get? p = some o' →
      ∃ o, h.objects.get? p = some o ∧
        o'.cell.lease? = o.cell.lease?

theorem Lasting.refl
    (h : Heap κ) :
    h.Lasting h :=
  ⟨Nat.le_refl _, fun _ o' _ hGet => ⟨o', hGet, rfl⟩⟩

/- A lease of an old key was there before. -/
theorem Lasting.lease?_eq_some
    (hLasting : h.Lasting h')
    {p : ObjectId}
    {l : Lease}
    (hp : p < h.next)
    (hLease : h'.lease? p = some l) :
    h.lease? p = some l := by
  rcases Option.bind_eq_some_iff.mp hLease with
    ⟨o', hGet', hHolds⟩
  rcases hLasting.old p o' hp hGet' with ⟨o, hGet, hSame⟩
  unfold lease?
  rw [hGet, Option.bind_some, ← hSame]
  exact hHolds

/- Programs let every object last. -/
theorem Turn.lasting
    {written : ObjectId → Prop}
    (hTurn : h.Turn h' written) :
    h.Lasting h' := by
  refine ⟨hTurn.le, ?_⟩
  intro p o' hp hGet'
  cases hGet : h.objects.get? p with
  | none =>
      rw [hTurn.gone p hp hGet] at hGet'
      cases hGet'
  | some o =>
      rcases hTurn.there p o hGet with
        ⟨o'', hGet'', _, hLease, _⟩
      rw [hGet'] at hGet''
      cases hGet''
      exact ⟨o, rfl, hLease⟩

/- Programs keep every lease under its key. -/
theorem Turn.lease?_eq
    {written : ObjectId → Prop}
    (hTurn : h.Turn h' written)
    {p : ObjectId}
    (hp : p < h.next) :
    h'.lease? p = h.lease? p := by
  unfold lease?
  cases hGet : h.objects.get? p with
  | none => rw [hTurn.gone p hp hGet]
  | some o =>
      rcases hTurn.there p o hGet with
        ⟨o', hGet', _, hLease, _⟩
      rw [hGet']
      exact hLease

/- What is left by drops lasts. -/
theorem Wanes.lasting
    (hWanes : h.Wanes h') :
    h.Lasting h' := by
  refine ⟨Nat.le_of_eq hWanes.next.symm, ?_⟩
  intro p o' _ hGet'
  rcases hWanes.old p o' hGet' with ⟨o, hGet, _, hFades⟩
  exact ⟨o, hGet, hFades.lease?_eq⟩

/- The return of a lease issues none. -/
theorem issued_giveBack
    (h : Heap κ)
    (l : Lease) :
    (h.giveBack l).issued = h.issued := by
  unfold giveBack
  rw [perform_eq, issued_tally, Steps.run_release]
  rfl

/- The reclaimer issues no lease. -/
theorem issued_step
    (h : Heap κ)
    (f : Frame) :
    (h.step f).2.issued = h.issued := by
  rcases step_cases h f with
    hSame | ⟨p, hTake⟩ | ⟨i, hRelease⟩ | ⟨l, hLease⟩
  · rw [hSame]
  · unfold issued
    rw [hTake, (take_collectors h p).2]
  · unfold issued
    rw [hRelease, (release_collectors h i).2]
  · rw [hLease]
    exact issued_giveBack h l

end Heap

------------------------------------------------------------
-- Histories
------------------------------------------------------------

namespace Moment

variable {κ : Type}

/- The payloads that moves make, the first one first. -/
def makes
    (m : Moment κ) :
    List (Move κ) → List (ObjectId × Payload)
| [] => []
| v :: vs =>
    m.world.heap.made (m.step v).world.heap ++
      (m.step v).makes vs

/-
  What is there of the payloads that a run has made holds its
  lease, what holds a lease was made, and the trace tells of
  all leases.
-/
structure Recorded
    (m : Moment κ)
    (made : List (ObjectId × Payload)) : Prop where
  keys : (made.map Prod.fst).Nodup
  old : ∀ e ∈ made, e.1 < m.world.heap.next
  same :
    ∀ e ∈ made, ∀ o,
      m.world.heap.objects.get? e.1 = some o →
        o.cell.lease? = some e.2.lease
  known :
    ∀ p l, m.world.heap.lease? p = some l →
      ∃ payload, (p, payload) ∈ made
  told :
    ∀ f, Lease.sum f (made.map (·.2.lease)) =
      Lease.sum f m.world.heap.issued

variable {m m' : Moment κ}
variable {made : List (ObjectId × Payload)}

theorem recorded_fresh
    (provides : UInt64 → Bool) :
    (fresh provides : Moment κ).Recorded [] := by
  refine ⟨List.nodup_nil, ?_, ?_, ?_, ?_⟩
  · intro e he
    cases he
  · intro e he
    cases he
  · intro p l hLease
    simp [fresh, World.fresh, Heap.fresh, Heap.lease?]
      at hLease
  · intro f
    rfl

/- New keys are recorded if the new leases are told. -/
private theorem Recorded.extend
    (hRecorded : m.Recorded made)
    (hLasting : m.world.heap.Lasting m'.world.heap)
    (hTold :
      ∀ f,
        Lease.sum f m'.world.heap.issued =
          Lease.sum f m.world.heap.issued +
            Lease.sum f
              ((m.world.heap.made m'.world.heap).map
                (·.2.lease))) :
    m'.Recorded
      (made ++ m.world.heap.made m'.world.heap) := by
  refine ⟨?_, ?_, ?_, ?_, ?_⟩
  · rw [List.map_append, List.nodup_append']
    refine ⟨hRecorded.keys, Heap.nodup_made _ _, ?_⟩
    intro p hOld hNew
    rcases List.mem_map.mp hOld with ⟨e, he, rfl⟩
    rcases List.mem_map.mp hNew with ⟨e', he', hSame⟩
    have hLe := (Heap.mem_made_iff.mp he').1.1
    have hLt := hRecorded.old e he
    rw [hSame] at hLe
    exact Nat.lt_irrefl _ (Nat.lt_of_lt_of_le hLt hLe)
  · intro e he
    rcases List.mem_append.mp he with hOld | hNew
    · exact
        Nat.lt_of_lt_of_le (hRecorded.old e hOld)
          hLasting.le
    · exact (Heap.mem_made_iff.mp hNew).1.2
  · intro e he o' hGet'
    rcases List.mem_append.mp he with hOld | hNew
    · rcases hLasting.old e.1 o' (hRecorded.old e hOld)
          hGet' with
        ⟨o, hGet, hLease⟩
      rw [hLease]
      exact hRecorded.same e hOld o hGet
    · rcases Heap.payload?_eq_some_iff.mp
          (Heap.mem_made_iff.mp hNew).2 with
        ⟨n, hPayload⟩
      rw [hPayload] at hGet'
      cases hGet'
      rfl
  · intro p l hLease
    by_cases hp : p < m.world.heap.next
    · have hBefore := hLasting.lease?_eq_some hp hLease
      rcases hRecorded.known p l hBefore with
        ⟨payload, hMem⟩
      exact ⟨payload, List.mem_append_left _ hMem⟩
    · rw [Heap.lease?_eq_map] at hLease
      rcases Option.map_eq_some_iff.mp hLease with
        ⟨payload, hPayload, _⟩
      rcases Heap.payload?_eq_some_iff.mp hPayload with
        ⟨n, hGet⟩
      refine ⟨payload, List.mem_append_right _ ?_⟩
      exact
        Heap.mem_made_iff.mpr
          ⟨⟨Nat.le_of_not_lt hp,
            Table.lt_issued_of_get? hGet⟩, hPayload⟩
  · intro f
    rw [List.map_append, Lease.sum_append, hTold f,
      hRecorded.told f]

/- What a program leaves to be dropped is no lease. -/
private theorem leases_start
    {m : Moment κ}
    (hFrames : m.frames = [])
    (v : Move κ) :
    Frame.leases (m.start v).frames = [] := by
  rcases frames_start hFrames v with hNone | ⟨r, hLeft⟩
  · rw [hNone]
    rfl
  · rw [hLeft]
    cases r <;> rfl

/-
  The leases that a program's move issues are those of the
  payloads that it makes: nothing else is out afterwards, and
  nothing was returned.
-/
private theorem issued_start
    (hSound : m.Sound)
    (hFrames : m.frames = [])
    (v : Move κ)
    (f : Lease → Nat) :
    Lease.sum f (m.start v).world.heap.issued =
      Lease.sum f m.world.heap.issued +
        Lease.sum f
          ((m.world.heap.made (m.start v).world.heap).map
            (·.2.lease)) := by
  have hTurn := turn_start m v
  have hSound' : (m.start v).Sound := by
    rcases m with ⟨w, fs, reserved⟩
    cases hFrames
    exact hSound.start v
  have hKept := hSound.balanced.kept f
  have hKept' := hSound'.balanced.kept f
  have hLeased :=
    Heap.leased_made hTurn.le (fun p => hTurn.lease?_eq) f
  have hNone := leases_start hFrames v
  rw [hTurn.returned] at hKept'
  simp only [Heap.owing, hFrames, hNone, Lease.sum_nil]
    at hKept hKept'
  have hEmpty : Lease.sum f (Frame.leases []) = 0 := rfl
  omega

/- Every move records what it makes. -/
theorem Recorded.step
    (hRecorded : m.Recorded made)
    (hSound : m.Sound)
    (v : Move κ) :
    (m.step v).Recorded
      (made ++
        m.world.heap.made (m.step v).world.heap) := by
  rcases step_cases m v with
    ⟨hFrames, hStep⟩ | ⟨f, fs, _, hStep⟩ | hStep
  · rw [hStep]
    exact
      hRecorded.extend (turn_start m v).lasting
        (issued_start hSound hFrames v)
  · have hWanes := Heap.Wanes.step m.world.heap f
    rw [hStep]
    refine hRecorded.extend hWanes.lasting ?_
    intro g
    simp only
    rw [Heap.made_eq_nil (Nat.le_of_eq hWanes.next),
      Heap.issued_step]
    rfl
  · rw [hStep]
    refine hRecorded.extend (.refl _) ?_
    intro g
    rw [Heap.made_eq_nil (Nat.le_refl _)]
    rfl

/- Every run records what it makes. -/
theorem Recorded.run
    (hRecorded : m.Recorded made)
    (hSound : m.Sound)
    (moves : List (Move κ)) :
    (m.run moves).Recorded (made ++ m.makes moves) := by
  induction moves generalizing m made with
  | nil => simpa [makes] using hRecorded
  | cons v moves ih =>
      rw [makes, ← List.append_assoc]
      exact ih (hRecorded.step hSound v) (hSound.step v)

theorem recorded_run_fresh
    (provides : UInt64 → Bool)
    (moves : List (Move κ)) :
    ((fresh provides).run moves).Recorded
      ((fresh provides).makes moves) := by
  simpa using
    (recorded_fresh provides).run (sound_fresh provides)
      moves

/- What is there of the made holds its lease. -/
theorem Recorded.lease?_eq
    (hRecorded : m.Recorded made)
    {e : ObjectId × Payload}
    {o : Object κ}
    (he : e ∈ made)
    (hGet : m.world.heap.objects.get? e.1 = some o) :
    m.world.heap.lease? e.1 = some e.2.lease := by
  unfold Heap.lease?
  rw [hGet]
  exact hRecorded.same e he o hGet

/- What is leased is held by those of the made that last. -/
theorem Recorded.leased_eq
    (hRecorded : m.Recorded made)
    (f : Lease → Nat) :
    m.world.heap.leased f =
      Lease.sum f
        ((made.filter
            (fun e =>
              (m.world.heap.lease? e.1).isSome)).map
          (·.2.lease)) := by
  have hHolds :
      ∀ e ∈ made, (m.world.heap.lease? e.1).isSome →
        m.world.heap.lease? e.1 = some e.2.lease := by
    intro e he hSome
    rcases Option.isSome_iff_exists.mp hSome with ⟨l, hl⟩
    rcases Option.bind_eq_some_iff.mp hl with ⟨o, hGet, _⟩
    exact hRecorded.lease?_eq he hGet
  generalize hKeep :
    made.filter
      (fun e => (m.world.heap.lease? e.1).isSome) = kept
  have hMem :
      ∀ e, e ∈ kept ↔
        e ∈ made ∧ (m.world.heap.lease? e.1).isSome := by
    intro e
    rw [← hKeep, List.mem_filter]
  have hNodup : (kept.map Prod.fst).Nodup := by
    rw [← hKeep]
    exact
      (List.filter_sublist.map Prod.fst).nodup
        hRecorded.keys
  have hSum :
      Lease.sum f (kept.map (·.2.lease)) =
        ((kept.map Prod.fst).map
          (m.world.heap.weight f)).sum := by
    unfold Lease.sum
    rw [List.map_map, List.map_map]
    congr 1
    apply List.map_congr_left
    intro e he
    rcases (hMem e).mp he with ⟨hMade, hSome⟩
    simp [Heap.weight, hHolds e hMade hSome]
  rw [hSum, Heap.leased_eq_sum,
    ← List.sum_toFinset _ hNodup]
  symm
  apply Finset.sum_subset
  · intro p hp
    rcases List.mem_map.mp (List.mem_toFinset.mp hp) with
      ⟨e, he, rfl⟩
    exact
      Finset.mem_range.mpr
        (hRecorded.old e ((hMem e).mp he).1)
  · intro p _ hNot
    cases hLease : m.world.heap.lease? p with
    | none => simp [Heap.weight, hLease]
    | some l =>
        exfalso
        apply hNot
        rcases hRecorded.known p l hLease with
          ⟨payload, hMade⟩
        refine List.mem_toFinset.mpr ?_
        refine List.mem_map.mpr ⟨(p, payload), ?_, rfl⟩
        exact (hMem _).mpr ⟨hMade, by simp [hLease]⟩

end Moment

end LeasedHeap

import LeasedHeap.Proofs.Balance
import LeasedHeap.Proofs.Reach
import LeasedHeap.Proofs.Waning

/-
  Giving handles up by plain recursion.

  Without a reclaimer, an object whose last handle goes gives
  up what it holds, one after the other and each as deep as
  it goes, and then returns its lease.  That order differs
  from the reclaimer's, and what is left does not: the
  objects that are still reached, with the handles that are
  still theirs, and in every collector the counters that
  those leave.

  Key definitions include:
    * `Heap.GivesUp`
    * `Heap.Keeps`
    * `Heap.Returns`

  Main declarations:
    * `Heap.Exact.exists_givesUp`
    * `Heap.Exact.objects_eq`
    * `Heap.Balanced.collectors_eq`
-/

namespace LeasedHeap

attribute [ext] Counters Collector

namespace Heap

variable {κ : Type}

------------------------------------------------------------
-- The Plain Recursion
------------------------------------------------------------

/- A lease is returned, if there is one. -/
def giveBack?
    (h : Heap κ) : Option Lease → Heap κ
| none => h
| some l => h.giveBack l

/-
  What is left of a heap when handles of some objects are
  given up one after another.
-/
inductive GivesUp :
    List ObjectId → Heap κ → Heap κ → Prop where
| nil {h : Heap κ} :
    GivesUp [] h h
/- Others have handles of the object: only this one goes. -/
| shared
    {i : ObjectId} {is : List ObjectId} {h h' : Heap κ} :
    2 ≤ h.handles i → GivesUp is (h.uncount i) h' →
      GivesUp (i :: is) h h'
/- The object goes, then all it holds, then its lease. -/
| last
    {i : ObjectId} {is : List ObjectId} {cell : Cell κ}
    {h h₁ h' : Heap κ} :
    h.objects.get? i = some ⟨1, cell⟩ →
      GivesUp cell.objects (h.discard i) h₁ →
      GivesUp is (h₁.giveBack? cell.lease?) h' →
        GivesUp (i :: is) h h'

@[simp]
theorem objects_giveBack?
    (h : Heap κ)
    (l : Option Lease) :
    (h.giveBack? l).objects = h.objects := by
  cases l <;> rfl

variable {h h' h'' h₁ h₂ : Heap κ}
variable {is : List ObjectId}
variable {outer : ObjectId → Nat}
variable {fs : List Frame}
variable {reserved : List Lease}

------------------------------------------------------------
-- Objects
------------------------------------------------------------

/- What stays is what it was, but for its handles. -/
structure Keeps (h h' : Heap κ) : Prop where
  next : h'.next = h.next
  old :
    ∀ i o', h'.objects.get? i = some o' →
      ∃ o, h.objects.get? i = some o ∧ o'.cell = o.cell

theorem Keeps.trans
    (hFirst : h.Keeps h')
    (hSecond : h'.Keeps h'') :
    h.Keeps h'' := by
  refine ⟨hSecond.next.trans hFirst.next, ?_⟩
  intro i o'' hGet''
  rcases hSecond.old i o'' hGet'' with ⟨o', hGet', hCell'⟩
  rcases hFirst.old i o' hGet' with ⟨o, hGet, hCell⟩
  exact ⟨o, hGet, hCell'.trans hCell⟩

theorem Keeps.of_objects_eq
    (hObjects : h'.objects = h.objects) :
    h.Keeps h' := by
  constructor
  · unfold Heap.next
    rw [hObjects]
  · intro i o hGet
    rw [hObjects] at hGet
    exact ⟨o, hGet, rfl⟩

theorem Keeps.uncount
    (h : Heap κ)
    (i : ObjectId) :
    h.Keeps (h.uncount i) := by
  refine ⟨(Wanes.uncount h i).next, ?_⟩
  intro j o' hGet'
  unfold Heap.uncount at hGet'
  cases hGet : h.objects.get? i with
  | none =>
      rw [hGet] at hGet'
      exact ⟨o', hGet', rfl⟩
  | some o =>
      rw [hGet] at hGet'
      simp only [Table.get?_set] at hGet'
      split at hGet'
      · rename_i hj
        cases hGet'
        exact ⟨o, hj.1 ▸ hGet, rfl⟩
      · exact ⟨o', hGet', rfl⟩

theorem Keeps.discard
    (h : Heap κ)
    (i : ObjectId) :
    h.Keeps (h.discard i) := by
  refine ⟨(Wanes.discard h i).next, ?_⟩
  intro j o' hGet'
  simp only [Heap.discard, Table.get?_erase] at hGet'
  split at hGet'
  · cases hGet'
  · exact ⟨o', hGet', rfl⟩

theorem GivesUp.keeps
    (hGivesUp : GivesUp is h h') :
    h.Keeps h' := by
  induction hGivesUp with
  | nil => exact .of_objects_eq rfl
  | shared _ _ ih => exact (Keeps.uncount _ _).trans ih
  | last _ _ _ ihHeld ihRest =>
      refine (Keeps.discard _ _).trans (ihHeld.trans ?_)
      exact
        .trans (.of_objects_eq (objects_giveBack? _ _)) ihRest

theorem GivesUp.wanes
    (hGivesUp : GivesUp is h h') :
    h.Wanes h' := by
  induction hGivesUp with
  | nil => exact .refl _
  | shared _ _ ih => exact (Wanes.uncount _ _).trans ih
  | last _ _ _ ihHeld ihRest =>
      refine (Wanes.discard _ _).trans (ihHeld.trans ?_)
      exact
        .trans (.of_objects_eq (objects_giveBack? _ _)) ihRest

/- What is given up is no longer held from outside. -/
theorem GivesUp.exact
    (hGivesUp : GivesUp is h h')
    (hExact : h.Exact (fun i => outer i + is.count i)) :
    h'.Exact outer := by
  induction hGivesUp generalizing outer with
  | nil => exact hExact.congr (fun i => by simp)
  | @shared i is h h' hShared _ ih =>
      apply ih
      apply Exact.uncount _ hShared
      refine hExact.congr (fun j => ?_)
      rw [List.count_cons, List.count_singleton]
      omega
  | @last i is cell h h₁ h' hGet _ _ ihHeld ihRest =>
      apply ihRest
      refine (ihHeld ?_).of_objects_eq (objects_giveBack? _ _)
      apply Exact.discard _ hGet
      refine hExact.congr (fun j => ?_)
      rw [List.count_cons, List.count_singleton]
      omega

/-
  The recursion ends: every handle that goes leaves fewer of
  them in the heap, and no object gets another one.
-/
theorem Exact.exists_givesUp
    (hExact : h.Exact (fun i => outer i + is.count i)) :
    ∃ h', GivesUp is h h' := by
  induction hTotal : h.objects.total Object.handles
    using Nat.strong_induction_on
    generalizing h is outer with
  | _ total ih =>
      subst hTotal
      cases is with
      | nil => exact ⟨h, .nil⟩
      | cons i is =>
          have hMoved :
              h.Exact
                (fun j =>
                  (outer j + is.count j) + [i].count j) := by
            refine hExact.congr (fun j => ?_)
            rw [List.count_cons, List.count_singleton]
            omega
          rcases hMoved.exists_of_pos (i := i) (by simp) with
            ⟨⟨n, cell⟩, hGet⟩
          have hHeld := hExact.held i _ hGet
          by_cases hShared : 2 ≤ h.handles i
          · have hFewer :
                (h.uncount i).objects.total Object.handles <
                  h.objects.total Object.handles := by
              have hSet :=
                Table.total_set Object.handles hGet
                  ⟨n - 1, cell⟩
              simp only [Heap.uncount, hGet] at hSet hHeld ⊢
              omega
            rcases ih _ hFewer (hMoved.uncount hShared) rfl
              with ⟨h', hRest⟩
            exact ⟨h', .shared hShared hRest⟩
          · have hOne : n = 1 := by
              rw [handles_of_get? hGet] at hShared
              simp only at hShared hHeld
              omega
            subst hOne
            have hFewer :
                (h.discard i).objects.total Object.handles <
                  h.objects.total Object.handles := by
              have hErase :=
                Table.total_erase Object.handles hGet
              simp only [Heap.discard] at hErase ⊢
              omega
            have hDiscard := hMoved.discard hGet
            rcases ih _ hFewer hDiscard rfl with
              ⟨h₁, hNested⟩
            have hLeft :=
              (hNested.exact hDiscard).of_objects_eq
                (objects_giveBack? h₁ cell.lease?)
            have hLe :
                (h₁.giveBack? cell.lease?).objects.total
                    Object.handles ≤
                  (h.discard i).objects.total
                    Object.handles := by
              rw [objects_giveBack?]
              exact hNested.wanes.total_le (fun _ _ hLe _ => hLe)
            rcases ih _ (Nat.lt_of_le_of_lt hLe hFewer) hLeft
                rfl with
              ⟨h', hRest⟩
            exact ⟨h', .last hGet hNested hRest⟩

/- Reclaiming leaves what stays as it was. -/
theorem Exact.keeps_reclaim
    (hExact :
      h.Exact (fun i => outer i + Frame.mentions fs i)) :
    h.Keeps (h.reclaim fs) := by
  have hWanes := Wanes.reclaim h fs
  have hReached :
      ∀ i, (h.reclaim fs).Reaches (fun j => 0 < outer j) i →
        h.Reaches (fun j => 0 < outer j) i := by
    intro i hReach
    induction hReach with
    | root hRoot => exact .root hRoot
    | link _ hGet' hMem ih =>
        rcases hWanes.old _ _ hGet' with ⟨o, hGet, _, _⟩
        rcases hExact.cell_reclaim ih hGet with
          ⟨o'', hGet'', hCell⟩
        rw [hGet'] at hGet''
        cases hGet''
        exact .link ih hGet (hCell ▸ hMem)
  refine ⟨hWanes.next, ?_⟩
  intro i o' hGet'
  have hReach :=
    hReached i (hExact.reclaim.reaches_of_exists hGet')
  rcases hWanes.old i o' hGet' with ⟨o, hGet, _, _⟩
  rcases hExact.cell_reclaim hReach hGet with
    ⟨o'', hGet'', hCell⟩
  rw [hGet'] at hGet''
  cases hGet''
  exact ⟨o, hGet, hCell⟩

/- What one way of dropping leaves is left by every other. -/
private theorem Exact.cell_eq
    (hFirst : h₁.Exact outer)
    (hSecond : h₂.Exact outer)
    (hKeeps₁ : h.Keeps h₁)
    (hKeeps₂ : h.Keeps h₂)
    {i : ObjectId}
    {o₁ : Object κ}
    (hGet₁ : h₁.objects.get? i = some o₁) :
    ∃ o₂, h₂.objects.get? i = some o₂ ∧
      o₂.cell = o₁.cell := by
  have hSame :
      ∀ {j a b}, h₁.objects.get? j = some a →
        h₂.objects.get? j = some b → b.cell = a.cell := by
    intro j a b ha hb
    rcases hKeeps₁.old j a ha with ⟨o, hGet, hCell⟩
    rcases hKeeps₂.old j b hb with ⟨o', hGet', hCell'⟩
    rw [hGet] at hGet'
    cases hGet'
    exact hCell'.trans hCell.symm
  have hReach : h₂.Reaches (fun j => 0 < outer j) i := by
    have hReach₁ := hFirst.reaches_of_exists hGet₁
    clear hGet₁
    induction hReach₁ with
    | root hRoot => exact .root hRoot
    | link _ hGet hMem ih =>
        rcases hSecond.exists_of_reaches ih with ⟨o', hGet'⟩
        exact .link ih hGet' (hSame hGet hGet' ▸ hMem)
  rcases hSecond.exists_of_reaches hReach with ⟨o₂, hGet₂⟩
  exact ⟨o₂, hGet₂, hSame hGet₁ hGet₂⟩

/-
  All ways of dropping leave the same objects: those that can
  be reached, as they were, and with the handles that are
  still counted.
-/
theorem Exact.objects_eq
    (hFirst : h₁.Exact outer)
    (hSecond : h₂.Exact outer)
    (hKeeps₁ : h.Keeps h₁)
    (hKeeps₂ : h.Keeps h₂) :
    h₁.objects = h₂.objects := by
  have hIssued : h₁.objects.issued = h₂.objects.issued :=
    hKeeps₁.next.trans hKeeps₂.next.symm
  have hCells :
      ∀ i, (h₁.objects.get? i).map Object.cell =
        (h₂.objects.get? i).map Object.cell := by
    intro i
    cases hGet₁ : h₁.objects.get? i with
    | some o₁ =>
        rcases hFirst.cell_eq hSecond hKeeps₁ hKeeps₂ hGet₁
          with ⟨o₂, hGet₂, hCell⟩
        simp [hGet₂, hCell]
    | none =>
        cases hGet₂ : h₂.objects.get? i with
        | none => rfl
        | some o₂ =>
            rcases hSecond.cell_eq hFirst hKeeps₂ hKeeps₁
              hGet₂ with ⟨o₁, hGet, _⟩
            rw [hGet₁] at hGet
            cases hGet
  have hInner : ∀ i, h₁.inner i = h₂.inner i := by
    intro i
    apply Table.total_congr hIssued
    intro k
    have hCell :=
      congrArg (Option.map (fun c => c.objects.count i))
        (hCells k)
    simpa [Function.comp_def] using hCell
  have hHandles : ∀ i, h₁.handles i = h₂.handles i := by
    intro i
    rw [hFirst.counted, hSecond.counted, hInner]
  apply Table.ext_get? hIssued
  intro i
  have hCell := hCells i
  have hCount := hHandles i
  unfold handles at hCount
  rcases hGet₁ : h₁.objects.get? i with _ | ⟨n, cell⟩ <;>
    rcases hGet₂ : h₂.objects.get? i with _ | ⟨n', cell'⟩ <;>
    simp_all

------------------------------------------------------------
-- Collectors
------------------------------------------------------------

/- Nothing happened to collectors but returns of leases. -/
structure Returns (h h' : Heap κ) : Prop where
  size : h'.collectors.size = h.collectors.size
  config :
    ∀ c, (h'.collector c).config = (h.collector c).config
  peak : ∀ c, (h'.counters c).peak = (h.counters c).peak
  issued : h'.issued = h.issued

theorem Returns.trans
    (hFirst : h.Returns h')
    (hSecond : h'.Returns h'') :
    h.Returns h'' :=
  ⟨hSecond.size.trans hFirst.size,
    fun c => (hSecond.config c).trans (hFirst.config c),
    fun c => (hSecond.peak c).trans (hFirst.peak c),
    hSecond.issued.trans hFirst.issued⟩

theorem Returns.of_collectors_eq
    (hCollectors : h'.collectors = h.collectors)
    (hLog : h'.log = h.log) :
    h.Returns h' := by
  have hCollector : ∀ c, h'.collector c = h.collector c := by
    intro c
    unfold collector
    rw [hCollectors]
  refine ⟨?_, ?_, ?_, ?_⟩
  · rw [hCollectors]
  · intro c
    rw [hCollector]
  · intro c
    unfold counters
    rw [hCollector]
  · unfold Heap.issued
    rw [hLog]

theorem Returns.giveBack
    (h : Heap κ)
    (l : Lease) :
    h.Returns (h.giveBack l) := by
  have hGiveBack :
      h.giveBack l =
        h.tally l.owner
          ((h.counters l.owner).returned l.bytes)
          [.released l.bytes
            (Word.satSub (h.counters l.owner).live
              l.bytes)] := by
    unfold Heap.giveBack
    rw [perform_eq, Steps.run_release]
  rw [hGiveBack]
  refine ⟨?_, ?_, ?_, ?_⟩
  · simp [tally]
  · intro c
    unfold tally collector
    simp only [Array.getElem?_setIfInBounds]
    by_cases hc : l.owner = c
    · subst hc
      by_cases hLt : l.owner < h.collectors.size
      · simp [hLt]
      · simp [hLt]
    · simp [hc]
  · intro c
    unfold counters tally collector
    simp only [Array.getElem?_setIfInBounds]
    by_cases hc : l.owner = c
    · subst hc
      by_cases hLt : l.owner < h.collectors.size
      · simp [hLt, Counters.returned]
      · simp [hLt]
    · simp [hc]
  · rw [issued_tally]
    rfl

theorem Returns.giveBack?
    (h : Heap κ)
    (l : Option Lease) :
    h.Returns (h.giveBack? l) := by
  cases l with
  | none => exact .of_collectors_eq rfl rfl
  | some l => exact .giveBack h l

theorem uncount_collectors
    (h : Heap κ)
    (i : ObjectId) :
    (h.uncount i).collectors = h.collectors ∧
      (h.uncount i).log = h.log := by
  unfold uncount
  split <;> exact ⟨rfl, rfl⟩

theorem GivesUp.returns
    (hGivesUp : GivesUp is h h') :
    h.Returns h' := by
  induction hGivesUp with
  | nil => exact .of_collectors_eq rfl rfl
  | @shared i is h h' _ _ ih =>
      exact
        .trans
          (.of_collectors_eq (uncount_collectors h i).1
            (uncount_collectors h i).2)
          ih
  | @last i is cell h h₁ h' _ _ _ ihHeld ihRest =>
      have hDiscard : h.Returns (h.discard i) :=
        .of_collectors_eq rfl rfl
      exact
        (hDiscard.trans ihHeld).trans
          ((Returns.giveBack? h₁ cell.lease?).trans ihRest)

theorem Returns.reclaim
    (h : Heap κ)
    (fs : List Frame) :
    h.Returns (h.reclaim fs) := by
  have hStep :
      ∀ (h : Heap κ) f, h.Returns (h.step f).2 := by
    intro h f
    rcases step_cases h f with
      hSame | ⟨p, hTake⟩ | ⟨i, hRelease⟩ | ⟨l, hLease⟩
    · rw [hSame]
      exact .of_collectors_eq rfl rfl
    · rw [hTake]
      exact
        .of_collectors_eq (take_collectors h p).1
          (take_collectors h p).2
    · rw [hRelease]
      exact
        .of_collectors_eq (release_collectors h i).1
          (release_collectors h i).2
    · rw [hLease]
      exact .giveBack h l
  induction h, fs using Heap.reclaim.induct with
  | case1 h =>
      rw [Heap.reclaim]
      exact .of_collectors_eq rfl rfl
  | case2 h f fs next ih =>
      rw [Heap.reclaim]
      exact (hStep h f).trans ih

/- One handle less changes no book. -/
theorem Balanced.uncount
    (hBalanced : h.Balanced fs reserved)
    (i : ObjectId) :
    (h.uncount i).Balanced fs reserved := by
  refine
    hBalanced.of_leased (uncount_collectors h i).1
      (uncount_collectors h i).2 ?_ rfl
  intro f
  unfold Heap.uncount
  split
  · rename_i o hGet
    exact leased_set f hGet rfl
  · rfl

/- An object that goes leaves its lease to be returned. -/
theorem Balanced.discard
    {i : ObjectId}
    {o : Object κ}
    (hBalanced : h.Balanced fs reserved)
    (hGet : h.objects.get? i = some o) :
    (h.discard i).Balanced
      (o.cell.lease?.toList.map .lease ++ fs) reserved := by
  have hOwing :
      ∀ f,
        (h.discard i).owing f
            (o.cell.lease?.toList.map .lease ++ fs) [] =
          h.owing f fs [] := by
    intro f
    have hErase := leased_erase f hGet
    have hLeases :
        Frame.leases (o.cell.lease?.toList.map .lease) =
          o.cell.lease?.toList := by
      cases o.cell.lease? <;> rfl
    unfold Heap.discard
    simp only [owing, Frame.leases_append, hLeases,
      Lease.sum_append, Lease.sum_nil]
    omega
  exact hBalanced.of_owing rfl rfl hOwing

/- What is given up leaves books that agree. -/
theorem GivesUp.balanced
    (hGivesUp : GivesUp is h h')
    (hBalanced : h.Balanced fs reserved) :
    h'.Balanced fs reserved := by
  induction hGivesUp generalizing fs with
  | nil => exact hBalanced
  | shared _ _ ih => exact ih (hBalanced.uncount _)
  | @last i is cell h h₁ h' hGet _ _ ihHeld ihRest =>
      have hHeld := ihHeld (hBalanced.discard hGet)
      apply ihRest
      cases hLease : cell.lease? with
      | none =>
          simp only [hLease] at hHeld
          exact hHeld
      | some l =>
          simp only [hLease] at hHeld
          exact hHeld.returned

/-
  All ways of dropping leave the same collectors: the objects
  that are left tell which leases were returned.
-/
theorem Balanced.collectors_eq
    (hFirst : h₁.Balanced fs reserved)
    (hSecond : h₂.Balanced fs reserved)
    (hReturns₁ : h.Returns h₁)
    (hReturns₂ : h.Returns h₂)
    (hObjects : h₁.objects = h₂.objects) :
    h₁.collectors = h₂.collectors := by
  have hIssued : h₁.issued = h₂.issued :=
    hReturns₁.issued.trans hReturns₂.issued.symm
  have hOwing :
      ∀ f ls, h₁.owing f fs ls = h₂.owing f fs ls := by
    intro f ls
    unfold Heap.owing Heap.leased
    rw [hObjects]
  have hReturned :
      ∀ f, Lease.sum f h₁.returned =
        Lease.sum f h₂.returned := by
    intro f
    have hKept₁ := hFirst.kept f
    have hKept₂ := hSecond.kept f
    rw [hIssued, hOwing] at hKept₁
    omega
  have hCounters : ∀ c, h₁.counters c = h₂.counters c := by
    intro c
    have hLive :
        (h₁.counters c).live = (h₂.counters c).live := by
      apply UInt64.toNat_inj.mp
      rw [hFirst.live, hSecond.live, hOwing]
    have hPeak :=
      (hReturns₁.peak c).trans (hReturns₂.peak c).symm
    have hAllocations := hFirst.allocations c
    rw [hIssued, ← hSecond.allocations c] at hAllocations
    have hAllocated := hFirst.allocated c
    rw [hIssued, ← hSecond.allocated c] at hAllocated
    have hReleases := hFirst.releases c
    rw [hReturned, ← hSecond.releases c] at hReleases
    have hReclaimed := hFirst.reclaimed c
    rw [hReturned, ← hSecond.reclaimed c] at hReclaimed
    exact
      Counters.ext hLive hPeak hAllocations hReleases
        hAllocated hReclaimed
  have hCollector :
      ∀ c, h₁.collector c = h₂.collector c := by
    intro c
    have hConfig :=
      (hReturns₁.config c).trans (hReturns₂.config c).symm
    exact Collector.ext hConfig (hCounters c)
  have hSize :=
    hReturns₁.size.trans hReturns₂.size.symm
  apply Array.ext hSize
  intro c hc hc'
  have hAt := hCollector c
  unfold collector at hAt
  rw [Array.getElem?_eq_getElem hc,
    Array.getElem?_eq_getElem hc'] at hAt
  exact hAt

------------------------------------------------------------
-- Both Ways
------------------------------------------------------------

/-
  The reclaimer leaves the objects and the collectors that
  the plain recursion leaves.
-/
theorem GivesUp.eq_reclaim
    {gs : List Frame}
    (hGivesUp : GivesUp is h h')
    (hExact :
      h.Exact (fun i => outer i + Frame.mentions fs i))
    (hFrames : ∀ i, Frame.mentions fs i = is.count i)
    (hBalanced : h.Balanced (fs ++ gs) reserved)
    (hLeases : Frame.leases fs = []) :
    (h.reclaim fs).objects = h'.objects ∧
      (h.reclaim fs).collectors = h'.collectors := by
  have hGiven :
      h.Exact (fun i => outer i + is.count i) :=
    hExact.congr (fun i => by rw [hFrames])
  have hBooks : h.Balanced gs reserved := by
    apply hBalanced.of_leased rfl rfl (fun _ => rfl)
    rw [Frame.leases_append, hLeases, List.nil_append]
  have hObjects :=
    hExact.reclaim.objects_eq (hGivesUp.exact hGiven)
      hExact.keeps_reclaim hGivesUp.keeps
  refine ⟨hObjects, ?_⟩
  exact
    hBalanced.reclaim.collectors_eq
      (hGivesUp.balanced hBooks) (.reclaim h fs)
      hGivesUp.returns hObjects

end Heap

end LeasedHeap

import LeasedHeap.Proofs.Release

/-
  What reclaiming does to the objects of a heap.

  A heap only wanes while values are dropped: no key is given
  out, and an object that stays has no more handles than it
  had and the cell that it had, if not what taking its items
  out makes of it.  So kinds and leases stay, and no weight
  grows that neither a handle less nor a blank item makes
  greater.

  Main declarations:
    * `Cell.Fades`
    * `Heap.Wanes`
    * `Heap.Wanes.step` and `Heap.Wanes.reclaim`
    * `Heap.Wanes.total_le`
-/

namespace LeasedHeap

------------------------------------------------------------
-- Cells
------------------------------------------------------------

/- Items that are taken out twice were taken out once. -/
@[simp]
theorem Contents.mapValues_blank_blank
    (contents : Contents) :
    (contents.mapValues Value.blank).mapValues Value.blank =
      contents.mapValues Value.blank := by
  have hBlank : Value.blank ∘ Value.blank = Value.blank := by
    funext v
    cases v <;> rfl
  cases contents with
  | numbers width ns => rfl
  | slots vs =>
      simp only [mapValues, List.map_map, hBlank]
  | elements vs =>
      simp only [mapValues, List.map_map, hBlank]

namespace Cell

variable {κ : Type}
variable {a b c : Cell κ}

/- A cell stays as it is, or its nested items are taken out. -/
inductive Fades : Cell κ → Cell κ → Prop where
| same (c : Cell κ) : Fades c c
| blank (lease : Lease) (contents : Contents) :
    Fades (.payload ⟨lease, contents⟩)
      (.payload ⟨lease, contents.mapValues Value.blank⟩)

theorem Fades.trans
    (hFirst : a.Fades b)
    (hSecond : b.Fades c) :
    a.Fades c := by
  cases hFirst with
  | same => exact hSecond
  | blank lease contents =>
      cases hSecond with
      | same => exact .blank lease contents
      | blank =>
          rw [Contents.mapValues_blank_blank]
          exact .blank lease contents

theorem Fades.kind_eq
    (hFades : a.Fades b) :
    b.kind = a.kind := by
  cases hFades with
  | same => rfl
  | blank lease contents =>
      exact Heap.kind_mapValues lease contents Value.blank

end Cell

------------------------------------------------------------
-- What Happens to Objects
------------------------------------------------------------

namespace Heap

variable {κ : Type}
variable {h h' h'' : Heap κ}
variable {outer : ObjectId → Nat}

/- Count one handle less to an object. -/
def uncount
    (h : Heap κ)
    (i : ObjectId) : Heap κ :=
  match h.objects.get? i with
  | some o =>
      { h with
        objects :=
          h.objects.set i { o with handles := o.handles - 1 } }
  | none => h

/- Nobody else has fewer handles. -/
theorem handles_uncount_of_ne
    {i j : ObjectId}
    (hj : j ≠ i) :
    (h.uncount i).handles j = h.handles j := by
  unfold uncount handles
  cases h.objects.get? i with
  | none => rfl
  | some o => simp [Table.get?_set, hj]

/- An object goes. -/
def discard
    (h : Heap κ)
    (i : ObjectId) : Heap κ :=
  { h with objects := h.objects.erase i }

/- A lease is returned. -/
def giveBack
    (h : Heap κ)
    (l : Lease) : Heap κ :=
  (h.perform l.owner (Steps.release l.bytes)).2

/- A payload goes, and its lease is returned. -/
def free
    (h : Heap κ)
    (p : ObjectId)
    (l : Lease) : Heap κ :=
  (h.discard p).giveBack l

@[simp]
theorem objects_free
    (h : Heap κ)
    (p : ObjectId)
    (l : Lease) :
    (h.free p l).objects = h.objects.erase p :=
  rfl

/-
  A step leaves the heap, takes items out of a payload, gives
  up a handle or returns a lease.
-/
theorem step_cases
    (h : Heap κ)
    (f : Frame) :
    (h.step f).2 = h ∨
      (∃ p, (h.step f).2 = (h.take p).2) ∨
        (∃ i, (h.step f).2 = (h.release i).2) ∨
          (∃ l, (h.step f).2 = h.giveBack l) := by
  cases f with
  | value v =>
      cases hv : v.payload? with
      | none => exact Or.inl (by simp only [step, hv])
      | some p =>
          exact Or.inr (Or.inl ⟨p, by simp only [step, hv]⟩)
  | activation v pending =>
      cases pending with
      | nil => exact Or.inl rfl
      | cons w pending =>
          cases hw : w.payload? with
          | none => exact Or.inl (by simp only [step, hw])
          | some p =>
              exact
                Or.inr (Or.inl ⟨p, by simp only [step, hw]⟩)
  | handle i => exact Or.inr (Or.inr (Or.inl ⟨i, rfl⟩))
  | lease l => exact Or.inr (Or.inr (Or.inr ⟨l, rfl⟩))

/- An object with more handles than one is there. -/
theorem exists_of_handles
    {i : ObjectId}
    (hShared : 2 ≤ h.handles i) :
    ∃ n cell, h.objects.get? i = some ⟨n + 2, cell⟩ := by
  unfold handles at hShared
  cases hGet : h.objects.get? i with
  | none =>
      rw [hGet] at hShared
      cases hShared
  | some o =>
      rw [hGet] at hShared
      rcases o with ⟨n, cell⟩
      obtain ⟨m, rfl⟩ : ∃ m, n = m + 2 :=
        ⟨n - 2, (Nat.sub_add_cancel hShared).symm⟩
      exact ⟨m, cell, rfl⟩

/- A shared object loses a handle. -/
theorem release_shared
    {i : ObjectId}
    (hShared : 2 ≤ h.handles i) :
    h.release i = ([], h.uncount i) := by
  rcases exists_of_handles hShared with ⟨n, cell, hGet⟩
  simp only [release, uncount, hGet]
  rfl

/- An object goes with its last handle. -/
theorem release_last
    {i : ObjectId}
    {cell : Cell κ}
    (hGet : h.objects.get? i = some ⟨1, cell⟩) :
    h.release i = (cell.dropFrames, h.discard i) := by
  simp only [release, discard, hGet]

/- A payload with a single handle is taken apart. -/
theorem take_last
    {p : ObjectId}
    {lease : Lease}
    {contents : Contents}
    (hGet :
      h.objects.get? p =
        some ⟨1, .payload ⟨lease, contents⟩⟩) :
    h.take p =
      (contents.pending, h.emptied p lease contents) := by
  simp only [take, hGet]
  rfl

/- A shared object is held once less. -/
theorem Exact.uncount
    {i : ObjectId}
    (hExact : h.Exact (fun j => outer j + [i].count j))
    (hShared : 2 ≤ h.handles i) :
    (h.uncount i).Exact outer := by
  have hRelease := hExact.release
  rw [release_shared hShared] at hRelease
  exact hRelease.congr (fun j => by simp)

/- What an object held when it went is held from outside. -/
theorem Exact.discard
    {i : ObjectId}
    {cell : Cell κ}
    (hExact : h.Exact (fun j => outer j + [i].count j))
    (hGet : h.objects.get? i = some ⟨1, cell⟩) :
    (h.discard i).Exact
      (fun j => outer j + cell.objects.count j) := by
  have hRelease := hExact.release
  rw [release_last hGet] at hRelease
  exact
    hRelease.congr
      (fun j => by rw [Frame.mentions_dropFrames])

theorem Exact.free
    {p : ObjectId}
    {lease : Lease}
    {contents : Contents}
    (hExact : h.Exact (fun j => outer j + [p].count j))
    (hGet :
      h.objects.get? p =
        some ⟨1, .payload ⟨lease, contents⟩⟩) :
    (h.free p lease).Exact
      (fun j =>
        outer j +
          (Cell.payload ⟨lease, contents⟩ :
            Cell κ).objects.count j) :=
  (hExact.discard hGet).of_objects_eq rfl

/- What is taken out of a payload is held from outside. -/
theorem Exact.emptied
    {p : ObjectId}
    {lease : Lease}
    {contents : Contents}
    (hExact : h.Exact outer)
    (hGet :
      h.objects.get? p =
        some ⟨1, .payload ⟨lease, contents⟩⟩) :
    (h.emptied p lease contents).Exact
      (fun j =>
        outer j +
          (Cell.payload ⟨lease, contents⟩ :
            Cell κ).objects.count j) := by
  have hTake := hExact.take p
  rw [take_last hGet] at hTake
  exact
    hTake.congr
      (fun j => by rw [Contents.count_pending lease])

------------------------------------------------------------
-- Waning
------------------------------------------------------------

/- A heap in which nothing but drops happened. -/
structure Wanes (h h' : Heap κ) : Prop where
  next : h'.next = h.next
  old :
    ∀ i o', h'.objects.get? i = some o' →
      ∃ o, h.objects.get? i = some o ∧
        o'.handles ≤ o.handles ∧ o.cell.Fades o'.cell

theorem Wanes.refl
    (h : Heap κ) :
    h.Wanes h :=
  ⟨rfl,
    fun _ o hGet => ⟨o, hGet, Nat.le_refl _, .same _⟩⟩

theorem Wanes.trans
    (hFirst : h.Wanes h')
    (hSecond : h'.Wanes h'') :
    h.Wanes h'' := by
  refine ⟨hSecond.next.trans hFirst.next, ?_⟩
  intro i o'' hGet''
  rcases hSecond.old i o'' hGet'' with
    ⟨o', hGet', hLe', hFades'⟩
  rcases hFirst.old i o' hGet' with ⟨o, hGet, hLe, hFades⟩
  exact
    ⟨o, hGet, Nat.le_trans hLe' hLe, hFades.trans hFades'⟩

/- Collectors and the trace do not matter. -/
theorem Wanes.of_objects_eq
    (hObjects : h'.objects = h.objects) :
    h.Wanes h' := by
  constructor
  · unfold Heap.next
    rw [hObjects]
  · intro i o hGet
    rw [hObjects] at hGet
    exact ⟨o, hGet, Nat.le_refl _, .same _⟩

/- An object is replaced by what is left of it. -/
theorem Wanes.set
    {p : ObjectId}
    {old new : Object κ}
    (hOld : h.objects.get? p = some old)
    (hHandles : new.handles ≤ old.handles)
    (hFades : old.cell.Fades new.cell) :
    h.Wanes { h with objects := h.objects.set p new } := by
  refine ⟨by simp [Heap.next], ?_⟩
  intro i o' hGet'
  rw [Table.get?_set] at hGet'
  split at hGet'
  · rename_i hi
    cases hGet'
    exact ⟨old, hi.1 ▸ hOld, hHandles, hFades⟩
  · exact ⟨o', hGet', Nat.le_refl _, .same _⟩

theorem Wanes.discard
    (h : Heap κ)
    (i : ObjectId) :
    h.Wanes (h.discard i) := by
  refine ⟨by simp [Heap.next, Heap.discard], ?_⟩
  intro j o' hGet'
  simp only [Heap.discard, Table.get?_erase] at hGet'
  split at hGet'
  · cases hGet'
  · exact ⟨o', hGet', Nat.le_refl _, .same _⟩

theorem Wanes.uncount
    (h : Heap κ)
    (i : ObjectId) :
    h.Wanes (h.uncount i) := by
  unfold Heap.uncount
  split
  · rename_i o hGet
    exact .set hGet (Nat.sub_le _ _) (.same _)
  · exact .refl h

theorem Wanes.giveBack
    (h : Heap κ)
    (l : Lease) :
    h.Wanes (h.giveBack l) :=
  .of_objects_eq rfl

theorem Wanes.free
    (h : Heap κ)
    (p : ObjectId)
    (l : Lease) :
    h.Wanes (h.free p l) :=
  (Wanes.discard h p).trans (.giveBack _ l)

theorem Wanes.emptied
    {p : ObjectId}
    {lease : Lease}
    {contents : Contents}
    (hGet :
      h.objects.get? p =
        some ⟨1, .payload ⟨lease, contents⟩⟩) :
    h.Wanes (h.emptied p lease contents) :=
  .set hGet (Nat.le_refl _) (.blank lease contents)

theorem Wanes.take
    (h : Heap κ)
    (p : ObjectId) :
    h.Wanes (h.take p).2 := by
  rcases take_cases h p with
    ⟨lease, contents, hGet, hTake⟩ | ⟨_, hTake⟩
  · rw [hTake]
    exact .emptied hGet
  · rw [hTake]
    exact .refl h

theorem Wanes.release
    (h : Heap κ)
    (i : ObjectId) :
    h.Wanes (h.release i).2 := by
  rcases release_cases h i with
    ⟨_, hRelease⟩ | ⟨n, cell, hGet, hRelease⟩ |
      ⟨n, cell, _, _, hRelease⟩
  · rw [hRelease]
    exact .refl h
  · rw [hRelease]
    exact .set hGet (Nat.le_succ _) (.same _)
  · rw [hRelease]
    exact .discard h i

theorem Wanes.step
    (h : Heap κ)
    (f : Frame) :
    h.Wanes (h.step f).2 := by
  rcases step_cases h f with
    hSame | ⟨p, hTake⟩ | ⟨i, hRelease⟩ | ⟨l, hLease⟩
  · rw [hSame]
    exact .refl h
  · rw [hTake]
    exact .take h p
  · rw [hRelease]
    exact .release h i
  · rw [hLease]
    exact .giveBack h l

theorem Wanes.reclaim
    (h : Heap κ)
    (fs : List Frame) :
    h.Wanes (h.reclaim fs) := by
  induction h, fs using Heap.reclaim.induct with
  | case1 h =>
      rw [Heap.reclaim]
      exact .refl h
  | case2 h f fs next ih =>
      rw [Heap.reclaim]
      exact (Wanes.step h f).trans ih

------------------------------------------------------------
-- What Stays and what Does not Grow
------------------------------------------------------------

/- What stays is of the kind that it was. -/
theorem Wanes.kind?_eq
    (hWanes : h.Wanes h')
    {i : ObjectId}
    {k : Kind}
    (hThere : ∃ o, h'.objects.get? i = some o)
    (hKind : h.kind? i = some k) :
    h'.kind? i = some k := by
  rcases hThere with ⟨o', hGet'⟩
  rcases hWanes.old i o' hGet' with ⟨o, hGet, _, hFades⟩
  rcases kind?_eq_some_iff.mp hKind with ⟨_, hGet₀, rfl⟩
  rw [hGet] at hGet₀
  cases hGet₀
  exact kind?_eq_some_iff.mpr ⟨o', hGet', hFades.kind_eq⟩

/- A heap that wanes has no more handles of anything. -/
theorem Wanes.handles_le
    (hWanes : h.Wanes h')
    (i : ObjectId) :
    h'.handles i ≤ h.handles i := by
  unfold handles
  cases hGet' : h'.objects.get? i with
  | none => exact Nat.zero_le _
  | some o' =>
      rcases hWanes.old i o' hGet' with ⟨o, hGet, hLe, _⟩
      rw [hGet]
      exact hLe

/-
  A weight does not grow if no object weighs more with fewer
  handles or with its nested items taken out.
-/
theorem Wanes.total_le
    (hWanes : h.Wanes h')
    {weigh : Object κ → Nat}
    (hWeigh :
      ∀ o o' : Object κ, o'.handles ≤ o.handles →
        o.cell.Fades o'.cell → weigh o' ≤ weigh o) :
    h'.objects.total weigh ≤ h.objects.total weigh := by
  have hIssued : h'.objects.issued = h.objects.issued :=
    hWanes.next
  rw [Table.total_eq_sum, Table.total_eq_sum, hIssued]
  apply Finset.sum_le_sum
  intro i _
  cases hGet' : h'.objects.get? i with
  | none => exact Nat.zero_le _
  | some o' =>
      rcases hWanes.old i o' hGet' with
        ⟨o, hGet, hLe, hFades⟩
      rw [hGet]
      exact hWeigh o o' hLe hFades

------------------------------------------------------------
-- Values in Frames
------------------------------------------------------------

/- Some object holds a value. -/
def Holds
    (h : Heap κ)
    (v : Value) : Prop :=
  ∃ i o, h.objects.get? i = some o ∧ v ∈ o.cell.values

/- What is taken out of a payload was in it. -/
private theorem holds_of_mem_take
    {p : ObjectId}
    {v : Value}
    (hv : v ∈ (h.take p).1) :
    h.Holds v := by
  rcases take_cases h p with
    ⟨lease, contents, hGet, hTake⟩ | ⟨_, hTake⟩
  · rw [hTake] at hv
    unfold Contents.pending at hv
    rw [List.mem_reverse, List.mem_filter] at hv
    exact ⟨p, _, hGet, hv.1⟩
  · rw [hTake] at hv
    cases hv

/- What an object that goes gives up was in it. -/
private theorem holds_of_mem_release
    {i : ObjectId}
    {g : Frame}
    {v : Value}
    (hg : g ∈ (h.release i).1)
    (hv : v ∈ g.values) :
    h.Holds v := by
  rcases release_cases h i with
    ⟨_, hRelease⟩ | ⟨n, cell, _, hRelease⟩ |
      ⟨n, cell, hGet, _, hRelease⟩
  · rw [hRelease] at hg
    cases hg
  · rw [hRelease] at hg
    cases hg
  · rw [hRelease] at hg
    refine ⟨i, _, hGet, ?_⟩
    cases cell with
    | payload payload =>
        rcases List.mem_append.mp hg with hValue | hLease
        · rcases List.mem_map.mp hValue with ⟨w, hw, rfl⟩
          rcases List.mem_singleton.mp hv with rfl
          exact (List.mem_filter.mp hw).1
        · rcases List.mem_singleton.mp hLease with rfl
          cases hv
    | code code =>
        rcases List.mem_append.mp hg with hValue | hCode
        · rcases List.mem_map.mp hValue with ⟨w, hw, rfl⟩
          rcases List.mem_singleton.mp hv with rfl
          exact (List.mem_filter.mp hw).1
        · rcases List.mem_map.mp hCode with ⟨q, _, rfl⟩
          cases hv

/-
  The values that are to be given up after a step were in the
  frame or held by an object.
-/
theorem values_step
    {f g : Frame}
    {v : Value}
    (hg : g ∈ (h.step f).1)
    (hv : v ∈ g.values) :
    v ∈ f.values ∨ h.Holds v := by
  cases f with
  | value w =>
      cases hw : w.payload? with
      | none =>
          simp only [Heap.step, hw] at hg
          cases hg
      | some p =>
          simp only [Heap.step, hw] at hg
          rcases List.mem_singleton.mp hg with rfl
          rcases List.mem_cons.mp hv with rfl | hTaken
          · exact Or.inl (List.mem_singleton.mpr rfl)
          · exact Or.inr (holds_of_mem_take hTaken)
  | activation w pending =>
      cases pending with
      | nil =>
          cases w with
          | integer i => cases hg
          | list p =>
              rcases List.mem_singleton.mp hg with rfl
              cases hv
          | closure c =>
              rcases List.mem_pair.mp hg with rfl | rfl
              · cases hv
              · cases hv
      | cons u pending =>
          cases hu : u.payload? with
          | none =>
              simp only [Heap.step, hu] at hg
              rcases List.mem_singleton.mp hg with rfl
              left
              rcases List.mem_cons.mp hv with rfl | hMem
              · exact List.mem_cons_self ..
              · exact
                  List.mem_cons_of_mem _
                    (List.mem_cons_of_mem _ hMem)
          | some p =>
              simp only [Heap.step, hu] at hg
              rcases List.mem_pair.mp hg with rfl | rfl
              · rcases List.mem_singleton.mp hv with rfl
                left
                exact
                  List.mem_cons_of_mem _
                    (List.mem_cons_self ..)
              · rcases List.mem_cons.mp hv with rfl | hMem
                · exact Or.inl (List.mem_cons_self ..)
                · rcases List.mem_append.mp hMem with
                    hTaken | hPending
                  · exact Or.inr (holds_of_mem_take hTaken)
                  · left
                    exact
                      List.mem_cons_of_mem _
                        (List.mem_cons_of_mem _ hPending)
  | handle i => exact Or.inr (holds_of_mem_release hg hv)
  | lease l => cases hg

/- Frames keep referring to what they expect. -/
theorem Exact.typed_step
    {f : Frame}
    {fs : List Frame}
    (hExact :
      h.Exact
        (fun i => outer i + Frame.mentions (f :: fs) i))
    (hTyped :
      ∀ g ∈ f :: fs, ∀ v ∈ g.values, ∀ l ∈ v.links,
        h.kind? l.1 = some l.2) :
    ∀ g ∈ (h.step f).1 ++ fs, ∀ v ∈ g.values, ∀ l ∈ v.links,
      (h.step f).2.kind? l.1 = some l.2 := by
  intro g hg v hv l hl
  have hPos :
      0 < Frame.mentions ((h.step f).1 ++ fs) l.1 :=
    List.count_pos_iff.mpr
      (List.mem_flatMap.mpr ⟨g, hg, Frame.mem_objects hv hl⟩)
  have hThere :=
    hExact.step.exists_of_pos (i := l.1) (by omega)
  apply (Wanes.step h f).kind?_eq hThere
  rcases List.mem_append.mp hg with hNew | hRest
  · rcases values_step hNew hv with hFrame | ⟨i, o, hGet, hMem⟩
    · exact hTyped f (List.mem_cons_self ..) v hFrame l hl
    · refine hExact.typed i o hGet l ?_
      exact
        List.mem_append_left _
          (List.mem_flatMap.mpr ⟨v, hMem, hl⟩)
  · exact
      hTyped g (List.mem_cons_of_mem _ hRest) v hv l hl

end Heap

end LeasedHeap

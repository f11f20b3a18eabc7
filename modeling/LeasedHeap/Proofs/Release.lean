import LeasedHeap.Proofs.Counts

/-
  Giving handles up and counting new ones.

  What frames are still to give up counts as held from
  outside.  Each step of reclaiming keeps the counts exact:
  references move from the frames into nothing, or out of an
  object whose last handle went into the frames.

  Main declarations:
    * `Frame.mentions`
    * `Heap.take_cases` and `Heap.release_cases`
    * `Heap.Exact.retain`
    * `Heap.Exact.step`
    * `Heap.Exact.reclaim`
-/

namespace LeasedHeap

------------------------------------------------------------
-- References in Frames
------------------------------------------------------------

namespace Frame

/- How often some frames are to give up an object. -/
def mentions
    (fs : List Frame)
    (i : ObjectId) : Nat :=
  (fs.flatMap Frame.objects).count i

@[simp]
theorem mentions_nil
    (i : ObjectId) :
    mentions [] i = 0 :=
  rfl

@[simp]
theorem mentions_cons
    (f : Frame)
    (fs : List Frame)
    (i : ObjectId) :
    mentions (f :: fs) i =
      f.objects.count i + mentions fs i := by
  simp [mentions]

@[simp]
theorem mentions_append
    (fs gs : List Frame)
    (i : ObjectId) :
    mentions (fs ++ gs) i =
      mentions fs i + mentions gs i := by
  simp [mentions]

/- Values to drop mention what the values refer to. -/
@[simp]
theorem mentions_map_value
    (vs : List Value)
    (i : ObjectId) :
    mentions (vs.map .value) i =
      (vs.flatMap Value.objects).count i := by
  induction vs with
  | nil => rfl
  | cons v vs ih => simp [ih, Frame.objects]

/- Handles to give up mention their objects. -/
@[simp]
theorem mentions_map_handle
    (is : List ObjectId)
    (i : ObjectId) :
    mentions (is.map .handle) i = is.count i := by
  induction is with
  | nil => rfl
  | cons j is ih =>
      rw [List.map_cons, mentions_cons, ih,
        List.count_cons]
      simp [Frame.objects, List.count_cons]
      omega

/- A value gives up what it refers to. -/
theorem mentions_handleFrames
    (v : Value)
    (i : ObjectId) :
    mentions v.handleFrames i = v.objects.count i := by
  cases v <;>
    simp [Value.handleFrames, Value.objects, Frame.objects,
      mentions]

/- An object that goes gives up what it refers to. -/
theorem mentions_dropFrames
    {κ : Type}
    (cell : Cell κ)
    (i : ObjectId) :
    mentions cell.dropFrames i = cell.objects.count i := by
  rw [Cell.objects_eq]
  cases cell with
  | payload p =>
      simp [Cell.dropFrames, Cell.values, Cell.codes,
        Value.flatMap_objects_filter, Frame.objects]
  | code c =>
      simp [Cell.dropFrames, Cell.values, Cell.codes,
        Value.flatMap_objects_filter]

end Frame

namespace Value

/- An integer refers to nothing. -/
theorem objects_eq_nil
    {v : Value}
    (hv : v.payload? = none) :
    v.objects = [] := by
  cases v <;> simp_all [payload?, objects]

/- A value refers to its payload. -/
theorem mem_objects_of_payload?
    {v : Value}
    {p : ObjectId}
    (hv : v.payload? = some p) :
    p ∈ v.objects := by
  cases v <;> simp_all [payload?, objects]

end Value

/- The nested values among the items, the last one first. -/
def Contents.pending (contents : Contents) : List Value :=
  (contents.values.filter Value.isNested).reverse

/- What is taken out of a payload is what it refers to. -/
theorem Contents.count_pending
    {κ : Type}
    (lease : Lease)
    (contents : Contents)
    (i : ObjectId) :
    (contents.pending.flatMap Value.objects).count i =
      (Cell.payload ⟨lease, contents⟩ :
        Cell κ).objects.count i := by
  rw [Cell.objects_eq]
  simp only [Cell.values, Cell.codes, List.append_nil]
  rw [← Value.flatMap_objects_filter contents.values]
  exact ((List.reverse_perm _).flatMap_right _).count_eq i

------------------------------------------------------------
-- What the Operations Do
------------------------------------------------------------

namespace Heap

variable {κ : Type}
variable {h : Heap κ}
variable {outer : ObjectId → Nat}

/- The payload whose items were taken out. -/
def emptied
    (h : Heap κ)
    (p : ObjectId)
    (lease : Lease)
    (contents : Contents) : Heap κ :=
  { h with
    objects := h.objects.set p
      ⟨1, .payload ⟨lease, contents.mapValues Value.blank⟩⟩ }

/-
  Taking items out empties a payload with a single handle,
  and does nothing otherwise.
-/
theorem take_cases
    (h : Heap κ)
    (p : ObjectId) :
    (∃ lease contents,
      h.objects.get? p =
          some ⟨1, .payload ⟨lease, contents⟩⟩ ∧
        h.take p =
          (contents.pending,
            h.emptied p lease contents)) ∨
      ((∀ payload,
          h.objects.get? p ≠ some ⟨1, .payload payload⟩) ∧
        h.take p = ([], h)) := by
  unfold take
  split
  · rename_i lease contents hGet
    exact Or.inl ⟨lease, contents, hGet, rfl⟩
  · rename_i hNot
    refine Or.inr ⟨?_, rfl⟩
    rintro ⟨lease, contents⟩ hGet
    exact hNot lease contents hGet

/-
  A handle that is given up is one less, or it is the last
  one and the object goes.
-/
theorem release_cases
    (h : Heap κ)
    (i : ObjectId) :
    (h.objects.get? i = none ∧ h.release i = ([], h)) ∨
      (∃ n cell,
        h.objects.get? i = some ⟨n + 2, cell⟩ ∧
          h.release i =
            ([],
              { h with
                objects :=
                  h.objects.set i ⟨n + 1, cell⟩ })) ∨
        (∃ n cell,
          h.objects.get? i = some ⟨n, cell⟩ ∧ n ≤ 1 ∧
            h.release i =
              (cell.dropFrames,
                { h with objects := h.objects.erase i })) := by
  unfold release
  split
  · rename_i n cell hGet
    exact Or.inr (Or.inl ⟨n, cell, hGet, rfl⟩)
  · rename_i n cell hNot hGet
    refine Or.inr (Or.inr ⟨n, cell, hGet, ?_, rfl⟩)
    by_contra hLarge
    obtain ⟨m, hm⟩ : ∃ m, n = m + 2 := ⟨n - 2, by omega⟩
    subst hm
    exact hNot m rfl
  · rename_i hGet
    exact Or.inl ⟨hGet, rfl⟩

/- A blank keeps what a payload is. -/
theorem kind_mapValues
    (lease : Lease)
    (contents : Contents)
    (f : Value → Value) :
    (Cell.payload ⟨lease, contents.mapValues f⟩ :
        Cell κ).kind =
      (Cell.payload ⟨lease, contents⟩ : Cell κ).kind := by
  cases contents <;> rfl

/- A payload whose items were taken out refers to nothing. -/
theorem links_blank
    (lease : Lease)
    (contents : Contents) :
    (Cell.payload
        ⟨lease, contents.mapValues Value.blank⟩ :
          Cell κ).links = [] := by
  cases contents <;>
    simp [Cell.links, Cell.values, Cell.codes,
      Contents.values, Contents.mapValues,
      Value.flatMap_links_blank]

------------------------------------------------------------
-- Counting New Handles
------------------------------------------------------------

/- One more handle of an object that is there. -/
theorem Exact.retain
    (hExact : h.Exact outer)
    {i : ObjectId}
    (hKind : ∃ k, h.kind? i = some k) :
    (h.retain i).Exact (fun j => outer j + [i].count j) := by
  rcases hKind with ⟨k, hKind⟩
  rcases kind?_eq_some_iff.mp hKind with ⟨o, hGet, _⟩
  unfold Heap.retain
  rw [hGet]
  refine hExact.replace hGet rfl (Nat.succ_pos _)
    (hExact.typed i o hGet) (hExact.older i o hGet) ?_
  intro j
  by_cases hj : j = i
  · subst hj
    simp
    omega
  · simp [hj, Ne.symm hj]

/- A counted handle changes nobody's kind. -/
theorem kind?_retain
    (h : Heap κ)
    (i j : ObjectId) :
    (h.retain i).kind? j = h.kind? j := by
  unfold retain
  split
  · rename_i o hGet
    have hKind :
        (⟨o.handles + 1, o.cell⟩ : Object κ).cell.kind =
          o.cell.kind := rfl
    exact kind?_set hGet hKind j
  · rfl

theorem kind?_retainRef
    (h : Heap κ)
    (r : Ref)
    (i : ObjectId) :
    (h.retainRef r).kind? i = h.kind? i := by
  cases r with
  | value v =>
      cases v with
      | integer n => rfl
      | list p => exact kind?_retain h p i
      | closure c =>
          exact
            (kind?_retain _ c.code i).trans
              (kind?_retain h c.environment i)
  | array p => exact kind?_retain h p i
  | code q => exact kind?_retain h q i

/- One more copy of a reference to what is there. -/
theorem Exact.retainRef
    (hExact : h.Exact outer)
    {r : Ref}
    (hTyped : ∀ l ∈ r.links, h.kind? l.1 = some l.2) :
    (h.retainRef r).Exact
      (fun j => outer j + r.objects.count j) := by
  cases r with
  | value v =>
      cases v with
      | integer i =>
          exact hExact.congr (fun j => by
            simp [Ref.objects, Ref.links, Value.links])
      | list p =>
          exact hExact.retain
            ⟨_, hTyped _ (List.mem_singleton.mpr rfl)⟩
      | closure c =>
          have hFirst :=
            hExact.retain (i := c.environment)
              ⟨_, hTyped (c.environment, .elements)
                (by simp [Ref.links, Value.links])⟩
          have hCode :
              (h.retain c.environment).kind? c.code =
                some .code := by
            rw [kind?_retain]
            exact hTyped (c.code, .code)
              (by simp [Ref.links, Value.links])
          refine (hFirst.retain ⟨_, hCode⟩).congr ?_
          intro j
          simp [Ref.objects, Ref.links, Value.links,
            List.count_cons]
          omega
  | array p =>
      exact hExact.retain
        ⟨_, hTyped _ (List.mem_singleton.mpr rfl)⟩
  | code q =>
      exact hExact.retain
        ⟨_, hTyped _ (List.mem_singleton.mpr rfl)⟩

------------------------------------------------------------
-- Giving Handles Up
------------------------------------------------------------

/- What is taken out of a payload is held from outside. -/
theorem Exact.take
    (hExact : h.Exact outer)
    (p : ObjectId) :
    (h.take p).2.Exact
      (fun i =>
        outer i +
          ((h.take p).1.flatMap Value.objects).count i) := by
  rcases take_cases h p with
    ⟨lease, contents, hGet, hTake⟩ | ⟨_, hTake⟩
  · rw [hTake]
    refine hExact.replace hGet
      (kind_mapValues lease contents Value.blank)
      Nat.one_pos ?_ ?_ ?_
    · intro l hl
      simp [links_blank] at hl
    · intro _ j hj
      simp [Cell.objects, links_blank] at hj
    · intro i
      have hTaken :=
        Contents.count_pending (κ := κ) lease contents i
      have hBlank :
          (Cell.payload
            ⟨lease, contents.mapValues Value.blank⟩ :
              Cell κ).objects = [] := by
        rw [Cell.objects, links_blank]
        rfl
      simp only [hTaken, hBlank, List.count_nil]
      omega
  · rw [hTake]
    exact hExact.congr (fun i => by simp)

/- What an object held when it went is held from outside. -/
theorem Exact.release
    (i : ObjectId)
    (hExact :
      h.Exact (fun j => outer j + [i].count j)) :
    (h.release i).2.Exact
      (fun j =>
        outer j + Frame.mentions (h.release i).1 j) := by
  rcases release_cases h i with
    ⟨hGet, _⟩ | ⟨n, cell, hGet, hRelease⟩ |
      ⟨n, cell, hGet, hLast, hRelease⟩
  · have hPos : 0 < h.inner i + (outer i + [i].count i) := by
      simp
    rcases hExact.exists_of_pos hPos with ⟨o, hSome⟩
    rw [hGet] at hSome
    cases hSome
  · rw [hRelease]
    refine hExact.replace hGet rfl (Nat.succ_pos n)
      (hExact.typed i ⟨n + 2, cell⟩ hGet)
      (hExact.older i ⟨n + 2, cell⟩ hGet) ?_
    intro j
    by_cases hj : j = i
    · subst hj
      simp
      omega
    · simp [hj, Ne.symm hj]
  · have hOne : n = 1 := by
      have hHeld := hExact.held i _ hGet
      simp only at hHeld
      omega
    rw [hRelease]
    refine hExact.erase hGet hOne (by simp) ?_
    intro j
    rw [Frame.mentions_dropFrames]
    by_cases hj : j = i
    · subst hj
      simp
      omega
    · simp [hj, Ne.symm hj]

/- Each step of reclaiming keeps the counts exact. -/
theorem Exact.step
    {f : Frame}
    {fs : List Frame}
    (hExact :
      h.Exact
        (fun i => outer i + Frame.mentions (f :: fs) i)) :
    (h.step f).2.Exact
      (fun i =>
        outer i +
          Frame.mentions ((h.step f).1 ++ fs) i) := by
  cases f with
  | value v =>
      cases hv : v.payload? with
      | none =>
          simp only [Heap.step, hv]
          refine hExact.congr (fun i => ?_)
          simp [Frame.objects, Value.objects_eq_nil hv]
      | some p =>
          simp only [Heap.step, hv]
          refine (hExact.take p).congr (fun i => ?_)
          simp [Frame.objects]
          omega
  | activation v pending =>
      cases pending with
      | nil =>
          simp only [Heap.step]
          refine hExact.congr (fun i => ?_)
          simp [Frame.objects, Frame.mentions_handleFrames]
      | cons w pending =>
          cases hw : w.payload? with
          | none =>
              simp only [Heap.step, hw]
              refine hExact.congr (fun i => ?_)
              simp [Frame.objects, Value.objects_eq_nil hw]
          | some p =>
              simp only [Heap.step, hw]
              refine (hExact.take p).congr (fun i => ?_)
              simp [Frame.objects]
              omega
  | handle i =>
      have hMoved :
          h.Exact
            (fun j =>
              (outer j + Frame.mentions fs j) +
                [i].count j) :=
        hExact.congr (fun j => by
          simp [Frame.objects]
          omega)
      refine hMoved.release.congr (fun j => ?_)
      simp [Heap.step]
      omega
  | lease l =>
      refine (hExact.congr (fun i => ?_)).of_objects_eq rfl
      simp [Frame.objects, Heap.step]

/- When everything is given up the counts are exact. -/
theorem Exact.reclaim
    {fs : List Frame}
    (hExact :
      h.Exact (fun i => outer i + Frame.mentions fs i)) :
    (h.reclaim fs).Exact outer := by
  induction h, fs using Heap.reclaim.induct with
  | case1 h =>
      rw [Heap.reclaim]
      exact hExact.congr (fun i => by simp)
  | case2 h f fs next ih =>
      rw [Heap.reclaim]
      exact ih hExact.step

end Heap

end LeasedHeap

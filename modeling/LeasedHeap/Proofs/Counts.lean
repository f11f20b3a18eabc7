import LeasedHeap.Proofs.Links

/-
  Counts of handles are exact.

  The handles of an object are the references to it: those
  that other objects hold and those from outside, which are
  held by programs or are still to be given up.  What an
  object holds is there and is what it is expected to be, and
  whatever is not an array refers to older objects only.

  Everything that happens to objects is one of three things:
  an object is made, replaced by one of its kind, or erased
  with its last handle.  Each keeps the counts exact if the
  references from outside change by what the object gains
  and loses; the steps of reclaiming are instances.

  Main declarations:
    * `Heap.Exact`
    * `Heap.Exact.issue`, `replace` and `erase`
-/

namespace LeasedHeap

namespace Heap

variable {κ : Type}

------------------------------------------------------------
-- Exact Counts
------------------------------------------------------------

/-
  The handles of every object are the references to it, with
  `outer` telling how many come from outside.
-/
structure Exact
    (h : Heap κ)
    (outer : ObjectId → Nat) : Prop where
  counted : ∀ i, h.handles i = h.inner i + outer i
  held :
    ∀ i o, h.objects.get? i = some o → 0 < o.handles
  typed :
    ∀ i o, h.objects.get? i = some o →
      ∀ l ∈ o.cell.links, h.kind? l.1 = some l.2
  older :
    ∀ (i : Nat) o, h.objects.get? i = some o →
      o.cell.kind ≠ .array →
        ∀ j : Nat, j ∈ o.cell.objects → j < i

variable {h : Heap κ}
variable {outer outer' : ObjectId → Nat}

/- Only the number of references from outside matters. -/
theorem Exact.congr
    (hExact : h.Exact outer)
    (hOuter : ∀ i, outer i = outer' i) :
    h.Exact outer' := by
  have hEq : outer = outer' := funext hOuter
  rwa [← hEq]

/- Collectors and the trace do not matter. -/
theorem Exact.of_objects_eq
    {h' : Heap κ}
    (hExact : h.Exact outer)
    (hObjects : h'.objects = h.objects) :
    h'.Exact outer := by
  rcases h with ⟨provides, collectors, objects, log⟩
  rcases h' with ⟨provides', collectors', objects', log'⟩
  simp only at hObjects
  subst hObjects
  exact
    ⟨hExact.counted, hExact.held, hExact.typed,
      hExact.older⟩

/- The handles of an object that is there. -/
theorem handles_of_get?
    {i : ObjectId}
    {o : Object κ}
    (hGet : h.objects.get? i = some o) :
    h.handles i = o.handles := by
  simp [handles, hGet]

/- Something that is referred to is there. -/
theorem Exact.exists_of_pos
    (hExact : h.Exact outer)
    {i : ObjectId}
    (hPos : 0 < h.inner i + outer i) :
    ∃ o, h.objects.get? i = some o := by
  cases hGet : h.objects.get? i with
  | some o => exact ⟨o, rfl⟩
  | none =>
      have hCounted := hExact.counted i
      simp [handles, hGet] at hCounted
      omega

/- A key that has not been issued is not referred to. -/
theorem Exact.zero_of_issued_le
    (hExact : h.Exact outer)
    {i : ObjectId}
    (hi : h.next ≤ i) :
    h.inner i = 0 ∧ outer i = 0 := by
  have hCounted := hExact.counted i
  rw [handles, Table.get?_eq_none_of_issued_le hi]
    at hCounted
  simp only at hCounted
  omega

/- Nothing refers to an object that is not counted within. -/
theorem not_mem_objects_of_inner_eq_zero
    {p i : ObjectId}
    {o : Object κ}
    (hInner : h.inner p = 0)
    (hGet : h.objects.get? i = some o) :
    p ∉ o.cell.objects := by
  have hLe :=
    Table.le_total (fun o => o.cell.objects.count p) hGet
  unfold inner at hInner
  simp only [hInner, Nat.le_zero] at hLe
  exact List.count_eq_zero.mp hLe

------------------------------------------------------------
-- Changed Tables
------------------------------------------------------------

/- An object has the handles of what it is replaced by. -/
theorem handles_set
    {p : ObjectId}
    {old new : Object κ}
    (hOld : h.objects.get? p = some old)
    (i : ObjectId) :
    ({ h with objects := h.objects.set p new }).handles i =
      if i = p then new.handles else h.handles i := by
  have hIssued : p < h.objects.issued :=
    Table.lt_issued_of_get? hOld
  unfold handles
  rw [Table.get?_set]
  by_cases hi : i = p
  · rw [if_pos ⟨hi, hi ▸ hIssued⟩, if_pos hi]
  · rw [if_neg (fun hBoth => hi hBoth.1), if_neg hi]

theorem handles_erase
    (p i : ObjectId) :
    ({ h with objects := h.objects.erase p }).handles i =
      if i = p then 0 else h.handles i := by
  unfold handles
  rw [Table.get?_erase]
  by_cases hi : i = p
  · rw [if_pos hi, if_pos hi]
  · rw [if_neg hi, if_neg hi]

/- An object replaced by one of its kind keeps its kind. -/
theorem kind?_set
    {p : ObjectId}
    {old new : Object κ}
    (hOld : h.objects.get? p = some old)
    (hKind : new.cell.kind = old.cell.kind)
    (i : ObjectId) :
    ({ h with objects := h.objects.set p new }).kind? i =
      h.kind? i := by
  unfold kind?
  rw [Table.get?_set]
  split
  · rename_i hi
    simp [hi.1, hOld, hKind]
  · rfl

theorem kind?_erase
    {p i : ObjectId}
    (hi : i ≠ p) :
    ({ h with objects := h.objects.erase p }).kind? i =
      h.kind? i := by
  unfold kind?
  rw [Table.get?_erase, if_neg hi]

/- An object that is there has been issued. -/
theorem lt_next_of_kind?
    {i : ObjectId}
    {k : Kind}
    (hKind : h.kind? i = some k) :
    i < h.next := by
  rcases kind?_eq_some_iff.mp hKind with ⟨o, hGet, _⟩
  exact Table.lt_issued_of_get? hGet

/- The next key gets the object. -/
theorem get?_issue
    (h : Heap κ)
    (cell : Cell κ)
    (i : ObjectId) :
    (h.issue cell).objects.get? i =
      if i = h.next then some ⟨1, cell⟩
      else h.objects.get? i :=
  Table.get?_insert h.objects ⟨1, cell⟩ i

theorem kind?_issue
    {i : ObjectId}
    {k : Kind}
    (cell : Cell κ)
    (hKind : h.kind? i = some k) :
    (h.issue cell).kind? i = some k := by
  have hNe : i ≠ h.next :=
    Nat.ne_of_lt (lt_next_of_kind? hKind)
  unfold kind?
  rw [get?_issue, if_neg hNe]
  exact hKind

------------------------------------------------------------
-- The Three Changes
------------------------------------------------------------

/-
  An object is made.  What it holds is no longer held from
  outside, and it is held from outside once.
-/
theorem Exact.issue
    (hExact : h.Exact outer)
    {cell : Cell κ}
    (hTyped : ∀ l ∈ cell.links, h.kind? l.1 = some l.2)
    (hOuter :
      ∀ i,
        outer' i + cell.objects.count i =
          outer i + (if i = h.next then 1 else 0)) :
    (h.issue cell).Exact outer' := by
  have hLt : ∀ j ∈ cell.objects, j < h.next := by
    intro j hj
    rcases List.mem_map.mp hj with ⟨l, hl, rfl⟩
    exact lt_next_of_kind? (hTyped l hl)
  have hInner :
      ∀ i, (h.issue cell).inner i =
        h.inner i + cell.objects.count i := by
    intro i
    simp [inner, Heap.issue]
  refine ⟨?_, ?_, ?_, ?_⟩
  · intro i
    have hOuterAt := hOuter i
    rw [hInner i, handles, get?_issue]
    by_cases hi : i = h.next
    · have hZero := hExact.zero_of_issued_le (Nat.le_of_eq hi.symm)
      have hCount : cell.objects.count i = 0 := by
        apply List.count_eq_zero.mpr
        intro hMem
        exact Nat.lt_irrefl i (hi ▸ hLt i hMem)
      rw [if_pos hi] at hOuterAt
      rw [if_pos hi]
      simp only
      omega
    · have hCounted := hExact.counted i
      unfold handles at hCounted
      rw [if_neg hi] at hOuterAt
      rw [if_neg hi]
      omega
  · intro i o hGet
    rw [get?_issue] at hGet
    split at hGet
    · cases hGet
      exact Nat.one_pos
    · exact hExact.held i o hGet
  · intro i o hGet l hl
    rw [get?_issue] at hGet
    split at hGet
    · cases hGet
      exact kind?_issue cell (hTyped l hl)
    · exact kind?_issue cell (hExact.typed i o hGet l hl)
  · intro i o hGet hKind j hj
    rw [get?_issue] at hGet
    split at hGet
    · rename_i hi
      cases hGet
      exact hi ▸ hLt j hj
    · exact hExact.older i o hGet hKind j hj

/-
  An object is replaced by one of its kind.  The references
  that it gains and loses, and the handles that it gains and
  loses, go to and come from outside.
-/
theorem Exact.replace
    (hExact : h.Exact outer)
    {p : ObjectId}
    {old new : Object κ}
    (hOld : h.objects.get? p = some old)
    (hKind : new.cell.kind = old.cell.kind)
    (hPos : 0 < new.handles)
    (hTyped : ∀ l ∈ new.cell.links, h.kind? l.1 = some l.2)
    (hOlder :
      new.cell.kind ≠ .array →
        ∀ j : Nat, j ∈ new.cell.objects → j < p)
    (hOuter :
      ∀ i,
        outer' i + (if i = p then old.handles else 0) +
            new.cell.objects.count i =
          outer i + (if i = p then new.handles else 0) +
            old.cell.objects.count i) :
    ({ h with objects := h.objects.set p new }).Exact
      outer' := by
  have hGet' :
      ∀ i o, (h.objects.set p new).get? i = some o →
        (i = p ∧ o = new) ∨
          h.objects.get? i = some o := by
    intro i o hGet
    rw [Table.get?_set] at hGet
    split at hGet
    · rename_i hi
      cases hGet
      exact Or.inl ⟨hi.1, rfl⟩
    · exact Or.inr hGet
  refine ⟨?_, ?_, ?_, ?_⟩
  · intro i
    have hCounted := hExact.counted i
    have hOuterAt := hOuter i
    have hInner :=
      Table.total_set
        (fun o : Object κ => o.cell.objects.count i)
        hOld new
    rw [handles_set hOld]
    unfold inner at hCounted ⊢
    by_cases hi : i = p
    · subst hi
      rw [handles_of_get? hOld] at hCounted
      simp only [if_true] at hOuterAt hInner ⊢
      omega
    · simp only [if_neg hi] at hOuterAt hInner ⊢
      omega
  · intro i o hGet
    rcases hGet' i o hGet with ⟨_, rfl⟩ | hGet
    · exact hPos
    · exact hExact.held i o hGet
  · intro i o hGet l hl
    rw [kind?_set hOld hKind]
    rcases hGet' i o hGet with ⟨_, rfl⟩ | hGet
    · exact hTyped l hl
    · exact hExact.typed i o hGet l hl
  · intro i o hGet hNotArray j hj
    rcases hGet' i o hGet with ⟨rfl, rfl⟩ | hGet
    · exact hOlder hNotArray j hj
    · exact hExact.older i o hGet hNotArray j hj

/-
  An object is erased with its last handle, which is from
  outside.  What it held is held from outside.
-/
theorem Exact.erase
    (hExact : h.Exact outer)
    {p : ObjectId}
    {old : Object κ}
    (hOld : h.objects.get? p = some old)
    (hLast : old.handles = 1)
    (hPos : 0 < outer p)
    (hOuter :
      ∀ i,
        outer' i + (if i = p then 1 else 0) =
          outer i + old.cell.objects.count i) :
    ({ h with objects := h.objects.erase p }).Exact
      outer' := by
  have hInnerZero : h.inner p = 0 := by
    have hCounted := hExact.counted p
    rw [handles_of_get? hOld, hLast] at hCounted
    omega
  have hGet' :
      ∀ i o, (h.objects.erase p).get? i = some o →
        i ≠ p ∧ h.objects.get? i = some o := by
    intro i o hGet
    rw [Table.get?_erase] at hGet
    split at hGet
    · cases hGet
    · rename_i hi
      exact ⟨hi, hGet⟩
  refine ⟨?_, ?_, ?_, ?_⟩
  · intro i
    have hCounted := hExact.counted i
    have hOuterAt := hOuter i
    have hInner :=
      Table.total_erase
        (fun o : Object κ => o.cell.objects.count i) hOld
    rw [handles_erase]
    unfold inner at hCounted hInnerZero ⊢
    by_cases hi : i = p
    · subst hi
      rw [handles_of_get? hOld, hLast] at hCounted
      simp only [if_true] at hOuterAt hInner ⊢
      omega
    · simp only [if_neg hi] at hOuterAt hInner ⊢
      omega
  · intro i o hGet
    exact hExact.held i o (hGet' i o hGet).2
  · intro i o hGet l hl
    rcases hGet' i o hGet with ⟨_, hGet⟩
    have hNe : l.1 ≠ p := by
      intro hEq
      apply not_mem_objects_of_inner_eq_zero hInnerZero hGet
      rw [← hEq]
      exact List.mem_map_of_mem hl
    rw [kind?_erase hNe]
    exact hExact.typed i o hGet l hl
  · intro i o hGet
    exact hExact.older i o (hGet' i o hGet).2

end Heap

end LeasedHeap

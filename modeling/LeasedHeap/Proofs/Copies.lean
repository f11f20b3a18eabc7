import LeasedHeap.Proofs.Refusals

/-
  Copies of values.

  To copy values counts one more handle for every object that
  they refer to, once for every time that they do so, and
  gives out new handles that hold them in order.  Nothing
  else happens: no collector is asked, nothing is told, and
  older handles are as they were.

  Main declarations:
    * `Object.raised` and `Heap.retained`
    * `World.copies`
    * `Program.exec_ownAll`
    * `World.Copied` and `World.copied_copies`
-/

namespace LeasedHeap

------------------------------------------------------------
-- More Handles
------------------------------------------------------------

/- An object with more handles. -/
def Object.raised
    {κ : Type}
    (n : Nat)
    (o : Object κ) : Object κ :=
  ⟨o.handles + n, o.cell⟩

namespace Heap

variable {κ : Type}

/- Count one more handle for each of some objects. -/
def retained
    (h : Heap κ)
    (is : List ObjectId) : Heap κ :=
  is.foldl Heap.retain h

/- A value is retained with what it refers to. -/
theorem retainValue_eq
    (h : Heap κ)
    (v : Value) :
    h.retainValue v = h.retained v.objects := by
  cases v <;> rfl

theorem retained_append
    (h : Heap κ)
    (is js : List ObjectId) :
    h.retained (is ++ js) = (h.retained is).retained js :=
  List.foldl_append

theorem get?_retain
    (h : Heap κ)
    (i j : ObjectId) :
    (h.retain i).objects.get? j =
      (h.objects.get? j).map (·.raised ([i].count j)) := by
  unfold retain
  cases hGet : h.objects.get? i with
  | none =>
      by_cases hj : i = j
      · subst hj
        simp [hGet]
      · have hZero : [i].count j = 0 := by
          simp [hj]
        rw [hZero]
        cases h.objects.get? j <;> rfl
  | some o =>
      have hIssued := Table.lt_issued_of_get? hGet
      simp only [Table.get?_set]
      by_cases hj : j = i
      · subst hj
        rw [if_pos ⟨rfl, hIssued⟩, hGet]
        simp [Object.raised]
      · have hZero : [i].count j = 0 := by
          simp [Ne.symm hj]
        rw [if_neg (fun hBoth => hj hBoth.1), hZero]
        cases h.objects.get? j <;> rfl

/-
  Every object keeps its cell, and has as many more handles
  as it is among those that are retained.
-/
theorem get?_retained
    (h : Heap κ)
    (is : List ObjectId)
    (j : ObjectId) :
    (h.retained is).objects.get? j =
      (h.objects.get? j).map (·.raised (is.count j)) := by
  induction is generalizing h with
  | nil =>
      change h.objects.get? j = _
      cases h.objects.get? j <;> rfl
  | cons i is ih =>
      have hCount :
          ([i] ++ is).count j = [i].count j + is.count j :=
        List.count_append
      change ((h.retain i).retained is).objects.get? j = _
      rw [← List.singleton_append, hCount, ih, get?_retain,
        Option.map_map]
      congr 1
      funext o
      simp only [Function.comp_apply, Object.raised]
      rw [Nat.add_assoc]

theorem next_retained
    (h : Heap κ)
    (is : List ObjectId) :
    (h.retained is).next = h.next := by
  induction is generalizing h with
  | nil => rfl
  | cons i is ih =>
      refine (ih (h.retain i)).trans ?_
      unfold retain next
      split
      · exact Table.issued_set _ _ _
      · rfl

/- What handles are counted does not matter to a call. -/
theorem retained_tally
    (h : Heap κ)
    (c : CollectorId)
    (counters : Counters)
    (ns : List Notice)
    (is : List ObjectId) :
    (h.tally c counters ns).retained is =
      (h.retained is).tally c counters ns := by
  induction is generalizing h with
  | nil => rfl
  | cons i is ih =>
      have hOne :
          (h.tally c counters ns).retain i =
            (h.retain i).tally c counters ns := by
        have hObjects :
            (h.tally c counters ns).objects = h.objects :=
          rfl
        unfold retain
        rw [hObjects]
        cases h.objects.get? i <;> rfl
      change
        ((h.tally c counters ns).retain i).retained is = _
      rw [hOne]
      exact ih (h.retain i)

/- Collectors and the trace are as they were. -/
theorem retained_collectors
    (h : Heap κ)
    (is : List ObjectId) :
    (h.retained is).collectors = h.collectors ∧
      (h.retained is).log = h.log := by
  induction is generalizing h with
  | nil => exact ⟨rfl, rfl⟩
  | cons i is ih =>
      have hRest := ih (h.retain i)
      have hOne := retain_collectors h i
      exact
        ⟨hRest.1.trans hOne.1, hRest.2.trans hOne.2⟩

/- What is there stays what it is. -/
theorem admits_retained
    (h : Heap κ)
    (is : List ObjectId)
    (v : Value) :
    (h.retained is).admits v = h.admits v := by
  have hKind :
      ∀ i, (h.retained is).kind? i = h.kind? i := by
    intro i
    unfold kind?
    rw [get?_retained, Option.map_map]
    rfl
  rw [Bool.eq_iff_iff, admits_iff, admits_iff]
  simp only [hKind]

end Heap

------------------------------------------------------------
-- More Entries
------------------------------------------------------------

namespace Table

variable {α : Type}

/- Store entries under the next keys. -/
def insertAll
    (t : Table α)
    (as : List α) : Table α :=
  as.foldl Table.insert t

theorem issued_insertAll
    (t : Table α)
    (as : List α) :
    (t.insertAll as).issued = t.issued + as.length := by
  induction as generalizing t with
  | nil => rfl
  | cons a as ih =>
      refine (ih (t.insert a)).trans ?_
      rw [issued_insert, List.length_cons]
      omega

/- The next keys get the entries, and no other key changes. -/
theorem get?_insertAll
    (t : Table α)
    (as : List α)
    (k : Nat) :
    (t.insertAll as).get? k =
      if k < t.issued then t.get? k
      else as[k - t.issued]? := by
  induction as generalizing t with
  | nil =>
      change t.get? k = _
      split
      · rfl
      · rename_i hk
        rw [Table.get?_eq_none_of_issued_le
          (Nat.le_of_not_lt hk)]
        rfl
  | cons a as ih =>
      refine (ih (t.insert a)).trans ?_
      rw [issued_insert, get?_insert]
      rcases Nat.lt_trichotomy k t.issued with
        hLess | hSame | hMore
      · rw [if_pos (by omega), if_neg (by omega),
          if_pos hLess]
      · subst hSame
        simp
      · rw [if_neg (by omega), if_neg (by omega)]
        have hKey :
            k - t.issued = k - (t.issued + 1) + 1 := by
          omega
        rw [hKey, List.getElem?_cons_succ]

end Table

------------------------------------------------------------
-- Copies
------------------------------------------------------------

namespace World

variable {κ : Type}

/- New handles for copies of values, and the world with them. -/
def copies
    (w : World κ)
    (vs : List Value) : List Handle × World κ :=
  ((List.range' w.held.issued vs.length).map Handle.mk,
    { heap := w.heap.retained (vs.flatMap Value.objects)
      held := w.held.insertAll (vs.map Ref.value) })

/-
  Some values were copied.  There are new handles that hold
  them; an object has one more handle for every time that it
  is referred to, and is otherwise as it was.
-/
structure Copied
    (w : World κ)
    (vs : List Value)
    (xs : List Handle)
    (w' : World κ) : Prop where
  carries : w'.Carries xs vs
  new : ∀ y ∈ xs, w.ref? y = none
  held : ∀ y, y ∉ xs → w'.ref? y = w.ref? y
  objects :
    ∀ i,
      w'.heap.objects.get? i =
        (w.heap.objects.get? i).map
          (·.raised ((vs.flatMap Value.objects).count i))
  next : w'.heap.next = w.heap.next
  collectors : w'.heap.collectors = w.heap.collectors
  log : w'.heap.log = w.heap.log

variable {w : World κ}

theorem mem_copies
    {vs : List Value}
    {y : Handle} :
    y ∈ (w.copies vs).1 ↔
      w.held.issued ≤ y.key ∧
        y.key < w.held.issued + vs.length := by
  rcases y with ⟨k⟩
  simp [copies, List.mem_range'_1]

/- What the handles of copies refer to, and all others. -/
theorem ref?_copies
    (w : World κ)
    (vs : List Value)
    (y : Handle) :
    (w.copies vs).2.ref? y =
      if y.key < w.held.issued then w.ref? y
      else (vs.map Ref.value)[y.key - w.held.issued]? :=
  Table.get?_insertAll _ _ _

/- Copies are of what there is, and change nothing else. -/
theorem copied_copies
    (w : World κ)
    (vs : List Value) :
    w.Copied vs (w.copies vs).1 (w.copies vs).2 := by
  have hHeap :
      (w.copies vs).2.heap =
        w.heap.retained (vs.flatMap Value.objects) :=
    rfl
  refine ⟨⟨?_, ?_⟩, ?_, ?_, ?_, ?_, ?_, ?_⟩
  · refine List.Nodup.map ?_ List.nodup_range'
    intro j k hSame
    exact Handle.mk.inj hSame
  · apply List.ext_getElem?
    intro n
    simp only [copies, List.map_map, List.getElem?_map]
    by_cases hn : n < vs.length
    · have hValue :
          (w.copies vs).2.value? ⟨w.held.issued + n⟩ =
            some vs[n] := by
        unfold value?
        rw [ref?_copies, if_neg (by simp)]
        simp [hn]
      simpa [hn, copies] using hValue
    · simp [Nat.le_of_not_lt hn]
  · intro y hy
    exact
      Table.get?_eq_none_of_issued_le (mem_copies.mp hy).1
  · intro y hy
    rw [ref?_copies]
    split
    · rfl
    · rename_i hNew
      have hLe := Nat.le_of_not_lt hNew
      have hPast : vs.length ≤ y.key - w.held.issued := by
        rw [mem_copies, not_and, Nat.not_lt] at hy
        have hEnd := hy hLe
        omega
      have hNone : w.ref? y = none :=
        Table.get?_eq_none_of_issued_le hLe
      rw [hNone, List.getElem?_eq_none (by simpa using hPast)]
  · intro i
    rw [hHeap, Heap.get?_retained]
  · rw [hHeap, Heap.next_retained]
  · exact (Heap.retained_collectors _ _).1
  · exact (Heap.retained_collectors _ _).2

end World

namespace Program

variable {κ : Type}
variable {applies : Applies κ}

/- A value that is there is copied. -/
theorem exec_own
    {w : World κ}
    {v : Value}
    (hAdmits : w.heap.admits v = true) :
    (own v).exec applies w =
      some
        (some ⟨w.held.issued⟩,
          { heap := w.heap.retained v.objects
            held := w.held.insert (.value v) }) := by
  have hAdmitted : w.admits (.value v) = true := hAdmits
  simp only [own, perform, exec, World.act, World.clone,
    if_pos hAdmitted, World.hold]
  rw [← Heap.retainValue_eq]
  rfl

/-
  Values that are there are copied one after another, behind
  the handles that were given.
-/
theorem exec_ownOnto
    {w : World κ}
    (xs : List Handle)
    {vs : List Value}
    (hAdmits : ∀ v ∈ vs, w.heap.admits v = true) :
    (ownOnto xs vs).exec applies w =
      some (xs.reverse ++ (w.copies vs).1,
        (w.copies vs).2) := by
  induction vs generalizing xs w with
  | nil =>
      change some (xs.reverse, w) = _
      simp [World.copies, Heap.retained, Table.insertAll]
  | cons v vs ih =>
      change ((own v).bind _).exec applies w = _
      rw [exec_bind, exec_own (hAdmits v List.mem_cons_self)]
      simp only
      let next : World κ :=
        { heap := w.heap.retained v.objects
          held := w.held.insert (.value v) }
      have hOthers :
          ∀ u ∈ vs, next.heap.admits u = true := by
        intro u hu
        rw [Heap.admits_retained]
        exact hAdmits u (List.mem_cons_of_mem v hu)
      have hRest :
          (ownOnto (⟨w.held.issued⟩ :: xs) vs).exec applies
              next =
            _ :=
        ih _ hOthers
      rw [hRest]
      simp [next, World.copies, List.range'_succ,
        Table.insertAll, Heap.retained_append]

/- Copies of values that are there. -/
theorem exec_ownAll
    {w : World κ}
    {vs : List Value}
    (hAdmits : ∀ v ∈ vs, w.heap.admits v = true) :
    (ownAll vs).exec applies w = some (w.copies vs) :=
  exec_ownOnto [] hAdmits

end Program

end LeasedHeap

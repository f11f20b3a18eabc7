/-
  Tables whose keys are issued in increasing order.

  A key is never issued twice, so an erased entry stays
  erased.  The view of a table is `get?`; `total` sums a
  weight over the entries.

  Key definitions include:
    * `Table`
    * `Table.insert`
    * `Table.set`
    * `Table.erase`
    * `Table.total`

  The view and the sums are given by:
    * `Table.get?_insert`
    * `Table.get?_set`
    * `Table.get?_erase`
    * `Table.total_set`
    * `Table.total_erase`
-/

namespace LeasedHeap

/- Entries by key; a missing entry was erased. -/
structure Table (α : Type) where
  slots : Array (Option α)

namespace Table

variable {α : Type}

------------------------------------------------------------
-- Operations
------------------------------------------------------------

/- A table that has issued no key. -/
def empty : Table α :=
  ⟨#[]⟩

/- The number of keys issued, and the next key. -/
def issued (t : Table α) : Nat :=
  t.slots.size

/- The entry of a key, unless erased or never issued. -/
def get?
    (t : Table α)
    (k : Nat) : Option α :=
  (t.slots[k]?).getD none

/- Store an entry under the next key. -/
def insert
    (t : Table α)
    (a : α) : Table α :=
  ⟨t.slots.push (some a)⟩

/- Replace the entry of an issued key. -/
def set
    (t : Table α)
    (k : Nat)
    (a : α) : Table α :=
  ⟨t.slots.setIfInBounds k (some a)⟩

/- Remove the entry of a key. -/
def erase
    (t : Table α)
    (k : Nat) : Table α :=
  ⟨t.slots.setIfInBounds k none⟩

/- The sum of a weight over the slots that have entries. -/
def totalSlots (f : α → Nat) : List (Option α) → Nat
| [] => 0
| none :: ss => totalSlots f ss
| some a :: ss => f a + totalSlots f ss

/- The sum of a weight over the entries. -/
def total
    (f : α → Nat)
    (t : Table α) : Nat :=
  totalSlots f t.slots.toList

------------------------------------------------------------
-- The View
------------------------------------------------------------

/- A key with an entry has been issued. -/
theorem lt_issued_of_get?
    {t : Table α}
    {k : Nat}
    {a : α}
    (hk : t.get? k = some a) :
    k < t.issued := by
  unfold get? at hk
  unfold issued
  cases h : t.slots[k]? with
  | none => simp [h] at hk
  | some s => exact (Array.getElem?_eq_some_iff.mp h).1

@[simp]
theorem get?_empty
    (k : Nat) :
    (empty : Table α).get? k = none := by
  simp [empty, get?]

@[simp]
theorem issued_insert
    (t : Table α)
    (a : α) :
    (t.insert a).issued = t.issued + 1 := by
  simp [insert, issued]

@[simp]
theorem issued_set
    (t : Table α)
    (k : Nat)
    (a : α) :
    (t.set k a).issued = t.issued := by
  simp [set, issued]

@[simp]
theorem issued_erase
    (t : Table α)
    (k : Nat) :
    (t.erase k).issued = t.issued := by
  simp [erase, issued]

/- The next key gets the entry, and no other key changes. -/
theorem get?_insert
    (t : Table α)
    (a : α)
    (k : Nat) :
    (t.insert a).get? k =
      if k = t.issued then some a else t.get? k := by
  unfold get? insert issued
  rw [Array.getElem?_push]
  split <;> simp_all

/- An issued key gets the entry, and no other key changes. -/
theorem get?_set
    (t : Table α)
    (k : Nat)
    (a : α)
    (j : Nat) :
    (t.set k a).get? j =
      if j = k ∧ k < t.issued then some a
      else t.get? j := by
  unfold get? set issued
  rw [Array.getElem?_setIfInBounds]
  by_cases hjk : k = j
  · subst hjk
    by_cases hk : k < t.slots.size <;> simp [hk]
  · simp [hjk, Ne.symm hjk]

/- An erased key has no entry, and no other key changes. -/
theorem get?_erase
    (t : Table α)
    (k j : Nat) :
    (t.erase k).get? j =
      if j = k then none else t.get? j := by
  unfold get? erase
  rw [Array.getElem?_setIfInBounds]
  by_cases hjk : k = j
  · subst hjk
    by_cases hk : k < t.slots.size <;> simp [hk]
  · simp [hjk, Ne.symm hjk]

------------------------------------------------------------
-- Sums
------------------------------------------------------------

/- Slots that follow each other add up. -/
private theorem totalSlots_append
    (f : α → Nat)
    (ss rs : List (Option α)) :
    totalSlots f (ss ++ rs) =
      totalSlots f ss + totalSlots f rs := by
  induction ss with
  | nil => simp [totalSlots]
  | cons s ss ih =>
      cases s with
      | none => simpa [totalSlots] using ih
      | some a =>
          simp only [List.cons_append, totalSlots, ih]
          omega

/- One slot changes the sum by its difference. -/
private theorem totalSlots_set
    (f : α → Nat)
    {ss : List (Option α)}
    {k : Nat}
    {old : α}
    (hk : ss[k]? = some (some old))
    (s : Option α) :
    totalSlots f (ss.set k s) + f old =
      totalSlots f ss + totalSlots f [s] := by
  induction ss generalizing k with
  | nil => simp at hk
  | cons r rs ih =>
      cases k with
      | zero =>
          simp only [List.getElem?_cons_zero] at hk
          cases hk
          cases s with
          | none =>
              simp only [List.set_cons_zero, totalSlots]
              omega
          | some a =>
              simp only [List.set_cons_zero, totalSlots]
              omega
      | succ k =>
          simp only [List.getElem?_cons_succ] at hk
          have hSum := ih hk
          cases r with
          | none =>
              simpa only [List.set_cons_succ, totalSlots]
                using hSum
          | some a =>
              simp only [List.set_cons_succ, totalSlots]
                at hSum ⊢
              omega

/- The slot of a key with an entry. -/
private theorem slot_of_get?
    {t : Table α}
    {k : Nat}
    {a : α}
    (hk : t.get? k = some a) :
    t.slots.toList[k]? = some (some a) := by
  unfold get? at hk
  rw [Array.getElem?_toList]
  cases h : t.slots[k]? with
  | none => simp [h] at hk
  | some s => simpa [h] using hk

@[simp]
theorem total_empty
    (f : α → Nat) :
    (empty : Table α).total f = 0 := by
  simp [empty, total, totalSlots]

@[simp]
theorem total_insert
    (f : α → Nat)
    (t : Table α)
    (a : α) :
    (t.insert a).total f = t.total f + f a := by
  simp [total, insert, totalSlots_append, totalSlots]

/- Replacing an entry exchanges its weight. -/
theorem total_set
    (f : α → Nat)
    {t : Table α}
    {k : Nat}
    {old : α}
    (hk : t.get? k = some old)
    (a : α) :
    (t.set k a).total f + f old = t.total f + f a := by
  have hSum := totalSlots_set f (slot_of_get? hk) (some a)
  simpa [total, set, Array.toList_setIfInBounds, totalSlots]
    using hSum

/- Erasing an entry takes its weight away. -/
theorem total_erase
    (f : α → Nat)
    {t : Table α}
    {k : Nat}
    {old : α}
    (hk : t.get? k = some old) :
    (t.erase k).total f + f old = t.total f := by
  have hSum := totalSlots_set f (slot_of_get? hk) none
  simpa [total, erase, Array.toList_setIfInBounds, totalSlots]
    using hSum

end Table

end LeasedHeap

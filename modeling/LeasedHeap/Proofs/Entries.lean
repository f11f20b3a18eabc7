import LeasedHeap.Table
import Mathlib.Algebra.BigOperators.Group.Finset.Basic
import Mathlib.Algebra.GroupWithZero.Nat
import Mathlib.Algebra.Order.BigOperators.Group.Finset

/-
  Tables seen through their entries.

  A table is what its keys have: two tables that have issued
  as many keys and agree on each are one table, and a total
  is a sum over the keys issued.

  Main declarations:
    * `Table.ext_get?`
    * `Table.Follows`
    * `Table.total_eq_sum`
    * `Table.total_pos_iff`
    * `Table.total_congr`
-/

namespace LeasedHeap

namespace Table

variable {α : Type}

------------------------------------------------------------
-- Keys
------------------------------------------------------------

/- A key that has not been issued has no entry. -/
theorem get?_eq_none_of_issued_le
    {t : Table α}
    {k : Nat}
    (hk : t.issued ≤ k) :
    t.get? k = none := by
  cases h : t.get? k with
  | none => rfl
  | some a =>
      have hLt := lt_issued_of_get? h
      omega

/- An issued slot is the entry of its key. -/
private theorem getElem?_slots
    (t : Table α)
    {k : Nat}
    (hk : k < t.slots.size) :
    t.slots[k]? = some (t.get? k) := by
  unfold get?
  rw [Array.getElem?_eq_getElem hk]
  rfl

/- An entry that is erased might as well not be replaced. -/
@[simp]
theorem erase_set
    (t : Table α)
    (k : Nat)
    (a : α) :
    (t.set k a).erase k = t.erase k := by
  simp [set, erase]

/- Tables that agree on the keys they issued are one. -/
theorem ext_get?
    {t u : Table α}
    (hIssued : t.issued = u.issued)
    (hGet : ∀ k, t.get? k = u.get? k) :
    t = u := by
  rcases t with ⟨ts⟩
  rcases u with ⟨us⟩
  have hSize : ts.size = us.size := hIssued
  congr 1
  apply Array.ext_getElem?
  intro k
  by_cases hk : k < ts.size
  · have hLeft := getElem?_slots ⟨ts⟩ hk
    have hRight := getElem?_slots ⟨us⟩ (hSize ▸ hk)
    simp only at hLeft hRight
    rw [hLeft, hRight, hGet k]
  · rw [Array.getElem?_eq_none (by omega),
      Array.getElem?_eq_none (by omega)]

/-
  A table comes after another: a key that had been issued has
  its entry still, or none.
-/
structure Follows (t u : Table α) : Prop where
  le : t.issued ≤ u.issued
  old :
    ∀ k, k < t.issued →
      u.get? k = t.get? k ∨ u.get? k = none

variable {t u v : Table α}

theorem Follows.refl
    (t : Table α) :
    t.Follows t :=
  ⟨Nat.le_refl _, fun _ _ => Or.inl rfl⟩

theorem Follows.trans
    (hFirst : t.Follows u)
    (hSecond : u.Follows v) :
    t.Follows v := by
  refine ⟨Nat.le_trans hFirst.le hSecond.le, ?_⟩
  intro k hk
  rcases hSecond.old k (Nat.lt_of_lt_of_le hk hFirst.le) with
    hSame | hNone
  · rw [hSame]
    exact hFirst.old k hk
  · exact Or.inr hNone

theorem Follows.insert
    (t : Table α)
    (a : α) :
    t.Follows (t.insert a) := by
  refine ⟨by simp, ?_⟩
  intro k hk
  rw [get?_insert, if_neg (Nat.ne_of_lt hk)]
  exact Or.inl rfl

theorem Follows.erase
    (t : Table α)
    (k : Nat) :
    t.Follows (t.erase k) := by
  refine ⟨by simp, ?_⟩
  intro j _
  rw [get?_erase]
  split
  · exact Or.inr rfl
  · exact Or.inl rfl

/- An entry that is there in the end was there before. -/
theorem Follows.get?_eq
    (hFollows : t.Follows u)
    {k : Nat}
    (hk : k < t.issued)
    (hSome : (u.get? k).isSome) :
    u.get? k = t.get? k := by
  rcases hFollows.old k hk with hSame | hNone
  · exact hSame
  · rw [hNone] at hSome
    cases hSome

------------------------------------------------------------
-- Totals
------------------------------------------------------------

/- Slots in a row are summed by their places. -/
private theorem totalSlots_eq_sum
    (f : α → Nat)
    (ss : List (Option α)) :
    totalSlots f ss =
      ∑ k ∈ Finset.range ss.length,
        (((ss[k]?).getD none).map f).getD 0 := by
  induction ss with
  | nil => rfl
  | cons s ss ih =>
      rw [List.length_cons, Finset.sum_range_succ']
      cases s with
      | none => simpa [totalSlots] using ih
      | some a =>
          simp only [totalSlots, ih]
          simp [Nat.add_comm]

/- A total is a sum over the keys issued. -/
theorem total_eq_sum
    (f : α → Nat)
    (t : Table α) :
    t.total f =
      ∑ k ∈ Finset.range t.issued,
        ((t.get? k).map f).getD 0 := by
  unfold total get? issued
  rw [totalSlots_eq_sum]
  simp

/- An entry counts towards the total. -/
theorem le_total
    (f : α → Nat)
    {t : Table α}
    {k : Nat}
    {a : α}
    (hk : t.get? k = some a) :
    f a ≤ t.total f := by
  rw [total_eq_sum]
  have hMem : k ∈ Finset.range t.issued :=
    Finset.mem_range.mpr (lt_issued_of_get? hk)
  have hLe :=
    Finset.single_le_sum
      (f := fun k => ((t.get? k).map f).getD 0)
      (fun _ _ => Nat.zero_le _) hMem
  simpa [hk] using hLe

/- Two entries both count towards the total. -/
theorem add_le_total
    (f : α → Nat)
    {t : Table α}
    {j k : Nat}
    {a b : α}
    (hNe : j ≠ k)
    (hj : t.get? j = some a)
    (hk : t.get? k = some b) :
    f a + f b ≤ t.total f := by
  have hRest : (t.erase k).get? j = some a := by
    rw [get?_erase, if_neg hNe]
    exact hj
  have hErase := total_erase f hk
  have hLe := le_total f hRest
  omega

/- There is a total exactly if some entry has a weight. -/
theorem total_pos_iff
    {f : α → Nat}
    {t : Table α} :
    0 < t.total f ↔
      ∃ k a, t.get? k = some a ∧ 0 < f a := by
  constructor
  · intro hPos
    rw [total_eq_sum] at hPos
    rcases Finset.exists_ne_zero_of_sum_ne_zero
        (Nat.pos_iff_ne_zero.mp hPos) with
      ⟨k, _, hk⟩
    cases hGet : t.get? k with
    | none => simp [hGet] at hk
    | some a =>
        refine ⟨k, a, hGet, ?_⟩
        simpa [hGet, Nat.pos_iff_ne_zero] using hk
  · rintro ⟨k, a, hGet, hPos⟩
    exact Nat.lt_of_lt_of_le hPos (le_total f hGet)

/- Weights of which one is never less have such totals. -/
theorem total_le_total
    {f g : α → Nat}
    {t : Table α}
    (hLe : ∀ k a, t.get? k = some a → f a ≤ g a) :
    t.total f ≤ t.total g := by
  rw [total_eq_sum, total_eq_sum]
  apply Finset.sum_le_sum
  intro k _
  cases hGet : t.get? k with
  | none => exact Nat.le_refl _
  | some a => exact hLe k a hGet

/- Entries of one weight each have one total. -/
theorem total_congr
    {β : Type}
    {f : α → Nat}
    {g : β → Nat}
    {t : Table α}
    {u : Table β}
    (hIssued : t.issued = u.issued)
    (hWeight :
      ∀ k, (t.get? k).map f = (u.get? k).map g) :
    t.total f = u.total g := by
  rw [total_eq_sum, total_eq_sum, hIssued]
  apply Finset.sum_congr rfl
  intro k _
  rw [hWeight k]

end Table

end LeasedHeap

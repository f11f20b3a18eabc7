/-
  Checked and saturating arithmetic on 64-bit words.

  Sizes, counters and limits are words.  An operation that
  may leave the range is checked (`add?`, `mul?`, `ofNat?`)
  or saturates (`satAdd`, `satSub`, `satMul`, `satOfNat`);
  the plain operators of `UInt64` wrap.

  The checked operations are pinned down by:
    * `ofNat?_eq_some_iff`
    * `add?_eq_some_iff`
    * `mul?_eq_some_iff`
-/

namespace LeasedHeap

namespace Word

------------------------------------------------------------
-- Checked Operations
------------------------------------------------------------

/- The largest word. -/
def top : UInt64 :=
  18446744073709551615

/- A natural number as a word, if it fits. -/
def ofNat? (n : Nat) : Option UInt64 :=
  if n < UInt64.size then some (UInt64.ofNat n) else none

/- The sum of two words, if it is a word. -/
def add? (a b : UInt64) : Option UInt64 :=
  ofNat? (a.toNat + b.toNat)

/- The product of two words, if it is a word. -/
def mul? (a b : UInt64) : Option UInt64 :=
  ofNat? (a.toNat * b.toNat)

------------------------------------------------------------
-- Saturating Operations
------------------------------------------------------------

/- The sum of two words, or the largest word. -/
def satAdd (a b : UInt64) : UInt64 :=
  (add? a b).getD top

/- The product of two words, or the largest word. -/
def satMul (a b : UInt64) : UInt64 :=
  (mul? a b).getD top

/- A natural number as a word, or the largest word. -/
def satOfNat (n : Nat) : UInt64 :=
  (ofNat? n).getD top

/- The difference of two words, or zero. -/
def satSub (a b : UInt64) : UInt64 :=
  if b ≤ a then a - b else 0

------------------------------------------------------------
-- The Words That Fit
------------------------------------------------------------

/- A number fits exactly when it is the value of the word. -/
theorem ofNat?_eq_some_iff
    {n : Nat}
    {w : UInt64} :
    ofNat? n = some w ↔ w.toNat = n := by
  unfold ofNat?
  split
  · rename_i hn
    constructor
    · intro h
      cases h
      exact UInt64.toNat_ofNat_of_lt' hn
    · intro h
      subst h
      simp
  · rename_i hn
    constructor
    · intro h
      cases h
    · intro h
      have hw := w.toNat_lt_size
      omega

/- A number that does not fit is as large as all the words. -/
theorem ofNat?_eq_none_iff
    {n : Nat} :
    ofNat? n = none ↔ UInt64.size ≤ n := by
  unfold ofNat?
  split
  · rename_i hn
    simp only [reduceCtorEq, false_iff]
    omega
  · rename_i hn
    simp only [true_iff]
    omega

/- A checked sum is the sum of the numbers. -/
theorem add?_eq_some_iff
    {a b w : UInt64} :
    add? a b = some w ↔
      w.toNat = a.toNat + b.toNat :=
  ofNat?_eq_some_iff

/- A checked product is the product of the numbers. -/
theorem mul?_eq_some_iff
    {a b w : UInt64} :
    mul? a b = some w ↔
      w.toNat = a.toNat * b.toNat :=
  ofNat?_eq_some_iff

end Word

end LeasedHeap

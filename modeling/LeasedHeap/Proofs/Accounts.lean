import LeasedHeap.Pool
import LeasedHeap.Proofs.Calls
import Mathlib.Algebra.GroupWithZero.Nat

/-
  What a call that is under way has done so far.

  Between any two of its operations a call has an account:
  the bytes that it counted as live and did not give back,
  what it counted as issued, and what it has yet to count as
  returned.  A call keeps its account if each operation is
  allowed by it, whatever others did to the counters in
  between; calls in a row keep it if each does.

  Main declarations:
    * `Account`
    * `Account.Fits` and `Account.Allows`
    * `Steps.Keeps` and `Steps.Keeps.bind`
    * `Call.keeps_steps`
-/

namespace LeasedHeap

------------------------------------------------------------
-- Accounts
------------------------------------------------------------

/-
  What a running call has counted, and what of the return of
  a lease it has yet to count.
-/
structure Account where
  owed : Nat
  allocations : Nat
  allocated : Nat
  releases : Nat
  reclaimed : Nat

namespace Account

/- Nothing is owed, counted or to be counted. -/
def zero : Account :=
  ⟨0, 0, 0, 0, 0⟩

/- What a call can rely on when it reads the counters. -/
structure Fits
    (b : Account)
    (t : Terms)
    (c : Counters) : Prop where
  limit : t.limit.admits c.live
  owed : b.owed ≤ c.live.toNat

/- The operations that an account allows. -/
def Allows
    (b : Account)
    (t : Terms) : Atomic → Prop
| .addWithin limit _ => limit = t.limit
| .giveBack n => n.toNat ≤ b.owed
| .loadLive => True
| .raisePeak n => t.limit.admits n
| .storePeak n => t.limit.admits n
| .countAllocation => True
| .countRelease => 1 ≤ b.releases
| .addAllocated _ => True
| .addReclaimed n => n.toNat ≤ b.reclaimed

/- The account after an operation and the reply to it. -/
def after
    (b : Account) : (a : Atomic) → a.Reply → Account
| .addWithin _ n, some _ =>
    { b with owed := b.owed + n.toNat }
| .addWithin _ _, none => b
| .giveBack n, _ => { b with owed := b.owed - n.toNat }
| .loadLive, _ => b
| .raisePeak _, _ => b
| .storePeak _, _ => b
| .countAllocation, _ =>
    { b with allocations := b.allocations + 1 }
| .countRelease, _ => { b with releases := b.releases - 1 }
| .addAllocated n, _ =>
    { b with allocated := b.allocated + n.toNat }
| .addReclaimed n, _ =>
    { b with reclaimed := b.reclaimed - n.toNat }

end Account

------------------------------------------------------------
-- Calls that Keep an Account
------------------------------------------------------------

namespace Steps

variable {α β : Type}

/-
  Whatever the counters are when its operations come to pass,
  a call does what its account allows, and it ends in an
  account that suits its result.
-/
def Keeps
    (t : Terms)
    (final : α → Account → Prop) : Account → Steps α → Prop
| b, .done a => final a b
| b, .note _ rest => Keeps t final b rest
| b, .act op rest =>
    b.Allows t op ∧
      ∀ c : Counters, b.Fits t c →
        Keeps t final (b.after op (c.act op).1)
          (rest (c.act op).1)

variable {t : Terms}
variable {b : Account}

theorem Keeps.bind
    {first : α → Account → Prop}
    {final : β → Account → Prop}
    {s : Steps α}
    {f : α → Steps β}
    (hFirst : s.Keeps t first b)
    (hRest :
      ∀ a b', first a b' → (f a).Keeps t final b') :
    (s.bind f).Keeps t final b := by
  induction s generalizing b with
  | done a => exact hRest a b hFirst
  | note n rest ih => exact ih hFirst
  | act op rest ih =>
      exact
        ⟨hFirst.1, fun c hFits => ih _ (hFirst.2 c hFits)⟩

end Steps

------------------------------------------------------------
-- Leases and Requests
------------------------------------------------------------

namespace Steps

variable (t : Terms)
variable (b : Account)

/- A lease counts what it issues. -/
theorem keeps_lease
    (bytes : UInt64)
    {live : UInt64}
    (hLive : t.limit.admits live) :
    (lease bytes live).Keeps t
      (fun _ b' =>
        b' =
          { b with
            allocations := b.allocations + 1
            allocated := b.allocated + bytes.toNat }) b :=
  ⟨hLive, fun _ _ =>
    ⟨trivial, fun _ _ => ⟨trivial, fun _ _ => rfl⟩⟩⟩

/- A reservation that is owed can be given back. -/
theorem keeps_unreserve
    {bytes : UInt64}
    (hOwed : bytes.toNat ≤ b.owed) :
    (unreserve bytes).Keeps t
      (fun _ b' =>
        b' = { b with owed := b.owed - bytes.toNat }) b :=
  ⟨hOwed, fun _ _ => rfl⟩

/- The return of a lease counts what it has to count. -/
theorem keeps_release
    (bytes : UInt64) :
    (release bytes).Keeps t (fun _ b' => b' = .zero)
      ⟨bytes.toNat, 0, 0, 1, bytes.toNat⟩ := by
  refine ⟨Nat.le_refl _, fun _ _ => ?_⟩
  refine ⟨Nat.le_refl _, fun _ _ => ?_⟩
  refine ⟨Nat.le_refl _, fun _ _ => ?_⟩
  change
    Account.mk (bytes.toNat - bytes.toNat) 0 0 (1 - 1)
        (bytes.toNat - bytes.toNat) = .zero
  simp [Account.zero]

/- The restarted peak is within the limit. -/
theorem keeps_resetPeak :
    resetPeak.Keeps t (fun _ b' => b' = b) b :=
  ⟨trivial, fun _ hFits =>
    ⟨hFits.limit, fun _ _ => rfl⟩⟩

end Steps

namespace Terms

variable (t : Terms)
variable (b : Account)

open Steps

/- A refusal owes nothing new. -/
theorem keeps_refuse
    (requested : UInt64) :
    (t.refuse requested).Keeps t (fun _ b' => b' = b) b :=
  ⟨trivial, fun _ _ => rfl⟩

/- What is granted is owed, and within the limit. -/
theorem keeps_reserve
    (bytes : UInt64) :
    (t.reserve bytes).Keeps t
      (fun r b' =>
        match r with
        | .ok live =>
            t.limit.admits live ∧
              b' = { b with owed := b.owed + bytes.toNat }
        | .error _ => b' = b) b := by
  refine ⟨rfl, fun c _ => ?_⟩
  simp only [Counters.act]
  cases hAdd : Word.add? c.live bytes with
  | none => exact (t.keeps_refuse b bytes).bind (fun _ _ h => h)
  | some next =>
      by_cases hAdmits : t.limit.admits next
      · simp only [hAdmits, if_true]
        refine ⟨?_, rfl⟩
        rw [Word.satAdd, hAdd]
        exact hAdmits
      · simp only [hAdmits]
        exact (t.keeps_refuse b bytes).bind (fun _ _ h => h)

/- A block that is leased is owed until it is handed over. -/
theorem keeps_allocate
    (size : UInt64) :
    (t.allocate size).Keeps t
      (fun r b' =>
        match r with
        | .ok _ =>
            b' =
              { b with
                owed := b.owed + size.toNat
                allocations := b.allocations + 1
                allocated := b.allocated + size.toNat }
        | .error _ => b' = b) b := by
  refine (t.keeps_reserve b size).bind ?_
  rintro (r | live) b' hReserved
  · exact hReserved
  · rcases hReserved with ⟨hLive, rfl⟩
    simp only
    split
    · refine (keeps_lease t _ size hLive).bind ?_
      rintro _ _ rfl
      rfl
    · refine
        (keeps_unreserve t _ (Nat.le_add_left _ _)).bind ?_
      rintro _ _ rfl
      refine (t.keeps_refuse _ size).bind ?_
      rintro _ _ rfl
      simp [Keeps]

/- What an array call reserves is owed. -/
theorem keeps_openArray
    (width hint : UInt64) :
    (t.openArray width hint).Keeps t
      (fun r b' =>
        match r with
        | .ok hinted =>
            b' = { b with owed := b.owed + hinted.toNat }
        | .error _ => b' = b) b := by
  unfold openArray
  cases Word.mul? hint width with
  | none => exact (t.keeps_refuse b _).bind (fun _ _ h => h)
  | some hinted =>
      refine (t.keeps_reserve b hinted).bind ?_
      rintro (r | live) b' hReserved
      · exact hReserved
      · rcases hReserved with ⟨_, rfl⟩
        simp only
        split
        · rfl
        · refine
            (keeps_unreserve t _
              (Nat.le_add_left _ _)).bind ?_
          rintro _ _ rfl
          refine (t.keeps_refuse _ hinted).bind ?_
          rintro _ _ rfl
          simp [Keeps]

/-
  An array call turns what it reserved into a lease of its
  items, or gives it back.
-/
theorem keeps_closeArray
    (width : UInt64)
    {hinted : UInt64}
    (count : Nat)
    (hOwed : hinted.toNat ≤ b.owed) :
    (t.closeArray width hinted count).Keeps t
      (fun r b' =>
        match r with
        | .ok size =>
            b' =
              { b with
                owed := b.owed - hinted.toNat + size.toNat
                allocations := b.allocations + 1
                allocated := b.allocated + size.toNat }
        | .error _ =>
            b' =
              { b with owed := b.owed - hinted.toNat })
      b := by
  unfold closeArray
  cases Word.ofNat? (count * width.toNat) with
  | none =>
      refine (keeps_unreserve t b hOwed).bind ?_
      rintro _ _ rfl
      exact (t.keeps_refuse _ _).bind (fun _ _ h => h)
  | some size =>
      simp only
      split
      · rename_i hLe
        have hExtra :
            hinted.toNat + (size - hinted).toNat =
              size.toNat := by
          have hNat := UInt64.le_iff_toNat_le.mp hLe
          rw [UInt64.toNat_sub_of_le _ _ hLe]
          omega
        refine (t.keeps_reserve b (size - hinted)).bind ?_
        rintro (r | live) b' hReserved
        · subst hReserved
          refine (keeps_unreserve t b' hOwed).bind ?_
          rintro _ _ rfl
          exact (t.keeps_refuse _ _).bind (fun _ _ h => h)
        · rcases hReserved with ⟨hLive, rfl⟩
          refine (keeps_lease t _ size hLive).bind ?_
          rintro _ _ rfl
          simp only [Keeps, pure_eq, Account.mk.injEq,
            and_true]
          omega
      · rename_i hLe
        have hLt : size ≤ hinted :=
          UInt64.le_of_lt (UInt64.not_le.mp hLe)
        have hExcess :
            (hinted - size).toNat + size.toNat =
              hinted.toNat := by
          have hNat := UInt64.le_iff_toNat_le.mp hLt
          rw [UInt64.toNat_sub_of_le _ _ hLt]
          omega
        refine (keeps_unreserve t b (by omega)).bind ?_
        rintro _ _ rfl
        refine ⟨trivial, fun c hFits => ?_⟩
        refine (keeps_lease t _ size hFits.limit).bind ?_
        rintro _ _ rfl
        simp only [Keeps, pure_eq, Account.after,
          Account.mk.injEq, and_true]
        omega

end Terms

------------------------------------------------------------
-- Calls of Threads
------------------------------------------------------------

/- The bytes of a lease that a call came to. -/
def CallResult.leased? : CallResult → Option UInt64
| .leased bytes => some bytes
| _ => none

namespace Account

/- The account of a call that has not done anything yet. -/
def opening (returned : Option UInt64) : Account :=
  match returned with
  | some bytes => ⟨bytes.toNat, 0, 0, 1, bytes.toNat⟩
  | none => .zero

/- The account of a call that is over. -/
def closing (r : CallResult) : Account :=
  match r.leased? with
  | some bytes => ⟨bytes.toNat, 1, bytes.toNat, 0, 0⟩
  | none => .zero

variable (returned : Option UInt64)

theorem allocations_opening :
    (opening returned).allocations = 0 := by
  cases returned <;> rfl

theorem allocated_opening :
    (opening returned).allocated = 0 := by
  cases returned <;> rfl

theorem releases_opening :
    (opening returned).releases =
      returned.toList.length := by
  cases returned <;> rfl

theorem reclaimed_opening :
    (opening returned).reclaimed =
      (returned.toList.map UInt64.toNat).sum := by
  cases returned <;> rfl

end Account

/-
  Every call of a thread keeps its account, from the lease
  that it is to return to the lease that it comes to.
-/
theorem Call.keeps_steps
    (t : Terms)
    (leases : List UInt64)
    (call : Call) :
    (call.steps t leases).Keeps t
      (fun r b => b = .closing r)
      (.opening (call.returned? leases)) := by
  cases call with
  | allocate size =>
      refine (t.keeps_allocate _ size).bind ?_
      rintro (r | _) b' rfl
      · rfl
      · simp [Steps.Keeps, Account.closing,
          CallResult.leased?, Account.opening,
          Call.returned?, Account.zero]
  | array width hint count =>
      refine (t.keeps_openArray _ width hint).bind ?_
      rintro (r | hinted) b' rfl
      · rfl
      · refine
          (t.keeps_closeArray _ width count
            (Nat.le_add_left _ _)).bind ?_
        rintro (r | size) b' rfl
        · simp [Steps.Keeps, Account.closing,
            CallResult.leased?, Account.opening,
            Call.returned?, Account.zero]
        · simp [Steps.Keeps, Account.closing,
            CallResult.leased?, Account.opening,
            Call.returned?, Account.zero]
  | drop k =>
      simp only [Call.steps, Call.returned?]
      cases leases[k]? with
      | none => rfl
      | some bytes =>
          refine (Steps.keeps_release t bytes).bind ?_
          rintro _ _ rfl
          rfl
  | resetPeak =>
      refine (Steps.keeps_resetPeak t _).bind ?_
      rintro _ _ rfl
      rfl

end LeasedHeap

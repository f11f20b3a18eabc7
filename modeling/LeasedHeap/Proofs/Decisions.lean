import LeasedHeap.Pool
import LeasedHeap.Proofs.Calls

/-
  The step that decides a call.

  A block, an array that gives as many items as it announced
  and the drop of a lease each touch the live bytes in one
  step only, the first.  There the call is decided: what it
  comes to depends on the live bytes at that step, and what
  it does after leaves them as they are.

  Key definitions include:
    * `CallResult.verdict`
    * `Call.Exact`
    * `Call.decision`
    * `Steps.Settles`
    * `Steps.Decides`

  Main declarations:
    * `Call.decides_steps`
    * `Steps.Decides.run`
-/

namespace LeasedHeap

------------------------------------------------------------
-- Decisions
------------------------------------------------------------

/-
  What a call comes to, but for the live bytes that a refusal
  tells; those are read after the decision.
-/
def CallResult.verdict : CallResult → CallResult
| .refused r => .refused { r with live := 0 }
| .leased bytes => .leased bytes
| .settled => .settled

/-
  What a request for some bytes comes to, and the live bytes
  that it leaves.
-/
def Terms.request
    (t : Terms)
    (live bytes : UInt64) : CallResult × UInt64 :=
  match (Word.add? live bytes).filter t.limit.admits with
  | some next => (.leased bytes, next)
  | none => (.refused ⟨bytes, 0, t.limit⟩, live)

namespace Call

/-
  An array that gives as many items as it announced, or any
  other call that leases or returns.
-/
def Exact : Call → Prop
| .allocate _ => True
| .array _ hint count => hint.toNat = count
| .drop _ => True
| .resetPeak => False

/-
  What a call comes to when a given number of bytes is live,
  and the live bytes that it leaves.
-/
def decision
    (t : Terms)
    (leases : List UInt64)
    (live : UInt64) : Call → CallResult × UInt64
| .allocate size => t.request live size
| .array width hint _ =>
    match Word.mul? hint width with
    | none => (.refused ⟨Word.top, 0, t.limit⟩, live)
    | some bytes => t.request live bytes
| .drop k => (.settled, live - leases[k]?.getD 0)
| .resetPeak => (.settled, live)

end Call

------------------------------------------------------------
-- Steps that Settle and Steps that Decide
------------------------------------------------------------

namespace Steps

variable {α β : Type}

/-
  Whatever others do within the limit, a call leaves the live
  bytes, and what it comes to is of a kind.
-/
def Settles
    (t : Terms)
    (kind : α → Prop) : Steps α → Prop
| .done a => kind a
| .note _ rest => Settles t kind rest
| .act op rest =>
    ∀ c : Counters, t.limit.admits c.live →
      (c.act op).2.live = c.live ∧
        Settles t kind (rest (c.act op).1)

/- The first step of a call decides it. -/
def Decides
    (t : Terms)
    (decision : UInt64 → CallResult × UInt64) :
    Steps CallResult → Prop
| .done r =>
    ∀ live, decision live = (r.verdict, live)
| .note _ _ => False
| .act op rest =>
    ∀ c : Counters, t.limit.admits c.live →
      (c.act op).2.live = (decision c.live).2 ∧
        Settles t
          (fun r => r.verdict = (decision c.live).1)
          (rest (c.act op).1)

/- Calls in a row can be grouped either way. -/
theorem bind_assoc
    {γ : Type}
    (s : Steps α)
    (f : α → Steps β)
    (g : β → Steps γ) :
    (s.bind f).bind g = s.bind (fun a => (f a).bind g) := by
  induction s with
  | done a => rfl
  | note n rest ih => exact congrArg (Steps.note n) ih
  | act op rest ih =>
      exact congrArg (Steps.act op) (funext ih)

variable {t : Terms}
variable {kind : α → Prop}

/- Calls that settle one after the other. -/
theorem Settles.bind
    {final : β → Prop}
    {s : Steps α}
    {f : α → Steps β}
    (hFirst : s.Settles t kind)
    (hRest : ∀ a, kind a → (f a).Settles t final) :
    (s.bind f).Settles t final := by
  induction s with
  | done a => exact hRest a hFirst
  | note n rest ih => exact ih hFirst
  | act op rest ih =>
      exact fun c hLimit =>
        ⟨(hFirst c hLimit).1, ih _ (hFirst c hLimit).2⟩

/- What settles is carried out with nothing in between. -/
theorem Settles.run
    {s : Steps α}
    {c : Counters}
    {log : List Notice}
    (hSettles : s.Settles t kind)
    (hLimit : t.limit.admits c.live) :
    kind (s.run c log).1 ∧
      (s.run c log).2.1.live = c.live := by
  induction s generalizing c log with
  | done a => exact ⟨hSettles, rfl⟩
  | note n rest ih => exact ih hSettles hLimit
  | act op rest ih =>
      rcases hSettles c hLimit with ⟨hLive, hRest⟩
      rw [← hLive] at hLimit ⊢
      exact ih _ hRest hLimit

/- A call that is carried out comes to what was decided. -/
theorem Decides.run
    {decision : UInt64 → CallResult × UInt64}
    {s : Steps CallResult}
    {c : Counters}
    (hDecides : s.Decides t decision)
    (hBefore : t.limit.admits c.live)
    (hAfter : t.limit.admits (decision c.live).2)
    (log : List Notice) :
    (s.run c log).1.verdict = (decision c.live).1 ∧
      (s.run c log).2.1.live = (decision c.live).2 := by
  cases s with
  | done r =>
      rw [hDecides c.live]
      exact ⟨rfl, rfl⟩
  | note n rest => exact hDecides.elim
  | act op rest =>
      rcases hDecides c hBefore with ⟨hLive, hRest⟩
      rw [← hLive] at hAfter
      rw [← hLive]
      exact hRest.run hAfter

------------------------------------------------------------
-- Leases and Requests
------------------------------------------------------------

theorem settles_lease
    (t : Terms)
    (bytes live : UInt64) :
    (lease bytes live).Settles t (fun _ => True) :=
  fun _ _ =>
    ⟨rfl, fun _ _ => ⟨rfl, fun _ _ => ⟨rfl, trivial⟩⟩⟩

end Steps

namespace Terms

open Steps

/- A refusal tells what was requested, and of which limit. -/
theorem settles_refuse
    (t : Terms)
    (requested : UInt64) :
    (t.refuse requested).Settles t
      (fun r =>
        r.requested = requested ∧ r.limit = t.limit) :=
  fun _ _ => ⟨rfl, rfl, rfl⟩

/- There is always room for nothing. -/
theorem settles_reserve_zero
    (t : Terms) :
    (t.reserve 0).Settles t (fun r => ∃ n, r = .ok n) := by
  intro c hLimit
  have hAdd : Word.add? c.live 0 = some c.live :=
    Word.add?_eq_some_iff.mpr rfl
  simp only [Counters.act, hAdd, hLimit, if_true, true_and]
  exact ⟨_, rfl⟩

/-
  A request is decided when its bytes are reserved.  Only a
  request that the limit admits is granted.
-/
theorem decides_reserve
    {t : Terms}
    {bytes : UInt64}
    {rest : Except Refusal UInt64 → Steps CallResult}
    (hGranted :
      t.limit.admits bytes →
        ∀ live, (rest (.ok live)).Settles t
          (fun r => r.verdict = .leased bytes))
    (hRefused :
      ∀ r : Refusal,
        r.requested = bytes ∧ r.limit = t.limit →
          (rest (.error r)).Settles t
            (fun r => r.verdict =
              .refused ⟨bytes, 0, t.limit⟩)) :
    ((t.reserve bytes).bind rest).Decides t
      (fun live => t.request live bytes) := by
  intro c hLimit
  simp only [request, Counters.act]
  cases hAdd : Word.add? c.live bytes with
  | none =>
      exact
        ⟨rfl, (t.settles_refuse bytes).bind hRefused⟩
  | some next =>
      by_cases hAdmits : t.limit.admits next
      · have hLe : bytes ≤ next := by
          rw [UInt64.le_iff_toNat_le,
            Word.add?_eq_some_iff.mp hAdd]
          exact Nat.le_add_left _ _
        simp only [hAdmits, if_true, Option.filter_some]
        exact
          ⟨trivial,
            hGranted (Limit.admits_of_le hLe hAdmits) _⟩
      · simp only [hAdmits, Option.filter_some]
        exact
          ⟨rfl, (t.settles_refuse bytes).bind hRefused⟩

/- A block is decided like any request. -/
theorem decides_allocate
    {t : Terms}
    {size : UInt64}
    {rest : Except Refusal Unit → Steps CallResult}
    (hProvides :
      ∀ n, t.limit.admits n → t.provides n = true)
    (hGranted :
      (rest (.ok ())).Settles t
        (fun r => r.verdict = .leased size))
    (hRefused :
      ∀ r : Refusal,
        r.requested = size ∧ r.limit = t.limit →
          (rest (.error r)).Settles t
            (fun r => r.verdict =
              .refused ⟨size, 0, t.limit⟩)) :
    ((t.allocate size).bind rest).Decides t
      (fun live => t.request live size) := by
  unfold allocate
  rw [bind_eq, Steps.bind_assoc]
  refine decides_reserve (fun hAdmits live => ?_) hRefused
  have hGrants : t.grants size = true := by
    simp [grants, hProvides size hAdmits]
  simp only [hGrants, if_true, bind_eq, Steps.bind_assoc]
  exact
    (settles_lease t size live).bind (fun _ _ => hGranted)

/-
  An array that gives what it announced settles after the
  announced bytes are reserved: all it reserves in the end is
  nothing.
-/
theorem settles_closeArray
    {t : Terms}
    {width bytes : UInt64}
    {count : Nat}
    {rest : Except Refusal UInt64 → Steps CallResult}
    (hBytes : bytes.toNat = count * width.toNat)
    (hGranted :
      (rest (.ok bytes)).Settles t
        (fun r => r.verdict = .leased bytes)) :
    ((t.closeArray width bytes count).bind rest).Settles t
      (fun r => r.verdict = .leased bytes) := by
  unfold closeArray
  rw [Word.ofNat?_eq_some_iff.mpr hBytes]
  simp only [UInt64.le_refl, if_true, UInt64.sub_self,
    bind_eq, Steps.bind_assoc]
  refine (settles_reserve_zero t).bind ?_
  rintro _ ⟨live, rfl⟩
  simp only [Steps.bind_assoc]
  exact
    (settles_lease t bytes live).bind (fun _ _ => hGranted)

end Terms

------------------------------------------------------------
-- Calls
------------------------------------------------------------

/-
  Every exact call is decided in its first step, if storage
  is provided whenever the limit admits it.
-/
theorem Call.decides_steps
    {t : Terms}
    (hProvides :
      ∀ n, t.limit.admits n → t.provides n = true)
    (leases : List UInt64)
    {call : Call}
    (hExact : call.Exact) :
    (call.steps t leases).Decides t
      (fun live => call.decision t leases live) := by
  have hRefused :
      ∀ (bytes : UInt64) (r : Refusal),
        r.requested = bytes ∧ r.limit = t.limit →
          CallResult.verdict (.refused r) =
            .refused ⟨bytes, 0, t.limit⟩ := by
    rintro bytes ⟨requested, live, limit⟩ ⟨rfl, rfl⟩
    rfl
  cases call with
  | allocate size =>
      exact
        Terms.decides_allocate hProvides rfl
          (fun r hr => hRefused size r hr)
  | array width hint count =>
      simp only [Call.steps, Call.decision]
      unfold Terms.openArray
      cases hMul : Word.mul? hint width with
      | none =>
          intro c hLimit
          exact ⟨rfl, rfl⟩
      | some bytes =>
          have hBytes :
              bytes.toNat = count * width.toNat := by
            have hExact : hint.toNat = count := hExact
            rw [Word.mul?_eq_some_iff.mp hMul, hExact]
          simp only [Steps.bind_eq, Steps.bind_assoc]
          refine
            Terms.decides_reserve (fun hAdmits live => ?_)
              (fun r hr => hRefused bytes r hr)
          have hGrants : t.grants bytes = true := by
            simp [Terms.grants, hProvides bytes hAdmits]
          simp only [hGrants, if_true]
          exact Terms.settles_closeArray hBytes rfl
  | drop k =>
      simp only [Call.steps, Call.decision]
      cases hk : leases[k]? with
      | none =>
          intro live
          simp [CallResult.verdict]
      | some bytes =>
          intro c hLimit
          refine ⟨rfl, ?_⟩
          exact fun _ _ => ⟨rfl, fun _ _ => ⟨rfl, rfl⟩⟩
  | resetPeak => exact hExact.elim

end LeasedHeap

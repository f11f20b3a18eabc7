import LeasedHeap.Proofs.Applications
import LeasedHeap.Proofs.ArrayCalls

/-
  Array calls that break off.

  A source may break off at any item, while it makes arrays
  itself and while it applies closures.  Then all of these
  are left, the innermost first.  What they hold is dropped
  as ever, and its leases are returned.  But the bytes that
  they announced were reserved for leases that are never
  made, and nothing gives them back: they stay live, and
  take from the limit, for good.

  Main declarations:
    * `Breaking` and `Breaking.exec`
    * `Breaking.leads`
    * `Moment.reservation_outlives_its_call`
    * `Moment.broken_calls_stay_reserved`
-/

namespace LeasedHeap

------------------------------------------------------------
-- Programs that Break Off
------------------------------------------------------------

/-
  A program that breaks off.

  `raise` breaks off at once, and `after p rest` when `p` has
  come to an end.  `holding xs b` holds handles meanwhile,
  and drops them when `b` has broken off; a source holds what
  it has not given yet, and then what it gave.
  `array c s hint owned b refused` breaks off as `b`, which
  is pulling the items of an array, or as `refused`, if the
  call is refused before.  `apply f args b` breaks off as
  `b`, which is the code of a closure.
-/
inductive Breaking (κ : Type) : Type 1 where
| raise : Breaking κ
| after {α : Type} :
    Program κ α → (α → Breaking κ) → Breaking κ
| holding : List Handle → Breaking κ → Breaking κ
| array :
    CollectorId → Shape → UInt64 → List Handle →
    Breaking κ → (Refusal → Breaking κ) → Breaking κ
| apply :
    Value → List Value → (Invocation → Breaking κ) →
    Breaking κ

/- An array call that was left, and what it had announced. -/
structure Unwound where
  collector : CollectorId
  width : UInt64
  hint : UInt64

namespace Unwound

/- The bytes that a call announced. -/
def bytes (k : Unwound) : Nat :=
  k.hint.toNat * k.width.toNat

/- The bytes that some calls announced to a collector. -/
def bytesAt
    (c : CollectorId)
    (ks : List Unwound) : Nat :=
  (ks.map (fun k => if k.collector = c then k.bytes else 0)).sum

theorem bytesAt_append
    (c : CollectorId)
    (ks ls : List Unwound) :
    bytesAt c (ks ++ ls) = bytesAt c ks + bytesAt c ls := by
  unfold bytesAt
  rw [List.map_append, List.sum_append]

/- Nothing was announced if no call announced anything. -/
theorem bytesAt_eq_zero_iff
    {c : CollectorId}
    {ks : List Unwound} :
    bytesAt c ks = 0 ↔
      ∀ k ∈ ks, k.collector = c → k.bytes = 0 := by
  unfold bytesAt
  rw [List.sum_eq_zero_iff_forall_eq_nat]
  simp

end Unwound

namespace Breaking

variable {κ : Type}

/-
  Run a program until it breaks off, and leave what is under
  way, innermost first.  The answer is the array calls that
  were left.
-/
def exec
    (applies : Applies κ) :
    Breaking κ → World κ → Option (List Unwound × World κ)
| .raise, w => some ([], w)
| .after p rest, w =>
    match p.exec applies w with
    | none => none
    | some (a, w) => exec applies (rest a) w
| .holding xs b, w =>
    match exec applies b w with
    | none => none
    | some (calls, w) => some (calls, w.dropAll xs)
| .array c s hint owned b refused, w =>
    match w.openArray c s hint with
    | (.error r, w) =>
        exec applies (refused r)
          (w.dropAll (owned ++ s.ownHandles))
    | (.ok _, w) =>
        match exec applies b w with
        | none => none
        | some (calls, w) =>
            some
              (calls ++ [⟨c, s.width, hint⟩],
                w.dropAll s.ownHandles)
| .apply f args b, w =>
    match w.callee? f with
    | none => none
    | some k =>
        if args.length = k.environment.length then
          match exec applies (b (k.invocation args))
              (w.entered k args) with
          | none => none
          | some (calls, w) => some (calls, w.record .exit)
        else
          none

------------------------------------------------------------
-- What Stays Reserved
------------------------------------------------------------

/- What is reserved for a call is what the call announces. -/
theorem bytesAt_opened
    {w opened : World κ}
    {c : CollectorId}
    {s : Shape}
    {hint hinted : UInt64}
    (hOpen : w.openArray c s hint = (.ok hinted, opened))
    (d : CollectorId) :
    Lease.bytesAt d ⟨c, hinted⟩ =
      Unwound.bytesAt d [⟨c, s.width, hint⟩] := by
  have hBytes :
      hinted.toNat = hint.toNat * s.width.toNat := by
    unfold World.openArray at hOpen
    split at hOpen
    · rcases w.heap.perform_openArray c s.width hint with
        ⟨_, hinted', _, hHinted, _, hCall⟩ |
          ⟨_, r, _, hCall⟩
      · rw [hCall] at hOpen
        cases hOpen
        exact hHinted
      · rw [hCall] at hOpen
        cases hOpen
    · cases hOpen
  simp [Lease.bytesAt, Unwound.bytesAt, Unwound.bytes, hBytes]

/- The lease of a call that is left stays reserved. -/
private theorem leads_unwound
    {w opened next : World κ}
    {c : CollectorId}
    {s : Shape}
    {hint hinted : UInt64}
    {inner : List Unwound}
    {left reserved : List Lease}
    (hOpen : w.openArray c s hint = (.ok hinted, opened))
    (hLeft :
      ∀ d, Lease.sum (Lease.bytesAt d) left =
        Unwound.bytesAt d inner)
    (hLeads :
      Moment.Leads
        ⟨opened, [], ⟨c, hinted⟩ :: reserved⟩
        ⟨next, [], left ++ ⟨c, hinted⟩ :: reserved⟩) :
    ∃ left',
      (∀ d, Lease.sum (Lease.bytesAt d) left' =
        Unwound.bytesAt d
          (inner ++ [⟨c, s.width, hint⟩])) ∧
        Moment.Leads ⟨w, [], reserved⟩
          ⟨next.dropAll s.ownHandles, [],
            left' ++ reserved⟩ := by
  refine ⟨left ++ [⟨c, hinted⟩], ?_, ?_⟩
  · intro d
    rw [Lease.sum_append, Unwound.bytesAt_append, hLeft,
      ← bytesAt_opened hOpen]
    rfl
  · rw [List.append_assoc]
    exact
      ((Program.leads_opened hOpen reserved).trans
        hLeads).trans (Moment.leads_dropAll _ _ _)

/-
  A program that breaks off makes moves, and all of its open
  arrays stay open.
-/
theorem leads
    {applies : Applies κ}
    (hApplies : Moment.Applies.ByMoves applies)
    {b : Breaking κ}
    {calls : List Unwound}
    {w w' : World κ}
    (hRun : b.exec applies w = some (calls, w'))
    (reserved : List Lease) :
    ∃ left,
      (∀ d, Lease.sum (Lease.bytesAt d) left =
        Unwound.bytesAt d calls) ∧
        Moment.Leads ⟨w, [], reserved⟩
          ⟨w', [], left ++ reserved⟩ := by
  induction b generalizing w calls w' reserved with
  | raise =>
      cases hRun
      exact ⟨[], fun _ => rfl, .refl _⟩
  | after p rest ih =>
      simp only [exec] at hRun
      split at hRun
      · cases hRun
      · rename_i a next hFirst
        rcases ih a hRun reserved with ⟨left, hLeft, hLeads⟩
        exact
          ⟨left, hLeft,
            (Moment.leads_exec hApplies hFirst).trans
              hLeads⟩
  | holding xs b ih =>
      simp only [exec] at hRun
      split at hRun
      · cases hRun
      · rename_i calls next hBroken
        cases hRun
        rcases ih hBroken reserved with
          ⟨left, hLeft, hLeads⟩
        exact
          ⟨left, hLeft,
            hLeads.trans (Moment.leads_dropAll _ _ _)⟩
  | array c s hint owned b refused ih ihRefused =>
      simp only [exec] at hRun
      split at hRun
      · rename_i r opened hOpen
        rcases ihRefused r hRun reserved with
          ⟨left, hLeft, hLeads⟩
        exact
          ⟨left, hLeft,
            ((Program.leads_refused hOpen reserved).trans
              (Moment.leads_dropAll _ _ _)).trans hLeads⟩
      · rename_i hinted opened hOpen
        split at hRun
        · cases hRun
        · rename_i inner next hBroken
          cases hRun
          rcases ih hBroken (⟨c, hinted⟩ :: reserved) with
            ⟨left, hLeft, hLeads⟩
          exact leads_unwound hOpen hLeft hLeads
  | apply f args b ih =>
      simp only [exec] at hRun
      split at hRun
      · cases hRun
      · rename_i k hCallee
        split at hRun
        · rename_i hArity
          split at hRun
          · cases hRun
          · rename_i calls next hBroken
            cases hRun
            rcases ih _ hBroken reserved with
              ⟨left, hLeft, hLeads⟩
            have hExit :=
              Moment.Leads.single
                ⟨next, [], left ++ reserved⟩ .exit
            exact
              ⟨left, hLeft,
                ((Program.leads_enter hCallee
                  (if_pos hArity) reserved).trans
                    hLeads).trans hExit⟩
        · cases hRun

end Breaking

namespace Moment

variable {κ : Type}

/- What is live is leased or reserved, if nothing is pending. -/
theorem Reached.live_eq
    {provides : UInt64 → Bool}
    {w : World κ}
    {reserved : List Lease}
    (hReached : Reached provides ⟨w, [], reserved⟩)
    (c : CollectorId) :
    w.heap.live c =
      w.heap.leased (Lease.bytesAt c) +
        Lease.sum (Lease.bytesAt c) reserved :=
  hReached.sound.balanced.live c

/-
  Nothing is there, and the limit allows for one item.  The
  source of a list announces one and breaks off.  Still
  nothing is there, but all the bytes are live, and there is
  no room for a single one.
-/
theorem reservation_outlives_its_call :
    ∃ (behaves : Behaves Unit) (w w' : World Unit),
      (fresh (fun _ => true)).run
          [.act (.newCollector ⟨⟨some 32⟩⟩)] =
        ⟨w, [], []⟩ ∧
        (Breaking.array 1 .list 1 [] .raise
            (fun _ => .raise)).exec
            (World.applyWithin behaves 0) w =
          some ([⟨1, 32, 1⟩], w') ∧
        (w.heap.live 1 = 0 ∧ w'.heap.live 1 = 32) ∧
        (w.heap.objects.slots = #[] ∧
          w'.heap.objects.slots = #[]) ∧
        w'.heap.live 1 + w.heap.leased (Lease.bytesAt 1) ≠
          w.heap.live 1 + w'.heap.leased (Lease.bytesAt 1) ∧
        (w.allocate 1 32).1 = .ok ⟨0⟩ ∧
        (w'.allocate 1 1).1 =
          .error ⟨1, 32, ⟨some 32⟩⟩ :=
  ⟨fun _ _ => .done (.error (.raised "")), _, _, rfl, rfl,
    ⟨rfl, rfl⟩, ⟨rfl, rfl⟩, by decide, rfl, rfl⟩

/-
  When a program has broken off, live bytes have changed by
  what was leased and returned, and by all that its calls
  had announced.  That is not given back by whatever runs
  later, and no lease can be made of it.
-/
theorem broken_calls_stay_reserved
    {behaves : Behaves κ}
    {depth : Nat}
    {provides : UInt64 → Bool}
    {moves : List (Move κ)}
    {w w' : World κ}
    {reserved : List Lease}
    {b : Breaking κ}
    {calls : List Unwound}
    (hRun :
      (fresh provides).run moves = ⟨w, [], reserved⟩)
    (hBroken :
      b.exec (World.applyWithin behaves depth) w =
        some (calls, w'))
    (c : CollectorId) :
    w.heap.live c =
        w.heap.leased (Lease.bytesAt c) +
          Lease.sum (Lease.bytesAt c) reserved ∧
      w'.heap.live c + w.heap.leased (Lease.bytesAt c) =
        w.heap.live c + w'.heap.leased (Lease.bytesAt c) +
          Unwound.bytesAt c calls ∧
      (w'.heap.live c + w.heap.leased (Lease.bytesAt c) =
          w.heap.live c +
            w'.heap.leased (Lease.bytesAt c) ↔
        ∀ k ∈ calls, k.collector = c → k.bytes = 0) ∧
      ∀ {α : Type} (later : Nat) (p : Program κ α) a w'',
        World.run behaves later p w' = some (a, w'') →
        w''.heap.live c =
            w''.heap.leased (Lease.bytesAt c) +
              Unwound.bytesAt c calls +
              Lease.sum (Lease.bytesAt c) reserved ∧
          (w''.heap.terms c).limit.Allows
            (w''.heap.leased (Lease.bytesAt c) +
              Unwound.bytesAt c calls) := by
  have hReached : Reached provides ⟨w, [], reserved⟩ :=
    ⟨moves, hRun⟩
  rcases Breaking.leads
      (byMoves_applyWithin behaves depth) hBroken reserved
    with ⟨left, hLeft, hLeads⟩
  have hBefore := hReached.live_eq c
  have hAfter := (hReached.leads hLeads).live_eq c
  rw [Lease.sum_append, hLeft] at hAfter
  refine ⟨hBefore, by omega, ?_, ?_⟩
  · rw [← Unwound.bytesAt_eq_zero_iff]
    omega
  · intro α later p a w'' hLater
    have hReached'' :=
      (hReached.leads hLeads).leads (leads_run hLater)
    have hLive := hReached''.live_eq c
    rw [Lease.sum_append, hLeft] at hLive
    refine ⟨by omega, ?_⟩
    have hAllows :
        (w''.heap.terms c).limit.Allows (w''.heap.live c) :=
      Limit.allows_toNat.mpr (hReached''.admits c)
    exact hAllows.of_le (by omega)

/-
  A list announces two items and gives an empty list.  Then
  its source makes a list that announces one item, and breaks
  off.  The bytes of three items are live and not leased.
-/
theorem broken_calls_stay_reserved_nested :
    ∃ (behaves : Behaves Unit) (w w' : World Unit),
      (fresh (fun _ => true)).run
          [.act (.newCollector ⟨⟨some 100⟩⟩)] =
        ⟨w, [], []⟩ ∧
        (Breaking.array 1 .list 2 []
            (.after (.makeArray 1 .list 0 [] (.done []))
              (fun _ =>
                .holding [⟨0⟩]
                  (.array 1 .list 1 [] .raise
                    (fun _ => .raise))))
            (fun _ => .raise)).exec
            (World.applyWithin behaves 0) w =
          some ([⟨1, 32, 1⟩, ⟨1, 32, 2⟩], w') ∧
        w'.heap.live 1 =
          w'.heap.leased (Lease.bytesAt 1) + 96 := by
  refine
    ⟨fun _ _ => .done (.error (.raised "")), ?_, ?_, ?hRun,
      ?hBroken, ?hStay⟩
  case hStay =>
    rcases broken_calls_stay_reserved ?hRun ?hBroken 1 with
      ⟨_, _, _, hStay⟩
    exact (hStay 0 (.done ()) () _ rfl).1
  case hRun => exact rfl
  case hBroken => exact rfl

end Moment

end LeasedHeap

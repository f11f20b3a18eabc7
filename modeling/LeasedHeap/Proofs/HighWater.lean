import LeasedHeap.Proofs.Interleaving

/-
  When the peak is a high-water mark.

  A call that comes to a lease first sees its bytes live and
  then raises the peak to what it saw, so bytes that were
  leased stay below the peak or below what some call is about
  to raise it to.  Only a reset can spoil this: it stores
  what it loaded, and more may be live by then.  If no reset
  stores less than is live, the peak is never below the live
  bytes when no call is running.

  Main declarations:
    * `Stage` and `Steps.Stages`
    * `Call.stages_steps`
    * `Pool.Marked` and `Pool.Marked.step`
    * `Pool.current`
    * `Pool.live_le_peak_of_current`
-/

namespace LeasedHeap

------------------------------------------------------------
-- Stages of Calls
------------------------------------------------------------

/-
  How far a call has come with the bytes that it owes: they
  are a reservation, or it is about to raise the peak to some
  live bytes seen with them, or they are below the peak.
-/
inductive Stage where
| reserved : Stage
| raising : UInt64 → Stage
| leased : Stage

namespace Stage

/-
  An operation takes a call from stage to stage.  Bytes that
  are to be leased are seen live first, and a call that has
  raised the peak owes nothing more after that.
-/
inductive Leads
    (c : Counters)
    (op : Atomic) : Stage → Stage → Prop where
| reserve : Leads c op .reserved .reserved
| see {seen : UInt64} :
    (c.act op).2.live ≤ seen →
    Leads c op .reserved (.raising seen)
| raise {seen : UInt64} :
    op = .raisePeak seen → Leads c op (.raising seen) .leased
| settle :
    op.counted (c.act op).1 ≤ 0 → Leads c op .leased .leased

end Stage

namespace Steps

variable {α β : Type}

/-
  Whatever the counters are when its operations come to pass,
  a call goes from stage to stage, and it ends in a stage
  that suits its result.
-/
def Stages
    (final : α → Stage → Prop) : Stage → Steps α → Prop
| stage, .done a => final a stage
| stage, .note _ rest => Stages final stage rest
| stage, .act op rest =>
    ∀ c : Counters, ∃ next,
      stage.Leads c op next ∧
        Stages final next (rest (c.act op).1)

theorem Stages.bind
    {first : α → Stage → Prop}
    {final : β → Stage → Prop}
    {stage : Stage}
    {s : Steps α}
    {f : α → Steps β}
    (hFirst : s.Stages first stage)
    (hRest :
      ∀ a next, first a next → (f a).Stages final next) :
    (s.bind f).Stages final stage := by
  induction s generalizing stage with
  | done a => exact hRest a stage hFirst
  | note n rest ih => exact ih hFirst
  | act op rest ih =>
      intro c
      rcases hFirst c with ⟨next, hLeads, hNext⟩
      exact ⟨next, hLeads, ih _ hNext⟩

/- A lease raises the peak to what was seen. -/
theorem stages_lease
    (bytes live : UInt64) :
    (lease bytes live).Stages (fun _ s => s = .leased)
      (.raising live) :=
  fun _ =>
    ⟨.leased, .raise rfl, fun _ =>
      ⟨.leased, .settle (Int.le_refl 0), fun _ =>
        ⟨.leased, .settle (Int.le_refl 0), rfl⟩⟩⟩

/- The return of a lease counts nothing as live. -/
theorem stages_release
    (bytes : UInt64) :
    (release bytes).Stages (fun _ s => s = .leased)
      .leased := by
  intro c
  refine ⟨.leased, .settle ?_, fun _ => ?_⟩
  · exact Int.neg_nonpos_of_nonneg (Int.natCast_nonneg _)
  · exact
      ⟨.leased, .settle (Int.le_refl 0), fun _ =>
        ⟨.leased, .settle (Int.le_refl 0), rfl⟩⟩

theorem stages_resetPeak :
    resetPeak.Stages (fun _ s => s = .reserved) .reserved :=
  fun _ =>
    ⟨.reserved, .reserve, fun _ =>
      ⟨.reserved, .reserve, rfl⟩⟩

/- A reservation can be given back. -/
theorem stages_unreserve
    (bytes : UInt64) :
    (unreserve bytes).Stages (fun _ s => s = .reserved)
      .reserved :=
  fun _ => ⟨.reserved, .reserve, rfl⟩

end Steps

namespace Terms

variable (t : Terms)

open Steps

theorem stages_refuse
    (requested : UInt64) :
    (t.refuse requested).Stages (fun _ s => s = .reserved)
      .reserved :=
  fun _ => ⟨.reserved, .reserve, rfl⟩

/- A reservation is no more than that. -/
theorem stages_reserve
    (bytes : UInt64) :
    (t.reserve bytes).Stages (fun _ s => s = .reserved)
      .reserved := by
  intro c
  refine ⟨.reserved, .reserve, ?_⟩
  cases (c.act (.addWithin t.limit bytes)).1 with
  | some before => rfl
  | none =>
      refine (t.stages_refuse bytes).bind ?_
      exact fun _ _ hStage => hStage

/- What a granted reservation answers is seen live. -/
theorem stages_reserve_seen
    (bytes : UInt64) :
    (t.reserve bytes).Stages
      (fun r s =>
        match r with
        | .ok live => s = .raising live
        | .error _ => s = .reserved)
      .reserved := by
  intro c
  simp only [Counters.act]
  cases hAdd : Word.add? c.live bytes with
  | none =>
      refine ⟨.reserved, .reserve, ?_⟩
      refine (t.stages_refuse bytes).bind ?_
      exact fun _ _ hStage => hStage
  | some next =>
      by_cases hAdmits : t.limit.admits next
      · simp only [hAdmits, if_true]
        refine ⟨.raising next, .see ?_, ?_⟩
        · simp [Counters.act, hAdd, hAdmits]
        · change Stage.raising next =
            .raising (Word.satAdd c.live bytes)
          rw [Word.satAdd, hAdd]
          rfl
      · simp only [hAdmits]
        refine ⟨.reserved, .reserve, ?_⟩
        refine (t.stages_refuse bytes).bind ?_
        exact fun _ _ hStage => hStage

theorem stages_allocate
    (size : UInt64) :
    (t.allocate size).Stages
      (fun r s =>
        match r with
        | .ok _ => s = .leased
        | .error _ => s = .reserved)
      .reserved := by
  unfold allocate
  by_cases hGrants : t.grants size
  · simp only [hGrants, if_true]
    refine (t.stages_reserve_seen size).bind ?_
    rintro (r | live) s hSeen
    · exact hSeen
    · subst hSeen
      refine (stages_lease size live).bind ?_
      exact fun _ _ hStage => hStage
  · simp only [hGrants]
    refine (t.stages_reserve size).bind ?_
    rintro (r | live) s rfl
    · rfl
    · refine (stages_unreserve size).bind ?_
      rintro _ _ rfl
      refine (t.stages_refuse size).bind ?_
      exact fun _ _ hStage => hStage

theorem stages_openArray
    (width hint : UInt64) :
    (t.openArray width hint).Stages
      (fun _ s => s = .reserved) .reserved := by
  unfold openArray
  cases Word.mul? hint width with
  | none =>
      refine (t.stages_refuse _).bind ?_
      exact fun _ _ hStage => hStage
  | some hinted =>
      refine (t.stages_reserve hinted).bind ?_
      rintro (r | live) s rfl
      · rfl
      · simp only
        split
        · rfl
        · refine (stages_unreserve hinted).bind ?_
          rintro _ _ rfl
          refine (t.stages_refuse hinted).bind ?_
          exact fun _ _ hStage => hStage

/-
  An array call sees its lease live in its last reservation,
  or when it has given the excess back.
-/
theorem stages_closeArray
    (width hinted : UInt64)
    (count : Nat) :
    (t.closeArray width hinted count).Stages
      (fun r s =>
        match r with
        | .ok _ => s = .leased
        | .error _ => s = .reserved)
      .reserved := by
  unfold closeArray
  cases Word.ofNat? (count * width.toNat) with
  | none =>
      refine (stages_unreserve hinted).bind ?_
      rintro _ _ rfl
      refine (t.stages_refuse _).bind ?_
      exact fun _ _ hStage => hStage
  | some size =>
      simp only
      split
      · refine (t.stages_reserve_seen _).bind ?_
        rintro (r | live) s hSeen
        · subst hSeen
          refine (stages_unreserve hinted).bind ?_
          rintro _ _ rfl
          refine (t.stages_refuse size).bind ?_
          exact fun _ _ hStage => hStage
        · subst hSeen
          refine (stages_lease size live).bind ?_
          exact fun _ _ hStage => hStage
      · refine (stages_unreserve _).bind ?_
        rintro _ _ rfl
        intro c
        refine ⟨.raising c.live, .see (UInt64.le_refl _), ?_⟩
        refine (stages_lease size c.live).bind ?_
        exact fun _ _ hStage => hStage

end Terms

namespace Call

/- A call that returns a lease has long raised the peak. -/
def stage (leases : List UInt64) (call : Call) : Stage :=
  match call.returned? leases with
  | some _ => .leased
  | none => .reserved

/- The stages in which a call can end with some result. -/
def Ends (r : CallResult) (stage : Stage) : Prop :=
  match r with
  | .leased _ => stage = .leased
  | _ => ∀ seen, stage ≠ .raising seen

/- Every call that comes to a lease has raised the peak. -/
theorem stages_steps
    (t : Terms)
    (leases : List UInt64)
    (call : Call) :
    (call.steps t leases).Stages Ends (call.stage leases) := by
  cases call with
  | allocate size =>
      refine (t.stages_allocate size).bind ?_
      rintro (r | _) s rfl
      · exact fun _ hStage => Stage.noConfusion hStage
      · rfl
  | array width hint count =>
      refine (t.stages_openArray width hint).bind ?_
      rintro (r | hinted) s rfl
      · exact fun _ hStage => Stage.noConfusion hStage
      · refine (t.stages_closeArray width hinted count).bind ?_
        rintro (r | size) s rfl
        · exact fun _ hStage => Stage.noConfusion hStage
        · rfl
  | drop k =>
      simp only [steps, stage, returned?]
      cases leases[k]? with
      | none => exact fun _ hStage => Stage.noConfusion hStage
      | some bytes =>
          refine (Steps.stages_release bytes).bind ?_
          rintro _ _ rfl
          exact fun _ hStage => Stage.noConfusion hStage
  | resetPeak =>
      refine Steps.stages_resetPeak.bind ?_
      rintro _ _ rfl
      exact fun _ hStage => Stage.noConfusion hStage

end Call

------------------------------------------------------------
-- Stages of Threads
------------------------------------------------------------

namespace Counters

/- Only what stores a peak can lower it. -/
theorem peak_le_act
    (c : Counters)
    {op : Atomic}
    (hOp : ∀ n, op ≠ .storePeak n) :
    c.peak ≤ (c.act op).2.peak := by
  cases op with
  | addWithin limit n =>
      simp only [act]
      split
      · exact UInt64.le_refl _
      · split <;> exact UInt64.le_refl _
  | raisePeak n =>
      rw [UInt64.le_iff_toNat_le]
      simp only [act, Word.toNat_max]
      exact Nat.le_max_left _ _
  | storePeak n => exact absurd rfl (hOp n)
  | giveBack n => exact UInt64.le_refl _
  | loadLive => exact UInt64.le_refl _
  | countAllocation => exact UInt64.le_refl _
  | countRelease => exact UInt64.le_refl _
  | addAllocated n => exact UInt64.le_refl _
  | addReclaimed n => exact UInt64.le_refl _

end Counters

namespace Worker

/- The peak that a thread stores in its turn. -/
def storing? (th : Worker) : Option UInt64 :=
  match th.running with
  | some (.act (.storePeak n) _) => some n
  | _ => none

/- The bytes that a thread has counted as live. -/
def counted (th : Worker) : Nat :=
  th.owed.toNat + th.held

/- The bytes of a thread that a mark has to cover. -/
def covered (th : Worker) : Stage → Nat
| .reserved => th.held
| .raising _ => th.counted
| .leased => th.counted

/- The call of a thread is in a stage, or there is no call. -/
def Staged
    (th : Worker)
    (stage : Stage) : Prop :=
  match th.running with
  | none => stage = .reserved ∧ th.owed = 0
  | some s => s.Stages Call.Ends stage

theorem held_le_covered
    (th : Worker)
    (stage : Stage) :
    th.held ≤ th.covered stage := by
  cases stage with
  | reserved => exact Nat.le_refl _
  | raising seen => exact Nat.le_add_left _ _
  | leased => exact Nat.le_add_left _ _

theorem covered_le_counted
    (th : Worker)
    (stage : Stage) :
    th.covered stage ≤ th.counted := by
  cases stage with
  | reserved => exact Nat.le_add_left _ _
  | raising seen => exact Nat.le_refl _
  | leased => exact Nat.le_refl _

end Worker

------------------------------------------------------------
-- Marks
------------------------------------------------------------

namespace Pool

/- No thread is about to store less than is live now. -/
def storesCurrent
    (p : Pool)
    (i : Nat) : Bool :=
  match p.workers[i]?.bind Worker.storing? with
  | some n => decide (p.counters.live ≤ n)
  | none => true

/-
  Whenever a peak is stored in a schedule, no more is live
  than was loaded for it.
-/
def current (p : Pool) : List Nat → Bool
| [] => true
| i :: schedule =>
    p.storesCurrent i && (p.step i).current schedule

/-
  Every thread is in a stage, and some mark covers what was
  leased: the peak, or what a call is about to raise it to.
-/
structure Marked
    (p : Pool)
    (ws : List (Worker × Stage)) : Prop where
  workers : p.workers = ws.map Prod.fst
  staged : ∀ x ∈ ws, x.1.Staged x.2
  covered :
    ∃ mark : UInt64,
      (mark = p.counters.peak ∨
        ∃ x ∈ ws, x.2 = .raising mark) ∧
      (ws.map (fun x => x.1.covered x.2)).sum ≤ mark.toNat

variable {p : Pool}
variable {ws : List (Worker × Stage)}
variable {returned : List UInt64}

/- At the start nothing is live. -/
theorem marked_ofCalls
    (t : Terms)
    (calls : List (List Call)) :
    (ofCalls t calls).Marked
      (calls.map
        (fun cs => (Worker.ofCalls cs, .reserved))) := by
  refine ⟨?_, ?_, 0, Or.inl rfl, ?_⟩
  · simp [ofCalls]
  · intro x hx
    rcases List.mem_map.mp hx with ⟨cs, _, rfl⟩
    exact ⟨rfl, rfl⟩
  · rw [List.map_map]
    refine Nat.le_of_eq (List.sum_eq_zero ?_)
    intro n hn
    rcases List.mem_map.mp hn with ⟨cs, _, rfl⟩
    rfl

/- The accounts of a sound pool tell what has been counted. -/
private theorem Sound.sum_counted
    (hSound : p.Sound returned) :
    (p.workers.map Worker.counted).sum =
      p.counters.live.toNat :=
  hSound.live.symm

/- What a thread has counted changes with the live bytes. -/
private theorem counted_add_live
    {i : Nat}
    {th th' : Worker}
    {c' : Counters}
    {returned' : List UInt64}
    (hi : p.workers[i]? = some th)
    (hSound : p.Sound returned)
    (hNext :
      ({ p with
          counters := c'
          workers := p.workers.set i th' }).Sound
        returned') :
    th'.counted + p.counters.live.toNat =
      th.counted + c'.live.toNat := by
  have hSet := sum_map_set Worker.counted hi th'
  have hBefore := hSound.sum_counted
  have hAfter := hNext.sum_counted
  simp only at hAfter
  omega

/-
  A turn that counts nothing new as leased keeps a mark, if
  the peak stays and what the thread was about to raise it to
  is not forgotten.
-/
private theorem Marked.turn
    (hMarked : p.Marked ws)
    {i : Nat}
    {th th' : Worker}
    {stage next : Stage}
    {c' : Counters}
    (hi : ws[i]? = some (th, stage))
    (hStaged : th'.Staged next)
    (hCovered : th'.covered next ≤ th.covered stage)
    (hPeak : p.counters.peak ≤ c'.peak)
    (hMark :
      ∀ mark, stage = .raising mark →
        mark ≤ c'.peak ∨ next = .raising mark) :
    ({ p with
        counters := c'
        workers := p.workers.set i th' }).Marked
      (ws.set i (th', next)) := by
  have hSet :=
    sum_map_set (fun x : Worker × Stage => x.1.covered x.2)
      hi (th', next)
  simp only at hSet
  refine ⟨?_, ?_, ?_⟩
  · rw [List.map_set, hMarked.workers]
  · intro x hx
    rcases List.mem_or_eq_of_mem_set hx with hOld | rfl
    · exact hMarked.staged x hOld
    · exact hStaged
  · rcases hMarked.covered with ⟨mark, hWhere, hSum⟩
    have hBelow :
        mark ≤ c'.peak →
          ((ws.set i (th', next)).map
              (fun x => x.1.covered x.2)).sum ≤
            c'.peak.toNat := by
      intro hLe
      rw [UInt64.le_iff_toNat_le] at hLe
      omega
    rcases hWhere with rfl | ⟨x, hx, hRaising⟩
    · exact ⟨c'.peak, Or.inl rfl, hBelow hPeak⟩
    · rcases List.getElem_of_mem hx with ⟨j, hj, hAt⟩
      by_cases hij : i = j
      · subst hij
        have hSame : x = (th, stage) := by
          rw [List.getElem?_eq_getElem hj, hAt] at hi
          exact Option.some.inj hi
        subst hSame
        rcases hMark mark hRaising with hLe | hNext
        · exact ⟨c'.peak, Or.inl rfl, hBelow hLe⟩
        · refine ⟨mark, Or.inr ⟨(th', next), ?_, hNext⟩, ?_⟩
          · rw [List.mem_iff_getElem?]
            exact ⟨i, List.getElem?_set_self hj⟩
          · omega
      · refine ⟨mark, Or.inr ⟨x, ?_, hRaising⟩, ?_⟩
        · rw [List.mem_iff_getElem?]
          refine ⟨j, ?_⟩
          rw [List.getElem?_set_ne hij,
            List.getElem?_eq_getElem hj, hAt]
        · omega

/- A mark that is above the live bytes covers everything. -/
private theorem Marked.of_live
    (hMarked : p.Marked ws)
    {i : Nat}
    {th th' : Worker}
    {stage next : Stage}
    {c' : Counters}
    {returned' : List UInt64}
    (hi : ws[i]? = some (th, stage))
    (hStaged : th'.Staged next)
    (hNext :
      ({ p with
          counters := c'
          workers := p.workers.set i th' }).Sound returned')
    {mark : UInt64}
    (hLive : c'.live ≤ mark)
    (hMark : mark = c'.peak ∨ next = .raising mark) :
    ({ p with
        counters := c'
        workers := p.workers.set i th' }).Marked
      (ws.set i (th', next)) := by
  have hLt : i < ws.length :=
    (List.getElem?_eq_some_iff.mp hi).1
  have hWorkers :
      p.workers.set i th' =
        (ws.set i (th', next)).map Prod.fst := by
    rw [List.map_set, hMarked.workers]
  refine ⟨hWorkers, ?_, mark, ?_, ?_⟩
  · intro x hx
    rcases List.mem_or_eq_of_mem_set hx with hOld | rfl
    · exact hMarked.staged x hOld
    · exact hStaged
  · refine hMark.imp_right (fun hRaising => ?_)
    refine ⟨(th', next), ?_, hRaising⟩
    rw [List.mem_iff_getElem?]
    exact ⟨i, List.getElem?_set_self hLt⟩
  · have hSum := hNext.sum_counted
    simp only [hWorkers, List.map_map] at hSum
    have hLe :
        ((ws.set i (th', next)).map
            (fun x => x.1.covered x.2)).sum ≤
          ((ws.set i (th', next)).map
            (Worker.counted ∘ Prod.fst)).sum :=
      List.sum_le_sum
        (fun x _ => x.1.covered_le_counted x.2)
    rw [UInt64.le_iff_toNat_le] at hLive
    omega

/- A thread starts its next call. -/
private theorem Marked.start
    (hMarked : p.Marked ws)
    (hSound : p.Sound returned)
    {i : Nat}
    {th : Worker}
    {stage : Stage}
    {returned' : List UInt64}
    (hi : ws[i]? = some (th, stage))
    (hThread : p.workers[i]? = some th)
    (hIdle : th.running = none)
    (hNext :
      ({ p with
          workers := p.workers.set i (th.start p.terms) }).Sound
        returned') :
    ∃ ws',
      ({ p with
          workers :=
            p.workers.set i (th.start p.terms) }).Marked
        ws' := by
  have hStaged := hMarked.staged _ (List.mem_of_getElem? hi)
  unfold Worker.Staged at hStaged
  rw [hIdle] at hStaged
  rcases hStaged with ⟨rfl, hOwed⟩
  have hSame := counted_add_live hThread hSound hNext
  have hHeld : th.counted = th.held := by
    rw [Worker.counted, hOwed]
    exact Nat.zero_add _
  cases hCalls : th.calls with
  | nil =>
      have hStart : th.start p.terms = th := by
        simp [Worker.start, hCalls]
      have hSettled : th.Staged .reserved := by
        unfold Worker.Staged
        rw [hIdle]
        exact ⟨rfl, hOwed⟩
      rw [hStart]
      exact
        ⟨_, hMarked.turn hi hSettled (Nat.le_refl _)
          (UInt64.le_refl _) (by simp)⟩
  | cons call calls =>
      have hStaged :
          (th.start p.terms).Staged (call.stage th.leases) := by
        simp only [Worker.Staged, Worker.start, hCalls]
        exact call.stages_steps p.terms th.leases
      refine
        ⟨_, hMarked.turn hi hStaged ?_ (UInt64.le_refl _)
          (by simp)⟩
      have hLe :=
        (th.start p.terms).covered_le_counted
          (call.stage th.leases)
      change _ ≤ th.held
      omega

/- A call ends with the lease that it came to. -/
private theorem Marked.finish
    (hMarked : p.Marked ws)
    (hSound : p.Sound returned)
    {i : Nat}
    {th : Worker}
    {stage : Stage}
    {r : CallResult}
    {returned' : List UInt64}
    (hi : ws[i]? = some (th, stage))
    (hThread : p.workers[i]? = some th)
    (hDone : th.running = some (.done r))
    (hNext :
      ({ p with
          workers := p.workers.set i (th.finish r) }).Sound
        returned') :
    ∃ ws',
      ({ p with
          workers := p.workers.set i (th.finish r) }).Marked
        ws' := by
  have hStaged := hMarked.staged _ (List.mem_of_getElem? hi)
  unfold Worker.Staged at hStaged
  rw [hDone] at hStaged
  have hSame := counted_add_live hThread hSound hNext
  have hLe : (th.finish r).held ≤ th.covered stage := by
    cases r with
    | leased bytes =>
        have hLeased : stage = .leased := hStaged
        subst hLeased
        have hHeld : (th.finish (.leased bytes)).counted =
            (th.finish (.leased bytes)).held :=
          Nat.zero_add _
        change _ ≤ th.counted
        omega
    | refused refusal => exact th.held_le_covered stage
    | settled => exact th.held_le_covered stage
  have hSettled : (th.finish r).Staged .reserved :=
    ⟨rfl, rfl⟩
  refine
    ⟨_, hMarked.turn hi hSettled hLe (UInt64.le_refl _) ?_⟩
  rintro mark rfl
  cases r with
  | leased bytes => cases hStaged
  | refused refusal => exact absurd rfl (hStaged mark)
  | settled => exact absurd rfl (hStaged mark)

/- A thread carries out an operation of its call. -/
private theorem Marked.act
    (hMarked : p.Marked ws)
    {i : Nat}
    {th : Worker}
    {stage : Stage}
    {op : Atomic}
    {rest : op.Reply → Steps CallResult}
    {returned' : List UInt64}
    (hi : ws[i]? = some (th, stage))
    (hNow : th.running = some (.act op rest))
    (hCurrent :
      ∀ n, op = .storePeak n → p.counters.live ≤ n)
    {th' : Worker}
    (hTurn :
      th' =
        { th with
          running := some (rest (p.counters.act op).1)
          owed :=
            th.owed + op.counted (p.counters.act op).1 })
    (hNext :
      ({ p with
          counters := (p.counters.act op).2
          workers := p.workers.set i th' }).Sound returned') :
    ∃ ws',
      ({ p with
          counters := (p.counters.act op).2
          workers := p.workers.set i th' }).Marked ws' := by
  have hStaged := hMarked.staged _ (List.mem_of_getElem? hi)
  unfold Worker.Staged at hStaged
  rw [hNow] at hStaged
  rcases hStaged p.counters with ⟨next, hLeads, hRest⟩
  have hStaged' : th'.Staged next := by
    rw [hTurn]
    exact hRest
  have hHeld : th'.held = th.held := by
    rw [hTurn]
    rfl
  by_cases hStore : ∃ n, op = .storePeak n
  · rcases hStore with ⟨n, rfl⟩
    exact
      ⟨_, hMarked.of_live hi hStaged' hNext
        (hCurrent n rfl) (Or.inl rfl)⟩
  have hPeak :=
    p.counters.peak_le_act
      (fun n hOp => hStore ⟨n, hOp⟩)
  cases hLeads with
  | reserve =>
      exact
        ⟨_, hMarked.turn hi hStaged' (Nat.le_of_eq hHeld)
          hPeak (by simp)⟩
  | see hSeen =>
      exact
        ⟨_, hMarked.of_live hi hStaged' hNext hSeen
          (Or.inr rfl)⟩
  | @raise seen hOp =>
      subst hOp
      refine ⟨_, hMarked.turn hi hStaged' ?_ hPeak ?_⟩
      · subst hTurn
        exact Nat.le_of_eq (by simp [Worker.covered,
          Worker.counted, Worker.held, Atomic.counted])
      · rintro mark hMark
        cases hMark
        left
        rw [UInt64.le_iff_toNat_le]
        simp only [Counters.act, Word.toNat_max]
        exact Nat.le_max_right _ _
  | settle hCounted =>
      refine ⟨_, hMarked.turn hi hStaged' ?_ hPeak (by simp)⟩
      have hOwed : th'.owed.toNat ≤ th.owed.toNat := by
        subst hTurn
        simp only
        omega
      simp only [Worker.covered, Worker.counted, hHeld]
      omega

/- Every turn of every thread leaves a mark. -/
theorem Marked.step
    (hMarked : p.Marked ws)
    (hSound : p.Sound returned)
    {i : Nat}
    {returned' : List UInt64}
    (hNext : (p.step i).Sound returned')
    (hCurrent : p.storesCurrent i = true) :
    ∃ ws', (p.step i).Marked ws' := by
  cases hi : ws[i]? with
  | none =>
      have hNone : p.workers[i]? = none := by
        rw [hMarked.workers, List.getElem?_map, hi]
        rfl
      refine ⟨ws, ?_⟩
      simpa [Pool.step, hNone] using hMarked
  | some x =>
      rcases x with ⟨th, stage⟩
      have hThread : p.workers[i]? = some th := by
        rw [hMarked.workers, List.getElem?_map, hi]
        rfl
      simp only [Pool.step, hThread] at hNext ⊢
      cases hRunning : th.running with
      | none =>
          simp only [Worker.step, hRunning] at hNext ⊢
          exact hMarked.start hSound hi hThread hRunning hNext
      | some s =>
          cases s with
          | done r =>
              simp only [Worker.step, hRunning] at hNext ⊢
              exact
                hMarked.finish hSound hi hThread hRunning
                  hNext
          | note n rest =>
              simp only [Worker.step, hRunning] at hNext ⊢
              have hStaged :=
                hMarked.staged _ (List.mem_of_getElem? hi)
              unfold Worker.Staged at hStaged
              rw [hRunning] at hStaged
              have hCovered :
                  Worker.covered
                      { th with running := some rest } stage =
                    th.covered stage := by
                cases stage <;> rfl
              exact
                ⟨_, hMarked.turn hi hStaged
                  (Nat.le_of_eq hCovered) (UInt64.le_refl _)
                  (fun _ h => Or.inr h)⟩
          | act op rest =>
              simp only [Worker.step, hRunning] at hNext ⊢
              refine
                hMarked.act hi hRunning ?_ rfl hNext
              rintro n rfl
              simpa [storesCurrent, hThread,
                Worker.storing?, hRunning] using hCurrent

/-
  Every schedule that stores no outdated peak leaves a mark.
-/
theorem Marked.run
    {accounts : List (Worker × Account)}
    (hMarked : p.Marked ws)
    (hKept : p.Kept accounts returned)
    {schedule : List Nat}
    (hCurrent : p.current schedule = true) :
    ∃ ws', (p.run schedule).Marked ws' := by
  induction schedule generalizing p ws accounts returned with
  | nil => exact ⟨ws, hMarked⟩
  | cons i schedule ih =>
      rw [current, Bool.and_eq_true] at hCurrent
      rcases hKept.step i with ⟨accounts', hNext⟩
      rcases hMarked.step hKept.sound hNext.sound hCurrent.1
        with ⟨ws', hMarkedNext⟩
      exact ih hMarkedNext hNext hCurrent.2

/- When no call is running, the mark is the peak. -/
theorem Marked.live_le_peak
    (hMarked : p.Marked ws)
    (hSound : p.Sound returned)
    (hIdle : p.isIdle) :
    p.counters.live ≤ p.counters.peak := by
  have hStage :
      ∀ x ∈ ws,
        x.2 = .reserved ∧ x.1.covered x.2 = x.1.counted := by
    intro x hx
    have hMem : x.1 ∈ p.workers := by
      rw [hMarked.workers]
      exact List.mem_map_of_mem hx
    have hNone : x.1.running = none := by
      have hAll := List.all_eq_true.mp hIdle x.1 hMem
      simpa [Worker.isIdle] using hAll
    have hStaged := hMarked.staged x hx
    unfold Worker.Staged at hStaged
    rw [hNone] at hStaged
    refine ⟨hStaged.1, ?_⟩
    rw [hStaged.1, Worker.counted, hStaged.2]
    exact (Nat.zero_add _).symm
  rcases hMarked.covered with ⟨mark, hWhere, hSum⟩
  have hMark : mark = p.counters.peak := by
    rcases hWhere with hPeak | ⟨x, hx, hRaising⟩
    · exact hPeak
    · rw [(hStage x hx).1] at hRaising
      cases hRaising
  have hLive := hSound.sum_counted
  rw [hMarked.workers, List.map_map] at hLive
  have hSame :
      ws.map (fun x => x.1.covered x.2) =
        ws.map (Worker.counted ∘ Prod.fst) :=
    List.map_congr_left (fun x hx => (hStage x hx).2)
  rw [UInt64.le_iff_toNat_le, ← hMark, ← hLive, ← hSame]
  exact hSum

/-
  A thread can load the live bytes for a reset, lose its turn
  to a whole allocation, and then store what it loaded: no
  call is running, a byte is live, and the peak is zero.
-/
theorem peak_lost_by_reset :
    ¬ ∀ (t : Terms)
        (calls : List (List Call))
        (schedule : List Nat),
      ((ofCalls t calls).run schedule).isIdle →
        ((ofCalls t calls).run schedule).counters.live ≤
          ((ofCalls t calls).run schedule).counters.peak := by
  intro hKept
  have hLost :=
    hKept ⟨.unlimited, fun _ => true⟩
      [[.resetPeak], [.allocate 1]]
      [0, 0, 1, 1, 1, 1, 1, 1, 1, 0, 0]
  revert hLost
  decide

/-
  However threads take turns, if no reset stores less than is
  live when it stores, then the peak is not below the live
  bytes whenever no call is running.
-/
theorem live_le_peak_of_current
    (t : Terms)
    (calls : List (List Call))
    (schedule : List Nat)
    (hCurrent : (ofCalls t calls).current schedule = true)
    (hIdle : ((ofCalls t calls).run schedule).isIdle) :
    ((ofCalls t calls).run schedule).counters.live ≤
      ((ofCalls t calls).run schedule).counters.peak := by
  rcases (marked_ofCalls t calls).run (kept_ofCalls t calls)
      hCurrent with
    ⟨ws, hMarked⟩
  exact
    hMarked.live_le_peak (sound_of_schedule t calls schedule)
      hIdle

/-
  A reset whose store comes between the reservation of
  another thread and its lease spoils nothing: the lease still
  raises the peak.
-/
theorem live_le_peak_of_current_interleaved :
    let p : Pool :=
      ofCalls ⟨.unlimited, fun _ => true⟩
        [[.resetPeak], [.allocate 1]]
    let schedule := [1, 1, 0, 0, 0, 0, 1, 1, 1, 1, 1]
    (p.current schedule = true ∧
        (p.run schedule).isIdle) ∧
      (p.run schedule).counters.live ≤
        (p.run schedule).counters.peak :=
  ⟨by decide,
    live_le_peak_of_current ⟨.unlimited, fun _ => true⟩
      [[.resetPeak], [.allocate 1]]
      [1, 1, 0, 0, 0, 0, 1, 1, 1, 1, 1] (by decide)
      (by decide)⟩

end Pool

end LeasedHeap

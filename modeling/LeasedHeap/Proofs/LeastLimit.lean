import LeasedHeap.Proofs.Deeds

/-
  The peak is the least limit that is enough.

  Deeds are done one after another on a new collector without
  a limit, and none of them is refused.  Then the collector's
  peak tells under which limits the same deeds can be done:
  under all from the peak on they are, in the same way, and
  under every lower one the first of them that goes beyond it
  is refused.

  Key definitions include:
    * `World.Agrees`
    * `Deed.runAll`
    * `Deed.FairAll`
    * `Deed.Climbs`

  Main declarations:
    * `Deed.climbs_of_runAll`
    * `Deed.Climbs.same`
    * `Deed.Climbs.exists_refused`
    * `Deed.peak_is_least_limit`
-/

namespace LeasedHeap

------------------------------------------------------------
-- Worlds that Differ in Limits
------------------------------------------------------------

namespace World

variable {κ : Type}
variable {w w' : World κ}

/-
  The same counters, the same trace, the same objects and the
  same handles.
-/
structure Agrees (w w' : World κ) : Prop where
  counters :
    ∀ c, w'.heap.counters c = w.heap.counters c
  log : w'.heap.log = w.heap.log
  objects : w'.heap.objects = w.heap.objects
  held : w'.held = w.held

/- A limit is all that a limited world differs in. -/
theorem agrees_limited
    (w : World κ)
    (c : CollectorId)
    (bound : UInt64) :
    w.Agrees (w.limited c bound) :=
  ⟨fun d => Heap.counters_limited w.heap c d bound,
    rfl, rfl, rfl⟩

/- A new collector has no limit if it was given none. -/
theorem unlimited_newCollector
    (w : World κ) :
    (w.newCollector .standard).2.Unlimited
      w.heap.collectors.size := by
  constructor
  · simp [newCollector, Heap.hasCollector]
  · simp [newCollector, Heap.collector,
      Collector.ofConfig]

/- Nothing was ever live in a new collector. -/
theorem peak_newCollector
    (w : World κ) :
    (w.newCollector .standard).2.peak
        w.heap.collectors.size =
      0 := by
  simp [newCollector, peak, Heap.counters, Heap.collector,
    Collector.ofConfig, Counters.zero]

end World

------------------------------------------------------------
-- Deeds in a Row
------------------------------------------------------------

namespace Deed

variable {κ : Type}
variable {applies : Applies κ}
variable {w w' : World κ}
variable {c : CollectorId}
variable {deeds : List (Deed κ)}
variable {rs : List Result}
variable {reserved : List Lease}

/- Do deeds one after another. -/
def runAll
    (applies : Applies κ) :
    List (Deed κ) → World κ →
      Option (List Result × World κ)
| [], w => some ([], w)
| d :: ds, w =>
    match d.program.exec applies w with
    | none => none
    | some (r, w) =>
        (runAll applies ds w).map
          (fun x => (r :: x.1, x.2))

/- Each deed is fair when its turn comes. -/
def FairAll
    (applies : Applies κ) :
    List (Deed κ) → World κ → Prop
| [], _ => True
| d :: ds, w =>
    d.Fair applies w ∧
      ∀ r w', d.program.exec applies w = some (r, w') →
        FairAll applies ds w'

/-
  Deeds that were done without a limit, each up to a high
  mark of its own.
-/
inductive Climbs
    (applies : Applies κ)
    (c : CollectorId) :
    World κ → List (Deed κ) → List Result → World κ →
      Prop where
| nil {w : World κ} :
    Climbs applies c w [] [] w
| cons
    {d : Deed κ} {ds : List (Deed κ)} {r : Result}
    {rs : List Result} {w w₁ w' : World κ} {high : UInt64} :
    d.program.exec applies w = some (r, w₁) →
      d.Scales applies w c r w₁ high →
        Climbs applies c w₁ ds rs w' →
          Climbs applies c w (d :: ds) (r :: rs) w'

/-
  In a sound world the marks exist: a deed is a sequence of
  moves, so it leaves the next one a sound world.
-/
theorem climbs_of_runAll
    (hApplies : Moment.Applies.ByMoves applies)
    (hSound : Moment.Sound ⟨w, [], reserved⟩)
    (hUnlimited : w.Unlimited c)
    (hFair : FairAll applies deeds w)
    (hRun : runAll applies deeds w = some (rs, w'))
    (hGranted : ∀ r ∈ rs, r.isRefused = false) :
    Climbs applies c w deeds rs w' := by
  induction deeds generalizing w rs with
  | nil =>
      cases hRun
      exact .nil
  | cons d ds ih =>
      cases hFirst : d.program.exec applies w with
      | none =>
          simp only [runAll, hFirst] at hRun
          cases hRun
      | some first =>
          rcases first with ⟨r, w₁⟩
          simp only [runAll, hFirst] at hRun
          rcases Option.map_eq_some_iff.mp hRun with
            ⟨⟨rest, w''⟩, hRest, hResult⟩
          cases hResult
          rcases exists_scales hSound.world hUnlimited
              hFair.1 hFirst
              (hGranted r List.mem_cons_self) with
            ⟨high, hScales⟩
          have hSoundNext : Moment.Sound ⟨w₁, [], reserved⟩ := by
            rcases Moment.leads_exec hApplies hFirst with
              ⟨moves, hMoves⟩
            rw [← hMoves]
            exact hSound.run moves
          refine .cons hFirst hScales ?_
          exact
            ih hSoundNext hScales.rises.unlimited
              (hFair.2 r w₁ hFirst) hRest
              (fun s hs =>
                hGranted s (List.mem_cons_of_mem r hs))

/- The peak is no lower than any mark, and never falls. -/
theorem Scales.max_le
    {d : Deed κ}
    {r : Result}
    {high bound : UInt64}
    (hScales : d.Scales applies w c r w' high) :
    w'.peak c ≤ bound ↔ w.peak c ≤ bound ∧ high ≤ bound := by
  rw [hScales.rises.peak]
  simp only [UInt64.le_iff_toNat_le, Word.toNat_max]
  exact Nat.max_le

theorem Climbs.peak_le
    (hClimbs : Climbs applies c w deeds rs w') :
    w.peak c ≤ w'.peak c := by
  induction hClimbs with
  | nil => exact UInt64.le_refl _
  | cons _ hScales _ ih => exact (hScales.max_le.mp ih).1

/-
  Under a limit from the peak on, all deeds are done, and
  after each of them the worlds differ in the limit only.
-/
theorem Climbs.same
    {bound : UInt64}
    (hClimbs : Climbs applies c w deeds rs w')
    (hBound : w'.peak c ≤ bound)
    (n : Nat) :
    ∃ w₁,
      runAll applies (deeds.take n) w =
          some (rs.take n, w₁) ∧
        runAll applies (deeds.take n) (w.limited c bound) =
          some (rs.take n, w₁.limited c bound) := by
  induction hClimbs generalizing n with
  | @nil w => exact ⟨w, by simp [runAll], by simp [runAll]⟩
  | @cons d ds r rs w w₁ w' high hRun hScales hRest ih =>
      cases n with
      | zero => exact ⟨w, rfl, rfl⟩
      | succ n =>
          rcases ih hBound n with ⟨w₂, hFree, hLimited⟩
          have hMark :=
            hScales.max_le.mp
              (UInt64.le_trans hRest.peak_le hBound)
          refine ⟨w₂, ?_, ?_⟩
          · simp [runAll, hRun, hFree]
          · simp [runAll, hScales.same bound hMark.2,
              hLimited]

/-
  Under a lower limit the first deeds are done as well, until
  one with a higher mark is refused.
-/
theorem Climbs.exists_refused
    {bound : UInt64}
    (hClimbs : Climbs applies c w deeds rs w')
    (hStart : w.peak c ≤ bound)
    (hBound : bound < w'.peak c) :
    ∃ n d rs₁ w₁ e w₂,
      deeds[n]? = some d ∧
        runAll applies (deeds.take n) (w.limited c bound) =
          some (rs₁, w₁) ∧
        d.program.exec applies w₁ =
          some (.made (.error e), w₂) := by
  induction hClimbs with
  | nil =>
      exact absurd hStart (UInt64.not_le.mpr hBound)
  | @cons d ds r rs w w₁ w' high hRun hScales hRest ih =>
      by_cases hMark : high ≤ bound
      · rcases ih (hScales.max_le.mpr ⟨hStart, hMark⟩)
            hBound with
          ⟨n, d', rs₁, w₂, e, w₃, hAt, hDone, hRefused⟩
        refine
          ⟨n + 1, d', r :: rs₁, w₂, e, w₃, hAt, ?_, hRefused⟩
        simp [runAll, hScales.same bound hMark, hDone]
      · rcases hScales.less bound (UInt64.not_le.mp hMark)
          with ⟨e, w₂, hRefused⟩
        exact
          ⟨0, d, [], w.limited c bound, e, w₂, rfl, rfl,
            hRefused⟩

/-
  Deeds on a new collector without a limit, none of which is
  refused.  Under every limit from the peak on, each of them
  comes to the same and leaves the same counters and the same
  trace; under every lower limit one of them is refused.
-/
theorem peak_is_least_limit
    (behaves : Behaves κ)
    (depth : Nat)
    (provides : UInt64 → Bool)
    {moves : List (Move κ)}
    (hReached :
      (Moment.fresh provides).run moves = ⟨w, [], reserved⟩)
    (hFair :
      FairAll (World.applyWithin behaves depth) deeds
        (w.newCollector .standard).2)
    (hRun :
      runAll (World.applyWithin behaves depth) deeds
          (w.newCollector .standard).2 =
        some (rs, w'))
    (hGranted : ∀ r ∈ rs, r.isRefused = false) :
    let applies := World.applyWithin behaves depth
    let c := (w.newCollector .standard).1
    (∀ bound, w'.peak c ≤ bound →
      ∀ n, ∃ w₁ w₂,
        runAll applies (deeds.take n)
            (w.newCollector .standard).2 =
          some (rs.take n, w₁) ∧
        runAll applies (deeds.take n)
            (w.newCollector ⟨⟨some bound⟩⟩).2 =
          some (rs.take n, w₂) ∧
        w₁.Agrees w₂) ∧
      ∀ bound, bound < w'.peak c →
        ∃ n d rs₁ w₁ e w₂,
          deeds[n]? = some d ∧
            runAll applies (deeds.take n)
                (w.newCollector ⟨⟨some bound⟩⟩).2 =
              some (rs₁, w₁) ∧
            d.program.exec applies w₁ =
              some (.made (.error e), w₂) := by
  have hSound : Moment.Sound ⟨w, [], reserved⟩ := by
    rw [← hReached]
    exact Moment.sound_run_fresh provides moves
  have hClimbs :=
    climbs_of_runAll
      (Moment.byMoves_applyWithin behaves depth)
      (hSound.newCollector .standard)
      w.unlimited_newCollector hFair hRun hGranted
  refine ⟨?_, ?_⟩
  · intro bound hBound n
    rcases hClimbs.same hBound n with
      ⟨w₁, hFree, hLimited⟩
    rw [World.limited_newCollector] at hLimited
    exact
      ⟨w₁, w₁.limited _ bound, hFree, hLimited,
        w₁.agrees_limited _ bound⟩
  · intro bound hBound
    have hStart :
        (w.newCollector .standard).2.peak
            w.heap.collectors.size ≤
          bound := by
      rw [World.peak_newCollector, UInt64.le_iff_toNat_le]
      exact Nat.zero_le _
    have hRefused := hClimbs.exists_refused hStart hBound
    rw [World.limited_newCollector] at hRefused
    exact hRefused

/-
  The block is gone when the longer list is made, so that
  160 bytes are live in the end.  With the block and the
  first list 164 bytes were live: so many are enough, and no
  fewer.
-/
theorem peak_is_least_limit_block :
    let behaves : Behaves Unit :=
      fun _ _ => .done (.error (.arityMismatch 0 0))
    let applies := World.applyWithin behaves 0
    let w : World Unit := .fresh (fun _ => true)
    let deeds : List (Deed Unit) :=
      [.array 1 .list 1 []
          (Program.ownAll [.integer 1, .integer 2]),
        .allocate 1 100,
        .drop ⟨3⟩,
        .clone (.value (.integer 3)),
        .pushed 1 (.list 0) ⟨4⟩]
    ∃ rs w',
      ((Moment.fresh (fun _ => true)).run [] =
            ⟨w, [], []⟩ ∧
          FairAll applies deeds
            (w.newCollector .standard).2 ∧
          runAll applies deeds
              (w.newCollector .standard).2 =
            some (rs, w') ∧
          ∀ r ∈ rs, r.isRefused = false) ∧
        w'.peak 1 = 164 ∧
        (∃ w₁ w₂,
          runAll applies (deeds.take 5)
              (w.newCollector .standard).2 =
            some (rs.take 5, w₁) ∧
          runAll applies (deeds.take 5)
              (w.newCollector ⟨⟨some 164⟩⟩).2 =
            some (rs.take 5, w₂) ∧
          w₁.Agrees w₂) ∧
        ∃ n d rs₁ w₁ e w₂,
          deeds[n]? = some d ∧
            runAll applies (deeds.take n)
                (w.newCollector ⟨⟨some 163⟩⟩).2 =
              some (rs₁, w₁) ∧
            d.program.exec applies w₁ =
              some (.made (.error e), w₂) := by
  intro behaves applies w deeds
  have hEvaluated :
      (runAll applies deeds
          (w.newCollector .standard).2).map
        (fun x => (x.1.all (!·.isRefused), x.2.peak 1)) =
        some (true, 164) := by
    decide +kernel
  rcases Option.map_eq_some_iff.mp hEvaluated with
    ⟨⟨rs, w'⟩, hRun, hResult⟩
  have hPeak : w'.peak 1 = 164 := congrArg Prod.snd hResult
  have hGranted : ∀ r ∈ rs, r.isRefused = false := by
    have hAll := congrArg Prod.fst hResult
    simpa using hAll
  have hSource :
      ∀ w : World Unit,
        (Program.ownAll [.integer 1, .integer 2]).Fair
          applies 1 w := by
    intro w
    refine ⟨Program.aloof_ownAll _, ?_⟩
    intro xs w' hPulled
    rw [Program.length_ownOnto [] (by simp [Heap.admits])
      hPulled]
    decide
  have hFair :
      FairAll applies deeds (w.newCollector .standard).2 := by
    simp [deeds, FairAll, Fair, hSource]
  have hLeast :=
    peak_is_least_limit behaves 0 (fun _ => true)
      (rfl : (Moment.fresh (fun _ => true)).run [] =
        ⟨w, [], []⟩)
      hFair hRun hGranted
  refine
    ⟨rs, w', ⟨rfl, hFair, hRun, hGranted⟩, hPeak, ?_, ?_⟩
  · exact hLeast.1 164 (hPeak ▸ UInt64.le_refl _) 5
  · exact hLeast.2 163 (hPeak ▸ by decide)

end Deed

end LeasedHeap

import LeasedHeap.Sequence
import LeasedHeap.Proofs.Limits
import LeasedHeap.Proofs.Soundness

/-
  Calls that make, copy and drop things, one by one.

  A deed is one call of a program: a block, an array, a list
  or a closure from a source of its own, a longer list made
  of others, a copy or a drop.  A deed that was done without
  a limit is done in the same way within every limit from
  some high mark on, and refused within every lower one; the
  peak rises to the high mark.

  Key definitions include:
    * `Program.Aloof` and `Program.Fair`
    * `Deed` and `Deed.Fair`
    * `Deed.Scales`

  Main declarations:
    * `World.limited_makeArray`
    * `Deed.exists_scales`
-/

namespace LeasedHeap

------------------------------------------------------------
-- Sources that Touch no Collector
------------------------------------------------------------

namespace Program

variable {κ α : Type}
variable {applies : Applies κ}
variable {w w' : World κ}

/-
  A program that touches no collector: with others in their
  place it does the same, and leaves those as they are.
-/
def Aloof
    (applies : Applies κ)
    (p : Program κ α)
    (w : World κ) : Prop :=
  ∀ cs,
    p.exec applies (w.withCollectors cs) =
      (p.exec applies w).map
        (fun x => (x.1, x.2.withCollectors cs))

/- In particular it leaves the collectors that are there. -/
theorem Aloof.collectors_eq
    {p : Program κ α}
    {a : α}
    (hAloof : p.Aloof applies w)
    (hRun : p.exec applies w = some (a, w')) :
    w'.heap.collectors = w.heap.collectors := by
  have hSame := hAloof w.heap.collectors
  change p.exec applies w = _ at hSame
  rw [hRun] at hSame
  have hWorld :
      w' = w'.withCollectors w.heap.collectors :=
    (Prod.mk.inj (Option.some.inj hSame)).2
  exact congrArg (fun w => w.heap.collectors) hWorld

/- Under a limit it does the same. -/
theorem Aloof.limited
    {p : Program κ α}
    {a : α}
    (hAloof : p.Aloof applies w)
    (hRun : p.exec applies w = some (a, w'))
    (c : CollectorId)
    (bound : UInt64) :
    p.exec applies (w.limited c bound) =
      some (a, w'.limited c bound) := by
  have hSame := hAloof (w.heap.limited c bound).collectors
  rw [hRun] at hSame
  rw [← World.withCollectors_limited
    (hAloof.collectors_eq hRun)]
  exact hSame

/- A program that goes on after another touches none either. -/
theorem Aloof.bind
    {β : Type}
    {p : Program κ α}
    {f : α → Program κ β}
    (hFirst : p.Aloof applies w)
    (hRest :
      ∀ a w', p.exec applies w = some (a, w') →
        (f a).Aloof applies w') :
    (p.bind f).Aloof applies w := by
  intro cs
  rw [exec_bind, exec_bind, hFirst cs]
  cases hRun : p.exec applies w with
  | none => rfl
  | some x => exact hRest x.1 x.2 hRun cs

theorem aloof_done
    (a : α) :
    (done a : Program κ α).Aloof applies w :=
  fun _ => rfl

theorem aloof_clone
    (r : Ref) :
    (perform (.clone r) : Program κ _).Aloof applies w := by
  intro cs
  simp only [perform, exec, World.act,
    World.withCollectors_clone]
  rfl

theorem aloof_ownOnto
    (xs : List Handle)
    (vs : List Value) :
    (ownOnto xs vs).Aloof applies w := by
  induction vs generalizing xs w with
  | nil => exact aloof_done _
  | cons v vs ih =>
      refine (aloof_clone (.value v)).bind ?_
      rintro (_ | x) w' _
      · exact ih xs
      · exact ih (x :: xs)

/- Copies of values are taken without any collector. -/
theorem aloof_ownAll
    (vs : List Value) :
    (ownAll vs).Aloof applies w :=
  aloof_ownOnto [] vs

------------------------------------------------------------
-- Sources that Keep Their Word
------------------------------------------------------------

/- A copy of a reference hides nothing. -/
private theorem admits_clone
    (r : Ref)
    (v : Value)
    (hAdmits : w.heap.admits v = true) :
    (w.clone r).2.heap.admits v = true := by
  unfold World.clone
  split
  · apply Heap.admits_iff.mpr
    intro l hl
    exact
      (Heap.kind?_retainRef w.heap r l.1).trans
        (Heap.admits_iff.mp hAdmits l hl)
  · exact hAdmits

/- There are as many copies as values that are there. -/
theorem length_ownOnto
    (xs : List Handle)
    {vs : List Value}
    (hAdmits : ∀ v ∈ vs, w.heap.admits v = true)
    {ys : List Handle}
    (hRun :
      (ownOnto xs vs).exec applies w = some (ys, w')) :
    ys.length = xs.length + vs.length := by
  induction vs generalizing xs w with
  | nil =>
      cases hRun
      simp
  | cons v vs ih =>
      have hOthers :
          ∀ u ∈ vs,
            (w.clone (.value v)).2.heap.admits u = true :=
        fun u hu =>
          admits_clone _ u
            (hAdmits u (List.mem_cons_of_mem v hu))
      have hAdmitted : w.admits (.value v) = true :=
        hAdmits v List.mem_cons_self
      have hCloned :
          (w.clone (.value v)).1 =
            some ⟨w.held.issued⟩ := by
        unfold World.clone
        rw [if_pos hAdmitted]
        rfl
      change
        ((own v).bind _).exec applies w = some (ys, w')
          at hRun
      rw [exec_bind] at hRun
      simp only [own, perform, exec, World.act, hCloned]
        at hRun
      have hLength := ih _ hOthers hRun
      rw [hLength, List.length_cons, List.length_cons]
      omega

/- What is announced is no more than what there will be. -/
private theorem toNat_satOfNat_le
    (n : Nat) :
    (Word.satOfNat n).toNat ≤ n := by
  unfold Word.satOfNat
  cases hFits : Word.ofNat? n with
  | some size =>
      exact (Word.ofNat?_eq_some_iff.mp hFits).le
  | none =>
      have hLarge := Word.ofNat?_eq_none_iff.mp hFits
      have hTop := Word.top.toNat_lt_size
      exact (Nat.lt_of_lt_of_le hTop hLarge).le

/-
  A source that touches no collector and gives at least as
  many items as it announces.
-/
structure Fair
    (applies : Applies κ)
    (p : Program κ (List α))
    (hint : UInt64)
    (w : World κ) : Prop where
  aloof : p.Aloof applies w
  enough :
    ∀ xs w', p.exec applies w = some (xs, w') →
      hint.toNat ≤ xs.length

/- Copies of values that are there are a fair source. -/
theorem fair_ownAll
    {vs : List Value}
    (hAdmits : ∀ v ∈ vs, w.heap.admits v = true) :
    (ownAll vs).Fair applies (Word.satOfNat vs.length)
      w := by
  refine ⟨aloof_ownAll vs, ?_⟩
  intro xs w' hRun
  rw [length_ownOnto [] hAdmits hRun, List.length_nil,
    Nat.zero_add]
  exact toNat_satOfNat_le _

/- So are they with one more item that is moved in. -/
theorem fair_ownAll_append
    {vs : List Value}
    (hAdmits : ∀ v ∈ vs, w.heap.admits v = true)
    (x : Handle) :
    ((ownAll vs).bind (fun xs => .done (xs ++ [x]))).Fair
      applies (Word.satOfNat (vs.length + 1)) w := by
  refine
    ⟨(aloof_ownAll vs).bind (fun _ _ _ => aloof_done _), ?_⟩
  intro ys w' hRun
  rw [exec_bind] at hRun
  cases hCopies : (ownAll vs).exec applies w with
  | none =>
      rw [hCopies] at hRun
      cases hRun
  | some copies =>
      rcases copies with ⟨xs, w₁⟩
      rw [hCopies] at hRun
      cases hRun
      have hLength := length_ownOnto [] hAdmits hCopies
      have hAnnounced := toNat_satOfNat_le (vs.length + 1)
      rw [List.length_nil] at hLength
      rw [List.length_append, List.length_singleton]
      omega

end Program

------------------------------------------------------------
-- Arrays from a Source
------------------------------------------------------------

namespace World

variable {κ : Type}
variable {w w' : World κ}
variable {c d : CollectorId}
variable {applies : Applies κ}

/- To begin an array makes no object and drops none. -/
private theorem objects_openArray
    {s : Shape}
    {hint : UInt64}
    {r : Except Refusal UInt64}
    (hRun : w.openArray d s hint = (r, w')) :
    w'.heap.objects = w.heap.objects := by
  unfold openArray at hRun
  split at hRun
  · rw [Heap.perform_eq] at hRun
    cases hRun
    rfl
  · cases hRun
    rfl

/-
  An array from a fair source that was made without a limit:
  within a limit it is made in the same way, or refused
  because of what would be live.
-/
theorem limited_makeArray
    {s : Shape}
    {hint : UInt64}
    {owned : List Handle}
    {items : Program κ (List s.Item)}
    {x : Handle}
    (hUnlimited : w.Unlimited c)
    (hFair :
      ∀ hinted w₁, w.openArray d s hint = (.ok hinted, w₁) →
        items.Fair applies hint w₁)
    (hRun :
      (Program.makeArray d s hint owned items).exec applies
          w =
        some (.ok x, w')) :
    ∃ high,
      w.Rises w' c high ∧
        (∀ bound, high ≤ bound →
          (Program.makeArray d s hint owned items).exec
              applies (w.limited c bound) =
            some (.ok x, w'.limited c bound)) ∧
        ∀ bound, bound < high →
          ∃ r w'',
            (Program.makeArray d s hint owned items).exec
                applies (w.limited c bound) =
              some (.error r, w'') := by
  simp only [Program.makeArray, Program.exec] at hRun ⊢
  rcases hOpen : w.openArray d s hint with ⟨r, w₁⟩
  rw [hOpen] at hRun
  cases r with
  | error r => cases hRun
  | ok hinted =>
      rcases limited_openArray hUnlimited hOpen with
        ⟨hHinted, hOpened, hSameOpen, hLessOpen⟩
      have hFair := hFair hinted w₁ hOpen
      cases hItems : items.exec applies w₁ with
      | none =>
          simp only [hItems] at hRun
          cases hRun
      | some given =>
          rcases given with ⟨xs, w₂⟩
          simp only [hItems] at hRun
          have hSame := hFair.aloof.collectors_eq hItems
          have hPulled := hOpened.of_collectors_eq hSame
          have hLevel : w₂.level c d = w₁.level c d := by
            unfold level Heap.counters Heap.collector
            rw [hSame]
          have hAnnounced :
              hinted.toNat ≤ xs.length * s.width.toNat := by
            rw [hHinted]
            exact
              Nat.mul_le_mul_right _
                (hFair.enough xs w₂ hItems)
          rcases hClose : w₂.closeArray d s hinted xs with
            ⟨r, w₃⟩
          rw [hClose] at hRun
          cases hRun
          rcases limited_closeArray hPulled.unlimited
              hAnnounced hClose with
            ⟨high, hClosed, hLe, hSameClose, hLessClose⟩
          rw [hLevel] at hLe
          have hItems' := hFair.aloof.limited hItems c
          refine ⟨high, ?_, ?_, ?_⟩
          · refine ⟨hClosed.unlimited, ?_⟩
            rw [hClosed.peak, hPulled.peak, max_zero]
          · intro bound hBound
            rw [hSameOpen bound
              (UInt64.le_trans hLe hBound)]
            simp only [hItems', hSameClose bound hBound]
          · intro bound hBound
            by_cases hReserved : w₁.level c d ≤ bound
            · rcases hLessClose bound hBound with
                ⟨r, w'', hRefused⟩
              rw [hSameOpen bound hReserved]
              simp only [hItems', hRefused]
              exact ⟨_, _, rfl⟩
            · rcases hLessOpen bound
                  (UInt64.not_le.mp hReserved) with
                ⟨r, w'', hRefused⟩
              rw [hRefused]
              exact ⟨_, _, rfl⟩

end World

------------------------------------------------------------
-- Deeds
------------------------------------------------------------

/-
  One call of a program.  An array, a list or a closure is
  made from a source of its own; a longer list is made of the
  items of others, and one more that is moved in.
-/
inductive Deed (κ : Type) where
| allocate : CollectorId → UInt64 → Deed κ
| array :
    CollectorId → (s : Shape) → UInt64 → List Handle →
    Program κ (List s.Item) → Deed κ
| pushed : CollectorId → Value → Handle → Deed κ
| concat : CollectorId → Value → Value → Deed κ
| clone : Ref → Deed κ
| drop : Handle → Deed κ

namespace Deed

variable {κ : Type}

/- What comes of a deed. -/
inductive Result where
| made : Except Refusal Handle → Result
| cloned : Option Handle → Result
| dropped : Bool → Result
deriving DecidableEq

/- What the calls that make something can come to. -/
def Result.isRefused : Result → Bool
| .made (.error _) => true
| _ => false

/- The program that does a deed. -/
def program : Deed κ → Program κ Result
| .allocate c size => do
    return .made (← Program.perform (.allocate c size))
| .array c s hint owned items => do
    return .made
      (← Program.makeArray c s hint owned items)
| .pushed c v x => do
    let vs ← Program.itemsOf v
    return .made (← Program.pushed c vs x)
| .concat c v u => do
    let vs ← Program.itemsOf v
    let us ← Program.itemsOf u
    return .made (← Program.concat c vs us)
| .clone r => do
    return .cloned (← Program.perform (.clone r))
| .drop x => do
    return .dropped (← Program.perform (.drop x))

variable {w w' : World κ}
variable {c : CollectorId}
variable {applies : Applies κ}

/-
  The source of a deed, if it has one of its own, is fair at
  the time when its items are pulled.
-/
def Fair
    (applies : Applies κ)
    (w : World κ) : Deed κ → Prop
| .array c s hint _ items =>
    ∀ hinted w₁, w.openArray c s hint = (.ok hinted, w₁) →
      items.Fair applies hint w₁
| _ => True

/-
  A deed that was done without a limit: within every limit
  from a high mark on it is done in the same way, within a
  lower one it is refused, and the peak rises to the mark.
-/
structure Scales
    (applies : Applies κ)
    (d : Deed κ)
    (w : World κ)
    (c : CollectorId)
    (r : Result)
    (w' : World κ)
    (high : UInt64) : Prop where
  rises : w.Rises w' c high
  same :
    ∀ bound, high ≤ bound →
      d.program.exec applies (w.limited c bound) =
        some (r, w'.limited c bound)
  less :
    ∀ bound, bound < high →
      ∃ e w'',
        d.program.exec applies (w.limited c bound) =
          some (.made (.error e), w'')

/- What a value holds is there, and a limit hides none of it. -/
private theorem exec_itemsOf
    (applies : Applies κ)
    (hSound : w.Sound [])
    (v : Value) :
    ∃ vs,
      (∀ u ∈ vs, w.heap.admits u = true) ∧
        ∀ w₁ : World κ, w₁.heap.objects = w.heap.objects →
          (Program.itemsOf v).exec applies w₁ =
            some (vs, w₁) := by
  cases hPayload : v.payload? with
  | none =>
      refine ⟨[], by simp, ?_⟩
      intro w₁ _
      simp only [Program.itemsOf, hPayload]
      rfl
  | some p =>
      have hAnswer :
          ∀ w₁ : World κ,
            w₁.heap.objects = w.heap.objects →
              (Program.itemsOf v).exec applies w₁ =
                some
                  (((w.heap.payload? p).map
                    (fun payload =>
                      payload.contents.values)).getD [],
                    w₁) := by
        intro w₁ hObjects
        have hSame :
            w₁.heap.payload? p = w.heap.payload? p := by
          unfold Heap.payload?
          rw [hObjects]
        simp only [Program.itemsOf, hPayload]
        change
          (Program.bind (.ask (.payload p) .done) _).exec
              applies w₁ =
            _
        simp only [Program.bind, Program.exec,
          World.answer, hSame]
        cases w.heap.payload? p <;> rfl
      refine ⟨_, ?_, hAnswer⟩
      intro u hu
      cases hGet : w.heap.objects.get? p with
      | none => simp [Heap.payload?, hGet] at hu
      | some o =>
          rcases o with ⟨n, cell⟩
          cases cell with
          | code code => simp [Heap.payload?, hGet] at hu
          | payload payload =>
              simp only [Heap.payload?, hGet, Option.map,
                Option.getD] at hu
              apply Heap.admits_iff.mpr
              intro l hl
              refine hSound.exact.typed p _ hGet l ?_
              exact
                List.mem_append_left _
                  (List.mem_flatMap.mpr ⟨u, hu, hl⟩)

/- A deed that comes to making an array from a fair source. -/
private theorem scales_of_makeArray
    {d : Deed κ}
    {e : CollectorId}
    {s : Shape}
    {hint : UInt64}
    {owned : List Handle}
    {items : Program κ (List s.Item)}
    {r : Result}
    (hUnlimited : w.Unlimited c)
    (hProgram :
      ∀ w₁ : World κ, w₁.heap.objects = w.heap.objects →
        d.program.exec applies w₁ =
          ((Program.makeArray e s hint owned items).exec
              applies w₁).map
            (fun x => (.made x.1, x.2)))
    (hFair :
      ∀ hinted w₁, w.openArray e s hint = (.ok hinted, w₁) →
        items.Fair applies hint w₁)
    (hRun : d.program.exec applies w = some (r, w'))
    (hGranted : r.isRefused = false) :
    ∃ high, d.Scales applies w c r w' high := by
  rw [hProgram w rfl] at hRun
  rcases Option.map_eq_some_iff.mp hRun with
    ⟨⟨made, w''⟩, hMade, hResult⟩
  cases hResult
  cases made with
  | error e => cases hGranted
  | ok x =>
      rcases World.limited_makeArray hUnlimited hFair hMade
        with ⟨high, hRises, hSame, hLess⟩
      refine ⟨high, hRises, ?_, ?_⟩
      · intro bound hLe
        rw [hProgram (w.limited c bound) rfl,
          hSame bound hLe]
        rfl
      · intro bound hLt
        rcases hLess bound hLt with ⟨e, w'', hRefused⟩
        refine ⟨e, w'', ?_⟩
        rw [hProgram (w.limited c bound) rfl, hRefused]
        rfl

/- A block without a limit. -/
private theorem scales_allocate
    {e : CollectorId}
    {size : UInt64}
    {r : Result}
    (hUnlimited : w.Unlimited c)
    (hRun :
      (allocate e size).program.exec applies w =
        some (r, w'))
    (hGranted : r.isRefused = false) :
    ∃ high, (allocate e size).Scales applies w c r w' high := by
  have hProgram :
      ∀ w₁ : World κ,
        (allocate e size).program.exec applies w₁ =
          some
            (.made (w₁.allocate e size).1,
              (w₁.allocate e size).2) :=
    fun _ => rfl
  rw [hProgram] at hRun
  rcases hMade : w.allocate e size with ⟨made, w''⟩
  rw [hMade] at hRun
  cases hRun
  cases made with
  | error e => cases hGranted
  | ok x =>
      rcases World.limited_allocate hUnlimited hMade with
        ⟨high, hRises, hSame, hLess⟩
      refine ⟨high, hRises, ?_, ?_⟩
      · intro bound hLe
        rw [hProgram, hSame bound hLe]
      · intro bound hLt
        rcases hLess bound hLt with ⟨e, w'', hRefused⟩
        refine ⟨e, w'', ?_⟩
        rw [hProgram, hRefused]

/- A deed that leaves the peak alone, with or without a limit. -/
private theorem scales_zero
    {d : Deed κ}
    {r : Result}
    (hRises : w.Rises w' c 0)
    (hSame :
      ∀ bound,
        d.program.exec applies (w.limited c bound) =
          some (r, w'.limited c bound)) :
    ∃ high, d.Scales applies w c r w' high :=
  ⟨0, hRises, fun bound _ => hSame bound,
    fun _ hLt => absurd hLt UInt64.not_lt_zero⟩

/- A copy asks no collector for anything. -/
private theorem scales_clone
    {ref : Ref}
    {r : Result}
    (hUnlimited : w.Unlimited c)
    (hRun :
      (clone ref).program.exec applies w = some (r, w')) :
    ∃ high, (clone ref).Scales applies w c r w' high := by
  have hAloof :
      (clone ref : Deed κ).program.Aloof applies w :=
    (Program.aloof_clone ref).bind
      (fun _ _ _ => Program.aloof_done _)
  have hRises :=
    (World.rises_zero hUnlimited rfl).of_collectors_eq
      (hAloof.collectors_eq hRun)
  exact scales_zero hRises (hAloof.limited hRun c)

/- A drop returns leases only, and those raise no peak. -/
private theorem scales_drop
    {x : Handle}
    {r : Result}
    (hUnlimited : w.Unlimited c)
    (hRun :
      (drop x).program.exec applies w = some (r, w')) :
    ∃ high, (drop x).Scales applies w c r w' high := by
  have hProgram :
      ∀ w₁ : World κ,
        (drop x).program.exec applies w₁ =
          some (.dropped (w₁.drop x).1, (w₁.drop x).2) :=
    fun _ => rfl
  rw [hProgram] at hRun
  cases hRun
  refine scales_zero ?_ ?_
  · unfold World.drop
    cases w.ref? x with
    | none => exact World.rises_zero hUnlimited rfl
    | some ref =>
        have hReturns :=
          Heap.Returns.reclaim w.heap ref.frames
        exact
          World.rises_zero
            (hUnlimited.of_collector hReturns.size
              (hReturns.config c))
            (hReturns.peak c)
  · intro bound
    rw [hProgram, World.limited_drop]

/- What a program makes is what comes of the deed. -/
private theorem exec_made
    (p : Program κ (Except Refusal Handle))
    (w : World κ) :
    (p.bind (fun r => .done (Result.made r))).exec applies w =
      (p.exec applies w).map
        (fun x => (.made x.1, x.2)) := by
  rw [Program.exec_bind]
  cases p.exec applies w <;> rfl

/- Values that are there stay while an array is begun. -/
private theorem admits_openArray
    {e : CollectorId}
    {s : Shape}
    {hint : UInt64}
    {r : Except Refusal UInt64}
    {vs : List Value}
    (hAdmits : ∀ v ∈ vs, w.heap.admits v = true)
    (hOpen : w.openArray e s hint = (r, w')) :
    ∀ v ∈ vs, w'.heap.admits v = true := by
  intro v hv
  apply Heap.admits_iff.mpr
  intro l hl
  unfold Heap.kind?
  rw [World.objects_openArray hOpen]
  exact Heap.admits_iff.mp (hAdmits v hv) l hl

/- A longer list is made of values that are there. -/
private theorem scales_pushed
    {e : CollectorId}
    {v : Value}
    {x : Handle}
    {r : Result}
    (hSound : w.Sound [])
    (hUnlimited : w.Unlimited c)
    (hRun :
      (pushed e v x).program.exec applies w = some (r, w'))
    (hGranted : r.isRefused = false) :
    ∃ high, (pushed e v x).Scales applies w c r w' high := by
  rcases exec_itemsOf applies hSound v with
    ⟨vs, hAdmits, hItems⟩
  have hProgram :
      ∀ w₁ : World κ, w₁.heap.objects = w.heap.objects →
        (pushed e v x).program.exec applies w₁ =
          ((Program.pushed e vs x).exec applies w₁).map
            (fun x => (.made x.1, x.2)) := by
    intro w₁ hObjects
    change
      ((Program.itemsOf v).bind _).exec applies w₁ = _
    rw [Program.exec_bind, hItems w₁ hObjects]
    exact exec_made (Program.pushed e vs x) w₁
  refine
    scales_of_makeArray hUnlimited hProgram ?_ hRun hGranted
  intro hinted w₁ hOpen
  exact
    Program.fair_ownAll_append
      (admits_openArray hAdmits hOpen) x

/- So is a list of the items of two others. -/
private theorem scales_concat
    {e : CollectorId}
    {v u : Value}
    {r : Result}
    (hSound : w.Sound [])
    (hUnlimited : w.Unlimited c)
    (hRun :
      (concat e v u).program.exec applies w = some (r, w'))
    (hGranted : r.isRefused = false) :
    ∃ high, (concat e v u).Scales applies w c r w' high := by
  rcases exec_itemsOf applies hSound v with
    ⟨vs, hAdmitsFirst, hFirst⟩
  rcases exec_itemsOf applies hSound u with
    ⟨us, hAdmitsSecond, hSecond⟩
  have hAdmits :
      ∀ x ∈ vs ++ us, w.heap.admits x = true := by
    intro x hx
    rcases List.mem_append.mp hx with hFirst | hSecond
    · exact hAdmitsFirst x hFirst
    · exact hAdmitsSecond x hSecond
  have hProgram :
      ∀ w₁ : World κ, w₁.heap.objects = w.heap.objects →
        (concat e v u).program.exec applies w₁ =
          ((Program.concat e vs us).exec applies w₁).map
            (fun x => (.made x.1, x.2)) := by
    intro w₁ hObjects
    change
      ((Program.itemsOf v).bind
        (fun vs => (Program.itemsOf u).bind _)).exec
          applies w₁ = _
    rw [Program.exec_bind, hFirst w₁ hObjects]
    simp only [Program.exec_bind, hSecond w₁ hObjects]
    exact exec_made (Program.concat e vs us) w₁
  refine
    scales_of_makeArray hUnlimited hProgram ?_ hRun hGranted
  intro hinted w₁ hOpen
  exact Program.fair_ownAll (admits_openArray hAdmits hOpen)

/-
  Every deed that was done without a limit is done in the
  same way within all limits from some mark on, and refused
  within all others.
-/
theorem exists_scales
    {d : Deed κ}
    {r : Result}
    (hSound : w.Sound [])
    (hUnlimited : w.Unlimited c)
    (hFair : d.Fair applies w)
    (hRun : d.program.exec applies w = some (r, w'))
    (hGranted : r.isRefused = false) :
    ∃ high, d.Scales applies w c r w' high := by
  cases d with
  | allocate e size =>
      exact scales_allocate hUnlimited hRun hGranted
  | array e s hint owned items =>
      have hProgram :
          ∀ w₁ : World κ,
            w₁.heap.objects = w.heap.objects →
              (array e s hint owned items).program.exec
                  applies w₁ =
                ((Program.makeArray e s hint owned
                    items).exec applies w₁).map
                  (fun x => (.made x.1, x.2)) :=
        fun w₁ _ => exec_made _ w₁
      exact
        scales_of_makeArray hUnlimited hProgram hFair hRun
          hGranted
  | pushed e v x =>
      exact scales_pushed hSound hUnlimited hRun hGranted
  | concat e v u =>
      exact scales_concat hSound hUnlimited hRun hGranted
  | clone ref => exact scales_clone hUnlimited hRun
  | drop x => exact scales_drop hUnlimited hRun

end Deed

end LeasedHeap

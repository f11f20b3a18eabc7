import LeasedHeap.Proofs.Plain
import LeasedHeap.Proofs.Turns

/-
  The same under a limit.

  A limit is looked at when bytes are reserved and nowhere
  else.  So a request that was granted without a limit is
  granted within one as well, unless what was live with it is
  more than the limit, and then it is refused.  Whatever else
  happens to a heap is the same with and without the limit.

  Key definitions include:
    * `Terms.within` and `Terms.Scales`
    * `Heap.limited` and `World.limited`
    * `World.withCollectors`
    * `World.Rises` and `World.Within`

  Main declarations:
    * `Terms.within_closeArray`
    * `Heap.limited_reclaim`
    * `World.limited_openArray`
    * `World.limited_closeArray`
-/

namespace LeasedHeap

------------------------------------------------------------
-- Requests
------------------------------------------------------------

namespace Terms

variable {t : Terms}
variable {c c' : Counters}
variable {log log' : List Notice}

/- The terms with some bytes as the limit. -/
def within
    (t : Terms)
    (bound : UInt64) : Terms :=
  { t with limit := ⟨some bound⟩ }

/- Room there is without a limit is room up to the bound. -/
private theorem room?_within
    {bytes next : UInt64}
    (hRoom : c.room? .unlimited bytes = some next)
    (bound : UInt64) :
    c.room? ⟨some bound⟩ bytes =
      if next ≤ bound then some next else none := by
  unfold Counters.room? at hRoom ⊢
  cases hAdd : Word.add? c.live bytes with
  | none =>
      rw [hAdd] at hRoom
      cases hRoom
  | some sum =>
      rw [hAdd] at hRoom
      cases hRoom
      simp [Option.filter, Limit.admits]

private theorem secured?_within
    {bytes next : UInt64}
    (hUnlimited : t.limit = .unlimited)
    (hSecured : t.secured? c bytes = some next)
    (bound : UInt64) :
    (t.within bound).secured? c bytes =
      if next ≤ bound then some next else none := by
  have hGrants :
      (t.within bound).grants bytes = t.grants bytes :=
    rfl
  unfold secured? at hSecured ⊢
  rw [hGrants]
  by_cases hGranted : t.grants bytes
  · rw [if_pos hGranted, hUnlimited] at hSecured
    rw [if_pos hGranted]
    exact room?_within hSecured bound
  · rw [if_neg hGranted] at hSecured
    cases hSecured

/-
  A call that was granted without a limit: it is granted
  within every bound from some mark on, and refused within
  every lower one.
-/
structure Scales
    {α : Type}
    (call : Terms → Steps (Except Refusal α))
    (t : Terms)
    (c : Counters)
    (log : List Notice)
    (granted : α × Counters × List Notice)
    (high : UInt64) : Prop where
  same :
    ∀ bound, high ≤ bound →
      (call (t.within bound)).run c log =
        (.ok granted.1, granted.2)
  less :
    ∀ bound, bound < high →
      ∃ r c' log',
        (call (t.within bound)).run c log =
          (.error r, c', log')

/-
  The mark of a block that was leased is what was live with
  it.
-/
theorem within_allocate
    {size : UInt64}
    (hUnlimited : t.limit = .unlimited)
    (hRun :
      (t.allocate size).run c log = (.ok (), c', log')) :
    ∃ next,
      c' = (c.withLive next).leased size next ∧
        Scales (fun t => t.allocate size) t c log
          ((), c', log') next := by
  rw [run_allocate] at hRun
  cases hSecured : t.secured? c size with
  | none =>
      rw [hSecured] at hRun
      cases hRun
  | some next =>
      rw [hSecured] at hRun
      cases hRun
      refine ⟨next, rfl, ?_, ?_⟩
      · intro bound hLe
        rw [run_allocate, secured?_within hUnlimited hSecured,
          if_pos hLe]
      · intro bound hLt
        rw [run_allocate, secured?_within hUnlimited hSecured,
          if_neg (UInt64.not_le.mpr hLt)]
        exact ⟨_, _, _, rfl⟩

/- What was announced for an array was within the terms. -/
private theorem secured_openArray
    {width hint hinted : UInt64}
    (hRun :
      (t.openArray width hint).run c log =
        (.ok hinted, c', log')) :
    Word.mul? hint width = some hinted ∧
      ∃ next,
        t.secured? c hinted = some next ∧
          c' = c.withLive next ∧ log' = log := by
  rw [run_openArray] at hRun
  cases hMul : Word.mul? hint width with
  | none =>
      rw [hMul] at hRun
      cases hRun
  | some bytes =>
      simp only [hMul] at hRun
      cases hSecured : t.secured? c bytes with
      | none =>
          rw [hSecured] at hRun
          cases hRun
      | some next =>
          rw [hSecured] at hRun
          cases hRun
          exact ⟨rfl, next, hSecured, rfl, rfl⟩

/- What is reserved for an array is what was announced. -/
theorem announced_openArray
    {width hint hinted : UInt64}
    (hRun :
      (t.openArray width hint).run c log =
        (.ok hinted, c', log')) :
    hinted.toNat = hint.toNat * width.toNat :=
  Word.mul?_eq_some_iff.mp (secured_openArray hRun).1

/- Its mark is what was live with it. -/
theorem within_openArray
    {width hint hinted : UInt64}
    (hUnlimited : t.limit = .unlimited)
    (hRun :
      (t.openArray width hint).run c log =
        (.ok hinted, c', log')) :
    ∃ next,
      c' = c.withLive next ∧
        Scales (fun t => t.openArray width hint) t c log
          (hinted, c', log') next := by
  rcases secured_openArray hRun with
    ⟨hMul, next, hSecured, rfl, rfl⟩
  refine ⟨next, rfl, ?_, ?_⟩
  · intro bound hLe
    rw [run_openArray]
    simp only [hMul]
    rw [secured?_within hUnlimited hSecured, if_pos hLe]
  · intro bound hLt
    rw [run_openArray]
    simp only [hMul]
    rw [secured?_within hUnlimited hSecured,
      if_neg (UInt64.not_le.mpr hLt)]
    exact ⟨_, _, _, rfl⟩

/-
  So is the mark of an array with at least as many items as
  announced, and no less is live with it than with the
  announced bytes.
-/
theorem within_closeArray
    {width hinted size : UInt64}
    {count : Nat}
    (hUnlimited : t.limit = .unlimited)
    (hAnnounced : hinted.toNat ≤ count * width.toNat)
    (hRun :
      (t.closeArray width hinted count).run c log =
        (.ok size, c', log')) :
    ∃ next,
      c' = (c.withLive next).leased size next ∧
        c.live ≤ next ∧
        Scales (fun t => t.closeArray width hinted count) t
          c log (size, c', log') next := by
  rw [run_closeArray] at hRun
  cases hSize : Word.ofNat? (count * width.toNat) with
  | none =>
      simp only [hSize] at hRun
      cases hRun
  | some bytes =>
      have hBytes := Word.ofNat?_eq_some_iff.mp hSize
      have hLe : hinted ≤ bytes := by
        rw [UInt64.le_iff_toNat_le, hBytes]
        exact hAnnounced
      simp only [hSize, hLe, if_true, hUnlimited] at hRun
      cases hRoom : c.room? .unlimited (bytes - hinted) with
      | none =>
          rw [hRoom] at hRun
          cases hRun
      | some next =>
          rw [hRoom] at hRun
          cases hRun
          have hLive : c.live ≤ next := by
            rw [UInt64.le_iff_toNat_le,
              (Counters.room?_eq_some_iff.mp hRoom).1]
            exact Nat.le_add_right _ _
          refine ⟨next, rfl, hLive, ?_, ?_⟩
          · intro bound hNext
            rw [run_closeArray]
            simp only [hSize, hLe, if_true, within]
            rw [room?_within hRoom, if_pos hNext]
          · intro bound hNext
            rw [run_closeArray]
            simp only [hSize, hLe, if_true, within]
            rw [room?_within hRoom,
              if_neg (UInt64.not_le.mpr hNext)]
            exact ⟨_, _, _, rfl⟩

end Terms

------------------------------------------------------------
-- Heaps under a Limit
------------------------------------------------------------

namespace Heap

variable {κ : Type}
variable {α : Type}

/- A heap that differs in the limit of one collector. -/
def limited
    (h : Heap κ)
    (c : CollectorId)
    (bound : UInt64) : Heap κ :=
  { h with
    collectors :=
      h.collectors.modify c
        (fun col => { col with config := ⟨⟨some bound⟩⟩ }) }

@[simp]
theorem size_limited
    (h : Heap κ)
    (c : CollectorId)
    (bound : UInt64) :
    (h.limited c bound).collectors.size =
      h.collectors.size := by
  simp [limited]

theorem collector_limited_self
    {h : Heap κ}
    {c : CollectorId}
    (hHas : h.hasCollector c = true)
    (bound : UInt64) :
    (h.limited c bound).collector c =
      ⟨⟨⟨some bound⟩⟩, h.counters c⟩ := by
  have hLt : c < h.collectors.size := by
    simpa [hasCollector] using hHas
  unfold limited counters collector
  rw [Array.getElem?_modify, if_pos rfl,
    Array.getElem?_eq_getElem hLt]
  rfl

theorem collector_limited_of_ne
    (h : Heap κ)
    {c d : CollectorId}
    (hNe : d ≠ c)
    (bound : UInt64) :
    (h.limited c bound).collector d = h.collector d := by
  unfold limited collector
  rw [Array.getElem?_modify, if_neg (Ne.symm hNe)]

/- A heap without the collector is not limited at all. -/
theorem limited_of_not_has
    {h : Heap κ}
    {c : CollectorId}
    (hHas : ¬ h.hasCollector c = true)
    (bound : UInt64) :
    h.limited c bound = h := by
  have hLe : h.collectors.size ≤ c := by
    simpa [hasCollector] using hHas
  unfold limited
  congr 1
  apply Array.ext_getElem?
  intro i
  rw [Array.getElem?_modify]
  split
  · rename_i hc
    subst hc
    rw [Array.getElem?_eq_none hLe]
    rfl
  · rfl

/- A limit is nothing that counters show. -/
@[simp]
theorem counters_limited
    (h : Heap κ)
    (c d : CollectorId)
    (bound : UInt64) :
    (h.limited c bound).counters d = h.counters d := by
  by_cases hHas : h.hasCollector c = true
  · by_cases hd : d = c
    · subst hd
      rw [counters, collector_limited_self hHas]
    · rw [counters, collector_limited_of_ne h hd]
      rfl
  · rw [limited_of_not_has hHas]

theorem terms_limited_self
    {h : Heap κ}
    {c : CollectorId}
    (hHas : h.hasCollector c = true)
    (bound : UInt64) :
    (h.limited c bound).terms c =
      (h.terms c).within bound := by
  rw [terms, collector_limited_self hHas]
  rfl

theorem terms_limited_of_ne
    (h : Heap κ)
    {c d : CollectorId}
    (hNe : d ≠ c)
    (bound : UInt64) :
    (h.limited c bound).terms d = h.terms d := by
  rw [terms, collector_limited_of_ne h hNe]
  rfl

theorem limited_tally
    (h : Heap κ)
    (c d : CollectorId)
    (bound : UInt64)
    (counters : Counters)
    (ns : List Notice) :
    (h.limited c bound).tally d counters ns =
      (h.tally d counters ns).limited c bound := by
  by_cases hHas : h.hasCollector c = true
  · unfold tally
    by_cases hd : d = c
    · subst hd
      rw [collector_limited_self hHas]
      unfold limited
      congr 1
      apply Array.ext_getElem?
      grind
    · rw [collector_limited_of_ne h hd]
      unfold limited
      congr 1
      apply Array.ext_getElem?
      grind
  · have hTally :
        ¬ (h.tally d counters ns).hasCollector c = true := by
      simpa [tally, hasCollector] using hHas
    rw [limited_of_not_has hHas, limited_of_not_has hTally]

/- A call that looks at no limit is the same within one. -/
theorem limited_perform
    (h : Heap κ)
    (c d : CollectorId)
    (bound : UInt64)
    (s : Steps α) :
    (h.limited c bound).perform d s =
      ((h.perform d s).1,
        (h.perform d s).2.limited c bound) := by
  rw [perform_eq, perform_eq, counters_limited,
    limited_tally]

theorem limited_take
    (h : Heap κ)
    (c : CollectorId)
    (bound : UInt64)
    (p : ObjectId) :
    (h.limited c bound).take p =
      ((h.take p).1, (h.take p).2.limited c bound) := by
  have hObjects : (h.limited c bound).objects = h.objects :=
    rfl
  unfold take
  rw [hObjects]
  split <;> rfl

theorem limited_release
    (h : Heap κ)
    (c : CollectorId)
    (bound : UInt64)
    (i : ObjectId) :
    (h.limited c bound).release i =
      ((h.release i).1, (h.release i).2.limited c bound) := by
  have hObjects : (h.limited c bound).objects = h.objects :=
    rfl
  unfold release
  rw [hObjects]
  split <;> rfl

theorem limited_step
    (h : Heap κ)
    (c : CollectorId)
    (bound : UInt64)
    (f : Frame) :
    (h.limited c bound).step f =
      ((h.step f).1, (h.step f).2.limited c bound) := by
  cases f with
  | value v =>
      simp only [step, limited_take]
      split <;> rfl
  | activation v pending =>
      cases pending with
      | nil => rfl
      | cons w pending =>
          simp only [step, limited_take]
          split <;> rfl
  | handle i => exact limited_release h c bound i
  | lease l =>
      simp only [step, limited_perform]

/- Reclaiming asks for nothing, so no limit matters to it. -/
theorem limited_reclaim
    (h : Heap κ)
    (c : CollectorId)
    (bound : UInt64)
    (fs : List Frame) :
    (h.limited c bound).reclaim fs =
      (h.reclaim fs).limited c bound := by
  induction h, fs using Heap.reclaim.induct with
  | case1 h => rw [Heap.reclaim, Heap.reclaim]
  | case2 h f fs next ih =>
      rw [Heap.reclaim, Heap.reclaim, limited_step]
      exact ih

end Heap

------------------------------------------------------------
-- Worlds under a Limit
------------------------------------------------------------

namespace World

variable {κ : Type}
variable {w w' : World κ}
variable {c d : CollectorId}

/- A world with other collectors. -/
def withCollectors
    (w : World κ)
    (collectors : Array Collector) : World κ :=
  { w with heap := { w.heap with collectors } }

/- A world that differs in the limit of one collector. -/
def limited
    (w : World κ)
    (c : CollectorId)
    (bound : UInt64) : World κ :=
  { w with heap := w.heap.limited c bound }

/- The peak of a collector. -/
def peak
    (w : World κ)
    (c : CollectorId) : UInt64 :=
  (w.heap.counters c).peak

/-
  A new collector with a limit is a new one without, under
  the limit.
-/
theorem limited_newCollector
    (w : World κ)
    (bound : UInt64) :
    (w.newCollector .standard).2.limited
        w.heap.collectors.size bound =
      (w.newCollector ⟨⟨some bound⟩⟩).2 := by
  unfold limited Heap.limited newCollector
  congr 2
  apply Array.ext_getElem?
  intro i
  simp only [Array.getElem?_modify, Array.getElem?_push]
  grind [Collector.ofConfig]

/- If collectors stay, a limit on one of them does. -/
theorem withCollectors_limited
    (hSame : w'.heap.collectors = w.heap.collectors)
    (bound : UInt64) :
    w'.withCollectors (w.heap.limited c bound).collectors =
      w'.limited c bound := by
  unfold withCollectors limited Heap.limited
  rw [hSame]

/- Handles are counted without a look at collectors. -/
private theorem withCollectors_retain
    (h : Heap κ)
    (cs : Array Collector)
    (i : ObjectId) :
    ({ h with collectors := cs } : Heap κ).retain i =
      { h.retain i with collectors := cs } := by
  unfold Heap.retain
  cases h.objects.get? i <;> rfl

private theorem withCollectors_retainRef
    (h : Heap κ)
    (cs : Array Collector)
    (r : Ref) :
    ({ h with collectors := cs } : Heap κ).retainRef r =
      { h.retainRef r with collectors := cs } := by
  cases r with
  | value v =>
      cases v with
      | integer i => rfl
      | list p => exact withCollectors_retain h cs p
      | closure c =>
          simp only [Heap.retainRef, Heap.retainValue,
            withCollectors_retain]
  | array p => exact withCollectors_retain h cs p
  | code q => exact withCollectors_retain h cs q

theorem withCollectors_clone
    (w : World κ)
    (cs : Array Collector)
    (r : Ref) :
    (w.withCollectors cs).clone r =
      ((w.clone r).1, (w.clone r).2.withCollectors cs) := by
  have hAdmits :
      (w.withCollectors cs).admits r = w.admits r := by
    cases r with
    | value v => cases v <;> rfl
    | array p => rfl
    | code q => rfl
  unfold clone
  rw [hAdmits]
  split
  · simp only [withCollectors, hold,
      withCollectors_retainRef]
  · rfl

private theorem limited_takeValues
    (w : World κ)
    (c : CollectorId)
    (bound : UInt64)
    (xs : List Handle) :
    (w.limited c bound).takeValues xs =
      ((w.takeValues xs).1,
        (w.takeValues xs).2.limited c bound) := by
  induction xs generalizing w with
  | nil => rfl
  | cons x xs ih =>
      have hValue :
          (w.limited c bound).value? x = w.value? x :=
        rfl
      unfold takeValues
      rw [hValue]
      cases w.value? x with
      | none => exact ih w
      | some v =>
          have hRest :=
            ih { w with held := w.held.erase x.key }
          have hErase :
              ({ w.limited c bound with
                  held :=
                    (w.limited c bound).held.erase x.key } :
                World κ) =
                ({ w with held := w.held.erase x.key } :
                  World κ).limited c bound :=
            rfl
          simp only [hErase, hRest]

private theorem limited_store
    (w : World κ)
    (c : CollectorId)
    (bound : UInt64)
    (lease : Lease)
    (s : Shape)
    (items : List s.Item) :
    (w.limited c bound).store lease s items =
      ((w.store lease s items).1,
        (w.store lease s items).2.limited c bound) := by
  cases s with
  | numbers width => rfl
  | slots =>
      simp only [store, limited_takeValues]
      rfl
  | list =>
      simp only [store, limited_takeValues]
      rfl
  | closure code =>
      simp only [store, limited_takeValues]
      have hCode :
          ((w.takeValues items).2.limited c bound).codeOf?
              code =
            (w.takeValues items).2.codeOf? code :=
        rfl
      rw [hCode]
      cases (w.takeValues items).2.codeOf? code <;> rfl

theorem limited_drop
    (w : World κ)
    (c : CollectorId)
    (bound : UInt64)
    (x : Handle) :
    (w.limited c bound).drop x =
      ((w.drop x).1, (w.drop x).2.limited c bound) := by
  have hRef : (w.limited c bound).ref? x = w.ref? x := rfl
  unfold drop
  rw [hRef]
  cases w.ref? x with
  | none => rfl
  | some r =>
      simp only [limited, Heap.limited_reclaim]

------------------------------------------------------------
-- Calls under a Limit
------------------------------------------------------------

/- A collector that is there and has no limit. -/
structure Unlimited
    (w : World κ)
    (c : CollectorId) : Prop where
  has : w.heap.hasCollector c = true
  config : (w.heap.collector c).config = .standard

/-
  Something raised the peak of an unlimited collector to the
  greater of it and a high mark.
-/
structure Rises
    (w w' : World κ)
    (c : CollectorId)
    (high : UInt64) : Prop where
  unlimited : w'.Unlimited c
  peak : w'.peak c = max (w.peak c) high

theorem max_zero
    (a : UInt64) :
    max a 0 = a := by
  apply UInt64.toNat_inj.mp
  rw [Word.toNat_max]
  exact Nat.max_eq_left (Nat.zero_le _)

/- Nothing happened to the peak of a collector. -/
theorem rises_zero
    (hUnlimited : w'.Unlimited c)
    (hPeak : w'.peak c = w.peak c) :
    w.Rises w' c 0 := by
  refine ⟨hUnlimited, ?_⟩
  rw [hPeak, max_zero]

theorem Unlimited.of_collector
    (hUnlimited : w.Unlimited c)
    (hSize :
      w'.heap.collectors.size = w.heap.collectors.size)
    (hConfig :
      (w'.heap.collector c).config =
        (w.heap.collector c).config) :
    w'.Unlimited c := by
  refine ⟨?_, hConfig.trans hUnlimited.config⟩
  have hHas := hUnlimited.has
  unfold Heap.hasCollector at hHas ⊢
  rw [hSize]
  exact hHas

/- Where collectors stay, so does what they say. -/
theorem Rises.of_collectors_eq
    {w'' : World κ}
    {high : UInt64}
    (hRises : w.Rises w' c high)
    (hSame : w''.heap.collectors = w'.heap.collectors) :
    w.Rises w'' c high := by
  have hCollector :
      w''.heap.collector c = w'.heap.collector c := by
    unfold Heap.collector
    rw [hSame]
  have hPeak : w''.peak c = w'.peak c := by
    unfold World.peak Heap.counters
    rw [hCollector]
  refine ⟨hRises.unlimited.of_collector ?_ ?_, ?_⟩
  · rw [hSame]
  · rw [hCollector]
  · rw [hPeak]
    exact hRises.peak

/- A call on one collector leaves the others. -/
theorem rises_tally_of_ne
    (hUnlimited : w.Unlimited c)
    (hNe : d ≠ c)
    (k : Counters)
    (ns : List Notice) :
    w.Rises { w with heap := w.heap.tally d k ns } c 0 := by
  have hCollector :
      (w.heap.tally d k ns).collector c =
        w.heap.collector c := by
    unfold Heap.tally Heap.collector
    simp only [Array.getElem?_setIfInBounds]
    rw [if_neg hNe]
  refine rises_zero (hUnlimited.of_collector ?_ ?_) ?_
  · simp [Heap.tally]
  · exact congrArg Collector.config hCollector
  · unfold peak Heap.counters
    rw [hCollector]

/- A call raises the peak to what it leaves as the peak. -/
theorem rises_tally
    (hUnlimited : w.Unlimited c)
    {k : Counters}
    {high : UInt64}
    (hPeak : k.peak = max (w.peak c) high)
    (ns : List Notice) :
    w.Rises { w with heap := w.heap.tally c k ns } c high := by
  have hLt : c < w.heap.collectors.size := by
    simpa [Heap.hasCollector] using hUnlimited.has
  refine ⟨hUnlimited.of_collector ?_ ?_, ?_⟩
  · simp [Heap.tally]
  · unfold Heap.tally Heap.collector
    simp [hLt]
  · unfold peak at hPeak ⊢
    rw [Heap.counters_tally hLt, if_pos rfl]
    exact hPeak

theorem Unlimited.limit_terms
    (hUnlimited : w.Unlimited c) :
    (w.heap.terms c).limit = .unlimited := by
  unfold Heap.terms
  rw [hUnlimited.config]
  rfl

theorem hasCollector_limited
    (w : World κ)
    (c d : CollectorId)
    (bound : UInt64) :
    (w.limited c bound).heap.hasCollector d =
      w.heap.hasCollector d := by
  simp [Heap.hasCollector, limited]

/-
  A call on a collector that was granted without a limit:
  within a limit it is granted and leaves the same, or it is
  refused.
-/
structure Within
    {α : Type}
    (call : Terms → Steps (Except Refusal α))
    (w : World κ)
    (c d : CollectorId)
    (granted : α × Heap κ)
    (high : UInt64) : Prop where
  same :
    ∀ bound, high ≤ bound →
      (w.limited c bound).heap.perform d
          (call ((w.limited c bound).heap.terms d)) =
        (.ok granted.1, granted.2.limited c bound)
  less :
    ∀ bound, bound < high →
      ∃ r heap,
        (w.limited c bound).heap.perform d
            (call ((w.limited c bound).heap.terms d)) =
          (.error r, heap)

section Within

variable {α : Type}
variable {call : Terms → Steps (Except Refusal α)}
variable {a : α}
variable {k : Counters}
variable {ns : List Notice}

private theorem perform_of_run
    {r : Except Refusal α}
    {s : Steps (Except Refusal α)}
    (hRun : s.run (w.heap.counters d) [] = (r, k, ns)) :
    w.heap.perform d s = (r, w.heap.tally d k ns) := by
  rw [Heap.perform_eq, hRun]

private theorem limited_perform_of_run
    {r : Except Refusal α}
    {s : Steps (Except Refusal α)}
    (hRun : s.run (w.heap.counters d) [] = (r, k, ns))
    (bound : UInt64) :
    (w.limited c bound).heap.perform d s =
      (r, (w.heap.tally d k ns).limited c bound) := by
  change (w.heap.limited c bound).perform d s = _
  rw [Heap.limited_perform, perform_of_run hRun]

/- The collector with the limit follows its terms. -/
private theorem within_self
    {high : UInt64}
    (hUnlimited : w.Unlimited c)
    (hScales :
      Terms.Scales call (w.heap.terms c) (w.heap.counters c)
        [] (a, k, ns) high) :
    w.Within call c c (a, w.heap.tally c k ns) high := by
  have hTerms :
      ∀ bound, (w.limited c bound).heap.terms c =
        (w.heap.terms c).within bound :=
    Heap.terms_limited_self hUnlimited.has
  constructor
  · intro bound hLe
    rw [hTerms]
    exact limited_perform_of_run (hScales.same bound hLe) bound
  · intro bound hLt
    rcases hScales.less bound hLt with ⟨r, k', ns', hRefused⟩
    rw [hTerms]
    exact ⟨r, _, limited_perform_of_run hRefused bound⟩

/- Every other collector is none the wiser. -/
private theorem within_of_ne
    (hNe : d ≠ c)
    (hRun :
      (call (w.heap.terms d)).run (w.heap.counters d) [] =
        (.ok a, k, ns)) :
    w.Within call c d (a, w.heap.tally d k ns) 0 := by
  constructor
  · intro bound _
    have hTerms :
        (w.limited c bound).heap.terms d = w.heap.terms d :=
      Heap.terms_limited_of_ne w.heap hNe bound
    rw [hTerms]
    exact limited_perform_of_run hRun bound
  · intro bound hLt
    exact absurd hLt UInt64.not_lt_zero

end Within

/-
  A block that was leased without a limit: within a limit it
  is leased in the same way, or refused because of what would
  be live with it.
-/
theorem limited_allocate
    {size : UInt64}
    {x : Handle}
    (hUnlimited : w.Unlimited c)
    (hRun : w.allocate d size = (.ok x, w')) :
    ∃ high,
      w.Rises w' c high ∧
        (∀ bound, high ≤ bound →
          (w.limited c bound).allocate d size =
            (.ok x, w'.limited c bound)) ∧
        ∀ bound, bound < high →
          ∃ r w'',
            (w.limited c bound).allocate d size =
              (.error r, w'') := by
  unfold allocate at hRun
  by_cases hHas : w.heap.hasCollector d = true
  · rw [if_pos hHas] at hRun
    rcases hCall :
        ((w.heap.terms d).allocate size).run
          (w.heap.counters d) [] with
      ⟨r, k, ns⟩
    rw [perform_of_run hCall] at hRun
    cases r with
    | error r => cases hRun
    | ok u =>
        cases hRun
        have hWithin :
            ∃ high,
              w.Rises { w with heap := w.heap.tally d k ns }
                  c high ∧
                w.Within (fun t => t.allocate size) c d
                  ((), w.heap.tally d k ns) high := by
          by_cases hd : d = c
          · subst hd
            rcases Terms.within_allocate
                hUnlimited.limit_terms hCall with
              ⟨next, rfl, hScales⟩
            exact
              ⟨next, rises_tally hUnlimited rfl ns,
                within_self hUnlimited hScales⟩
          · exact
              ⟨0, rises_tally_of_ne hUnlimited hd k ns,
                within_of_ne hd hCall⟩
        rcases hWithin with ⟨high, hRises, hSame, hLess⟩
        refine ⟨high, hRises.of_collectors_eq rfl, ?_, ?_⟩
        · intro bound hLe
          unfold allocate
          rw [hasCollector_limited, if_pos hHas,
            hSame bound hLe]
          rfl
        · intro bound hLt
          rcases hLess bound hLt with ⟨r, heap, hRefused⟩
          unfold allocate
          rw [hasCollector_limited, if_pos hHas, hRefused]
          exact ⟨_, _, rfl⟩
  · rw [if_neg hHas] at hRun
    cases hRun

/- The live bytes of a collector that a limit looks at. -/
def level
    (w : World κ)
    (c d : CollectorId) : UInt64 :=
  if d = c then (w.heap.counters d).live else 0

/-
  The bytes announced for an array that was begun without a
  limit: within a limit they are reserved in the same way, or
  refused because of what would be live with them.
-/
theorem limited_openArray
    {s : Shape}
    {hint hinted : UInt64}
    (hUnlimited : w.Unlimited c)
    (hRun : w.openArray d s hint = (.ok hinted, w')) :
    hinted.toNat = hint.toNat * s.width.toNat ∧
      w.Rises w' c 0 ∧
        (∀ bound, w'.level c d ≤ bound →
          (w.limited c bound).openArray d s hint =
            (.ok hinted, w'.limited c bound)) ∧
        ∀ bound, bound < w'.level c d →
          ∃ r w'',
            (w.limited c bound).openArray d s hint =
              (.error r, w'') := by
  unfold openArray at hRun
  by_cases hHas : w.heap.hasCollector d = true
  · rw [if_pos hHas] at hRun
    rcases hCall :
        ((w.heap.terms d).openArray s.width hint).run
          (w.heap.counters d) [] with
      ⟨r, k, ns⟩
    rw [perform_of_run hCall] at hRun
    cases hRun
    have hWithin :
        w.Rises { w with heap := w.heap.tally d k ns } c 0 ∧
          w.Within (fun t => t.openArray s.width hint) c d
            (hinted, w.heap.tally d k ns)
            (level { w with heap := w.heap.tally d k ns } c
              d) := by
      by_cases hd : d = c
      · subst hd
        rcases Terms.within_openArray hUnlimited.limit_terms
            hCall with
          ⟨next, rfl, hScales⟩
        have hLt : d < w.heap.collectors.size := by
          simpa [Heap.hasCollector] using hHas
        have hPeak :
            ((w.heap.counters d).withLive next).peak =
              max (w.peak d) 0 :=
          (max_zero _).symm
        rw [level, if_pos rfl]
        simp only [Heap.counters_tally hLt, if_true]
        exact
          ⟨rises_tally hUnlimited hPeak ns,
            within_self hUnlimited hScales⟩
      · rw [level, if_neg hd]
        exact
          ⟨rises_tally_of_ne hUnlimited hd k ns,
            within_of_ne hd hCall⟩
    rcases hWithin with ⟨hRises, hSame, hLess⟩
    refine
      ⟨Terms.announced_openArray hCall, hRises, ?_, ?_⟩
    · intro bound hLe
      unfold openArray
      rw [hasCollector_limited, if_pos hHas,
        hSame bound hLe]
      rfl
    · intro bound hLt
      rcases hLess bound hLt with ⟨r, heap, hRefused⟩
      unfold openArray
      rw [hasCollector_limited, if_pos hHas, hRefused]
      exact ⟨_, _, rfl⟩
  · rw [if_neg hHas] at hRun
    cases hRun

/-
  An array with at least as many items as announced that was
  finished without a limit: within a limit it is leased in
  the same way, or refused because of what would be live.
-/
theorem limited_closeArray
    {s : Shape}
    {hinted : UInt64}
    {items : List s.Item}
    {x : Handle}
    (hUnlimited : w.Unlimited c)
    (hAnnounced :
      hinted.toNat ≤ items.length * s.width.toNat)
    (hRun :
      w.closeArray d s hinted items = (.ok x, w')) :
    ∃ high,
      w.Rises w' c high ∧ w.level c d ≤ high ∧
        (∀ bound, high ≤ bound →
          (w.limited c bound).closeArray d s hinted items =
            (.ok x, w'.limited c bound)) ∧
        ∀ bound, bound < high →
          ∃ r w'',
            (w.limited c bound).closeArray d s hinted
                items =
              (.error r, w'') := by
  unfold closeArray at hRun
  rcases hCall :
      ((w.heap.terms d).closeArray s.width hinted
        items.length).run (w.heap.counters d) [] with
    ⟨r, k, ns⟩
  rw [perform_of_run hCall] at hRun
  cases r with
  | error r => cases hRun
  | ok size =>
      cases hRun
      have hWithin :
          ∃ high,
            w.Rises { w with heap := w.heap.tally d k ns } c
                high ∧
              w.level c d ≤ high ∧
              w.Within
                (fun t =>
                  t.closeArray s.width hinted items.length)
                c d (size, w.heap.tally d k ns) high := by
        by_cases hd : d = c
        · subst hd
          rcases Terms.within_closeArray
              hUnlimited.limit_terms hAnnounced hCall with
            ⟨next, rfl, hLive, hScales⟩
          rw [level, if_pos rfl]
          exact
            ⟨next, rises_tally hUnlimited rfl ns, hLive,
              within_self hUnlimited hScales⟩
        · rw [level, if_neg hd]
          exact
            ⟨0, rises_tally_of_ne hUnlimited hd k ns,
              UInt64.le_refl 0, within_of_ne hd hCall⟩
      rcases hWithin with
        ⟨high, hRises, hLevel, hSame, hLess⟩
      have hCollectors :
          ({ w with heap := w.heap.tally d k ns }.store
              ⟨d, size⟩ s items).2.heap.collectors =
            (w.heap.tally d k ns).collectors := by
        rcases heap_store
            { w with heap := w.heap.tally d k ns } ⟨d, size⟩ s
            items with
          ⟨contents, hHeap⟩
        rw [hHeap]
        rfl
      refine
        ⟨high, hRises.of_collectors_eq hCollectors, hLevel,
          ?_, ?_⟩
      · intro bound hLe
        have hStore :=
          limited_store
            { w with heap := w.heap.tally d k ns } c bound
            ⟨d, size⟩ s items
        unfold closeArray
        rw [hSame bound hLe]
        exact
          congrArg (fun r => (Except.ok r.1, r.2)) hStore
      · intro bound hLt
        rcases hLess bound hLt with ⟨r, heap, hRefused⟩
        unfold closeArray
        rw [hRefused]
        exact ⟨_, _, rfl⟩

end World

end LeasedHeap

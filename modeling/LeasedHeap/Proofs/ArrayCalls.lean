import LeasedHeap.Sequence
import LeasedHeap.Proofs.Bounds

/-
  Array calls, from the hint to the lease.

  A call first reserves what the hint announces; what it
  refuses is refused before any item is pulled.  Then the
  source runs, and may do anything that a program may.  At
  last the call settles for the items that came: fewer than
  announced, as many, or more, which asks for the rest.

  The size of an item is any word, and a hint need not be
  true.

  Main declarations:
    * `Terms.Affords`
    * `Heap.perform_openArray`
    * `Heap.perform_closeArray_leased` and
      `Heap.perform_closeArray_refused`
    * `Course` and `World.course`
    * `World.exec_makeArray`
    * `World.Makes`
    * `Moment.array_calls_are_exact`
-/

namespace LeasedHeap

------------------------------------------------------------
-- Requests
------------------------------------------------------------

/-
  So many bytes can be live on top of those that are, and the
  underlying allocator has them.
-/
def Terms.Affords
    (t : Terms)
    (live bytes : Nat) : Prop :=
  t.limit.Allows (live + bytes) ∧
    t.grants (UInt64.ofNat bytes) = true

/-
  Items are no more than announced, or fit on top of what is
  live without the call.
-/
def World.Fits
    (limit : Limit)
    (width hint : UInt64)
    (rest count : Nat) : Prop :=
  count ≤ hint.toNat ∨
    limit.Allows (rest + count * width.toNat)

/- As many items as announced take what was reserved at most. -/
private theorem mul_le_reserved
    {width hint hinted : UInt64}
    {count : Nat}
    (hHinted : hinted.toNat = hint.toNat * width.toNat)
    (hFew : count ≤ hint.toNat) :
    count * width.toNat ≤ hinted.toNat := by
  rw [hHinted]
  exact Nat.mul_le_mul_right _ hFew

/- What items that fit take is a word. -/
theorem World.Fits.lt_size
    {limit : Limit}
    {width hint hinted : UInt64}
    {rest count : Nat}
    (hFits : Fits limit width hint rest count)
    (hHinted : hinted.toNat = hint.toNat * width.toNat) :
    count * width.toNat < UInt64.size := by
  rcases hFits with hFew | hMany
  · exact
      Nat.lt_of_le_of_lt (mul_le_reserved hHinted hFew)
        hinted.toNat_lt_size
  · exact Nat.lt_of_le_of_lt (Nat.le_add_left _ _) hMany.1

/- What they take can be live in place of what was reserved. -/
theorem World.Fits.allows
    {limit : Limit}
    {width hint hinted : UInt64}
    {live count : Nat}
    (hFits :
      Fits limit width hint (live - hinted.toNat) count)
    (hHinted : hinted.toNat = hint.toNat * width.toNat)
    (hLe : hinted.toNat ≤ live)
    (hAllows : limit.Allows live) :
    limit.Allows
      (live - hinted.toNat + count * width.toNat) := by
  rcases hFits with hFew | hMany
  · have hMost := mul_le_reserved hHinted hFew
    exact hAllows.of_le (by omega)
  · exact hMany

/- What can be afforded is secured. -/
theorem Terms.exists_secured_iff
    {t : Terms}
    {c : Counters}
    {bytes : UInt64} :
    (∃ next, t.secured? c bytes = some next) ↔
      t.Affords c.live.toNat bytes.toNat := by
  unfold Affords secured?
  rw [UInt64.ofNat_toNat, ← Counters.exists_room_iff]
  cases t.grants bytes <;> simp

/- Bytes that are secured are added to those that are live. -/
theorem Terms.toNat_of_secured?
    {t : Terms}
    {c : Counters}
    {bytes next : UInt64}
    (hSome : t.secured? c bytes = some next) :
    next.toNat = c.live.toNat + bytes.toNat := by
  unfold secured? at hSome
  split at hSome
  · exact (Counters.room?_eq_some_iff.mp hSome).1
  · cases hSome

namespace Heap

variable {κ : Type}
variable {h : Heap κ}
variable {c : CollectorId}

/- The bytes of a collector that are live. -/
def live
    (h : Heap κ)
    (c : CollectorId) : Nat :=
  (h.counters c).live.toNat

/-
  An array call is opened with what its source announces, or
  refused if that cannot be afforded.
-/
theorem perform_openArray
    (h : Heap κ)
    (c : CollectorId)
    (width hint : UInt64) :
    ((h.terms c).Affords (h.live c)
          (hint.toNat * width.toNat) ∧
        ∃ hinted next,
          hinted.toNat = hint.toNat * width.toNat ∧
            next.toNat = h.live c + hinted.toNat ∧
            h.perform c ((h.terms c).openArray width hint) =
              (.ok hinted,
                h.tally c ((h.counters c).withLive next)
                  [])) ∨
      (¬ (h.terms c).Affords (h.live c)
          (hint.toNat * width.toNat) ∧
        ∃ r, r = (h.terms c).refusal (h.counters c)
              (Word.satMul hint width) ∧
          h.perform c ((h.terms c).openArray width hint) =
            (.error r,
              h.tally c (h.counters c) [.refused r])) := by
  rw [perform_eq, Terms.run_openArray, Word.satMul]
  cases hMul : Word.mul? hint width with
  | none =>
      have hWide := Word.ofNat?_eq_none_iff.mp hMul
      refine Or.inr ⟨?_, _, rfl, rfl⟩
      rintro ⟨hAllows, _⟩
      have hWord := hAllows.1
      omega
  | some hinted =>
      have hBytes := Word.mul?_eq_some_iff.mp hMul
      rw [← hBytes]
      simp only [Option.getD_some]
      cases hSecured :
          (h.terms c).secured? (h.counters c) hinted with
      | some next =>
          exact
            Or.inl
              ⟨Terms.exists_secured_iff.mp ⟨_, hSecured⟩,
                hinted, next, rfl,
                Terms.toNat_of_secured? hSecured, rfl⟩
      | none =>
          refine Or.inr ⟨?_, _, rfl, rfl⟩
          intro hAffords
          rcases Terms.exists_secured_iff.mpr hAffords with
            ⟨next, hSome⟩
          rw [hSecured] at hSome
          cases hSome

/- Items that fit are leased what they take. -/
theorem perform_closeArray_leased
    {width hint hinted : UInt64}
    {count : Nat}
    (hHinted : hinted.toNat = hint.toNat * width.toNat)
    (hLe : hinted ≤ (h.counters c).live)
    (hAdmits :
      (h.terms c).limit.admits (h.counters c).live)
    (hFits :
      World.Fits (h.terms c).limit width hint
        (h.live c - hinted.toNat) count) :
    ∃ bytes next,
      bytes.toNat = count * width.toNat ∧
        next.toNat =
          h.live c - hinted.toNat + bytes.toNat ∧
        h.perform c
            ((h.terms c).closeArray width hinted count) =
          (.ok bytes,
            h.tally c
              (((h.counters c).withLive next).leased
                bytes next)
              [.allocated bytes next]) := by
  rw [perform_eq, Terms.run_closeArray]
  cases hSize : Word.ofNat? (count * width.toNat) with
  | none =>
      exact
        absurd (Word.ofNat?_eq_none_iff.mp hSize)
          (Nat.not_le.mpr (hFits.lt_size hHinted))
  | some size =>
      have hBytes := Word.ofNat?_eq_some_iff.mp hSize
      simp only
      by_cases hMore : hinted ≤ size
      · -- the rest is reserved, be it nothing at all
        have hSum := Word.toNat_add_rest hLe hMore
        have hAllows :
            (h.terms c).limit.Allows
              ((h.counters c).live.toNat +
                (size - hinted).toNat) := by
          rw [hSum, hBytes]
          exact
            hFits.allows hHinted
              (UInt64.le_iff_toNat_le.mp hLe)
              (Limit.allows_toNat.mpr hAdmits)
        rcases Counters.exists_room_iff.mpr hAllows with
          ⟨next, hNext⟩
        rw [if_pos hMore, hNext]
        exact
          ⟨size, next, hBytes,
            (Counters.room?_eq_some_iff.mp hNext).1.trans hSum,
            rfl⟩
      · have hLess := UInt64.le_of_lt (UInt64.not_le.mp hMore)
        rw [if_neg hMore]
        exact
          ⟨size, _, hBytes, Word.toNat_sub_spare hLe hLess,
            rfl⟩

/- Otherwise the call is refused, and its own is given back. -/
theorem perform_closeArray_refused
    {width hint hinted : UInt64}
    {count : Nat}
    (hHinted : hinted.toNat = hint.toNat * width.toNat)
    (hLe : hinted ≤ (h.counters c).live)
    (hNot :
      ¬ World.Fits (h.terms c).limit width hint
          (h.live c - hinted.toNat) count) :
    ∃ rest r first,
      rest.toNat = h.live c - hinted.toNat ∧
        r = (h.terms c).refusal
          ((h.counters c).withLive rest)
          (Word.satOfNat (count * width.toNat)) ∧
        h.perform c
            ((h.terms c).closeArray width hinted count) =
          (.error r,
            h.tally c ((h.counters c).withLive rest)
              (.refused r :: first)) := by
  have hRest :
      ((h.counters c).live - hinted).toNat =
        h.live c - hinted.toNat :=
    UInt64.toNat_sub_of_le _ _ hLe
  rcases not_or.mp hNot with ⟨hMany, hNoRoom⟩
  rw [perform_eq, Terms.run_closeArray, Word.satOfNat]
  cases hSize : Word.ofNat? (count * width.toNat) with
  | none => exact ⟨_, _, [], hRest, rfl, rfl⟩
  | some size =>
      have hBytes := Word.ofNat?_eq_some_iff.mp hSize
      have hMore : hinted ≤ size := by
        rw [UInt64.le_iff_toNat_le, hHinted, hBytes]
        exact Nat.mul_le_mul_right _ (Nat.le_of_not_le hMany)
      have hNone :
          (h.counters c).room? (h.terms c).limit
            (size - hinted) = none := by
        refine Counters.room?_eq_none_iff.mpr ?_
        intro hAllows
        refine hNoRoom ?_
        rw [← hBytes]
        rw [Word.toNat_add_rest hLe hMore] at hAllows
        exact hAllows
      simp only [if_pos hMore, hNone]
      exact ⟨_, _, [_], hRest, rfl, rfl⟩

/- A refused request leaves the collectors as they are. -/
theorem collectors_tally_self
    (h : Heap κ)
    (c : CollectorId)
    (ns : List Notice) :
    (h.tally c (h.counters c) ns).collectors =
      h.collectors := by
  unfold tally
  apply Array.ext
  · simp
  · intro d hd hd'
    by_cases hc : c = d
    · subst hc
      simp [counters, collector, hd']
    · exact Array.getElem_setIfInBounds_ne _ hc

theorem live_tally
    {counters : Counters}
    (hc : c < h.collectors.size)
    (ns : List Notice) :
    (h.tally c counters ns).live c = counters.live.toNat := by
  rw [live, counters_tally hc, if_pos rfl]

end Heap

------------------------------------------------------------
-- The Course of a Call
------------------------------------------------------------

/- How an array call goes. -/
inductive Course (α : Type) where
/- Refused before any item was pulled. -/
| unasked : Refusal → Course α
/- Refused after all of its items were pulled. -/
| outgrown : Refusal → List α → Course α
/- Leased memory for all of its items. -/
| leased : Lease → List α → Course α

namespace World

variable {κ α : Type}
variable {applies : Applies κ}

/- A world with other live bytes, and what a call told. -/
def adjusted
    (w : World κ)
    (c : CollectorId)
    (live : UInt64)
    (ns : List Notice) : World κ :=
  { w with
    heap :=
      w.heap.tally c ((w.heap.counters c).withLive live) ns }

/- Settle for the items that were pulled. -/
def conclude
    (w : World κ)
    (c : CollectorId)
    (width hinted : UInt64)
    (xs : List α) : Course α × World κ :=
  match w.heap.perform c
      ((w.heap.terms c).closeArray width hinted
        xs.length) with
  | (.error r, heap) => (.outgrown r xs, { w with heap })
  | (.ok bytes, heap) =>
      (.leased ⟨c, bytes⟩ xs, { w with heap })

/-
  An array call on items of any width, up to what becomes of
  the items.
-/
def course
    (applies : Applies κ)
    (w : World κ)
    (c : CollectorId)
    (width hint : UInt64)
    (items : Program κ (List α)) :
    Option (Course α × World κ) :=
  match w.heap.perform c
      ((w.heap.terms c).openArray width hint) with
  | (.error r, heap) => some (.unasked r, { w with heap })
  | (.ok hinted, heap) =>
      match items.exec applies { w with heap } with
      | none => none
      | some (xs, w) => some (w.conclude c width hinted xs)

/- What becomes of the items. -/
def settle
    (w : World κ)
    (s : Shape)
    (owned : List Handle) :
    Course s.Item → Except Refusal Handle × World κ
| .unasked r => (.error r, w.dropAll (owned ++ s.ownHandles))
| .outgrown r xs =>
    (.error r, w.dropAll (s.handles xs ++ s.ownHandles))
| .leased l xs =>
    let (x, w) := w.store l s xs
    (.ok x, w)

/- An array call takes its course, and settles. -/
theorem exec_makeArray
    {w : World κ}
    {c : CollectorId}
    (hHas : w.heap.hasCollector c = true)
    (s : Shape)
    (hint : UInt64)
    (owned : List Handle)
    (items : Program κ (List s.Item)) :
    (Program.makeArray c s hint owned items).exec applies w =
      (w.course applies c s.width hint items).map
        (fun x => x.2.settle s owned x.1) := by
  simp only [Program.makeArray, Program.exec, openArray,
    if_pos hHas, course]
  rcases w.heap.perform c
      ((w.heap.terms c).openArray s.width hint) with
    ⟨r | hinted, heap⟩
  · rfl
  · simp only
    cases items.exec applies { w with heap } with
    | none => rfl
    | some given =>
        rcases given with ⟨xs, pulled⟩
        simp only [closeArray, conclude]
        rcases pulled.heap.perform c
            ((pulled.heap.terms c).closeArray s.width hinted
              xs.length) with
          ⟨r | bytes, heap⟩ <;> rfl

/- A collector that cannot afford the hint asks for nothing. -/
theorem course_unasked
    {w : World κ}
    {c : CollectorId}
    {width hint : UInt64}
    (hNot :
      ¬ (w.heap.terms c).Affords (w.heap.live c)
        (hint.toNat * width.toNat)) :
    ∃ r,
      r = (w.heap.terms c).refusal (w.heap.counters c)
            (Word.satMul hint width) ∧
        ∀ {α : Type} (items : Program κ (List α)),
          w.course applies c width hint items =
            some
              (.unasked r,
                w.adjusted c (w.heap.counters c).live
                  [.refused r]) := by
  rcases w.heap.perform_openArray c width hint with
    ⟨hAffords, _⟩ | ⟨_, r, hr, hCall⟩
  · exact absurd hAffords hNot
  · refine ⟨r, hr, ?_⟩
    intro α items
    rw [course, hCall]
    rfl

/-
  One that can reserves what was announced, and lets the
  source run.
-/
theorem course_asked
    {w : World κ}
    {c : CollectorId}
    {width hint : UInt64}
    (hAffords :
      (w.heap.terms c).Affords (w.heap.live c)
        (hint.toNat * width.toNat)) :
    ∃ hinted next,
      hinted.toNat = hint.toNat * width.toNat ∧
        next.toNat = w.heap.live c + hinted.toNat ∧
        ∀ {α : Type} (items : Program κ (List α)),
          w.course applies c width hint items =
            (items.exec applies (w.adjusted c next [])).map
              (fun x => x.2.conclude c width hinted x.1) := by
  rcases w.heap.perform_openArray c width hint with
    ⟨_, hinted, next, hHinted, hNext, hCall⟩ | ⟨hNot, _⟩
  · refine ⟨hinted, next, hHinted, hNext, ?_⟩
    intro α items
    rw [course, hCall]
    change
      (match items.exec applies (w.adjusted c next []) with
        | none => none
        | some (xs, w) =>
            some (w.conclude c width hinted xs)) = _
    cases items.exec applies (w.adjusted c next []) <;> rfl
  · exact absurd hAffords hNot

end World

------------------------------------------------------------
-- Calls that Are Under Way
------------------------------------------------------------

namespace Moment

variable {κ α : Type}
variable {provides : UInt64 → Bool}
variable {w opened pulled : World κ}
variable {reserved : List Lease}
variable {c : CollectorId}

/-
  To open a call on items of any width is to open one on as
  many bytes.
-/
theorem Reached.openArray
    {hinted next : UInt64}
    (hReached : Reached provides ⟨w, [], reserved⟩)
    (hHas : w.heap.hasCollector c = true)
    (hAffords :
      (w.heap.terms c).Affords (w.heap.live c) hinted.toNat)
    (hNext : next.toNat = w.heap.live c + hinted.toNat) :
    Reached provides
      ⟨w.adjusted c next [], [],
        ⟨c, hinted⟩ :: reserved⟩ := by
  have hOne : (Shape.numbers .byte).width.toNat = 1 := rfl
  have hStep :=
    Leads.single ⟨w, [], reserved⟩
      (.openArray c (.numbers .byte) hinted)
  rcases w.heap.perform_openArray c
      (Shape.numbers .byte).width hinted with
    ⟨_, hinted', next', hHinted', hNext', hCall⟩ |
      ⟨hNot, _⟩
  · rw [hOne, Nat.mul_one] at hHinted'
    cases UInt64.toNat_inj.mp hHinted'
    cases UInt64.toNat_inj.mp (hNext.trans hNext'.symm)
    simp only [Moment.step, Moment.start, World.openArray,
      if_pos hHas, hCall] at hStep
    exact hReached.leads hStep
  · rw [hOne, Nat.mul_one] at hNot
    exact absurd hAffords hNot

/- The terms of a collector are those of the start of a call. -/
theorem Reached.terms_eq
    {m m' : Moment κ}
    (hReached : m.Reached provides)
    (hLeads : m.Leads m')
    (hHas : m.world.heap.hasCollector c = true) :
    m'.world.heap.terms c = m.world.heap.terms c := by
  rcases hLeads with ⟨moves, rfl⟩
  refine (hReached.sound.abides_run moves).terms c ?_
  simpa [Heap.hasCollector] using hHas

end Moment

------------------------------------------------------------
-- Items that Handles Hold
------------------------------------------------------------

namespace World

variable {κ α : Type}

/- Handles, no two of them the same, that hold values. -/
def Carries
    (w : World κ)
    (xs : List Handle)
    (vs : List Value) : Prop :=
  xs.Nodup ∧ xs.map w.value? = vs.map some

variable {w : World κ}
variable {xs : List Handle}
variable {vs : List Value}

theorem Carries.length_eq
    (hCarries : w.Carries xs vs) :
    vs.length = xs.length := by
  have hLength := congrArg List.length hCarries.2
  simpa using hLength.symm

/- Every one of the handles holds a value. -/
theorem Carries.exists_value
    (hCarries : w.Carries xs vs)
    {y : Handle}
    (hMem : y ∈ xs) :
    ∃ v, w.value? y = some v := by
  have hValue := List.mem_map_of_mem (f := w.value?) hMem
  rw [hCarries.2, List.mem_map] at hValue
  rcases hValue with ⟨v, _, hv⟩
  exact ⟨v, hv.symm⟩

/- Another handle is as it was when some are used up. -/
theorem ref?_erase
    (w : World κ)
    (x y : Handle) :
    ({ w with held := w.held.erase x.key }).ref? y =
      if y = x then none else w.ref? y := by
  unfold ref?
  rw [Table.get?_erase]
  rcases x with ⟨j⟩
  rcases y with ⟨k⟩
  simp

/- The values of handles are taken in order. -/
theorem takeValues_of_carries
    (hCarries : w.Carries xs vs) :
    (w.takeValues xs).1 = vs ∧
      ∀ y,
        (w.takeValues xs).2.ref? y =
          if y ∈ xs then none else w.ref? y := by
  induction xs generalizing w vs with
  | nil =>
      cases vs with
      | nil => exact ⟨rfl, fun _ => rfl⟩
      | cons v vs => cases hCarries.2
  | cons x xs ih =>
      cases vs with
      | nil => cases hCarries.2
      | cons v vs =>
          rcases hCarries with ⟨hNodup, hValues⟩
          rw [List.nodup_cons] at hNodup
          rw [List.map_cons, List.map_cons,
            List.cons.injEq] at hValues
          have hRest :
              ({ w with
                  held := w.held.erase x.key }).Carries xs
                vs := by
            refine ⟨hNodup.2, ?_⟩
            rw [← hValues.2]
            apply List.map_congr_left
            intro y hy
            have hNe : y ≠ x := by
              rintro rfl
              exact hNodup.1 hy
            unfold value?
            rw [ref?_erase, if_neg hNe]
          rcases ih hRest with ⟨hTaken, hOthers⟩
          unfold takeValues
          simp only [hValues.1]
          refine ⟨by rw [hTaken], ?_⟩
          intro y
          rw [hOthers y, ref?_erase]
          by_cases hx : y = x
          · simp [hx]
          · simp [hx]

/-
  What a shape makes of items: the contents of the object,
  and what a handle to it refers to.  Numbers fit the items
  of the array; values are those that the handles hold.
-/
inductive Makes
    (w : World κ) :
    (s : Shape) → List s.Item → Contents →
    (ObjectId → Ref) → Prop where
| numbers {width : Width} {ns : List UInt64} :
    (∀ n ∈ ns, width.fit n = n) →
    Makes w (.numbers width) ns
      (.numbers width ns.toArray) .array
| slots {xs : List Handle} {vs : List Value} :
    w.Carries xs vs →
    Makes w .slots xs (.slots vs) .array
| list {xs : List Handle} {vs : List Value} :
    w.Carries xs vs →
    Makes w .list xs (.elements vs)
      (fun p => .value (.list p))
| closure
    {code : Handle} {q : ObjectId}
    {xs : List Handle} {vs : List Value} :
    w.Carries xs vs →
    w.codeOf? code = some q →
    Makes w (.closure code) xs (.elements vs)
      (fun p => .value (.closure ⟨p, q⟩))

variable {s : Shape}
variable {items : List s.Item}
variable {contents : Contents}
variable {ref : ObjectId → Ref}

/- There are as many items as were given. -/
theorem Makes.length_eq
    (hMakes : w.Makes s items contents ref) :
    contents.length = items.length := by
  cases hMakes with
  | numbers hFit => simp [Contents.length]
  | slots hCarries => exact hCarries.length_eq
  | list hCarries => exact hCarries.length_eq
  | closure hCarries hCode => exact hCarries.length_eq

/- It is all a matter of the handles. -/
theorem Makes.of_held
    {w' : World κ}
    (hMakes : w.Makes s items contents ref)
    (hHeld : w'.held = w.held) :
    w'.Makes s items contents ref := by
  have hRef : w'.ref? = w.ref? := by
    funext x
    unfold ref?
    rw [hHeld]
  have hCarries :
      ∀ {xs vs}, w.Carries xs vs → w'.Carries xs vs := by
    intro xs vs hCarries
    unfold Carries value? at hCarries ⊢
    rw [hRef]
    exact hCarries
  cases hMakes with
  | numbers hFit => exact .numbers hFit
  | slots hGiven => exact .slots (hCarries hGiven)
  | list hGiven => exact .list (hCarries hGiven)
  | closure hGiven hCode =>
      refine .closure (hCarries hGiven) ?_
      unfold codeOf? at hCode ⊢
      rw [hRef]
      exact hCode

/- An object that is made has a handle. -/
private theorem issue_of_heap_eq
    {w' : World κ}
    (hHeap : w'.heap = w.heap)
    (cell : Cell κ)
    (ref : ObjectId → Ref) :
    (w'.issue cell ref).2.heap = w.heap.issue cell ∧
      (w'.issue cell ref).2.ref? (w'.issue cell ref).1 =
        some (ref w.heap.next) := by
  rw [← hHeap]
  refine ⟨rfl, ?_⟩
  simp [ref?, issue, hold, Table.get?_insert]

/- The items are stored in a new object, under the lease. -/
theorem Makes.store
    (hMakes : w.Makes s items contents ref)
    (lease : Lease) :
    (w.store lease s items).2.heap =
        w.heap.issue (.payload ⟨lease, contents⟩) ∧
      (w.store lease s items).2.ref?
          (w.store lease s items).1 =
        some (ref w.heap.next) := by
  cases hMakes with
  | @numbers width ns hFit =>
      have hSame : ns.map width.fit = ns :=
        (List.map_congr_left hFit).trans (List.map_id' ns)
      simp only [World.store, hSame]
      exact issue_of_heap_eq rfl _ _
  | @slots xs vs hCarries =>
      simp only [World.store,
        (takeValues_of_carries hCarries).1]
      exact issue_of_heap_eq (heap_takeValues w xs) _ _
  | @list xs vs hCarries =>
      simp only [World.store,
        (takeValues_of_carries hCarries).1]
      exact
        issue_of_heap_eq (heap_takeValues w xs) _
          (fun p => .value (.list p))
  | @closure code q xs vs hCarries hCode =>
      rcases takeValues_of_carries hCarries with
        ⟨hTaken, hOthers⟩
      -- a handle of a code is none of those of values
      have hApart : code ∉ xs := by
        intro hMem
        rcases hCarries.exists_value hMem with ⟨v, hv⟩
        have hRef := ref?_of_value? hv
        rw [ref?_of_codeOf? hCode] at hRef
        cases hRef
      have hStill :
          (w.takeValues xs).2.codeOf? code = some q := by
        unfold codeOf?
        rw [hOthers code, if_neg hApart,
          ref?_of_codeOf? hCode]
      have hHeap :
          ({ (w.takeValues xs).2 with
              held :=
                (w.takeValues xs).2.held.erase
                  code.key }).heap = w.heap :=
        heap_takeValues w xs
      simp only [World.store, hTaken, hStill]
      exact
        issue_of_heap_eq hHeap _
          (fun p => .value (.closure ⟨p, q⟩))

end World

------------------------------------------------------------
-- Exact Calls
------------------------------------------------------------

namespace World

variable {κ α : Type}

/- Nothing but accounts has changed. -/
def Keeps (w w' : World κ) : Prop :=
  w'.heap.objects = w.heap.objects ∧ w'.held = w.held

/-
  How a call ends whose source has given its items and left
  the world `pulled`.  Without the call `rest` bytes are live.
  It is leased what the items take exactly if they fit.
-/
structure Concludes
    (pulled : World κ)
    (c : CollectorId)
    (limit : Limit)
    (width hint : UInt64)
    (rest : Nat)
    (xs : List α)
    (e : Course α × World κ) : Prop where
  keeps : pulled.Keeps e.2
  leased :
    Fits limit width hint rest xs.length →
      ∃ bytes,
        bytes.toNat = xs.length * width.toNat ∧
          e.1 = .leased ⟨c, bytes⟩ xs ∧
          e.2.heap.live c = rest + bytes.toNat
  outgrown :
    ¬ Fits limit width hint rest xs.length →
      ∃ r, e.1 = .outgrown r xs ∧ e.2.heap.live c = rest

/-
  How array calls with a width and a hint go, whatever source
  they have.  What they announce is reserved if it can be
  afforded, and only then is the source asked for anything.
-/
structure CallsExactly
    (applies : Applies κ)
    (w : World κ)
    (c : CollectorId)
    (width hint : UInt64) : Prop where
  unasked :
    ¬ (w.heap.terms c).Affords (w.heap.live c)
        (hint.toNat * width.toNat) →
      ∃ r, ∃ w' : World κ,
        w.Keeps w' ∧
          w'.heap.collectors = w.heap.collectors ∧
          ∀ {α : Type} (items : Program κ (List α)),
            w.course applies c width hint items =
              some (.unasked r, w')
  asked :
    (w.heap.terms c).Affords (w.heap.live c)
        (hint.toNat * width.toNat) →
      ∃ opened : World κ,
        w.Keeps opened ∧
          opened.heap.live c =
            w.heap.live c + hint.toNat * width.toNat ∧
          ∀ {α : Type} (items : Program κ (List α)),
            (items.exec applies opened = none →
              w.course applies c width hint items = none) ∧
            ∀ xs pulled,
              items.exec applies opened = some (xs, pulled) →
                ∃ (rest : Nat) (e : Course α × World κ),
                  (rest : Int) =
                      w.heap.live c +
                        (pulled.heap.live c -
                          opened.heap.live c) ∧
                    w.course applies c width hint items =
                      some e ∧
                    pulled.Concludes c (w.heap.terms c).limit
                      width hint rest xs e

/-
  What a call with a shape comes to at its end.  Items that
  fit are in a new object, in order and all of them, under a
  lease of just the bytes that they take; others are dropped.
-/
structure Ends
    (pulled : World κ)
    (c : CollectorId)
    (limit : Limit)
    (s : Shape)
    (hint : UInt64)
    (rest : Nat)
    (xs : List s.Item)
    (out : Except Refusal Handle × World κ) : Prop where
  made :
    Fits limit s.width hint rest xs.length →
      ∃ x bytes,
        out.1 = .ok x ∧
          bytes.toNat = xs.length * s.width.toNat ∧
          out.2.heap.live c = rest + bytes.toNat ∧
          ∀ contents ref,
            pulled.Makes s xs contents ref →
              contents.length = xs.length ∧
                out.2.ref? x = some (ref pulled.heap.next) ∧
                out.2.heap.payload? pulled.heap.next =
                  some ⟨⟨c, bytes⟩, contents⟩
  refused :
    ¬ Fits limit s.width hint rest xs.length →
      ∃ r, ∃ w' : World κ,
        pulled.Keeps w' ∧
          w'.heap.live c = rest ∧
          out =
            (.error r,
              w'.dropAll (s.handles xs ++ s.ownHandles))

/-
  How an array call with a shape goes.  A call that is
  refused before it asks its source drops the source.
-/
structure MakesExactly
    (applies : Applies κ)
    (w : World κ)
    (c : CollectorId)
    (s : Shape)
    (hint : UInt64)
    (owned : List Handle)
    (items : Program κ (List s.Item)) : Prop where
  unasked :
    ¬ (w.heap.terms c).Affords (w.heap.live c)
        (hint.toNat * s.width.toNat) →
      ∃ r, ∃ w' : World κ,
        w.Keeps w' ∧
          w'.heap.collectors = w.heap.collectors ∧
          (Program.makeArray c s hint owned items).exec
              applies w =
            some
              (.error r, w'.dropAll (owned ++ s.ownHandles))
  asked :
    (w.heap.terms c).Affords (w.heap.live c)
        (hint.toNat * s.width.toNat) →
      ∃ opened : World κ,
        w.Keeps opened ∧
          opened.heap.live c =
            w.heap.live c + hint.toNat * s.width.toNat ∧
          (items.exec applies opened = none →
            (Program.makeArray c s hint owned items).exec
              applies w = none) ∧
          ∀ xs pulled,
            items.exec applies opened = some (xs, pulled) →
              ∃ (rest : Nat)
                  (out : Except Refusal Handle × World κ),
                (rest : Int) =
                    w.heap.live c +
                      (pulled.heap.live c -
                        opened.heap.live c) ∧
                  (Program.makeArray c s hint owned
                      items).exec applies w = some out ∧
                  pulled.Ends c (w.heap.terms c).limit s hint
                    rest xs out

variable {applies : Applies κ}
variable {w pulled : World κ}
variable {c : CollectorId}
variable {s : Shape}
variable {hint : UInt64}

/- A call that has concluded settles. -/
theorem Concludes.ends
    {limit : Limit}
    {rest : Nat}
    {xs : List s.Item}
    {e : Course s.Item × World κ}
    (hConcludes :
      pulled.Concludes c limit s.width hint rest xs e)
    (owned : List Handle) :
    pulled.Ends c limit s hint rest xs
      (e.2.settle s owned e.1) := by
  rcases e with ⟨out, closed⟩
  rcases hConcludes.keeps with ⟨hObjects, hHeld⟩
  constructor
  · intro hFits
    rcases hConcludes.leased hFits with
      ⟨bytes, hBytes, rfl, hLive⟩
    refine ⟨_, bytes, rfl, hBytes, ?_, ?_⟩
    · rcases heap_store closed ⟨c, bytes⟩ s xs with
        ⟨contents, hStore⟩
      rw [← hLive]
      change (closed.store ⟨c, bytes⟩ s xs).2.heap.live c = _
      rw [hStore]
      rfl
    · intro contents ref hMakes
      rcases (hMakes.of_held hHeld).store ⟨c, bytes⟩ with
        ⟨hHeap, hRef⟩
      have hNext : closed.heap.next = pulled.heap.next :=
        congrArg Table.issued hObjects
      rw [hNext] at hRef
      refine ⟨hMakes.length_eq, hRef, ?_⟩
      change
        (closed.store ⟨c, bytes⟩ s xs).2.heap.payload? _ = _
      rw [hHeap, ← hNext]
      simp [Heap.payload?, Heap.get?_issue]
  · intro hNot
    rcases hConcludes.outgrown hNot with ⟨r, rfl, hLive⟩
    exact ⟨r, closed, hConcludes.keeps, hLive, rfl⟩

/- Exact calls make exactly what they are given. -/
theorem CallsExactly.makesExactly
    (hExactly : w.CallsExactly applies c s.width hint)
    (hHas : w.heap.hasCollector c = true)
    (owned : List Handle)
    (items : Program κ (List s.Item)) :
    w.MakesExactly applies c s hint owned items := by
  have hMake :
      (Program.makeArray c s hint owned items).exec applies
          w =
        (w.course applies c s.width hint items).map
          (fun x => x.2.settle s owned x.1) :=
    exec_makeArray hHas s hint owned items
  constructor
  · intro hNot
    rcases hExactly.unasked hNot with
      ⟨r, w', hKeeps, hCollectors, hCourse⟩
    rw [hCourse items] at hMake
    exact ⟨r, w', hKeeps, hCollectors, hMake⟩
  · intro hAffords
    rcases hExactly.asked hAffords with
      ⟨opened, hKeeps, hLive, hCourse⟩
    rcases hCourse items with ⟨hNone, hSome⟩
    refine ⟨opened, hKeeps, hLive, ?_, ?_⟩
    · intro hRun
      rw [hMake, hNone hRun]
      rfl
    · intro xs pulled hRun
      rcases hSome xs pulled hRun with
        ⟨rest, e, hRest, hEnd, hConcludes⟩
      rw [hEnd] at hMake
      exact
        ⟨rest, _, hRest, hMake, hConcludes.ends owned⟩

end World

namespace Moment

variable {κ α : Type}
variable {provides : UInt64 → Bool}
variable {w pulled : World κ}
variable {reserved : List Lease}
variable {c : CollectorId}

/- A call concludes with what its source has left of it. -/
theorem Reached.concludes
    {width hint hinted : UInt64}
    (hReached :
      Reached provides
        ⟨pulled, [], ⟨c, hinted⟩ :: reserved⟩)
    (hHinted : hinted.toNat = hint.toNat * width.toNat)
    (xs : List α) :
    hinted.toNat ≤ pulled.heap.live c ∧
      pulled.Concludes c (pulled.heap.terms c).limit width
        hint (pulled.heap.live c - hinted.toNat) xs
        (pulled.conclude c width hinted xs) := by
  have hSound := hReached.sound
  have hc : c < pulled.heap.collectors.size :=
    hSound.balanced.lt_of_reserved List.mem_cons_self
  have hLe : hinted ≤ (pulled.heap.counters c).live :=
    hSound.le_live List.mem_cons_self
  refine ⟨UInt64.le_iff_toNat_le.mp hLe, ?_⟩
  by_cases hFits :
      World.Fits (pulled.heap.terms c).limit width hint
        (pulled.heap.live c - hinted.toNat) xs.length
  · rcases Heap.perform_closeArray_leased hHinted hLe
        (hReached.admits c) hFits with
      ⟨bytes, next, hBytes, hNext, hCall⟩
    have hEnd :
        pulled.conclude c width hinted xs =
          (.leased ⟨c, bytes⟩ xs,
            { pulled with
              heap :=
                pulled.heap.tally c
                  (((pulled.heap.counters c).withLive
                    next).leased bytes next)
                  [.allocated bytes next] }) := by
      rw [World.conclude, hCall]
    rw [hEnd]
    refine ⟨⟨rfl, rfl⟩, ?_, fun hNot => absurd hFits hNot⟩
    intro _
    refine ⟨bytes, hBytes, rfl, ?_⟩
    rw [← hNext]
    exact Heap.live_tally hc _
  · rcases Heap.perform_closeArray_refused hHinted hLe
        hFits with
      ⟨rest, r, first, hRest, _, hCall⟩
    have hEnd :
        pulled.conclude c width hinted xs =
          (.outgrown r xs,
            pulled.adjusted c rest (.refused r :: first)) := by
      rw [World.conclude, hCall]
      rfl
    rw [hEnd]
    refine ⟨⟨rfl, rfl⟩, fun hRoom => absurd hRoom hFits, ?_⟩
    intro _
    refine ⟨r, rfl, ?_⟩
    rw [← hRest]
    exact Heap.live_tally hc _

/-
  When the source has given its items, the call is under way
  still, on the terms that it began with.
-/
theorem Reached.underWay
    {applies : Applies κ}
    {hinted next : UInt64}
    {items : Program κ (List α)}
    {xs : List α}
    (hReached : Reached provides ⟨w, [], reserved⟩)
    (hHas : w.heap.hasCollector c = true)
    (hApplies : Applies.ByMoves applies)
    (hAffords :
      (w.heap.terms c).Affords (w.heap.live c) hinted.toNat)
    (hNext : next.toNat = w.heap.live c + hinted.toNat)
    (hRun :
      items.exec applies (w.adjusted c next []) =
        some (xs, pulled)) :
    Reached provides
        ⟨pulled, [], ⟨c, hinted⟩ :: reserved⟩ ∧
      pulled.heap.terms c = w.heap.terms c := by
  have hOpened := hReached.openArray hHas hAffords hNext
  have hLeads :
      Leads
        ⟨w.adjusted c next [], [], ⟨c, hinted⟩ :: reserved⟩
        ⟨pulled, [], ⟨c, hinted⟩ :: reserved⟩ :=
    leads_exec hApplies hRun
  have hStill :
      (w.adjusted c next []).heap.hasCollector c = true := by
    simpa [Heap.hasCollector, World.adjusted, Heap.tally]
      using hHas
  refine ⟨hOpened.leads hLeads, ?_⟩
  rw [← Heap.terms_tally w.heap c
    ((w.heap.counters c).withLive next) [] c]
  exact hOpened.terms_eq hLeads hStill

/- At every moment without frames, array calls are exact. -/
theorem Reached.callsExactly
    (hReached : Reached provides ⟨w, [], reserved⟩)
    (hHas : w.heap.hasCollector c = true)
    {applies : Applies κ}
    (hApplies : Applies.ByMoves applies)
    (width hint : UInt64) :
    w.CallsExactly applies c width hint := by
  have hc : c < w.heap.collectors.size := by
    simpa [Heap.hasCollector] using hHas
  constructor
  · intro hNot
    rcases World.course_unasked hNot with ⟨r, _, hCourse⟩
    exact
      ⟨r, w.adjusted c (w.heap.counters c).live [.refused r],
        ⟨rfl, rfl⟩, Heap.collectors_tally_self _ _ _,
        fun items => hCourse items⟩
  · intro hAffords
    rcases World.course_asked hAffords with
      ⟨hinted, next, hHinted, hNext, hCourse⟩
    rw [← hHinted] at hAffords
    have hLive :
        (w.adjusted c next []).heap.live c =
          w.heap.live c + hinted.toNat :=
      (Heap.live_tally hc []).trans hNext
    refine
      ⟨w.adjusted c next [], ⟨rfl, rfl⟩, hHinted ▸ hLive, ?_⟩
    intro α items
    rw [hCourse items]
    constructor
    · intro hNone
      rw [hNone]
      rfl
    · intro xs pulled hRun
      rcases hReached.underWay hHas hApplies hAffords hNext
          hRun with ⟨hPulled, hTerms⟩
      rcases hPulled.concludes hHinted xs with ⟨hLe, hEnd⟩
      rw [hTerms] at hEnd
      refine ⟨_, _, ?_, by rw [hRun]; rfl, hEnd⟩
      omega

/-
  In every world that can be reached, whatever calls are
  under way, array calls are exact: for items of any width,
  for any hint, and for any source, which may make, drop and
  apply what it likes while it is asked for items.
-/
theorem array_calls_are_exact
    {moves : List (Move κ)}
    (hHere : (fresh provides).run moves = ⟨w, [], reserved⟩)
    (hHas : w.heap.hasCollector c = true)
    (behaves : Behaves κ)
    (depth : Nat) :
    (∀ width hint,
        w.CallsExactly (World.applyWithin behaves depth) c
          width hint) ∧
      ∀ s hint owned items,
        w.MakesExactly (World.applyWithin behaves depth) c s
          hint owned items := by
  have hReached : Reached provides ⟨w, [], reserved⟩ :=
    ⟨moves, hHere⟩
  have hExactly :=
    hReached.callsExactly hHas
      (byMoves_applyWithin behaves depth)
  refine ⟨hExactly, ?_⟩
  intro s hint owned items
  exact (hExactly s.width hint).makesExactly hHas owned items

/-
  Two integers from a source that leases eight bytes of the
  same collector on the way, if it can.
-/
private def leasingSource : Program Unit (List Handle) := do
  let _ ← Program.perform (.allocate 1 8)
  Program.ownAll [.integer 7, .integer 9]

/-
  A collector of a hundred bytes, of which another call has
  reserved a third.  Announced as one, two items do not fit
  any more when they have come; announced as two, they keep
  the source from leasing, and fit.
-/
theorem array_calls_are_exact_reentrant :
    let behaves : Behaves Unit :=
      fun _ _ => .done (.error (.arityMismatch 0 0))
    let applies := World.applyWithin behaves 0
    let moves : List (Move Unit) :=
      [.act (.newCollector ⟨⟨some 100⟩⟩),
        .openArray 1 .list 1]
    let w := ((fresh (fun _ => true)).run moves).world
    let call := fun hint =>
      Program.makeArray 1 .list hint [] leasingSource
    ((fresh (fun _ => true)).run moves =
          ⟨w, [], [⟨1, 32⟩]⟩ ∧
        w.heap.hasCollector 1 = true) ∧
      (∀ hint,
        w.MakesExactly applies 1 .list hint []
          leasingSource) ∧
      ((call 1).exec applies w).map
          (fun x => (x.1.toOption, x.2.heap.live 1)) =
        some (none, 40) ∧
      ((call 2).exec applies w).map
          (fun x =>
            (x.1.toOption, x.2.heap.live 1,
              x.2.heap.elements? 0)) =
        some
          (some ⟨2⟩, 96,
            some [.integer 7, .integer 9]) := by
  intro behaves applies moves w call
  have hHere :
      (fresh (fun _ => true)).run moves =
        ⟨w, [], [⟨1, 32⟩]⟩ :=
    rfl
  refine ⟨⟨hHere, rfl⟩, ?_, ?_, ?_⟩
  · intro hint
    exact
      (array_calls_are_exact hHere rfl behaves 0).2 .list
        hint [] leasingSource
  · decide +kernel
  · decide +kernel

end Moment

end LeasedHeap

import LeasedHeap.Proofs.Comparison
import LeasedHeap.Proofs.Copies
import LeasedHeap.Proofs.Handles

/-
  Lists are sequences with shared items.

  A list is made of copies of the items of other lists and
  of values that are moved in.  The call is exact: it makes
  one object, of just the bytes that its items take, and
  raises the counts of what was copied by as much as it was
  copied; it is refused only if these bytes cannot be
  afforded, and then it changes nothing but to drop what was
  to be moved in.  So lists are joined as sequences are.

  Main declarations:
    * `World.Gathered` and `Deed.Gathers`
    * `Moment.Reached.gathers`
    * `Deed.Gives`
    * `World.ListLaws`
    * `Moment.lists_are_sequences`
-/

namespace LeasedHeap

------------------------------------------------------------
-- Calls that Follow Each Other
------------------------------------------------------------

/- A number that is a word is announced as it is. -/
theorem Word.toNat_satOfNat
    {n : Nat}
    (hn : n < UInt64.size) :
    (satOfNat n).toNat = n := by
  unfold satOfNat ofNat?
  rw [if_pos hn]
  exact UInt64.toNat_ofNat_of_lt' hn

/-
  To afford what is announced is to afford the items.  There
  is no memory for more items than there are words, and none
  for as many as the top word.
-/
theorem Terms.affords_hint
    {t : Terms}
    {live n : Nat} :
    t.Affords live
        ((Word.satOfNat n).toNat * Value.width.toNat) ↔
      t.Affords live (32 * n) := by
  have hWidth : Value.width.toNat = 32 := rfl
  rw [hWidth, Nat.mul_comm _ 32]
  by_cases hn : n < UInt64.size
  · rw [Word.toNat_satOfNat hn]
  · have hTop : (Word.satOfNat n).toNat =
        UInt64.size - 1 := by
      unfold Word.satOfNat Word.ofNat?
      rw [if_neg hn]
      rfl
    have hSize : UInt64.size = 18446744073709551616 := rfl
    rw [hTop]
    constructor
    · rintro ⟨⟨hWord, _⟩, _⟩
      omega
    · rintro ⟨⟨hWord, _⟩, _⟩
      omega

namespace Heap

variable {κ : Type}
variable {h : Heap κ}
variable {c : CollectorId}

/- The counters of a second call take the place of the first. -/
theorem tally_tally
    (h : Heap κ)
    (c : CollectorId)
    (first second : Counters)
    (ns ms : List Notice) :
    (h.tally c first ns).tally c second ms =
      h.tally c second (ms ++ ns) := by
  have hConfig := config_tally h c first ns c
  unfold tally at hConfig ⊢
  simp [hConfig]

end Heap

------------------------------------------------------------
-- The Course of a Gathering
------------------------------------------------------------

namespace World

variable {κ : Type}
variable {w : World κ}

/- Handles of copies, and others, hold what they should. -/
theorem Copied.carries_append
    {vs us : List Value}
    {ys xs : List Handle}
    {w' : World κ}
    (hCopied : w.Copied vs ys w')
    (hCarries : w.Carries xs us) :
    w'.Carries (ys ++ xs) (vs ++ us) := by
  have hApart : ∀ y ∈ xs, y ∉ ys := by
    intro y hy hNew
    rcases hCarries.exists_value hy with ⟨v, hv⟩
    have hRef := ref?_of_value? hv
    rw [hCopied.new y hNew] at hRef
    cases hRef
  have hSame : xs.map w'.value? = xs.map w.value? := by
    apply List.map_congr_left
    intro y hy
    unfold value?
    rw [hCopied.held y (hApart y hy)]
  refine ⟨?_, ?_⟩
  · rw [List.nodup_append']
    refine ⟨hCopied.carries.1, hCarries.1, ?_⟩
    intro y hNew hy
    exact hApart y hy hNew
  · rw [List.map_append, List.map_append, hSame,
      hCopied.carries.2, hCarries.2]

/- Copies are made with as many bytes live as before. -/
theorem counters_copies
    {c : CollectorId}
    (hc : c < w.heap.collectors.size)
    (live : UInt64)
    (vs : List Value) :
    ((w.adjusted c live []).copies vs).2.heap.counters c =
      (w.heap.counters c).withLive live := by
  have hSame :
      ((w.adjusted c live []).copies
          vs).2.heap.collectors =
        (w.adjusted c live []).heap.collectors :=
    (Heap.retained_collectors _ _).1
  rw [Heap.counters_congr hSame c, adjusted,
    Heap.counters_tally hc, if_pos rfl]

/- To reserve bytes does not change what copies are made of. -/
theorem copies_adjusted
    (w : World κ)
    (c : CollectorId)
    (live : UInt64)
    (vs : List Value) :
    (w.adjusted c live []).copies vs =
      ((w.copies vs).1,
        { (w.copies vs).2 with
          heap :=
            (w.copies vs).2.heap.tally c
              ((w.heap.counters c).withLive live) [] }) := by
  unfold copies adjusted
  simp only [Heap.retained_tally]

/-
  The world with copies of values in which a call has just
  been leased some bytes, with so many live now.
-/
def leasing
    (w : World κ)
    (c : CollectorId)
    (vs : List Value)
    (bytes live : UInt64) : World κ :=
  { (w.copies vs).2 with
    heap :=
      (w.copies vs).2.heap.tally c
        (((w.heap.counters c).withLive live).leased bytes
          live)
        [.allocated bytes live] }

end World

/-
  A source that gives copies of values, and then handles that
  it has: as many as it announces.
-/
def Program.Supplies
    {κ : Type}
    (applies : Applies κ)
    (items : Program κ (List Handle))
    (vs : List Value)
    (xs : List Handle) : Prop :=
  ∀ w : World κ, (∀ v ∈ vs, w.heap.admits v = true) →
    items.exec applies w =
      some ((w.copies vs).1 ++ xs, (w.copies vs).2)

namespace Moment

variable {κ : Type}
variable {provides : UInt64 → Bool}
variable {w : World κ}
variable {reserved : List Lease}
variable {c : CollectorId}
variable {applies : Applies κ}
variable {vs : List Value}
variable {xs : List Handle}
variable {items : Program κ (List Handle)}

/-
  A call that can afford its items is leased just what they
  take.  Its hint is right, so that nothing is left to be
  reserved when the items have come.
-/
theorem Reached.course_leased
    (hReached : Reached provides ⟨w, [], reserved⟩)
    (hHas : w.heap.hasCollector c = true)
    (hApplies : Applies.ByMoves applies)
    (hAdmits : ∀ v ∈ vs, w.heap.admits v = true)
    (hSupplies : items.Supplies applies vs xs)
    (hAffords :
      (w.heap.terms c).Affords (w.heap.live c)
        (32 * (vs.length + xs.length))) :
    ∃ bytes live,
      bytes.toNat = 32 * (vs.length + xs.length) ∧
        live.toNat = w.heap.live c + bytes.toNat ∧
        w.course applies c Value.width
            (Word.satOfNat (vs.length + xs.length)) items =
          some
            (.leased ⟨c, bytes⟩ ((w.copies vs).1 ++ xs),
              w.leasing c vs bytes live) := by
  have hc : c < w.heap.collectors.size := by
    simpa [Heap.hasCollector] using hHas
  have hCount :
      ((w.copies vs).1 ++ xs).length =
        vs.length + xs.length := by
    simp [World.copies]
  have hHint :
      (Word.satOfNat (vs.length + xs.length)).toNat =
        vs.length + xs.length := by
    have hFits := hAffords.1.1
    exact Word.toNat_satOfNat (by omega)
  rcases World.course_asked
      (Terms.affords_hint.mpr hAffords) with
    ⟨hinted, next, hHinted, hNext, hCourse⟩
  -- the source runs with the announced bytes reserved
  have hRun :=
    hSupplies (w.adjusted c next []) hAdmits
  have hAnnounced :
      (w.heap.terms c).Affords (w.heap.live c)
        hinted.toNat := by
    rw [hHinted]
    exact Terms.affords_hint.mpr hAffords
  have hPulled :=
    (hReached.underWay hHas hApplies hAnnounced hNext hRun).1
  have hCounters := World.counters_copies hc next vs
  have hLive :
      ((w.adjusted c next []).copies vs).2.heap.live c =
        next.toNat := by
    rw [Heap.live, hCounters]
    rfl
  -- and the call settles for as many items as announced
  have hFew :
      ((w.copies vs).1 ++ xs).length ≤
        (Word.satOfNat (vs.length + xs.length)).toNat := by
    rw [hCount, hHint]
  rcases Heap.perform_closeArray_leased hHinted
      (hPulled.sound.le_live List.mem_cons_self)
      (hPulled.admits c) (Or.inl hFew) with
    ⟨bytes, live, hBytes, hNow, hCall⟩
  refine ⟨bytes, live, ?_, ?_, ?_⟩
  · rw [hBytes, hCount, Nat.mul_comm]
    rfl
  · rw [hNow, hLive]
    omega
  · simp only at hCall
    rw [hCourse items, hRun, Option.map_some]
    unfold World.conclude
    have hFirst :
        ((w.adjusted c next []).copies vs).1 =
          (w.copies vs).1 :=
      rfl
    rw [hFirst, hCall, hCounters, World.copies_adjusted,
      Heap.tally_tally]
    rfl

end Moment

------------------------------------------------------------
-- Gathered Lists
------------------------------------------------------------

namespace World

variable {κ : Type}

/-
  A list was made in a collector: of copies of `vs`, and of
  the values `us` that the handles `xs` held.  It is one new
  object with a handle of its own, and its lease is for just
  its items, the only one that was issued.  An older object
  has the cell that it had, and one more handle for each time
  that a copy refers to it; of the older handles those that
  were moved in are used up, and no others.
-/
structure Gathered
    (w : World κ)
    (c : CollectorId)
    (vs : List Value)
    (xs : List Handle)
    (us : List Value)
    (x : Handle)
    (w' : World κ) : Prop where
  new : w.ref? x = none
  made : w'.ref? x = some (.value (.list w.heap.next))
  held :
    ∀ y, y ≠ x →
      w'.ref? y = if y ∈ xs then none else w.ref? y
  others :
    ∀ i, i ≠ w.heap.next →
      w'.heap.objects.get? i =
        (w.heap.objects.get? i).map
          (·.raised ((vs.flatMap Value.objects).count i))
  leased :
    ∃ bytes live,
      bytes.toNat = 32 * (vs.length + us.length) ∧
        live.toNat = w.heap.live c + bytes.toNat ∧
        w'.heap.objects.get? w.heap.next =
          some
            ⟨1, .payload ⟨⟨c, bytes⟩, .elements (vs ++ us)⟩⟩ ∧
        w'.heap.collectors =
          (w.heap.tally c
            (((w.heap.counters c).withLive live).leased bytes
              live) []).collectors ∧
        w'.heap.log =
          .heap c (.allocated bytes live) :: w.heap.log

variable {w : World κ}
variable {c : CollectorId}
variable {vs us : List Value}
variable {xs : List Handle}

/- Copies and what is moved in are carried to the list. -/
private theorem carries_leasing
    (c : CollectorId)
    (bytes live : UInt64)
    (hCarries : w.Carries xs us) :
    (w.leasing c vs bytes live).Carries
      ((w.copies vs).1 ++ xs) (vs ++ us) :=
  (w.copied_copies vs).carries_append hCarries

/-
  When they are taken, what was moved in is used up, and no
  copy is left; what else there is refers to what it did.
-/
private theorem ref?_takeValues_leasing
    (c : CollectorId)
    (bytes live : UInt64)
    (hCarries : w.Carries xs us)
    (y : Handle) :
    ((w.leasing c vs bytes live).takeValues
        ((w.copies vs).1 ++ xs)).2.ref? y =
      if y ∈ xs then none else w.ref? y := by
  have hCopied := w.copied_copies vs
  rw [(takeValues_of_carries
    (carries_leasing c bytes live hCarries)).2 y]
  by_cases hMoved : y ∈ xs
  · rw [if_pos (List.mem_append_right _ hMoved),
      if_pos hMoved]
  · rw [if_neg hMoved]
    by_cases hCopy : y ∈ (w.copies vs).1
    · rw [if_pos (List.mem_append_left _ hCopy),
        hCopied.new y hCopy]
    · rw [if_neg (by simp [hCopy, hMoved])]
      exact hCopied.held y hCopy

/- Its own handle is not one that was there. -/
private theorem issued_le_takeValues_leasing
    (w : World κ)
    (c : CollectorId)
    (vs : List Value)
    (bytes live : UInt64)
    (ys : List Handle) :
    w.held.issued ≤
      ((w.leasing c vs bytes live).takeValues
        ys).2.held.issued := by
  have hTake :=
    (follows_takeValues (w.leasing c vs bytes live) ys).le
  refine Nat.le_trans ?_ hTake
  change w.held.issued ≤ (w.held.insertAll _).issued
  rw [Table.issued_insertAll]
  exact Nat.le_add_right _ _

/- What a call has made once it is leased the bytes. -/
theorem gathered_store
    {bytes live : UInt64}
    (hCarries : w.Carries xs us)
    (hBytes : bytes.toNat = 32 * (vs.length + xs.length))
    (hLive : live.toNat = w.heap.live c + bytes.toNat) :
    let stored :=
      (w.leasing c vs bytes live).store ⟨c, bytes⟩ .list
        ((w.copies vs).1 ++ xs)
    w.Gathered c vs xs us stored.1 stored.2 := by
  intro stored
  have hCopied := w.copied_copies vs
  have hNext :
      (w.leasing c vs bytes live).heap.next = w.heap.next :=
    hCopied.next
  rcases (Makes.list
      (carries_leasing c bytes live hCarries)).store
      ⟨c, bytes⟩ with
    ⟨hHeap, hRef⟩
  have hKey :
      stored.1 =
        ⟨((w.leasing c vs bytes live).takeValues
          ((w.copies vs).1 ++ xs)).2.held.issued⟩ :=
    rfl
  refine ⟨?_, ?_, ?_, ?_, ?_⟩
  · rw [hKey]
    exact
      Table.get?_eq_none_of_issued_le
        (issued_le_takeValues_leasing w c vs bytes live _)
  · rw [← hNext]
    exact hRef
  · intro y hy
    rw [← ref?_takeValues_leasing c bytes live hCarries y]
    refine (Table.get?_insert _ _ _).trans (if_neg ?_)
    intro hSame
    rcases y with ⟨k⟩
    exact hy (hKey ▸ congrArg Handle.mk hSame)
  · intro i hi
    rw [hHeap, Heap.get?_issue, hNext, if_neg hi]
    exact hCopied.objects i
  · refine ⟨bytes, live, ?_, hLive, ?_, ?_, ?_⟩
    · rw [hBytes, hCarries.length_eq]
    · rw [hHeap, Heap.get?_issue, hNext, if_pos rfl]
    · rw [hHeap]
      change
        (w.copies vs).2.heap.collectors.setIfInBounds c
            ⟨((w.copies vs).2.heap.collector c).config, _⟩ =
          _
      unfold Heap.collector
      rw [hCopied.collectors]
      rfl
    · rw [hHeap]
      change
        .heap c (.allocated bytes live) ::
            (w.copies vs).2.heap.log = _
      rw [hCopied.log]

/- The new list has the items that it was made of. -/
theorem Gathered.elements
    {x : Handle}
    {w' : World κ}
    (hGathered : w.Gathered c vs xs us x w') :
    w'.value? x = some (.list w.heap.next) ∧
      w'.heap.elements? w.heap.next = some (vs ++ us) := by
  rcases hGathered.leased with ⟨bytes, live, _, _, hGet, _⟩
  refine ⟨?_, ?_⟩
  · unfold value?
    rw [hGathered.made]
  · simp [Heap.elements?, Heap.payload?, hGet]

/- Older lists have the items that they had. -/
theorem Gathered.elements_eq
    {x : Handle}
    {w' : World κ}
    (hGathered : w.Gathered c vs xs us x w')
    {p : ObjectId}
    {items : List Value}
    (hElements : w.heap.elements? p = some items) :
    w'.heap.elements? p = some items := by
  rcases Heap.values_of_elements? hElements with
    ⟨n, lease, hGet, _⟩
  have hOld : p ≠ w.heap.next :=
    Nat.ne_of_lt (Table.lt_issued_of_get? hGet)
  simp [Heap.elements?, Heap.payload?,
    hGathered.others p hOld, hGet, Object.raised]

end World

------------------------------------------------------------
-- Gathering
------------------------------------------------------------

namespace Deed

variable {κ : Type}

/- A list of values that are moved into it. -/
def listed
    (c : CollectorId)
    (xs : List Handle) : Deed κ :=
  .array c .list (Word.satOfNat xs.length) xs (.done xs)

/-
  A deed that gathers a list of copies of `vs` and of the
  values `us` of the handles `xs`.  It does so if the items
  can be afforded, and is refused otherwise; then the refusal
  is told, what was to be moved in is dropped, and nothing
  else changes.
-/
structure Gathers
    (applies : Applies κ)
    (d : Deed κ)
    (w : World κ)
    (c : CollectorId)
    (vs : List Value)
    (xs : List Handle)
    (us : List Value) : Prop where
  made :
    (w.heap.terms c).Affords (w.heap.live c)
        (32 * (vs.length + us.length)) →
      ∃ x w',
        d.program.exec applies w = some (.made (.ok x), w') ∧
          w.Gathered c vs xs us x w'
  refused :
    ¬ (w.heap.terms c).Affords (w.heap.live c)
        (32 * (vs.length + us.length)) →
      ∃ r,
        d.program.exec applies w =
          some
            (.made (.error r),
              (w.record (.heap c (.refused r))).dropAll xs)

/- A deed that gives a value, and the world with it. -/
def Gives
    (applies : Applies κ)
    (d : Deed κ)
    (w : World κ)
    (v : Value)
    (w' : World κ) : Prop :=
  ∃ x,
    d.program.exec applies w = some (.made (.ok x), w') ∧
      w'.value? x = some v

variable {applies : Applies κ}
variable {d : Deed κ}
variable {w : World κ}
variable {c : CollectorId}

/- A collector that is not there makes no array. -/
private theorem hasCollector_of_array
    {s : Shape}
    {hint : UInt64}
    {owned : List Handle}
    {items : Program κ (List s.Item)}
    {x : Handle}
    {w' : World κ}
    (hArray : d.unfolded w = .array c s hint owned items)
    (hRun :
      d.program.exec applies w =
        some (.made (.ok x), w')) :
    w.heap.hasCollector c = true := by
  by_contra hNot
  rw [← exec_unfolded, hArray] at hRun
  change
    ((Program.makeArray c s hint owned items).bind
        (fun r => .done (Result.made r))).exec applies w =
      some (Result.made (.ok x), w') at hRun
  rw [Program.exec_bind] at hRun
  simp only [Program.makeArray, Program.exec,
    World.openArray, if_neg hNot] at hRun
  cases hRun

/- Nor does it make anything else. -/
theorem hasCollector_of_made
    {x : Handle}
    {w' : World κ}
    (hOwner : d.owner? = some c)
    (hRun :
      d.program.exec applies w =
        some (.made (.ok x), w')) :
    w.heap.hasCollector c = true := by
  cases d with
  | allocate e size =>
      cases hOwner
      by_contra hNot
      change
        some
            (Result.made (w.allocate c size).1,
              (w.allocate c size).2) =
          some (Result.made (.ok x), w') at hRun
      rw [World.allocate, if_neg hNot] at hRun
      cases hRun
  | array e s hint owned items =>
      cases hOwner
      exact hasCollector_of_array rfl hRun
  | pushed e v y =>
      cases hOwner
      exact hasCollector_of_array rfl hRun
  | concat e v u =>
      cases hOwner
      exact hasCollector_of_array rfl hRun
  | clone ref => cases hOwner
  | drop y => cases hOwner

/- The refusal is all that a refused call leaves behind. -/
private theorem adjusted_refused
    (w : World κ)
    (c : CollectorId)
    (r : Refusal) :
    w.adjusted c (w.heap.counters c).live [.refused r] =
      w.record (.heap c (.refused r)) := by
  have hCollectors :=
    Heap.collectors_tally_self w.heap c [.refused r]
  unfold World.adjusted World.record Heap.record
  unfold Heap.tally at hCollectors ⊢
  simp only at hCollectors
  simp only [Counters.withLive, hCollectors]
  rfl

end Deed

namespace Moment

variable {κ : Type}
variable {provides : UInt64 → Bool}
variable {w : World κ}
variable {reserved : List Lease}
variable {c : CollectorId}
variable {applies : Applies κ}
variable {d : Deed κ}
variable {vs us : List Value}
variable {xs : List Handle}
variable {p q : ObjectId}

/-
  A deed gathers if it comes to an array whose source
  announces and supplies its items.
-/
theorem Reached.gathers
    {items : Program κ (List Handle)}
    (hReached : Reached provides ⟨w, [], reserved⟩)
    (hHas : w.heap.hasCollector c = true)
    (hApplies : Applies.ByMoves applies)
    (hAdmits : ∀ v ∈ vs, w.heap.admits v = true)
    (hCarries : w.Carries xs us)
    (hSupplies : items.Supplies applies vs xs)
    (hArray :
      d.unfolded w =
        .array c .list
          (Word.satOfNat (vs.length + xs.length)) xs
          items) :
    d.Gathers applies w c vs xs us := by
  have hRun :
      d.program.exec applies w =
        (w.course applies c Value.width
            (Word.satOfNat (vs.length + xs.length))
            items).map
          (fun x =>
            (.made (x.2.settle .list xs x.1).1,
              (x.2.settle .list xs x.1).2)) :=
    Deed.exec_of_unfolded hHas hArray
  constructor
  · intro hAffords
    rw [hCarries.length_eq] at hAffords
    rcases hReached.course_leased hHas hApplies hAdmits
        hSupplies hAffords with
      ⟨bytes, live, hBytes, hLive, hCourse⟩
    rw [hCourse] at hRun
    exact
      ⟨_, _, hRun,
        World.gathered_store hCarries hBytes hLive⟩
  · intro hNot
    rw [hCarries.length_eq] at hNot
    rcases World.course_unasked
        (mt Terms.affords_hint.mp hNot) with
      ⟨r, _, hCourse⟩
    rw [hCourse items, Deed.adjusted_refused] at hRun
    refine ⟨r, hRun.trans ?_⟩
    simp only [Option.map_some, World.settle,
      Shape.ownHandles, List.append_nil]

/- The items of a list that is there are there. -/
theorem Reached.admits_elements
    {m : Moment κ}
    (hReached : m.Reached provides)
    (hElements : m.world.heap.elements? p = some vs) :
    ∀ v ∈ vs, m.world.heap.admits v = true := by
  have hAdmits : m.world.heap.admits (.list p) = true := by
    simp [Heap.admits, hElements]
  intro v hv
  exact
    ((hReached.sound.exact.elements hAdmits rfl
      hElements).2 v hv).1

/- What is asked for the items of a list gives them. -/
theorem itemsOf_list
    (hElements : w.heap.elements? p = some vs) :
    w.itemsOf (.list p) = vs := by
  unfold Heap.elements? at hElements
  split at hElements
  · rename_i lease items hPayload
    cases hElements
    simp [World.itemsOf, Value.payload?, hPayload,
      Contents.values]
  · cases hElements

/- Copies alone, and with handles after them, are supplied. -/
theorem supplies_ownAll
    (vs : List Value)
    (xs : List Handle) :
    ((Program.ownAll vs).bind
        (fun ys => .done (ys ++ xs))).Supplies applies vs
      xs := by
  intro w hAdmits
  rw [Program.exec_bind, Program.exec_ownAll hAdmits]
  rfl

/- Two lists are joined in a new one. -/
theorem Reached.gathers_concat
    (hReached : Reached provides ⟨w, [], reserved⟩)
    (hHas : w.heap.hasCollector c = true)
    (hApplies : Applies.ByMoves applies)
    (hFirst : w.heap.elements? p = some vs)
    (hSecond : w.heap.elements? q = some us) :
    (Deed.concat c (.list p) (.list q)).Gathers applies w c
      (vs ++ us) [] [] := by
  have hAdmits :
      ∀ v ∈ vs ++ us, w.heap.admits v = true := by
    intro v hv
    rcases List.mem_append.mp hv with hv | hv
    · exact hReached.admits_elements hFirst v hv
    · exact hReached.admits_elements hSecond v hv
  have hSupplies :
      (Program.ownAll (vs ++ us)).Supplies applies (vs ++ us)
        [] := by
    intro w hAdmits
    rw [Program.exec_ownAll hAdmits, List.append_nil]
  refine
    hReached.gathers hHas hApplies hAdmits
      ⟨List.nodup_nil, rfl⟩ hSupplies ?_
  simp only [Deed.unfolded, itemsOf_list hFirst,
    itemsOf_list hSecond]
  rfl

/- A list gets one more item in a new one. -/
theorem Reached.gathers_pushed
    {x : Handle}
    {v : Value}
    (hReached : Reached provides ⟨w, [], reserved⟩)
    (hHas : w.heap.hasCollector c = true)
    (hApplies : Applies.ByMoves applies)
    (hElements : w.heap.elements? p = some vs)
    (hValue : w.value? x = some v) :
    (Deed.pushed c (.list p) x).Gathers applies w c vs [x]
      [v] := by
  refine
    hReached.gathers hHas hApplies
      (hReached.admits_elements hElements)
      ⟨List.nodup_singleton x, by simp [hValue]⟩
      (supplies_ownAll vs [x]) ?_
  simp only [Deed.unfolded, itemsOf_list hElements]
  rfl

/- A list is made of values that are moved into it. -/
theorem Reached.gathers_listed
    (hReached : Reached provides ⟨w, [], reserved⟩)
    (hHas : w.heap.hasCollector c = true)
    (hApplies : Applies.ByMoves applies)
    (hCarries : w.Carries xs us) :
    (Deed.listed c xs).Gathers applies w c [] xs us := by
  have hSupplies :
      (Program.done xs : Program κ _).Supplies applies []
        xs :=
    fun _ _ => rfl
  refine
    hReached.gathers hHas hApplies (by simp) hCarries
      hSupplies ?_
  simp [Deed.unfolded, Deed.listed]

end Moment

------------------------------------------------------------
-- Laws
------------------------------------------------------------

/- Handles for copies of the items of a value. -/
def Program.copiesOf
    {κ : Type}
    (v : Value) : Program κ (List Handle) := do
  ownAll (← itemsOf v)

/-
  Lists that are joined in one way are equal to those that
  are joined in another, whatever collectors they are made
  in, if none of the calls is refused.
-/
structure World.ListLaws
    {κ : Type}
    (applies : Applies κ)
    (w : World κ) : Prop where
  assoc :
    ∀ c₁ c₂ c₃ c₄ p q s pq l qs l' w₁ w₂ w₃ w₄,
      w.heap.admits (.list p) = true →
      w.heap.admits (.list q) = true →
      w.heap.admits (.list s) = true →
      (Deed.concat c₁ (.list p) (.list q)).Gives applies w
        pq w₁ →
      (Deed.concat c₂ pq (.list s)).Gives applies w₁ l w₂ →
      (Deed.concat c₃ (.list q) (.list s)).Gives applies w₂
        qs w₃ →
      (Deed.concat c₄ (.list p) qs).Gives applies w₃ l' w₄ →
        w₄.heap.equal l l' = true
  emptyFirst :
    ∀ c p q l w',
      w.heap.elements? p = some [] →
      w.heap.admits (.list q) = true →
      (Deed.concat c (.list p) (.list q)).Gives applies w l
        w' →
        w'.heap.equal l (.list q) = true
  emptySecond :
    ∀ c p q l w',
      w.heap.admits (.list p) = true →
      w.heap.elements? q = some [] →
      (Deed.concat c (.list p) (.list q)).Gives applies w l
        w' →
        w'.heap.equal l (.list p) = true
  pushed :
    ∀ c₁ c₂ p x v s l l' w₁ w₂,
      w.heap.admits (.list p) = true →
      w.value? x = some v →
      (Deed.pushed c₁ (.list p) x).Gives applies w l w₁ →
      w₁.heap.elements? s = some [v] →
      (Deed.concat c₂ (.list p) (.list s)).Gives applies w₁
        l' w₂ →
        w₂.heap.equal l l' = true
  copied :
    ∀ c p xs l w₁ w₂,
      w.heap.admits (.list p) = true →
      (Program.copiesOf (.list p)).exec applies w =
        some (xs, w₁) →
      (Deed.listed c xs).Gives applies w₁ l w₂ →
        w₂.heap.equal l (.list p) = true

namespace World

variable {κ : Type}

/- A new list with some items, next to all older lists. -/
structure Adds
    (w : World κ)
    (l : Value)
    (vs : List Value)
    (w' : World κ) : Prop where
  made : ∃ p, l = .list p ∧ w'.heap.elements? p = some vs
  kept :
    ∀ p us, w.heap.elements? p = some us →
      w'.heap.elements? p = some us

end World

/- Lists of the same items are equal. -/
theorem Heap.Exact.equal_of_elements
    {κ : Type}
    {h : Heap κ}
    {outer : ObjectId → Nat}
    {p q : ObjectId}
    {vs : List Value}
    (hExact : h.Exact outer)
    (hFirst : h.elements? p = some vs)
    (hSecond : h.elements? q = some vs) :
    h.equal (.list p) (.list q) = true := by
  have hItems :
      ∀ {p}, h.elements? p = some vs →
        h.items (.list p) = vs := by
    intro p hElements
    have hAdmits : h.admits (.list p) = true := by
      simp [Heap.admits, hElements]
    exact (hExact.elements hAdmits rfl hElements).1
  rw [Heap.equal_iff, Heap.tree_list, Heap.tree_list,
    hItems hFirst, hItems hSecond]

namespace Moment

variable {κ : Type}
variable {provides : UInt64 → Bool}
variable {w w' : World κ}
variable {reserved : List Lease}
variable {c : CollectorId}
variable {applies : Applies κ}
variable {vs us : List Value}
variable {xs : List Handle}
variable {p q : ObjectId}
variable {l : Value}

/-
  A deed that gathers and is not refused adds a list.  That
  it is not shows that its collector is there.
-/
theorem Reached.adds
    {d : Deed κ}
    (hReached : Reached provides ⟨w, [], reserved⟩)
    (hApplies : Applies.ByMoves applies)
    (hOwner : d.owner? = some c)
    (hGathers :
      w.heap.hasCollector c = true →
        d.Gathers applies w c vs xs us)
    (hGives : d.Gives applies w l w') :
    Reached provides ⟨w', [], reserved⟩ ∧
      w.Adds l (vs ++ us) w' := by
  rcases hGives with ⟨x, hRun, hValue⟩
  have hGathers :=
    hGathers (Deed.hasCollector_of_made hOwner hRun)
  refine ⟨hReached.leads (leads_exec hApplies hRun), ?_⟩
  by_cases hAffords :
      (w.heap.terms c).Affords (w.heap.live c)
        (32 * (vs.length + us.length))
  · rcases hGathers.made hAffords with
      ⟨y, made, hMade, hGathered⟩
    rw [hRun] at hMade
    cases hMade
    rcases hGathered.elements with ⟨hList, hElements⟩
    rw [hValue] at hList
    cases hList
    exact
      ⟨⟨_, rfl, hElements⟩,
        fun _ _ => hGathered.elements_eq⟩
  · rcases hGathers.refused hAffords with ⟨r, hRefused⟩
    rw [hRun] at hRefused
    cases hRefused

theorem Reached.adds_concat
    (hReached : Reached provides ⟨w, [], reserved⟩)
    (hApplies : Applies.ByMoves applies)
    (hFirst : w.heap.elements? p = some vs)
    (hSecond : w.heap.elements? q = some us)
    (hGives :
      (Deed.concat c (.list p) (.list q)).Gives applies w l
        w') :
    Reached provides ⟨w', [], reserved⟩ ∧
      w.Adds l (vs ++ us) w' := by
  have hAdds :=
    hReached.adds hApplies rfl
      (fun hHas =>
        hReached.gathers_concat hHas hApplies hFirst hSecond)
      hGives
  rw [List.append_nil] at hAdds
  exact hAdds

/- Copies of the items of a list. -/
theorem Reached.copied_copiesOf
    (hReached : Reached provides ⟨w, [], reserved⟩)
    (hElements : w.heap.elements? p = some vs) :
    (Program.copiesOf (.list p)).exec applies w =
        some (w.copies vs) ∧
      w.Copied vs (w.copies vs).1 (w.copies vs).2 := by
  refine ⟨?_, w.copied_copies vs⟩
  change
    ((Program.itemsOf (.list p)).bind _).exec applies w = _
  rw [Program.exec_bind, Program.exec_itemsOf,
    itemsOf_list hElements]
  exact
    Program.exec_ownAll (hReached.admits_elements hElements)

/- What was copied is where it was. -/
theorem elements?_copied
    {ys : List Handle}
    (hCopied : w.Copied vs ys w')
    (hElements : w.heap.elements? p = some us) :
    w'.heap.elements? p = some us := by
  rcases Heap.values_of_elements? hElements with
    ⟨n, lease, hGet, _⟩
  simp [Heap.elements?, Heap.payload?, hCopied.objects p,
    hGet, Object.raised]

/- The elements of a list that is there. -/
private theorem exists_elements
    (hAdmits : w.heap.admits (.list p) = true) :
    ∃ vs, w.heap.elements? p = some vs :=
  Option.isSome_iff_exists.mp hAdmits

/-
  Lists obey the laws of sequences: every one of them is that
  of the items, and items of two lists that are the same make
  the lists equal.
-/
theorem Reached.listLaws
    (hReached : Reached provides ⟨w, [], reserved⟩)
    (hApplies : Applies.ByMoves applies) :
    w.ListLaws applies := by
  constructor
  case assoc =>
    intro c₁ c₂ c₃ c₄ p q s pq l qs l' w₁ w₂ w₃ w₄
      hp hq hs hFirst hSecond hThird hFourth
    rcases exists_elements hp with ⟨vs, hp⟩
    rcases exists_elements hq with ⟨us, hq⟩
    rcases exists_elements hs with ⟨ts, hs⟩
    rcases hReached.adds_concat hApplies hp hq hFirst with
      ⟨hReached₁, ⟨_, rfl, hJoined⟩, hKept₁⟩
    rcases hReached₁.adds_concat hApplies hJoined
        (hKept₁ s ts hs) hSecond with
      ⟨hReached₂, ⟨left, rfl, hLeft⟩, hKept₂⟩
    have hKept : ∀ i is, w.heap.elements? i = some is →
        w₂.heap.elements? i = some is :=
      fun i is hi => hKept₂ i is (hKept₁ i is hi)
    rcases hReached₂.adds_concat hApplies (hKept q us hq)
        (hKept s ts hs) hThird with
      ⟨hReached₃, ⟨_, rfl, hOthers⟩, hKept₃⟩
    rcases hReached₃.adds_concat hApplies
        (hKept₃ p vs (hKept p vs hp)) hOthers hFourth with
      ⟨hReached₄, ⟨right, rfl, hRight⟩, hKept₄⟩
    rw [List.append_assoc] at hLeft
    exact
      hReached₄.sound.exact.equal_of_elements
        (hKept₄ left _ (hKept₃ left _ hLeft)) hRight
  case emptyFirst =>
    intro c p q l w' hEmpty hq hGives
    rcases exists_elements hq with ⟨us, hq⟩
    rcases hReached.adds_concat hApplies hEmpty hq hGives
      with ⟨hReached', ⟨_, rfl, hMade⟩, hKept⟩
    exact
      hReached'.sound.exact.equal_of_elements hMade
        (hKept q us hq)
  case emptySecond =>
    intro c p q l w' hp hEmpty hGives
    rcases exists_elements hp with ⟨vs, hp⟩
    rcases hReached.adds_concat hApplies hp hEmpty hGives
      with ⟨hReached', ⟨_, rfl, hMade⟩, hKept⟩
    rw [List.append_nil] at hMade
    exact
      hReached'.sound.exact.equal_of_elements hMade
        (hKept p vs hp)
  case pushed =>
    intro c₁ c₂ p x v s l l' w₁ w₂ hp hHeld hPushed hs hJoined
    rcases exists_elements hp with ⟨vs, hp⟩
    have hAdds :=
      hReached.adds hApplies rfl
        (fun hHas =>
          hReached.gathers_pushed hHas hApplies hp hHeld)
        hPushed
    rcases hAdds with
      ⟨hReached₁, ⟨left, rfl, hLeft⟩, hKept₁⟩
    rcases hReached₁.adds_concat hApplies (hKept₁ p vs hp) hs
        hJoined with
      ⟨hReached₂, ⟨right, rfl, hRight⟩, hKept₂⟩
    exact
      hReached₂.sound.exact.equal_of_elements
        (hKept₂ left _ hLeft) hRight
  case copied =>
    intro c p xs l w₁ w₂ hp hCopies hListed
    rcases exists_elements hp with ⟨vs, hp⟩
    have hReached₁ :=
      hReached.leads (leads_exec hApplies hCopies)
    have hRun :
        (Program.copiesOf (.list p)).exec applies w =
          some (w.copies vs) :=
      (hReached.copied_copiesOf hp).1
    have hCopied := w.copied_copies vs
    rw [hRun] at hCopies
    cases hCopies
    have hAdds :=
      hReached₁.adds hApplies rfl
        (fun hHas =>
          hReached₁.gathers_listed hHas hApplies
            hCopied.carries)
        hListed
    rcases hAdds with ⟨hReached₂, ⟨_, rfl, hMade⟩, hKept⟩
    exact
      hReached₂.sound.exact.equal_of_elements hMade
        (hKept p vs (elements?_copied hCopied hp))

/-
  In every world that can be reached, lists are sequences
  that share their items.  Joining, pushing and listing
  gather just the items that they should, and to take copies
  of items counts them and nothing else; and then the laws of
  sequences hold.
-/
theorem lists_are_sequences
    {moves : List (Move κ)}
    (hHere : (fresh provides).run moves = ⟨w, [], reserved⟩)
    (behaves : Behaves κ)
    (depth : Nat) :
    (∀ c p q vs us,
        w.heap.hasCollector c = true →
        w.heap.elements? p = some vs →
        w.heap.elements? q = some us →
          (Deed.concat c (.list p) (.list q)).Gathers
            (World.applyWithin behaves depth) w c (vs ++ us)
            [] []) ∧
      (∀ c p vs x v,
        w.heap.hasCollector c = true →
        w.heap.elements? p = some vs →
        w.value? x = some v →
          (Deed.pushed c (.list p) x).Gathers
            (World.applyWithin behaves depth) w c vs [x]
            [v]) ∧
      (∀ c xs us,
        w.heap.hasCollector c = true →
        w.Carries xs us →
          (Deed.listed c xs).Gathers
            (World.applyWithin behaves depth) w c [] xs
            us) ∧
      (∀ p vs,
        w.heap.elements? p = some vs →
          ∃ xs w',
            (Program.copiesOf (.list p)).exec
                (World.applyWithin behaves depth) w =
              some (xs, w') ∧
            w.Copied vs xs w') ∧
      w.ListLaws (World.applyWithin behaves depth) := by
  have hReached : Reached provides ⟨w, [], reserved⟩ :=
    ⟨moves, hHere⟩
  have hApplies := byMoves_applyWithin behaves depth
  refine ⟨?_, ?_, ?_, ?_, hReached.listLaws hApplies⟩
  · intro c p q vs us hHas hp hq
    exact hReached.gathers_concat hHas hApplies hp hq
  · intro c p vs x v hHas hp hx
    exact hReached.gathers_pushed hHas hApplies hp hx
  · intro c xs us hHas hCarries
    exact hReached.gathers_listed hHas hApplies hCarries
  · intro p vs hp
    exact ⟨_, _, hReached.copied_copiesOf hp⟩

/- An integer and a list, in a list of another collector. -/
private def nestedMoves : List (Move Unit) :=
  [.act (.newCollector ⟨⟨some 200⟩⟩),
    .act (.clone (.value (.integer 9))),
    .openArray 0 .list 1,
    .closeArray 0 .list [⟨0⟩],
    .act (.clone (.value (.integer 7))),
    .openArray 1 .list 2,
    .closeArray 0 .list [⟨2⟩, ⟨1⟩]]

private def nestedWorld : World Unit :=
  ((fresh (fun _ => true)).run nestedMoves).world

private def nestedApplies : Applies Unit :=
  World.applyWithin
    (fun _ _ => .done (.error (.arityMismatch 0 0))) 0

/-
  The list, joined with itself in a collector of two hundred
  bytes: the inner list is referred to twice more.  There is
  no room to do so again, and nothing but the refusal is left
  of that.
-/
theorem lists_are_sequences_shared :
    let d : Deed Unit := .concat 1 (.list 1) (.list 1)
    let vs : List Value := [.integer 7, .list 0]
    ((fresh (fun _ => true)).run nestedMoves =
          ⟨nestedWorld, [], []⟩ ∧
        nestedWorld.heap.hasCollector 1 = true ∧
        nestedWorld.heap.elements? 1 = some vs) ∧
      d.Gathers nestedApplies nestedWorld 1 (vs ++ vs) []
        [] ∧
      (d.program.exec nestedApplies nestedWorld).map
          (fun x =>
            (x.2.heap.elements? 2, x.2.heap.handles 0,
              x.2.heap.live 1)) =
        some (some (vs ++ vs), 3, 192) ∧
      ((d.program.bind (fun _ => d.program)).exec
            nestedApplies nestedWorld).map
          (fun x =>
            (x.2.heap.elements? 3, x.2.heap.handles 0,
              x.2.heap.live 1)) =
        some (none, 3, 192) := by
  intro d vs
  have hHere :
      (fresh (fun _ => true)).run nestedMoves =
        ⟨nestedWorld, [], []⟩ :=
    rfl
  have hHas : nestedWorld.heap.hasCollector 1 = true := by
    decide +kernel
  have hElements :
      nestedWorld.heap.elements? 1 = some vs := by
    decide +kernel
  refine ⟨⟨hHere, hHas, hElements⟩, ?_, ?_, ?_⟩
  · exact
      (lists_are_sequences hHere _ 0).1 1 1 1 vs vs hHas
        hElements hElements
  · decide +kernel
  · decide +kernel

end Moment

end LeasedHeap

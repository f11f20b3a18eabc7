import LeasedHeap.Proofs.ArrayCalls
import LeasedHeap.Proofs.Deeds
import LeasedHeap.Proofs.RunningTotals

/-
  Refusals tell the truth.

  A refusal is told once the reservation of the call is given
  back, so it quotes what is live without the call; and it is
  told only if the request would pass the limit or the words,
  or if the underlying allocator has nothing for it.  What a
  refused call gives back to its caller is what it told last.

  Main declarations:
    * `Refusal.Truthful`
    * `World.Refused`
    * `Deed.unfolded`
    * `Deed.RefusesDuly`
    * `Moment.RefusesTruly`
    * `Moment.refusals_tell_the_truth`
-/

namespace LeasedHeap

------------------------------------------------------------
-- Truth
------------------------------------------------------------

/-
  A refusal is true on some terms: it quotes their limit, and
  the bytes may not be live on top of those that are, or the
  underlying allocator has none.
-/
def Refusal.Truthful
    (r : Refusal)
    (t : Terms) : Prop :=
  r.limit = t.limit ∧
    (¬ r.limit.Allows (r.live.toNat + r.requested.toNat) ∨
      r.requested ≠ 0 ∧ t.provides r.requested = false)

/- No allocator has as many bytes as the largest word. -/
theorem Refusal.Due.truthful
    {r : Refusal}
    {t : Terms}
    (hDue : r.Due t)
    (hProvides :
      ∀ n : UInt64, 2 ^ 47 ≤ n.toNat →
        t.provides n = false) :
    r.Truthful t := by
  rcases hDue with ⟨hLimit, hOver | hNothing | hTop⟩
  · exact ⟨hLimit, Or.inl hOver⟩
  · unfold Terms.grants at hNothing
    rw [Bool.or_eq_false_iff] at hNothing
    refine ⟨hLimit, Or.inr ⟨?_, hNothing.2⟩⟩
    simpa using hNothing.1
  · refine ⟨hLimit, Or.inr ⟨?_, ?_⟩⟩
    · rw [hTop]
      decide
    · rw [hTop]
      exact hProvides _ (by decide)

/- The refusal that an event tells of. -/
def Event.refused? : Event → Option (CollectorId × Refusal)
| .heap c (.refused r) => some (c, r)
| _ => none

/- The refusal told last. -/
def Heap.lastRefusal
    {κ : Type}
    (h : Heap κ) : Option (CollectorId × Refusal) :=
  (h.log.filterMap Event.refused?).head?

/- Drops tell of no refusal. -/
theorem World.lastRefusal_dropAll
    {κ : Type}
    (w : World κ)
    (xs : List Handle) :
    (w.dropAll xs).heap.lastRefusal =
      w.heap.lastRefusal := by
  have hTells :
      Heap.Tells (fun e => e.refused? = none) w.heap
        (w.dropAll xs).heap :=
    tells_dropAll (fun _ _ _ => rfl) w xs
  rcases hTells with ⟨news, hLog, hNews, _⟩
  unfold Heap.lastRefusal
  rw [hLog, List.filterMap_append,
    List.filterMap_eq_nil_iff.mpr hNews, List.nil_append]

------------------------------------------------------------
-- Refused Calls
------------------------------------------------------------

/-
  A world in which a call was just refused.  The refusal is
  told last; it quotes what is live, and that is what objects
  have leased and what the other calls under way have
  reserved.
-/
structure World.Refused
    {κ : Type}
    (told : World κ)
    (c : CollectorId)
    (reserved : List Lease)
    (r : Refusal) : Prop where
  last :
    ∃ earlier, told.heap.log = .heap c (.refused r) :: earlier
  live : r.live.toNat = told.heap.live c
  others :
    told.heap.live c =
      told.heap.owing (Lease.bytesAt c) [] reserved
  due : r.Due (told.heap.terms c)

/- What was told after one heap, in the next, was due. -/
theorem Heap.Abides.due
    {κ : Type}
    {h h' : Heap κ}
    {c : CollectorId}
    {r : Refusal}
    {news : List Event}
    (hAbides : h.Abides h')
    (hLog : h'.log = news ++ h.log)
    (hMem : .heap c (.refused r) ∈ news) :
    r.Due (h'.terms c) := by
  rcases hAbides.told with ⟨told, hTold, hDue⟩
  rw [List.append_cancel_right (hLog.symm.trans hTold)]
    at hMem
  exact (hDue c r hMem).2

/- The refusal that a call has come to. -/
def Course.refusal?
    {α : Type} : Course α → Option Refusal
| .unasked r => some r
| .outgrown r _ => some r
| .leased _ _ => none

namespace Moment

variable {κ α : Type}
variable {provides : UInt64 → Bool}
variable {w pulled told : World κ}
variable {reserved : List Lease}
variable {c : CollectorId}
variable {r : Refusal}

/- A request that cannot be secured is refused truly. -/
private theorem refused_tally
    {requested : UInt64}
    (hSound : Sound ⟨w, [], reserved⟩)
    (hHas : c < w.heap.collectors.size)
    (hRefusal :
      r = (w.heap.terms c).refusal (w.heap.counters c)
        requested)
    (hAbides :
      w.heap.Abides
        (w.heap.tally c (w.heap.counters c) [.refused r])) :
    (w.adjusted c (w.heap.counters c).live
      [.refused r]).Refused c reserved r := by
  have hNow :
      (w.adjusted c (w.heap.counters c).live
          [.refused r]).heap.live c =
        w.heap.live c :=
    Heap.live_tally hHas _
  refine ⟨⟨_, rfl⟩, ?_, ?_, ?_⟩
  · rw [hNow, hRefusal]
    rfl
  · exact hNow.trans (hSound.balanced.live c)
  · have hLog :
        (w.heap.tally c (w.heap.counters c)
            [.refused r]).log =
          [.heap c (.refused r)] ++ w.heap.log :=
      rfl
    exact hAbides.due hLog List.mem_cons_self

/- A call that is refused at its end has given back its own. -/
private theorem Reached.refused_conclude
    {width hint hinted : UInt64}
    {xs ys : List α}
    (hReached :
      Reached provides
        ⟨pulled, [], ⟨c, hinted⟩ :: reserved⟩)
    (hHinted : hinted.toNat = hint.toNat * width.toNat)
    (hEnd :
      pulled.conclude c width hinted xs =
        (.outgrown r ys, told)) :
    told.Refused c reserved r ∧
      ∃ rest first,
        told =
            pulled.adjusted c rest (.refused r :: first) ∧
          rest.toNat =
            pulled.heap.live c - hinted.toNat := by
  have hSound := hReached.sound
  have hc : c < pulled.heap.collectors.size :=
    hSound.balanced.lt_of_reserved List.mem_cons_self
  have hLe : hinted ≤ (pulled.heap.counters c).live :=
    hSound.le_live List.mem_cons_self
  have hAbides :=
    Heap.abides_closeArray hc hLe width xs.length
  by_cases hFits :
      World.Fits (pulled.heap.terms c).limit width hint
        (pulled.heap.live c - hinted.toNat) xs.length
  · rcases Heap.perform_closeArray_leased hHinted hLe
        (hReached.admits c) hFits with
      ⟨bytes, next, _, _, hCall⟩
    rw [World.conclude, hCall] at hEnd
    cases hEnd
  · rcases Heap.perform_closeArray_refused hHinted hLe
        hFits with
      ⟨rest, r', first, hRest, hRefusal, hCall⟩
    rw [World.conclude, hCall] at hEnd
    rw [hCall] at hAbides
    cases hEnd
    have hLive :
        pulled.heap.live c =
          hinted.toNat +
            pulled.heap.owing (Lease.bytesAt c) []
              reserved := by
      have hAll := hSound.balanced.live c
      rw [Heap.owing_cons_reserved, Lease.bytesAt_self]
        at hAll
      exact hAll
    have hNow :
        (pulled.adjusted c rest
            (.refused r :: first)).heap.live c =
          rest.toNat :=
      Heap.live_tally hc _
    have hLog :
        (pulled.adjusted c rest
            (.refused r :: first)).heap.log =
          (.heap c (.refused r) ::
              first.map (Event.heap c)) ++
            pulled.heap.log :=
      rfl
    refine ⟨⟨⟨_, rfl⟩, ?_, ?_, ?_⟩, rest, first, rfl, hRest⟩
    · refine Eq.trans ?_ hNow.symm
      rw [hRefusal]
      rfl
    · refine hNow.trans ?_
      change rest.toNat =
        pulled.heap.owing (Lease.bytesAt c) [] reserved
      omega
    · exact hAbides.due hLog List.mem_cons_self

end Moment

------------------------------------------------------------
-- Sources that Leave Collectors Alone
------------------------------------------------------------

namespace World

variable {κ α : Type}
variable {applies : Applies κ}
variable {w pulled : World κ}
variable {c : CollectorId}

/-
  A call whose source leaves the collectors as they are while
  it is asked for items.
-/
def Calm
    (applies : Applies κ)
    (w : World κ)
    (c : CollectorId)
    (width hint : UInt64)
    (items : Program κ (List α)) : Prop :=
  ∀ hinted heap xs pulled,
    w.heap.perform c
        ((w.heap.terms c).openArray width hint) =
      (.ok hinted, heap) →
    items.exec applies { w with heap } = some (xs, pulled) →
      pulled.heap.collectors = heap.collectors

/- What is reserved and given back leaves no trace. -/
private theorem collectors_adjusted
    {live : UInt64}
    {ns ms : List Notice}
    (hSame :
      pulled.heap.collectors =
        (w.adjusted c live ns).heap.collectors) :
    (pulled.adjusted c (w.heap.counters c).live
        ms).heap.collectors =
      w.heap.collectors := by
  have hPulled :
      (pulled.adjusted c (w.heap.counters c).live
          ms).heap.collectors =
        ((w.adjusted c live ns).adjusted c
          (w.heap.counters c).live ms).heap.collectors := by
    simp only [adjusted, Heap.tally, Heap.counters,
      Heap.collector] at hSame ⊢
    rw [hSame]
  rw [hPulled]
  apply Array.ext
  · simp [adjusted, Heap.tally]
  · intro d hd hd'
    by_cases hc : c = d
    · subst hc
      simp [adjusted, Heap.tally, Heap.counters,
        Heap.collector, Counters.withLive, hd']
    · simp only [adjusted, Heap.tally]
      rw [Array.getElem_setIfInBounds_ne (by simpa using hd')
          hc,
        Array.getElem_setIfInBounds_ne hd' hc]

end World

namespace Moment

variable {κ α : Type}
variable {provides : UInt64 → Bool}
variable {w told : World κ}
variable {reserved : List Lease}
variable {c : CollectorId}
variable {r : Refusal}

/-
  A refused call on items of any width: refused before it
  asked its source for anything, or after it got all of its
  items.
-/
theorem Reached.refused_course
    {applies : Applies κ}
    {width hint : UInt64}
    {items : Program κ (List α)}
    {out : Course α}
    (hReached : Reached provides ⟨w, [], reserved⟩)
    (hHas : w.heap.hasCollector c = true)
    (hApplies : Applies.ByMoves applies)
    (hCourse :
      w.course applies c width hint items = some (out, told))
    (hRefused : out.refusal? = some r) :
    told.Refused c reserved r ∧
      told.heap.terms c = w.heap.terms c ∧
      (w.Calm applies c width hint items →
        told.heap.collectors = w.heap.collectors) := by
  have hc : c < w.heap.collectors.size := by
    simpa [Heap.hasCollector] using hHas
  have hAbides := Heap.abides_openArray hc width hint
  rcases w.heap.perform_openArray c width hint with
    ⟨hAffords, hinted, next, hHinted, hNext, hCall⟩ |
      ⟨_, r', hRefusal, hCall⟩
  · rw [← hHinted] at hAffords
    rw [World.course, hCall] at hCourse
    simp only at hCourse
    split at hCourse
    · cases hCourse
    · rename_i xs pulled hRun
      rcases hReached.underWay hHas hApplies hAffords hNext
          hRun with ⟨hPulled, hTerms⟩
      have hEnd := Option.some.inj hCourse
      cases out with
      | unasked r' =>
          unfold World.conclude at hEnd
          split at hEnd <;> cases hEnd
      | leased l ys => cases hRefused
      | outgrown r' ys =>
          cases hRefused
          rcases hPulled.refused_conclude hHinted hEnd with
            ⟨hTold, rest, first, hAdjusted, hRest⟩
          refine ⟨hTold, ?_, ?_⟩
          · rw [hAdjusted, World.adjusted, Heap.terms_tally]
            exact hTerms
          · intro hCalm
            have hSame :
                pulled.heap.collectors =
                  (w.adjusted c next []).heap.collectors :=
              hCalm _ _ _ _ hCall hRun
            have hBack : rest = (w.heap.counters c).live := by
              apply UInt64.toNat_inj.mp
              have hLive :
                  pulled.heap.live c =
                    (w.adjusted c next []).heap.live c :=
                congrArg (fun c => c.live.toNat)
                  (Heap.counters_congr hSame c)
              rw [hRest, hLive, World.adjusted,
                Heap.live_tally hc]
              change next.toNat - _ = w.heap.live c
              omega
            rw [hAdjusted, hBack]
            exact World.collectors_adjusted hSame
  · rw [World.course, hCall] at hCourse
    cases hCourse
    cases hRefused
    rw [hCall] at hAbides
    exact
      ⟨refused_tally hReached.sound hc hRefusal hAbides,
        Heap.terms_tally _ _ _ _ _,
        fun _ => Heap.collectors_tally_self _ _ _⟩

end Moment

------------------------------------------------------------
-- Longer Lists as Arrays
------------------------------------------------------------

/- The items of the payload of a value, none for an integer. -/
def World.itemsOf
    {κ : Type}
    (w : World κ)
    (v : Value) : List Value :=
  match v.payload? with
  | none => []
  | some p =>
      match w.heap.payload? p with
      | some payload => payload.contents.values
      | none => []

/- To ask for the items of a value changes nothing. -/
theorem Program.exec_itemsOf
    {κ : Type}
    (applies : Applies κ)
    (w : World κ)
    (v : Value) :
    (itemsOf v).exec applies w = some (w.itemsOf v, w) := by
  unfold World.itemsOf
  cases hPayload : v.payload? with
  | none =>
      simp only [itemsOf, hPayload]
      rfl
  | some p =>
      simp only [itemsOf, hPayload]
      change
        (Program.bind (.ask (.payload p) .done) _).exec
            applies w =
          _
      simp only [Program.bind, Program.exec, World.answer]
      cases w.heap.payload? p <;> rfl

namespace Deed

variable {κ : Type}
variable {applies : Applies κ}
variable {w : World κ}

/-
  A deed as the call that it comes to: a longer list is an
  array call on copies of what there is.
-/
def unfolded (w : World κ) : Deed κ → Deed κ
| .pushed c v x =>
    .array c .list
      (Word.satOfNat ((w.itemsOf v).length + 1)) [x] do
        let xs ← Program.ownAll (w.itemsOf v)
        return xs ++ [x]
| .concat c v u =>
    .array c .list
      (Word.satOfNat
        (w.itemsOf v ++ w.itemsOf u).length)
      [] (Program.ownAll (w.itemsOf v ++ w.itemsOf u))
| d => d

theorem exec_unfolded
    (applies : Applies κ)
    (w : World κ)
    (d : Deed κ) :
    (d.unfolded w).program.exec applies w =
      d.program.exec applies w := by
  cases d with
  | pushed c v x =>
      change
        _ = ((Program.itemsOf v).bind _).exec applies w
      rw [Program.exec_bind, Program.exec_itemsOf]
      rfl
  | concat c v u =>
      change
        _ =
          ((Program.itemsOf v).bind
            (fun vs => (Program.itemsOf u).bind _)).exec
              applies w
      rw [Program.exec_bind, Program.exec_itemsOf]
      simp only [Program.exec_bind, Program.exec_itemsOf]
      rfl
  | allocate c size => rfl
  | array c s hint owned items => rfl
  | clone r => rfl
  | drop x => rfl

/- The collector that a deed asks for memory. -/
def owner? : Deed κ → Option CollectorId
| .allocate c _ => some c
| .array c _ _ _ _ => some c
| .pushed c _ _ => some c
| .concat c _ _ => some c
| .clone _ => none
| .drop _ => none

/-
  The source of a deed, if it has one of its own, leaves the
  collectors alone.
-/
def Calm
    (applies : Applies κ)
    (w : World κ) : Deed κ → Prop
| .array c s hint _ items =>
    w.Calm applies c s.width hint items
| _ => True

/- Copies leave collectors alone. -/
theorem calm_unfolded
    {d : Deed κ}
    (hCalm : d.Calm applies w) :
    (d.unfolded w).Calm applies w := by
  cases d with
  | pushed c v x =>
      intro hinted heap xs pulled _ hRun
      refine Program.Aloof.collectors_eq ?_ hRun
      exact
        (Program.aloof_ownAll _).bind
          (fun _ _ _ => Program.aloof_done _)
  | concat c v u =>
      intro hinted heap xs pulled _ hRun
      exact
        (Program.aloof_ownAll _).collectors_eq hRun
  | allocate c size => trivial
  | array c s hint owned items => exact hCalm
  | clone r => trivial
  | drop x => trivial

/-
  What a refused deed drops: what its source held, if that
  was asked for nothing, or else the items that it gave; and
  the code of a closure.
-/
def Drops
    (applies : Applies κ)
    (inputs : List Handle) : Deed κ → Prop
| .allocate _ _ => inputs = []
| .array _ s _ owned items =>
    inputs = owned ++ s.ownHandles ∨
      ∃ opened xs pulled,
        items.exec applies opened = some (xs, pulled) ∧
          inputs = s.handles xs ++ s.ownHandles
| _ => False

/-
  A deed is refused duly: until its inputs are dropped, the
  world is one in which it was just refused, and if its source
  leaves collectors alone, they are as before.
-/
structure RefusesDuly
    (applies : Applies κ)
    (d : Deed κ)
    (w : World κ)
    (c : CollectorId)
    (reserved : List Lease)
    (r : Refusal)
    (w' told : World κ)
    (inputs : List Handle) : Prop where
  drops : (d.unfolded w).Drops applies inputs
  dropped : w' = told.dropAll inputs
  refused : told.Refused c reserved r
  terms : told.heap.terms c = w.heap.terms c
  calm :
    d.Calm applies w →
      told.heap.collectors = w.heap.collectors

end Deed

------------------------------------------------------------
-- Refused Deeds
------------------------------------------------------------

namespace World

variable {κ α : Type}
variable {applies : Applies κ}
variable {w told : World κ}
variable {c : CollectorId}
variable {r : Refusal}

/- A call that has outgrown its hint has got its items. -/
theorem exec_of_course_outgrown
    {width hint : UInt64}
    {items : Program κ (List α)}
    {xs : List α}
    (hCourse :
      w.course applies c width hint items =
        some (.outgrown r xs, told)) :
    ∃ opened pulled,
      items.exec applies opened = some (xs, pulled) := by
  unfold course at hCourse
  split at hCourse
  · cases hCourse
  · rename_i hinted heap _
    split at hCourse
    · cases hCourse
    · rename_i ys pulled hRun
      have hEnd := Option.some.inj hCourse
      unfold conclude at hEnd
      split at hEnd
      · cases hEnd
        exact ⟨_, _, hRun⟩
      · cases hEnd

/- What is dropped later does not hide the refusal. -/
theorem Refused.lastRefusal_eq
    {reserved : List Lease}
    (hRefused : told.Refused c reserved r)
    (inputs : List Handle) :
    (told.dropAll inputs).heap.lastRefusal =
      some (c, r) := by
  rcases hRefused.last with ⟨earlier, hLog⟩
  rw [lastRefusal_dropAll, Heap.lastRefusal, hLog]
  rfl

end World

namespace Deed

variable {κ : Type}
variable {provides : UInt64 → Bool}
variable {applies : Applies κ}
variable {w w' : World κ}
variable {reserved : List Lease}
variable {c : CollectorId}
variable {r : Refusal}
variable {d : Deed κ}

/- A block takes no source and drops nothing. -/
private theorem refusesDuly_allocate
    {size : UInt64}
    (hReached : Moment.Reached provides ⟨w, [], reserved⟩)
    (hHas : w.heap.hasCollector c = true)
    (hRun :
      (allocate c size).program.exec applies w =
        some (.made (.error r), w')) :
    ∃ told inputs,
      (allocate c size).RefusesDuly applies w c reserved r w'
        told inputs := by
  have hc : c < w.heap.collectors.size := by
    simpa [Heap.hasCollector] using hHas
  have hAbides := Heap.abides_allocate hc size
  change
    some
        (.made (w.allocate c size).1,
          (w.allocate c size).2) =
      some (Result.made (.error r), w') at hRun
  rw [World.allocate, if_pos hHas] at hRun
  rw [Heap.perform_eq, Terms.run_allocate] at hRun hAbides
  cases hSecured :
      (w.heap.terms c).secured? (w.heap.counters c) size with
  | some next =>
      rw [hSecured] at hRun
      cases hRun
  | none =>
      rw [hSecured] at hRun hAbides
      cases hRun
      exact
        ⟨_, [], rfl, rfl,
          Moment.refused_tally hReached.sound hc rfl hAbides,
          Heap.terms_tally _ _ _ _ _,
          fun _ => Heap.collectors_tally_self _ _ _⟩

/- A deed that comes to an array takes the array's course. -/
theorem exec_of_unfolded
    {s : Shape}
    {hint : UInt64}
    {owned : List Handle}
    {items : Program κ (List s.Item)}
    (hHas : w.heap.hasCollector c = true)
    (hArray : d.unfolded w = .array c s hint owned items) :
    d.program.exec applies w =
      (w.course applies c s.width hint items).map
        (fun x =>
          (.made (x.2.settle s owned x.1).1,
            (x.2.settle s owned x.1).2)) := by
  rw [← exec_unfolded, hArray]
  change
    ((Program.makeArray c s hint owned items).bind
      (fun r => .done (Result.made r))).exec applies w = _
  rw [Program.exec_bind,
    World.exec_makeArray hHas s hint owned items]
  cases w.course applies c s.width hint items <;> rfl

/- Anything else that asks for memory comes to an array. -/
private theorem refusesDuly_array
    {s : Shape}
    {hint : UInt64}
    {owned : List Handle}
    {items : Program κ (List s.Item)}
    (hReached : Moment.Reached provides ⟨w, [], reserved⟩)
    (hHas : w.heap.hasCollector c = true)
    (hApplies : Moment.Applies.ByMoves applies)
    (hArray : d.unfolded w = .array c s hint owned items)
    (hRun :
      d.program.exec applies w =
        some (.made (.error r), w')) :
    ∃ told inputs,
      d.RefusesDuly applies w c reserved r w' told
        inputs := by
  rw [exec_of_unfolded hHas hArray] at hRun
  rcases Option.map_eq_some_iff.mp hRun with
    ⟨⟨out, told⟩, hCourse, hSettle⟩
  have hCalm :
      d.Calm applies w →
        w.Calm applies c s.width hint items := by
    intro hCalm
    have hUnfolded := calm_unfolded hCalm
    rw [hArray] at hUnfolded
    exact hUnfolded
  have hDuly :
      ∀ {inputs},
        out.refusal? = some r →
          (Deed.array c s hint owned items).Drops applies
            inputs →
          w' = told.dropAll inputs →
            d.RefusesDuly applies w c reserved r w' told
              inputs := by
    intro inputs hRefused hDrops hDropped
    rcases hReached.refused_course hHas hApplies hCourse
        hRefused with ⟨hTold, hTerms, hSame⟩
    exact
      ⟨hArray ▸ hDrops, hDropped, hTold, hTerms,
        fun hAlone => hSame (hCalm hAlone)⟩
  cases out with
  | unasked r' =>
      cases hSettle
      exact ⟨told, _, hDuly rfl (Or.inl rfl) rfl⟩
  | outgrown r' xs =>
      cases hSettle
      rcases World.exec_of_course_outgrown hCourse with
        ⟨opened, pulled, hItems⟩
      exact
        ⟨told, _,
          hDuly rfl
            (Or.inr ⟨opened, xs, pulled, hItems, rfl⟩) rfl⟩
  | leased l xs => cases hSettle

/- Every refused deed is refused duly. -/
theorem exists_refusesDuly
    (hReached : Moment.Reached provides ⟨w, [], reserved⟩)
    (hHas : w.heap.hasCollector c = true)
    (hApplies : Moment.Applies.ByMoves applies)
    (hOwner : d.owner? = some c)
    (hRun :
      d.program.exec applies w =
        some (.made (.error r), w')) :
    ∃ told inputs,
      d.RefusesDuly applies w c reserved r w' told
        inputs := by
  cases d with
  | allocate e size =>
      cases hOwner
      exact refusesDuly_allocate hReached hHas hRun
  | array e s hint owned items =>
      cases hOwner
      exact refusesDuly_array hReached hHas hApplies rfl hRun
  | pushed e v x =>
      cases hOwner
      exact refusesDuly_array hReached hHas hApplies rfl hRun
  | concat e v u =>
      cases hOwner
      exact refusesDuly_array hReached hHas hApplies rfl hRun
  | clone ref => cases hOwner
  | drop x => cases hOwner

end Deed

------------------------------------------------------------
-- True Refusals
------------------------------------------------------------

namespace Moment

variable {κ : Type}
variable {provides : UInt64 → Bool}
variable {w : World κ}
variable {reserved : List Lease}

/- What the allocator refuses at the start it refuses later. -/
private theorem Reached.provides_large
    {m : Moment κ}
    (hReached : m.Reached provides)
    (hProvides :
      ∀ n : UInt64, 2 ^ 47 ≤ n.toNat → provides n = false)
    (c : CollectorId) :
    ∀ n : UInt64, 2 ^ 47 ≤ n.toNat →
      (m.world.heap.terms c).provides n = false := by
  change
    ∀ n : UInt64, 2 ^ 47 ≤ n.toNat →
      m.world.heap.provides n = false
  rw [hReached.provides_eq]
  exact hProvides

/- Whatever is told to be refused, at any time, is so truly. -/
theorem Reached.truthful
    {m : Moment κ}
    (hReached : m.Reached provides)
    (hProvides :
      ∀ n : UInt64, 2 ^ 47 ≤ n.toNat → provides n = false)
    {c : CollectorId}
    {r : Refusal}
    (hMem : .heap c (.refused r) ∈ m.world.heap.log) :
    r.Truthful (m.world.heap.terms c) :=
  Refusal.Due.truthful (hReached.due hMem)
    (hReached.provides_large hProvides c)

/-
  Refused calls of a world are refused truly.  Whatever a
  deed gives back to its caller is told last, it is true, and
  it is due; so it is for calls on items of any width.
-/
structure RefusesTruly
    (applies : Applies κ)
    (w : World κ)
    (c : CollectorId)
    (reserved : List Lease) : Prop where
  deeds :
    ∀ (d : Deed κ) r w',
      d.owner? = some c →
        d.program.exec applies w =
            some (.made (.error r), w') →
          r.Truthful (w.heap.terms c) ∧
            w'.heap.lastRefusal = some (c, r) ∧
            ∃ told inputs,
              d.RefusesDuly applies w c reserved r w' told
                inputs
  courses :
    ∀ {α : Type} width hint
        (items : Program κ (List α)) out r told,
      w.course applies c width hint items =
          some (out, told) →
        out.refusal? = some r →
          r.Truthful (w.heap.terms c) ∧
            told.heap.lastRefusal = some (c, r) ∧
            told.Refused c reserved r ∧
            (w.Calm applies c width hint items →
              told.heap.collectors = w.heap.collectors)

/- With an honest allocator, they are at every moment. -/
theorem Reached.refusesTruly
    {applies : Applies κ}
    {c : CollectorId}
    (hReached : Reached provides ⟨w, [], reserved⟩)
    (hProvides :
      ∀ n : UInt64, 2 ^ 47 ≤ n.toNat → provides n = false)
    (hHas : w.heap.hasCollector c = true)
    (hApplies : Applies.ByMoves applies) :
    RefusesTruly applies w c reserved := by
  have hLarge := hReached.provides_large hProvides c
  constructor
  case deeds =>
    intro d r w' hOwner hRun
    rcases Deed.exists_refusesDuly hReached hHas hApplies
        hOwner hRun with ⟨told, inputs, hDuly⟩
    have hDue : r.Due (w.heap.terms c) :=
      hDuly.terms ▸ hDuly.refused.due
    refine ⟨hDue.truthful hLarge, ?_, told, inputs, ?_⟩
    · rw [hDuly.dropped]
      exact hDuly.refused.lastRefusal_eq inputs
    · exact hDuly
  case courses =>
    intro α width hint items out r told hCourse hRefusal
    rcases hReached.refused_course hHas hApplies hCourse
        hRefusal with ⟨hRefused, hTerms, hCalm⟩
    have hDue : r.Due (w.heap.terms c) :=
      hTerms ▸ hRefused.due
    exact
      ⟨hDue.truthful hLarge, hRefused.lastRefusal_eq [],
        hRefused, hCalm⟩

/-
  With an underlying allocator that refuses 2^47 bytes and
  more, all refusals are true.  So are those that a run tells
  of at any time; and what a call gives back, whatever other
  calls are under way and whatever its source does, is the
  refusal told last, in a world in which nothing of its own
  is reserved and in which, if its source has left collectors
  alone, they are as before it.
-/
theorem refusals_tell_the_truth
    (hProvides :
      ∀ n : UInt64, 2 ^ 47 ≤ n.toNat → provides n = false) :
    (∀ (moves : List (Move κ)) c r,
        .heap c (.refused r) ∈
            ((fresh provides).run moves).world.heap.log →
          r.Truthful
            (((fresh provides).run moves).world.heap.terms
              c)) ∧
      ∀ (moves : List (Move κ)) w reserved c
          (behaves : Behaves κ) depth,
        (fresh provides).run moves = ⟨w, [], reserved⟩ →
          w.heap.hasCollector c = true →
            RefusesTruly (World.applyWithin behaves depth) w
              c reserved := by
  constructor
  · intro moves c r hMem
    exact Reached.truthful ⟨moves, rfl⟩ hProvides hMem
  · intro moves w reserved c behaves depth hHere hHas
    have hReached : Reached provides ⟨w, [], reserved⟩ :=
      ⟨moves, hHere⟩
    exact
      hReached.refusesTruly hProvides hHas
        (byMoves_applyWithin behaves depth)

/-
  Three integers, announced as one.  Thirty-two of a hundred
  bytes are reserved by another call.  The rest of the array
  is refused first, with the announced item live; what is
  given back is the refusal of the whole of it, without.
-/
theorem refusals_tell_the_truth_twice :
    let provides : UInt64 → Bool :=
      fun n => decide (n.toNat < 2 ^ 47)
    let behaves : Behaves Unit :=
      fun _ _ => .done (.error (.arityMismatch 0 0))
    let applies := World.applyWithin behaves 0
    let moves : List (Move Unit) :=
      [.act (.newCollector ⟨⟨some 100⟩⟩),
        .openArray 1 .list 1]
    let w := ((fresh provides).run moves).world
    let d : Deed Unit :=
      .array 1 .list 1 []
        (Program.ownAll
          [.integer 1, .integer 2, .integer 3])
    let r : Refusal := ⟨96, 32, ⟨some 100⟩⟩
    (∀ n : UInt64, 2 ^ 47 ≤ n.toNat → provides n = false) ∧
      ∃ w',
        d.program.exec applies w =
            some (.made (.error r), w') ∧
          w'.heap.log =
            [.heap 1 (.refused r),
              .heap 1 (.refused ⟨64, 64, ⟨some 100⟩⟩)] ∧
          r.Truthful (w.heap.terms 1) ∧
          w'.heap.lastRefusal = some (1, r) ∧
          ∃ told inputs,
            d.RefusesDuly applies w 1 [⟨1, 32⟩] r w' told
              inputs := by
  intro provides behaves applies moves w d r
  have hProvides :
      ∀ n : UInt64, 2 ^ 47 ≤ n.toNat →
        provides n = false := by
    intro n hLarge
    simpa [provides] using hLarge
  have hHere :
      (fresh provides).run moves = ⟨w, [], [⟨1, 32⟩]⟩ :=
    rfl
  have hRefused :
      ((d.program.exec applies w).map
          (fun x => (x.1, x.2.heap.log))) =
        some
          (.made (.error r),
            [.heap 1 (.refused r),
              .heap 1 (.refused ⟨64, 64, ⟨some 100⟩⟩)]) := by
    decide +kernel
  rcases Option.map_eq_some_iff.mp hRefused with
    ⟨⟨out, w'⟩, hRun, hOut⟩
  rcases Prod.mk.inj hOut with ⟨hOut, hLog⟩
  cases hOut
  refine ⟨hProvides, w', hRun, hLog, ?_⟩
  exact
    ((refusals_tell_the_truth hProvides).2 moves w
      [⟨1, 32⟩] 1 behaves 0 hHere rfl).deeds d r w' rfl hRun

end Moment

end LeasedHeap

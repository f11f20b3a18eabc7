import LeasedHeap.Proofs.Activations

/-
  Towers: values whose drop is as deep as one likes.

  A storey is a code, a closure of it with an empty
  environment, and a list of the closure; the code of the
  storey above captures the list.  When the list on top is
  dropped, its activation visits the closure, the code goes
  with it and drops the list below.  That list is dropped by
  an activation of its own, while the first one is still
  active.  So each storey adds an activation, and no number
  bounds them all.

  Main declarations:
    * `Storey`
    * `Moment.activations_descend`
    * `Moment.Raised` and `Moment.Roofed`
    * `Moment.run_raise`
    * `Moment.activations_unbounded`
-/

namespace LeasedHeap

------------------------------------------------------------
-- Storeys
------------------------------------------------------------

/- What the code of a storey captured. -/
def below : Nat → List Value
| 0 => []
| k + 1 => [.list (3 * k + 2)]

/- The objects of a storey, each with a single handle. -/
structure Storey
    (objects : Table (Object Unit))
    (k : Nat) : Prop where
  code :
    objects.get? (3 * k) =
      some ⟨1, .code ⟨(), 0, below k, []⟩⟩
  environment :
    ∃ lease, objects.get? (3 * k + 1) =
      some ⟨1, .payload ⟨lease, .elements []⟩⟩
  list :
    ∃ lease, objects.get? (3 * k + 2) =
      some ⟨1, .payload
        ⟨lease, .elements [.closure ⟨3 * k + 1, 3 * k⟩]⟩⟩

/- A storey is where it was if its objects are. -/
theorem Storey.congr
    {objects objects' : Table (Object Unit)}
    {k : Nat}
    (hStorey : Storey objects k)
    (hSame :
      ∀ i < 3 * k + 3, objects'.get? i = objects.get? i) :
    Storey objects' k := by
  refine ⟨?_, ?_, ?_⟩
  · rw [hSame _ (by omega)]
    exact hStorey.code
  · rw [hSame _ (by omega)]
    exact hStorey.environment
  · rw [hSame _ (by omega)]
    exact hStorey.list

------------------------------------------------------------
-- Descents
------------------------------------------------------------

namespace Moment

/-
  Seven moves of the reclaimer lead from the list of a storey
  to the value that its code captured.  The activation of the
  list waits for it.
-/
theorem run_descend
    {w : World Unit}
    {fs : List Frame}
    {reserved : List Lease}
    {p e q : ObjectId}
    {l l' : Lease}
    {v : Value}
    (hList :
      w.heap.objects.get? p =
        some ⟨1, .payload ⟨l, .elements [.closure ⟨e, q⟩]⟩⟩)
    (hEnvironment :
      w.heap.objects.get? e =
        some ⟨1, .payload ⟨l', .elements []⟩⟩)
    (hCode :
      w.heap.objects.get? q =
        some ⟨1, .code ⟨(), 0, [v], []⟩⟩)
    (hNested : v.isNested = true)
    (hOlder : q < e)
    (hNewer : e < p) :
    ∃ w',
      run ⟨w, .value (.list p) :: fs, reserved⟩
          (List.replicate 7 .reclaim) =
        ⟨w', .value v :: .activation (.list p) [] :: fs,
          reserved⟩ ∧
      ∀ i < q,
        w'.heap.objects.get? i = w.heap.objects.get? i := by
  rcases w with ⟨h, held⟩
  -- The list is taken apart, then twice the environment.
  let h₁ := h.emptied p l (.elements [.closure ⟨e, q⟩])
  let h₂ := h₁.emptied e l' (.elements [])
  let h₃ := h₂.emptied e l' (.elements [])
  let h₄ := (h₃.discard e).giveBack l'
  have hTakeList : h.take p = ([.closure ⟨e, q⟩], h₁) :=
    Heap.take_last hList
  have hGet₁ :
      h₁.objects.get? e =
        some ⟨1, .payload ⟨l', .elements []⟩⟩ := by
    simpa [h₁, Heap.emptied, Table.get?_set,
      Nat.ne_of_lt hNewer] using hEnvironment
  have hVisit : h₁.take e = ([], h₂) :=
    Heap.take_last hGet₁
  have hGet₂ :
      h₂.objects.get? e =
        some ⟨1, .payload ⟨l', .elements []⟩⟩ :=
    Heap.get?_emptied hGet₁ _ _
  have hAgain : h₂.take e = ([], h₃) :=
    Heap.take_last hGet₂
  have hGet₃ :
      h₃.objects.get? e =
        some ⟨1, .payload ⟨l', .elements []⟩⟩ :=
    Heap.get?_emptied hGet₂ _ _
  have hRelease :
      h₃.release e = ([.lease l'], h₃.discard e) :=
    Heap.release_last hGet₃
  have hBelow :
      ∀ i < e, h₄.objects.get? i = h.objects.get? i := by
    intro i hi
    have hNe : i ≠ e := Nat.ne_of_lt hi
    have hNe' : i ≠ p := Nat.ne_of_lt (hi.trans hNewer)
    change ((h₃.discard e).objects).get? i = _
    simp [h₁, h₂, h₃, Heap.discard, Heap.emptied,
      Table.get?_set, Table.get?_erase, hNe, hNe']
  have hGet₄ := (hBelow q hOlder).trans hCode
  have hGone :
      h₄.release q = ([.value v], h₄.discard q) := by
    rw [Heap.release_last hGet₄]
    simp [Cell.dropFrames, hNested]
  refine ⟨⟨h₄.discard q, held⟩, ?_, ?_⟩
  · have hGive :
        ((h₃.discard e).perform l'.owner
          (Steps.release l'.bytes)).2 = h₄ := rfl
    simp only [List.replicate, run_cons, run_nil, step,
      Heap.step, Value.payload?, hTakeList, hVisit, hAgain,
      Value.handleFrames, hRelease, hGive, hGone,
      List.cons_append, List.nil_append]
  · intro i hi
    have hNe : i ≠ q := Nat.ne_of_lt hi
    simp only [Heap.discard, Table.get?_erase, if_neg hNe]
    exact hBelow i (hi.trans hOlder)

/-
  Seven moves for each storey put one activation for each
  storey but the lowest on top of what was active.
-/
theorem activations_descend
    {w : World Unit}
    {fs : List Frame}
    {reserved : List Lease}
    (n : Nat)
    (hStoreys : ∀ k ≤ n, Storey w.heap.objects k) :
    Frame.activations
        (run ⟨w, .value (.list (3 * n + 2)) :: fs, reserved⟩
          (List.replicate (7 * n) .reclaim)).frames =
      n + Frame.activations fs := by
  induction n generalizing w fs with
  | zero => simp
  | succ n ih =>
      have hTop := hStoreys (n + 1) (Nat.le_refl _)
      rcases hTop.environment with ⟨l', hEnvironment⟩
      rcases hTop.list with ⟨l, hList⟩
      rcases run_descend hList hEnvironment hTop.code rfl
          (Nat.lt_succ_self _) (Nat.lt_succ_self _) with
        ⟨w', hRun, hSame⟩
      have hRest : ∀ k ≤ n, Storey w'.heap.objects k := by
        intro k hk
        have hBelow : 3 * k + 3 ≤ 3 * (n + 1) := by omega
        refine (hStoreys k (Nat.le_succ_of_le hk)).congr ?_
        exact fun i hi => hSame i (Nat.lt_of_lt_of_le hi hBelow)
      have hMoves : 7 * (n + 1) = 7 + 7 * n := by omega
      rw [hMoves, List.replicate_add, run_append, hRun,
        ih hRest, Frame.activations_activation]
      omega

------------------------------------------------------------
-- Sites
------------------------------------------------------------

/-
  A moment with no call under way whose last collector has no
  limit.
-/
def site
    (others : Array Collector)
    (counters : Counters)
    (log : List Event)
    (objects : Table (Object Unit))
    (held : Table Ref)
    (reserved : List Lease) : Moment Unit :=
  ⟨⟨⟨fun _ => true, others.push ⟨.standard, counters⟩,
    objects, log⟩, held⟩, [], reserved⟩

variable {others : Array Collector}
variable {counters counters' : Counters}
variable {log : List Event}
variable {objects : Table (Object Unit)}
variable {held : Table Ref}
variable {reserved : List Lease}

/- The last collector carries a call out. -/
private theorem perform_site
    {α : Type}
    {s : Steps α}
    {a : α}
    {notices : List Notice}
    (hRun : s.run counters [] = (a, counters', notices)) :
    (site others counters log objects held
        reserved).world.heap.perform others.size s =
      (a,
        (site others counters'
          (notices.map (.heap others.size) ++ log) objects
          held reserved).world.heap) := by
  have hCollector :
      (site others counters log objects held
        reserved).world.heap.collector others.size =
        ⟨.standard, counters⟩ := by
    simp [site, Heap.collector]
  have hSet :
      (others.push ⟨.standard, counters⟩).setIfInBounds
          others.size ⟨.standard, counters'⟩ =
        others.push ⟨.standard, counters'⟩ := by
    apply Array.ext
    · simp
    · grind
  unfold Heap.perform
  simp only [hCollector, hRun]
  simp [site, hSet]

/- What requests are checked against at a site. -/
def plenty : Terms :=
  ⟨.unlimited, fun _ => true⟩

/- The last collector begins an array. -/
private theorem step_openArray
    (others : Array Collector)
    (log : List Event)
    (objects : Table (Object Unit))
    (held : Table Ref)
    (s : Shape)
    {hint hinted : UInt64}
    {notices : List Notice}
    (hRun :
      (plenty.openArray s.width hint).run counters [] =
        (.ok hinted, counters', notices)) :
    ∃ log',
      (site others counters log objects held []).step
          (.openArray others.size s hint) =
        site others counters' log' objects held
          [⟨others.size, hinted⟩] := by
  have hHas :
      (site others counters log objects held
        []).world.heap.hasCollector others.size = true := by
    simp [site, Heap.hasCollector]
  have hTerms :
      (site others counters log objects held
        []).world.heap.terms others.size = plenty := by
    simp [site, Heap.terms, Heap.collector, Config.standard,
      plenty]
  refine ⟨notices.map (.heap others.size) ++ log, ?_⟩
  rw [step_eq_start rfl]
  simp only [start, World.openArray, hHas, if_true, hTerms,
    perform_site hRun]
  rfl

/- The last collector finishes the array that was begun. -/
private theorem step_closeArray
    (others : Array Collector)
    (log : List Event)
    (objects : Table (Object Unit))
    (held : Table Ref)
    (s : Shape)
    (items : List s.Item)
    {hinted bytes : UInt64}
    {notices : List Notice}
    (hRun :
      (plenty.closeArray s.width hinted items.length).run
          counters [] =
        (.ok bytes, counters', notices)) :
    ∃ log',
      (site others counters log objects held
            [⟨others.size, hinted⟩]).step
          (.closeArray 0 s items) =
        ⟨((site others counters' log' objects held
          []).world.store ⟨others.size, bytes⟩ s items).2,
          [], []⟩ := by
  have hTerms :
      (site others counters log objects held
        [⟨others.size, hinted⟩]).world.heap.terms
          others.size = plenty := by
    simp [site, Heap.terms, Heap.collector, Config.standard,
      plenty]
  refine ⟨notices.map (.heap others.size) ++ log, ?_⟩
  rw [step_eq_start rfl]
  change
    (⟨(site others counters log objects held
        [⟨others.size, hinted⟩]).world.close others.size s
          hinted items, [], []⟩ : Moment Unit) = _
  unfold World.close
  simp only [hTerms, perform_site hRun]
  rfl

------------------------------------------------------------
-- Moves for a Storey
------------------------------------------------------------

/- What a collector has counted after an empty array. -/
def afterClosure : Counters :=
  ⟨0, 0, 1, 0, 0, 0⟩

/- What it has counted after a list of one value as well. -/
def afterList : Counters :=
  ⟨32, 32, 2, 0, 32, 0⟩

/- A closure of a code, with nothing in its environment. -/
private theorem run_closure
    (others : Array Collector)
    (log : List Event)
    (objects : Table (Object Unit))
    {x : Nat}
    {q : ObjectId}
    (hCode : held.get? x = some (.code q)) :
    ∃ log',
      (site others .zero log objects held []).run
          [.openArray others.size (.closure ⟨x⟩) 0,
            .closeArray 0 (.closure ⟨x⟩) []] =
        site others afterClosure log'
          (objects.insert
            ⟨1, .payload ⟨⟨others.size, 0⟩, .elements []⟩⟩)
          ((held.erase x).insert
            (.value (.closure ⟨objects.issued, q⟩))) [] := by
  have hOpen :
      (plenty.openArray Value.width 0).run .zero [] =
        (.ok 0, .zero, []) :=
    rfl
  have hClose :
      (plenty.closeArray Value.width 0 0).run .zero [] =
        (.ok 0, afterClosure, [.allocated 0 0]) :=
    rfl
  rcases step_openArray others log objects held (.closure ⟨x⟩)
      hOpen with
    ⟨log₁, hOpened⟩
  rcases step_closeArray others log₁ objects held
      (.closure ⟨x⟩) [] hClose with
    ⟨log₂, hClosed⟩
  have hCodeOf :
      (site others afterClosure log₂ objects held
        []).world.codeOf? ⟨x⟩ = some q := by
    simp [World.codeOf?, World.ref?, site, hCode]
  refine ⟨log₂, ?_⟩
  simp only [run_cons, run_nil, hOpened, hClosed,
    World.store, World.takeValues, hCodeOf]
  rfl

/- A list of the value that a handle holds. -/
private theorem run_list
    (others : Array Collector)
    (log : List Event)
    (objects : Table (Object Unit))
    {x : Nat}
    {v : Value}
    (hValue : held.get? x = some (.value v)) :
    ∃ log',
      (site others afterClosure log objects held []).run
          [.openArray others.size .list 1,
            .closeArray 0 .list [⟨x⟩]] =
        site others afterList log'
          (objects.insert
            ⟨1, .payload
              ⟨⟨others.size, 32⟩, .elements [v]⟩⟩)
          ((held.erase x).insert
            (.value (.list objects.issued))) [] := by
  have hOpen :
      (plenty.openArray Value.width 1).run afterClosure [] =
        (.ok 32, ⟨32, 0, 1, 0, 0, 0⟩, []) :=
    rfl
  have hClose :
      (plenty.closeArray Value.width 32 1).run
          ⟨32, 0, 1, 0, 0, 0⟩ [] =
        (.ok 32, afterList, [.allocated 32 32]) :=
    rfl
  rcases step_openArray others log objects held .list hOpen
    with
    ⟨log₁, hOpened⟩
  rcases step_closeArray others log₁ objects held .list [⟨x⟩]
      hClose with
    ⟨log₂, hClosed⟩
  have hValueOf :
      (site others afterList log₂ objects held
        []).world.value? ⟨x⟩ = some v := by
    simp [World.value?, World.ref?, site, hValue]
  refine ⟨log₂, ?_⟩
  simp only [run_cons, run_nil, hOpened, hClosed,
    World.store, World.takeValues, hValueOf]
  rfl

/- A code that captures the value of a handle. -/
private theorem step_newCode
    (others : Array Collector)
    (counters : Counters)
    (log : List Event)
    (objects : Table (Object Unit))
    {x : Nat}
    {v : Value}
    (hValue : held.get? x = some (.value v)) :
    (site others counters log objects held []).step
        (.act (.newCode () [⟨x⟩] [])) =
      site others counters log
        (objects.insert ⟨1, .code ⟨(), 0, [v], []⟩⟩)
        ((held.erase x).insert (.code objects.issued)) [] := by
  have hValueOf :
      (site others counters log objects held
        []).world.value? ⟨x⟩ = some v := by
    simp [World.value?, World.ref?, site, hValue]
  rw [step_eq_start rfl]
  simp only [start, World.begin, World.newCode,
    World.takeValues, hValueOf]
  rfl

------------------------------------------------------------
-- Rising
------------------------------------------------------------

/-
  So many storeys are finished, and there is a code for the
  next one, with a handle on it.
-/
structure Raised
    (n : Nat)
    (objects : Table (Object Unit))
    (held : Table Ref) : Prop where
  storeys : ∀ k < n, Storey objects k
  code :
    objects.get? (3 * n) =
      some ⟨1, .code ⟨(), 0, below n, []⟩⟩
  issued : objects.issued = 3 * n + 1
  handle : held.get? (3 * n) = some (.code (3 * n))
  given : held.issued = 3 * n + 1

/-
  So many storeys are finished and one more, with a handle on
  its list.
-/
structure Roofed
    (n : Nat)
    (objects : Table (Object Unit))
    (held : Table Ref) : Prop where
  storeys : ∀ k ≤ n, Storey objects k
  issued : objects.issued = 3 * n + 3
  handle :
    held.get? (3 * n + 2) =
      some (.value (.list (3 * n + 2)))
  given : held.issued = 3 * n + 3

/- The code, a closure and a list make a storey. -/
private theorem Raised.storeys_insert
    {n : Nat}
    (hRaised : Raised n objects held)
    (l l' : Lease)
    {k : Nat}
    (hk : k ≤ n) :
    Storey
      ((objects.insert
          ⟨1, .payload ⟨l, .elements []⟩⟩).insert
        ⟨1, .payload
          ⟨l', .elements
            [.closure ⟨objects.issued, 3 * n⟩]⟩⟩) k := by
  have hIssued := hRaised.issued
  rcases Nat.lt_or_eq_of_le hk with hLt | rfl
  · refine (hRaised.storeys k hLt).congr (fun i hi => ?_)
    rw [Table.get?_insert, Table.get?_insert,
      Table.issued_insert, if_neg (by omega),
      if_neg (by omega)]
  · refine ⟨?_, ⟨l, ?_⟩, ⟨l', ?_⟩⟩
    · rw [Table.get?_insert, Table.get?_insert,
        Table.issued_insert, if_neg (by omega),
        if_neg (by omega)]
      exact hRaised.code
    · rw [Table.get?_insert, Table.get?_insert,
        Table.issued_insert, if_neg (by omega),
        if_pos hIssued.symm]
    · rw [Table.get?_insert, Table.issued_insert,
        if_pos (by omega), hIssued]

/- The next code captures the list of the storey. -/
private theorem Roofed.raised
    {n : Nat}
    (hRoofed : Roofed n objects held) :
    Raised (n + 1)
      (objects.insert
        ⟨1, .code ⟨(), 0, [.list (3 * n + 2)], []⟩⟩)
      ((held.erase (3 * n + 2)).insert
        (.code objects.issued)) := by
  have hIssued := hRoofed.issued
  have hGiven := hRoofed.given
  refine ⟨?_, ?_, ?_, ?_, ?_⟩
  · intro k hk
    refine
      (hRoofed.storeys k (Nat.le_of_lt_succ hk)).congr
        (fun i hi => ?_)
    rw [Table.get?_insert, if_neg (by omega)]
  · rw [Table.get?_insert, if_pos (by omega)]
    rfl
  · rw [Table.issued_insert]
    omega
  · rw [Table.get?_insert, Table.issued_erase,
      if_pos (by omega), hIssued]
    rfl
  · rw [Table.issued_insert, Table.issued_erase]
    omega

/-
  A collector for a storey, a closure of the code that a
  handle holds, and a list of the closure.
-/
def roof
    (c : CollectorId)
    (x : Nat) : List (Move Unit) :=
  .act (.newCollector .standard) ::
    ([.openArray c (.closure ⟨x⟩) 0,
        .closeArray 0 (.closure ⟨x⟩) []] ++
      [.openArray c .list 1,
        .closeArray 0 .list [⟨x + 1⟩]])

/- A storey is finished on a collector of its own. -/
private theorem run_roof
    {n : Nat}
    (others : Array Collector)
    (counters : Counters)
    (log : List Event)
    (hRaised : Raised n objects held) :
    ∃ log' objects' held',
      (site others counters log objects held []).run
          (roof (others.size + 1) (3 * n)) =
        site (others.push ⟨.standard, counters⟩) afterList
          log' objects' held' [] ∧
        Roofed n objects' held' := by
  have hIssued := hRaised.issued
  have hGiven := hRaised.given
  have hSize :
      others.size + 1 =
        (others.push
          (⟨.standard, counters⟩ : Collector)).size := by
    simp
  have hNew :
      (site others counters log objects held []).step
          (.act (.newCollector .standard)) =
        site (others.push ⟨.standard, counters⟩) .zero log
          objects held [] :=
    rfl
  rw [hSize, roof, run_cons, run_append, hNew]
  generalize others.push ⟨.standard, counters⟩ = all
  rcases run_closure all log objects hRaised.handle with
    ⟨log₁, hClosure⟩
  have hValue :
      ((held.erase (3 * n)).insert
        (.value
          (.closure ⟨objects.issued, 3 * n⟩))).get?
          (3 * n + 1) =
        some
          (.value (.closure ⟨objects.issued, 3 * n⟩)) := by
    rw [Table.get?_insert, Table.issued_erase, hGiven,
      if_pos rfl]
  rcases run_list all log₁
      (objects.insert
        ⟨1, .payload ⟨⟨all.size, 0⟩, .elements []⟩⟩)
      hValue with
    ⟨log₂, hList⟩
  rw [hClosure, hList]
  refine ⟨log₂, _, _, rfl, ?_, ?_, ?_, ?_⟩
  · exact fun k hk => hRaised.storeys_insert _ _ hk
  · simp [hIssued]
  · simp [Table.get?_insert, hIssued, hGiven]
  · simp [hGiven]

/- The moves that make storeys, and the next code. -/
def raise : Nat → List (Move Unit)
| 0 => [.act (.newCode () [] [])]
| n + 1 =>
    raise n ++ roof (n + 1) (3 * n) ++
      [.act (.newCode () [⟨3 * n + 2⟩] [])]

/- So many storeys can be made, one after another. -/
theorem run_raise
    (n : Nat) :
    ∃ others counters log objects held,
      (fresh (fun _ => true)).run (raise n) =
          site others counters log objects held [] ∧
        others.size = n ∧ Raised n objects held := by
  induction n with
  | zero =>
      exact
        ⟨#[], .zero, [], _, _, rfl, rfl, by simp, rfl, rfl,
          rfl, rfl⟩
  | succ n ih =>
      rcases ih with
        ⟨others, counters, log, objects, held, hRun, rfl,
          hRaised⟩
      rcases run_roof others counters log hRaised with
        ⟨log', objects', held', hRoof, hRoofed⟩
      refine
        ⟨others.push ⟨.standard, counters⟩, afterList, log',
          _, _, ?_, by simp, hRoofed.raised⟩
      rw [raise, run_append, run_append, hRun, hRoof,
        run_cons, run_nil,
        step_newCode _ _ _ _ hRoofed.handle]

/- The drop of the list on top goes down all storeys. -/
private theorem Roofed.activations_drop
    {n : Nat}
    (hRoofed : Roofed n objects held)
    (others : Array Collector)
    (counters : Counters)
    (log : List Event) :
    Frame.activations
        ((site others counters log objects held []).after
          (.act (.drop ⟨3 * n + 2⟩)) (7 * n)).frames =
      n := by
  have hRef :
      (site others counters log objects held
        []).world.ref? ⟨3 * n + 2⟩ =
        some (.value (.list (3 * n + 2))) :=
    hRoofed.handle
  unfold after
  rw [step_eq_start rfl]
  simp only [start, World.begin, World.letGo, hRef,
    Ref.frames]
  exact activations_descend n hRoofed.storeys

/-
  No number bounds the activations of a drop: a tower of so
  many storeys can be built, and the drop of the list on top
  comes to a moment with an activation for each storey but
  the lowest.
-/
theorem activations_unbounded :
    ¬ ∃ bound,
      ∀ (provides : UInt64 → Bool)
        (moves : List (Move Unit))
        (x : Handle)
        (v : Value)
        (n : Nat),
        ((fresh provides).run moves).frames = [] →
          ((fresh provides).run moves).world.ref? x =
            some (.value v) →
          Frame.activations
              (((fresh provides).run moves).after
                (.act (.drop x)) n).frames ≤ bound := by
  rintro ⟨bound, hBound⟩
  rcases run_raise (bound + 1) with
    ⟨others, counters, log, objects, held, hRun, hSize,
      hRaised⟩
  rcases run_roof others counters log hRaised with
    ⟨log', objects', held', hRoof, hRoofed⟩
  have hTower :
      (fresh (fun _ => true)).run
          (raise (bound + 1) ++
            roof (others.size + 1) (3 * (bound + 1))) =
        site (others.push ⟨.standard, counters⟩) afterList
          log' objects' held' [] := by
    rw [run_append, hRun, hRoof]
  have hLe :=
    hBound (fun _ => true)
      (raise (bound + 1) ++
        roof (others.size + 1) (3 * (bound + 1)))
      ⟨3 * (bound + 1) + 2⟩ (.list (3 * (bound + 1) + 2))
      (7 * (bound + 1))
  rw [hTower] at hLe
  have hDrop := hLe rfl hRoofed.handle
  rw [hRoofed.activations_drop] at hDrop
  exact Nat.not_succ_le_self bound hDrop

end Moment

end LeasedHeap

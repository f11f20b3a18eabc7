import LeasedHeap.Proofs.Chores

/-
  The reclaimer's loop does what the recursion does.

  The loop has taken the items out of the payloads that are
  open, those whose items are being visited, so its heap and
  the one of the recursion differ there.  They differ nowhere
  else, and neither looks there: all handles of an open
  payload are held by the drop that has opened it.

  The induction is on the work that is left, which is what
  makes the loop end.

  Key definitions include:
    * `Heap.Ready`
    * `Heap.Simulates`

  The loop is the recursion by:
    * `Heap.Ready.simulates`
    * `Heap.Exact.settles_reclaim`
-/

namespace LeasedHeap

namespace Heap

variable {κ : Type}
variable {h h' hs : Heap κ}
variable {outer : ObjectId → Nat}
variable {opened : ObjectId → Prop}

------------------------------------------------------------
-- Being Ready
------------------------------------------------------------

/-
  The loop is about to do some chores in `h` that the
  recursion is about to do in `hs`: counts are exact, chores
  are about what they say, and all handles of what is open
  are held elsewhere.
-/
structure Ready
    (cs : List Chore)
    (outer : ObjectId → Nat)
    (opened : ObjectId → Prop)
    (h hs : Heap κ) : Prop where
  exact :
    h.Exact (fun i => outer i + Chore.mentions cs i)
  typed :
    ∀ c ∈ cs, ∀ l ∈ c.links, h.kind? l.1 = some l.2
  held : ∀ i, opened i → h.handles i ≤ outer i
  beside : h.Beside opened hs

variable {c : Chore}
variable {cs ds : List Chore}
variable {v : Value}
variable {p : ObjectId}
variable {lease : Lease}
variable {contents : Contents}

/- Other chores are ready if they are about what was there. -/
theorem Ready.change
    {outer' : ObjectId → Nat}
    {opened' : ObjectId → Prop}
    {hs' : Heap κ}
    (hWanes : h.Wanes h')
    (hExact :
      h'.Exact (fun i => outer' i + Chore.mentions ds i))
    (hLinks :
      ∀ d ∈ ds, ∀ l ∈ d.links, h.kind? l.1 = some l.2)
    (hHeld : ∀ i, opened' i → h.handles i ≤ outer' i)
    (hBeside : h'.Beside opened' hs') :
    Ready ds outer' opened' h' hs' := by
  refine ⟨hExact, ?_, ?_, hBeside⟩
  · intro d hd l hl
    have hPos := Chore.mentions_pos hd hl
    apply hWanes.kind?_eq _ (hLinks d hd l hl)
    exact hExact.exists_of_pos (by omega)
  · intro i hi
    exact Nat.le_trans (hWanes.handles_le i) (hHeld i hi)

/- What is open is not what a chore is about. -/
theorem Ready.not_opened
    (hReady : Ready cs outer opened h hs)
    {i : ObjectId}
    (hPos : 0 < Chore.mentions cs i) :
    ¬ opened i := by
  intro hi
  have hCounted := hReady.exact.counted i
  have hHeld := hReady.held i hi
  omega

/- The links of a value's code are among those of the value. -/
private theorem links_of_codeChores
    (hv : v.payload? = some p)
    {d : Chore}
    (hd : d ∈ v.codeChores)
    {l : Link}
    (hl : l ∈ d.links) :
    l ∈ v.links := by
  rcases List.mem_map.mp hd with ⟨q, hq, rfl⟩
  rw [Value.links_eq hv]
  rcases List.mem_singleton.mp hl with rfl
  exact
    List.mem_cons_of_mem _
      (List.mem_map_of_mem
        (f := fun q => (q, Kind.code)) hq)

/- After a payload, the code and the other chores are left. -/
theorem Ready.links_rest
    (hReady : Ready (c :: cs) outer opened h hs)
    (hc : c.value? = some v)
    (hv : v.payload? = some p) :
    ∀ d ∈ v.codeChores ++ cs, ∀ l ∈ d.links,
      h.kind? l.1 = some l.2 := by
  intro d hd l hl
  rcases List.mem_append.mp hd with hCode | hRest
  · apply hReady.typed c (List.mem_cons_self ..) l
    rw [Chore.links_eq hc]
    exact links_of_codeChores hv hCode hl
  · exact
      hReady.typed d (List.mem_cons_of_mem _ hRest) l hl

/- A chore about a value has its payload to give up first. -/
theorem Ready.exact_payload
    (hReady : Ready (c :: cs) outer opened h hs)
    (hc : c.value? = some v)
    (hv : v.payload? = some p) :
    h.Exact
      (fun i =>
        (outer i + Chore.mentions (v.codeChores ++ cs) i) +
          [p].count i) := by
  refine hReady.exact.congr (fun i => ?_)
  rw [Chore.mentions_cons, Chore.links_eq hc,
    Value.count_objects_eq hv, Chore.mentions_append]
  omega

/- The payload that a chore is about is there. -/
theorem Ready.payload
    (hReady : Ready (c :: cs) outer opened h hs)
    (hc : c.value? = some v)
    (hv : v.payload? = some p) :
    ¬ opened p ∧
      ∃ n lease contents,
        h.objects.get? p =
          some ⟨n + 1, .payload ⟨lease, contents⟩⟩ := by
  have hLink : (p, Kind.elements) ∈ c.links := by
    rw [Chore.links_eq hc, Value.links_eq hv]
    exact List.mem_cons_self ..
  refine
    ⟨hReady.not_opened
      (Chore.mentions_pos (List.mem_cons_self ..) hLink), ?_⟩
  have hKind := hReady.typed c (List.mem_cons_self ..) _ hLink
  rcases kind?_eq_some_iff.mp hKind with
    ⟨⟨n, cell⟩, hGet, hCell⟩
  have hPos := hReady.exact.held p _ hGet
  obtain ⟨m, rfl⟩ : ∃ m, n = m + 1 :=
    ⟨n - 1, (Nat.sub_add_cancel hPos).symm⟩
  cases cell with
  | code code => cases hCell
  | payload payload =>
      exact ⟨m, payload.lease, payload.contents, hGet⟩

/- A value whose payload is shared loses its handle. -/
theorem Ready.shared
    (hReady : Ready (c :: cs) outer opened h hs)
    (hc : c.value? = some v)
    (hv : v.payload? = some p)
    (hShared : 2 ≤ h.handles p) :
    Ready (v.codeChores ++ cs) outer opened
      (h.uncount p) (hs.uncount p) :=
  .change (.uncount h p)
    ((hReady.exact_payload hc hv).uncount hShared)
    (hReady.links_rest hc hv) hReady.held
    (hReady.beside.uncount (hReady.payload hc hv).1)

/-
  Before the last handle of a payload is dropped its items
  are visited.  What else there is to do is held elsewhere
  meanwhile, the payload itself included.
-/
theorem Ready.visits
    (hReady : Ready (c :: cs) outer opened h hs)
    (hc : c.value? = some v)
    (hv : v.payload? = some p)
    (hGet :
      h.objects.get? p =
        some ⟨1, .payload ⟨lease, contents⟩⟩) :
    Ready contents.visits
      (fun i => outer i + Chore.mentions (c :: cs) i)
      (fun i => opened i ∨ i = p)
      (h.emptied p lease contents) hs := by
  refine .change (.emptied hGet) ?_ ?_ ?_
    (hReady.beside.emptied p lease contents)
  · refine (hReady.exact.emptied hGet).congr (fun i => ?_)
    rw [Contents.mentions_visits (κ := κ) lease]
  · intro d hd l hl
    exact
      hReady.exact.typed p _ hGet l
        (Contents.links_visits lease hd hl)
  · rintro i (hi | rfl)
    · exact
        Nat.le_trans (hReady.held i hi) (Nat.le_add_right _ _)
    · have hPos := Chore.mentions_payload_pos hc hv cs
      rw [handles_of_get? hGet]
      exact Nat.le_trans hPos (Nat.le_add_left _ _)

/-
  A payload that was taken apart and is held from outside
  stays as it is.
-/
theorem Wanes.get?_emptied
    (hWanes : (h.emptied p lease contents).Wanes h')
    (hGet :
      h.objects.get? p =
        some ⟨1, .payload ⟨lease, contents⟩⟩)
    (hExact : h'.Exact outer)
    (hPos : 0 < outer p) :
    h'.objects.get? p =
      some ⟨1, .payload
        ⟨lease, contents.mapValues Value.blank⟩⟩ := by
  rcases hExact.exists_of_pos (i := p) (by omega) with
    ⟨⟨n, cell⟩, hGet'⟩
  rcases hWanes.old p _ hGet' with ⟨o, hOld, hLe, hFades⟩
  have hHeld := hExact.held p _ hGet'
  rw [Heap.get?_emptied hGet] at hOld
  cases hOld
  have hOne : n = 1 := Nat.le_antisymm hLe hHeld
  subst hOne
  rw [hGet']
  generalize hBlank :
    (Cell.payload
      ⟨lease, contents.mapValues Value.blank⟩ : Cell κ) =
      blank at hFades
  cases hFades with
  | same => rfl
  | blank lease' contents' =>
      cases hBlank
      rw [Contents.mapValues_blank_blank]

/- After the visits the payload goes; the rest is left. -/
theorem Ready.after_visits
    {hs' : Heap κ}
    (hReady : Ready (c :: cs) outer opened h hs)
    (hc : c.value? = some v)
    (hv : v.payload? = some p)
    (hWanes : h.Wanes h')
    (hExact :
      h'.Exact
        (fun i => outer i + Chore.mentions (c :: cs) i))
    (hBlank :
      h'.objects.get? p =
        some ⟨1, .payload
          ⟨lease, contents.mapValues Value.blank⟩⟩)
    (hBeside : h'.Beside (fun i => opened i ∨ i = p) hs') :
    Ready (v.codeChores ++ cs) outer opened
      (h'.free p lease) (hs'.free p lease) := by
  refine .change (hWanes.trans (.free h' p lease)) ?_
    (hReady.links_rest hc hv) hReady.held
    (hBeside.free lease)
  have hMoved :
      h'.Exact
        (fun i =>
          (outer i + Chore.mentions (v.codeChores ++ cs) i) +
            [p].count i) := by
    refine hExact.congr (fun i => ?_)
    rw [Chore.mentions_cons, Chore.links_eq hc,
      Value.count_objects_eq hv, Chore.mentions_append]
    omega
  refine (hMoved.free hBlank).congr (fun i => ?_)
  simp [Cell.objects, links_blank]

/- The last handle that is visited lets its payload go. -/
theorem Ready.visit_last
    (hReady : Ready (c :: cs) outer opened h hs)
    (hc : c.value? = some v)
    (hv : v.payload? = some p)
    (hGet :
      h.objects.get? p =
        some ⟨1, .payload ⟨lease, contents⟩⟩) :
    Ready (v.codeChores ++ (contents.visits ++ cs)) outer
      opened (h.free p lease) (hs.free p lease) := by
  refine .change (.free h p lease) ?_ ?_ hReady.held
    ((hReady.beside.mono (fun _ hi => Or.inl hi)).free lease)
  · have hFree := (hReady.exact_payload hc hv).free hGet
    refine hFree.congr (fun i => ?_)
    rw [Chore.mentions_append, Chore.mentions_append,
      Chore.mentions_append,
      Contents.mentions_visits (κ := κ) lease]
    omega
  · intro d hd l hl
    have hRest := hReady.links_rest hc hv d
    rw [List.mem_append, List.mem_append] at hd
    rcases hd with hCode | hVisit | hOther
    · exact hRest (List.mem_append_left _ hCode) l hl
    · exact
        hReady.exact.typed p _ hGet l
          (Contents.links_visits lease hVisit hl)
    · exact hRest (List.mem_append_right _ hOther) l hl

/- An integer leaves the other chores. -/
theorem Ready.integer
    (hReady : Ready (c :: cs) outer opened h hs)
    (hc : c.value? = some v)
    (hv : v.payload? = none) :
    Ready cs outer opened h hs := by
  refine .change (.refl h) ?_ ?_ hReady.held hReady.beside
  · refine hReady.exact.congr (fun i => ?_)
    rw [Chore.mentions_cons, Chore.links_eq hc,
      ← Value.objects_eq, Value.objects_eq_nil hv]
    simp
  · intro d hd
    exact hReady.typed d (List.mem_cons_of_mem _ hd)

------------------------------------------------------------
-- Codes
------------------------------------------------------------

variable {q : ObjectId}

/- The code that a chore is about is there. -/
theorem Ready.code
    (hReady : Ready (.code q :: cs) outer opened h hs) :
    ¬ opened q ∧
      ∃ n code,
        h.objects.get? q = some ⟨n + 1, .code code⟩ := by
  have hLink : (q, Kind.code) ∈ (Chore.code q).links :=
    List.mem_singleton.mpr rfl
  refine
    ⟨hReady.not_opened
      (Chore.mentions_pos (List.mem_cons_self ..) hLink), ?_⟩
  have hKind := hReady.typed _ (List.mem_cons_self ..) _ hLink
  rcases kind?_eq_some_iff.mp hKind with
    ⟨⟨n, cell⟩, hGet, hCell⟩
  have hPos := hReady.exact.held q _ hGet
  obtain ⟨m, rfl⟩ : ∃ m, n = m + 1 :=
    ⟨n - 1, (Nat.sub_add_cancel hPos).symm⟩
  cases cell with
  | code code => exact ⟨m, code, hGet⟩
  | payload payload =>
      rcases payload with ⟨lease, contents⟩
      cases contents <;> cases hCell

theorem Ready.exact_code
    (hReady : Ready (.code q :: cs) outer opened h hs) :
    h.Exact
      (fun i =>
        (outer i + Chore.mentions cs i) + [q].count i) := by
  refine hReady.exact.congr (fun i => ?_)
  rw [Chore.mentions_cons]
  simp only [Chore.links, List.map_cons, List.map_nil]
  omega

theorem Ready.code_shared
    (hReady : Ready (.code q :: cs) outer opened h hs)
    (hShared : 2 ≤ h.handles q) :
    Ready cs outer opened (h.uncount q) (hs.uncount q) :=
  .change (.uncount h q)
    (hReady.exact_code.uncount hShared)
    (fun d hd => hReady.typed d (List.mem_cons_of_mem _ hd))
    hReady.held (hReady.beside.uncount hReady.code.1)

/- A code that ends leaves what it captured. -/
theorem Ready.code_last
    {code : Code κ}
    (hReady : Ready (.code q :: cs) outer opened h hs)
    (hGet : h.objects.get? q = some ⟨1, .code code⟩) :
    Ready (code.chores ++ cs) outer opened
      (h.discard q) (hs.discard q) := by
  refine .change (.discard h q) ?_ ?_ hReady.held
    (hReady.beside.discard q)
  · refine
      (hReady.exact_code.discard hGet).congr (fun i => ?_)
    rw [Chore.mentions_append, Code.mentions_chores]
    omega
  · intro d hd l hl
    rcases List.mem_append.mp hd with hNew | hRest
    · exact
        hReady.exact.typed q _ hGet l
          (Code.links_chores hNew hl)
    · exact
        hReady.typed d (List.mem_cons_of_mem _ hRest) l hl

------------------------------------------------------------
-- One Chore of the Loop
------------------------------------------------------------

/- The recursion keeps beside the loop until both are done. -/
def Simulates
    (cs : List Chore)
    (opened : ObjectId → Prop)
    (h hs : Heap κ) : Prop :=
  ∃ hs', Settles cs hs hs' ∧
    (h.reclaim (cs.map Chore.frame)).Beside opened hs'

theorem Simulates.drop_shared
    (hv : v.payload? = some p)
    (hShared : 2 ≤ h.handles p)
    (hSame : hs.handles p = h.handles p)
    (hRest :
      Simulates (v.codeChores ++ cs) opened
        (h.uncount p) (hs.uncount p)) :
    Simulates (.drop v :: cs) opened h hs := by
  rcases hRest with ⟨hs', hSettles, hBeside⟩
  refine ⟨hs', .drop_shared hv (hSame ▸ hShared) hSettles, ?_⟩
  rw [List.map_append, Value.map_frame_codeChores]
    at hBeside
  rw [List.map_cons, Chore.frame,
    reclaim_value_shared hv hShared]
  exact hBeside

theorem Simulates.visit_shared
    (hv : v.payload? = some p)
    (hShared : 2 ≤ h.handles p)
    (hSame : hs.handles p = h.handles p)
    (hRest :
      Simulates (v.codeChores ++ cs) opened
        (h.uncount p) (hs.uncount p)) :
    Simulates (.visit v :: cs) opened h hs := by
  rcases hRest with ⟨hs', hSettles, hBeside⟩
  refine
    ⟨hs', .visit_shared hv (hSame ▸ hShared) hSettles, ?_⟩
  rw [List.map_append, Value.map_frame_codeChores]
    at hBeside
  rw [List.map_cons, Chore.frame,
    reclaim_visit_shared hv hShared]
  exact hBeside

theorem Simulates.visit_last
    (hv : v.payload? = some p)
    (hGet :
      h.objects.get? p =
        some ⟨1, .payload ⟨lease, contents⟩⟩)
    (hSame : hs.objects.get? p = h.objects.get? p)
    (hRest :
      Simulates (v.codeChores ++ (contents.visits ++ cs))
        opened (h.free p lease) (hs.free p lease)) :
    Simulates (.visit v :: cs) opened h hs := by
  rcases hRest with ⟨hs', hSettles, hBeside⟩
  refine
    ⟨hs', .visit_last hv (hSame.trans hGet) hSettles, ?_⟩
  rw [List.map_append, List.map_append,
    Value.map_frame_codeChores, Contents.map_frame_visits]
    at hBeside
  rw [List.map_cons, Chore.frame,
    reclaim_visit_last hv hGet]
  exact hBeside

/-
  The loop takes the items out and works them off before the
  handle goes, the recursion visits them where they are.
-/
theorem Simulates.drop_last
    {hs₁ : Heap κ}
    (hv : v.payload? = some p)
    (hGet :
      h.objects.get? p =
        some ⟨1, .payload ⟨lease, contents⟩⟩)
    (hSame : hs.objects.get? p = h.objects.get? p)
    (hVisits : Settles contents.visits hs hs₁)
    (hDone :
      h' =
        (h.emptied p lease contents).reclaim
          (contents.visits.map Chore.frame))
    (hBlank :
      h'.objects.get? p =
        some ⟨1, .payload
          ⟨lease, contents.mapValues Value.blank⟩⟩)
    (hRest :
      Simulates (v.codeChores ++ cs) opened
        (h'.free p lease) (hs₁.free p lease)) :
    Simulates (.drop v :: cs) opened h hs := by
  rcases hRest with ⟨hs', hSettles, hBeside⟩
  refine
    ⟨hs',
      .drop_last hv (hSame.trans hGet) hVisits hSettles, ?_⟩
  rw [List.map_append, Value.map_frame_codeChores]
    at hBeside
  rw [Contents.map_frame_visits] at hDone
  rw [List.map_cons, Chore.frame,
    reclaim_value_last hv hGet, reclaim_append, ← hDone,
    Value.handleFrames_eq hv, List.cons_append,
    reclaim_handle_blank hBlank]
  exact hBeside

theorem Simulates.integer
    (hc : c.value? = some v)
    (hv : v.payload? = none)
    (hRest : Simulates cs opened h hs) :
    Simulates (c :: cs) opened h hs := by
  rcases hRest with ⟨hs', hSettles, hBeside⟩
  cases v with
  | list q => cases hv
  | closure closure => cases hv
  | integer i =>
      cases c with
      | code q => cases hc
      | drop w =>
          cases hc
          refine ⟨hs', .drop_integer hSettles, ?_⟩
          rw [List.map_cons, Chore.frame,
            reclaim_value_integer rfl]
          exact hBeside
      | visit w =>
          cases hc
          refine ⟨hs', .visit_integer hSettles, ?_⟩
          rw [List.map_cons, Chore.frame,
            reclaim_visit_integer rfl]
          exact hBeside

theorem Simulates.code_shared
    (hShared : 2 ≤ h.handles q)
    (hSame : hs.handles q = h.handles q)
    (hRest :
      Simulates cs opened (h.uncount q) (hs.uncount q)) :
    Simulates (.code q :: cs) opened h hs := by
  rcases hRest with ⟨hs', hSettles, hBeside⟩
  refine ⟨hs', .code_shared (hSame ▸ hShared) hSettles, ?_⟩
  rw [List.map_cons, Chore.frame,
    reclaim_handle_shared hShared]
  exact hBeside

theorem Simulates.code_last
    {code : Code κ}
    (hGet : h.objects.get? q = some ⟨1, .code code⟩)
    (hSame : hs.objects.get? q = h.objects.get? q)
    (hRest :
      Simulates (code.chores ++ cs) opened
        (h.discard q) (hs.discard q)) :
    Simulates (.code q :: cs) opened h hs := by
  rcases hRest with ⟨hs', hSettles, hBeside⟩
  refine
    ⟨hs', .code_last (hSame.trans hGet) hSettles, ?_⟩
  rw [List.map_append, Code.map_frame_chores] at hBeside
  rw [List.map_cons, Chore.frame, reclaim_handle_last hGet]
  exact hBeside

------------------------------------------------------------
-- The Whole Loop
------------------------------------------------------------

/- The work that is left for some chores in a heap. -/
def work
    (h : Heap κ)
    (cs : List Chore) : Nat :=
  h.objects.total Object.load + (cs.map Chore.load).sum

theorem work_cons
    (h : Heap κ)
    (c : Chore)
    (cs : List Chore) :
    h.work (c :: cs) = c.load + h.work cs := by
  simp only [work, List.map_cons, List.sum_cons]
  omega

theorem work_append
    (h : Heap κ)
    (cs ds : List Chore) :
    h.work (cs ++ ds) =
      (cs.map Chore.load).sum + h.work ds := by
  simp only [work, List.map_append, List.sum_append]
  omega

theorem Wanes.work_le
    (hWanes : h.Wanes h')
    (cs : List Chore) :
    h'.work cs ≤ h.work cs :=
  Nat.add_le_add_right hWanes.load_le _

theorem load_codeChores
    (v : Value) :
    (v.codeChores.map Chore.load).sum ≤ 2 := by
  cases v <;>
    simp [Value.codeChores, Value.code?, Chore.load]

/- Giving up a code is less work than the value was. -/
theorem work_codeChores_lt
    (hWanes : h.Wanes h')
    (hc : c.value? = some v)
    (cs : List Chore) :
    h'.work (v.codeChores ++ cs) < h.work (c :: cs) := by
  have hCode := load_codeChores v
  have hLe := hWanes.work_le cs
  have hLoad : 6 ≤ c.load := by
    cases c <;> cases hc <;> simp [Chore.load]
  rw [work_append, work_cons]
  omega

/- The work in a payload is in its visits. -/
theorem load_payload
    (lease : Lease)
    (contents : Contents) :
    (⟨1, .payload ⟨lease, contents⟩⟩ : Object κ).load =
      (contents.visits.map Chore.load).sum := by
  rw [Contents.load_visits]
  simp [Object.load, Cell.nested, Cell.values, Cell.codes,
    Contents.pending]

theorem work_visits
    (hGet :
      h.objects.get? p =
        some ⟨1, .payload ⟨lease, contents⟩⟩)
    (cs : List Chore) :
    (h.free p lease).work (contents.visits ++ cs) =
      h.work cs := by
  have hErase := Table.total_erase Object.load hGet
  rw [load_payload] at hErase
  rw [work_append]
  simp only [work, objects_free]
  omega

theorem work_emptied
    (hGet :
      h.objects.get? p =
        some ⟨1, .payload ⟨lease, contents⟩⟩) :
    (h.emptied p lease contents).work contents.visits =
      h.work [] := by
  have hSet :=
    Table.total_set Object.load hGet
      ⟨1, .payload
        ⟨lease, contents.mapValues Value.blank⟩⟩
  rw [load_payload, load_payload, Contents.load_visits,
    Contents.load_visits, Contents.pending_blank] at hSet
  simp only [work, emptied, List.map_nil, List.sum_nil,
    List.length_nil, Contents.load_visits] at hSet ⊢
  omega

theorem work_chores
    {code : Code κ}
    (hGet : h.objects.get? q = some ⟨1, .code code⟩)
    (cs : List Chore) :
    (h.discard q).work (code.chores ++ cs) ≤ h.work cs := by
  have hErase := Table.total_erase Object.load hGet
  have hLoad := Code.load_chores code 1
  rw [work_append]
  simp only [work, discard]
  omega

/- The recursion keeps beside the loop if less is to do. -/
def SimulatesBelow
    (κ : Type)
    (bound : Nat) : Prop :=
  ∀ {cs : List Chore} {outer : ObjectId → Nat}
    {opened : ObjectId → Prop} {h hs : Heap κ},
      h.work cs < bound → Ready cs outer opened h hs →
        Simulates cs opened h hs

/- The last handle is dropped: visits first, and then it. -/
private theorem Ready.simulates_drop_last
    (hReady : Ready (.drop v :: cs) outer opened h hs)
    (hv : v.payload? = some p)
    (hGet :
      h.objects.get? p =
        some ⟨1, .payload ⟨lease, contents⟩⟩)
    (ih : SimulatesBelow κ (h.work (.drop v :: cs))) :
    Simulates (.drop v :: cs) opened h hs := by
  have hSame :=
    hReady.beside.same p (hReady.payload rfl hv).1
  have hFewer :
      (h.emptied p lease contents).work contents.visits <
        h.work (.drop v :: cs) := by
    rw [work_emptied hGet, work_cons]
    simp only [work, Chore.load, List.map_nil, List.sum_nil]
    omega
  have hVisits := hReady.visits rfl hv hGet
  rcases ih hFewer hVisits with ⟨hs₁, hSettles, hBeside⟩
  have hWanes :=
    Wanes.reclaim (h.emptied p lease contents)
      (contents.visits.map Chore.frame)
  have hExact := Exact.reclaim hVisits.exact
  have hPos :
      0 < outer p + Chore.mentions (.drop v :: cs) p :=
    Nat.add_pos_right _ (Chore.mentions_payload_pos rfl hv cs)
  have hBlank := hWanes.get?_emptied hGet hExact hPos
  have hSince := (Wanes.emptied hGet).trans hWanes
  have hRest :=
    ih
      (work_codeChores_lt (hSince.trans (.free _ p lease))
        rfl cs)
      (hReady.after_visits rfl hv hSince hExact hBlank
        hBeside)
  exact .drop_last hv hGet hSame hSettles rfl hBlank hRest

/- The last handle is visited: it goes, then visits. -/
private theorem Ready.simulates_visit_last
    (hReady : Ready (.visit v :: cs) outer opened h hs)
    (hv : v.payload? = some p)
    (hGet :
      h.objects.get? p =
        some ⟨1, .payload ⟨lease, contents⟩⟩)
    (ih : SimulatesBelow κ (h.work (.visit v :: cs))) :
    Simulates (.visit v :: cs) opened h hs := by
  have hSame :=
    hReady.beside.same p (hReady.payload rfl hv).1
  have hFewer :
      (h.free p lease).work
          (v.codeChores ++ (contents.visits ++ cs)) <
        h.work (.visit v :: cs) := by
    have hCode := load_codeChores v
    rw [work_append, work_cons, work_visits hGet cs]
    simp only [Chore.load]
    omega
  exact
    .visit_last hv hGet hSame
      (ih hFewer (hReady.visit_last rfl hv hGet))

/- A chore about a value whose payload others hold as well. -/
private theorem Ready.simulates_shared
    (hReady : Ready (c :: cs) outer opened h hs)
    (hc : c.value? = some v)
    (hv : v.payload? = some p)
    (hShared : 2 ≤ h.handles p)
    (ih : SimulatesBelow κ (h.work (c :: cs))) :
    Simulates (c :: cs) opened h hs := by
  have hSame :=
    hReady.beside.handles_eq (hReady.payload hc hv).1
  have hRest :=
    ih (work_codeChores_lt (.uncount h p) hc cs)
      (hReady.shared hc hv hShared)
  cases c with
  | code q => cases hc
  | drop w =>
      cases hc
      exact .drop_shared hv hShared hSame hRest
  | visit w =>
      cases hc
      exact .visit_shared hv hShared hSame hRest

private theorem Ready.simulates_value
    (hReady : Ready (c :: cs) outer opened h hs)
    (hc : c.value? = some v)
    (ih : SimulatesBelow κ (h.work (c :: cs))) :
    Simulates (c :: cs) opened h hs := by
  cases hv : v.payload? with
  | none =>
      have hLoad : 0 < c.load := by
        cases c <;> simp [Chore.load]
      have hFewer : h.work cs < h.work (c :: cs) := by
        rw [work_cons]
        omega
      exact
        .integer hc hv (ih hFewer (hReady.integer hc hv))
  | some p =>
      rcases hReady.payload hc hv with
        ⟨_, n, lease, contents, hGet⟩
      cases n with
      | succ n =>
          refine hReady.simulates_shared hc hv ?_ ih
          rw [handles_of_get? hGet]
          exact Nat.le_add_left 2 n
      | zero =>
          cases c with
          | code q => cases hc
          | drop w =>
              cases hc
              exact hReady.simulates_drop_last hv hGet ih
          | visit w =>
              cases hc
              exact hReady.simulates_visit_last hv hGet ih

private theorem Ready.simulates_code
    (hReady : Ready (.code q :: cs) outer opened h hs)
    (ih : SimulatesBelow κ (h.work (.code q :: cs))) :
    Simulates (.code q :: cs) opened h hs := by
  rcases hReady.code with ⟨hClosed, n, code, hGet⟩
  cases n with
  | zero =>
      have hFewer :
          (h.discard q).work (code.chores ++ cs) <
            h.work (.code q :: cs) := by
        have hLe := work_chores hGet cs
        rw [work_cons]
        simp only [Chore.load]
        omega
      exact
        .code_last hGet (hReady.beside.same q hClosed)
          (ih hFewer (hReady.code_last hGet))
  | succ n =>
      have hShared : 2 ≤ h.handles q := by
        rw [handles_of_get? hGet]
        exact Nat.le_add_left 2 n
      have hFewer :
          (h.uncount q).work cs < h.work (.code q :: cs) := by
        have hLe := (Wanes.uncount h q).work_le cs
        rw [work_cons]
        simp only [Chore.load]
        omega
      exact
        .code_shared hShared
          (hReady.beside.handles_eq hClosed)
          (ih hFewer (hReady.code_shared hShared))

/-
  The recursion keeps beside the loop.  The induction is on
  the work that is left: every rule leaves less, also after
  the visits of a drop, which leave no object with more to
  start than it had.
-/
theorem Ready.simulates
    (hReady : Ready cs outer opened h hs) :
    Simulates cs opened h hs := by
  induction hWork : h.work cs
    using Nat.strong_induction_on
    generalizing cs outer opened h hs with
  | _ work ih =>
      subst hWork
      have hBelow : SimulatesBelow κ (h.work cs) :=
        fun hLt hNow => ih _ hLt hNow rfl
      cases cs with
      | nil =>
          refine ⟨hs, .nil, ?_⟩
          rw [List.map_nil, reclaim_nil]
          exact hReady.beside
      | cons c cs =>
          cases c with
          | drop v => exact hReady.simulates_value rfl hBelow
          | visit v => exact hReady.simulates_value rfl hBelow
          | code q => exact hReady.simulates_code hBelow

/-
  When values are dropped and counts are exact, the loop does
  what the recursion does.
-/
theorem Exact.settles_reclaim
    (hExact :
      h.Exact (fun i => outer i + Chore.mentions cs i))
    (hTyped :
      ∀ c ∈ cs, ∀ l ∈ c.links, h.kind? l.1 = some l.2) :
    Settles cs h (h.reclaim (cs.map Chore.frame)) := by
  have hReady : Ready cs outer (fun _ => False) h h :=
    ⟨hExact, hTyped, fun _ hi => hi.elim, .refl h⟩
  rcases hReady.simulates with ⟨hs', hSettles, hBeside⟩
  rw [← hBeside.eq]
  exact hSettles

end Heap

end LeasedHeap

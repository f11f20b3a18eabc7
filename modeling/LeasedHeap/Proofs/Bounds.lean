import LeasedHeap.Proofs.Reports

/-
  What collectors stand by.

  No move takes the live bytes of a collector past its limit,
  those reserved by calls under way included; and a refusal
  is told only when it is due: the request would pass the
  limit or the words, or the underlying allocator has nothing
  for it.  Limits are never changed.

  Main declarations:
    * `Limit.Allows`
    * `Refusal.Due`
    * `Heap.Abides`
    * `Moment.Sound.abides_step` and `Moment.Sound.abides_run`
    * `Moment.Reached.admits` and `Moment.Reached.due`
-/

namespace LeasedHeap

------------------------------------------------------------
-- Bytes that May Be Live
------------------------------------------------------------

/- A number of bytes that may be live: a word, within bounds. -/
def Limit.Allows
    (l : Limit)
    (n : Nat) : Prop :=
  n < UInt64.size ∧
    ∀ bound, l.bytes = some bound → n ≤ bound.toNat

namespace Limit

variable {l : Limit}

/- Less may be live where more may. -/
theorem Allows.of_le
    {m n : Nat}
    (hAllows : l.Allows n)
    (hLe : m ≤ n) :
    l.Allows m :=
  ⟨Nat.lt_of_le_of_lt hLe hAllows.1,
    fun bound hBound =>
      Nat.le_trans hLe (hAllows.2 bound hBound)⟩

/- Words are allowed if they are admitted. -/
theorem allows_toNat
    {b : UInt64} :
    l.Allows b.toNat ↔ l.admits b = true := by
  have hWord : b.toNat < UInt64.size := b.toNat_lt_size
  unfold Allows admits
  cases l.bytes with
  | none => simp [hWord]
  | some bound =>
      simp [hWord, UInt64.le_iff_toNat_le]

end Limit

namespace Counters

variable {c : Counters}
variable {limit : Limit}
variable {bytes : UInt64}

/- There is room for what may be live on top. -/
theorem exists_room_iff :
    (∃ next, c.room? limit bytes = some next) ↔
      limit.Allows (c.live.toNat + bytes.toNat) := by
  constructor
  · rintro ⟨next, hRoom⟩
    rcases room?_eq_some_iff.mp hRoom with ⟨hNext, hAdmits⟩
    rw [← hNext]
    exact Limit.allows_toNat.mpr hAdmits
  · intro hAllows
    have hNext :
        (UInt64.ofNat (c.live.toNat + bytes.toNat)).toNat =
          c.live.toNat + bytes.toNat :=
      UInt64.toNat_ofNat_of_lt' hAllows.1
    refine ⟨_, room?_eq_some_iff.mpr ⟨hNext, ?_⟩⟩
    rw [← Limit.allows_toNat, hNext]
    exact hAllows

/- There is none for what may not. -/
theorem room?_eq_none_iff :
    c.room? limit bytes = none ↔
      ¬ limit.Allows (c.live.toNat + bytes.toNat) := by
  rw [← exists_room_iff, Option.eq_none_iff_forall_ne_some]
  exact not_exists.symm

end Counters

/-
  A refusal is due on some terms: it quotes their limit, and
  the bytes may not be live on top of those that are, or the
  underlying allocator has none, or the largest word stands
  for more bytes than there are words.
-/
def Refusal.Due
    (r : Refusal)
    (t : Terms) : Prop :=
  r.limit = t.limit ∧
    (¬ r.limit.Allows (r.live.toNat + r.requested.toNat) ∨
      t.grants r.requested = false ∨
      r.requested = Word.top)

/- A request that cannot be secured is refused duly. -/
theorem Terms.due_of_secured?
    {t : Terms}
    {c : Counters}
    {bytes : UInt64}
    (hNone : t.secured? c bytes = none) :
    (t.refusal c bytes).Due t := by
  refine ⟨rfl, ?_⟩
  unfold secured? at hNone
  split at hNone
  · exact Or.inl (Counters.room?_eq_none_iff.mp hNone)
  · rename_i hGrants
    exact Or.inr (Or.inl (Bool.eq_false_of_not_eq_true hGrants))

/- What is secured is allowed. -/
theorem Terms.admits_of_secured?
    {t : Terms}
    {c : Counters}
    {bytes next : UInt64}
    (hSome : t.secured? c bytes = some next) :
    t.limit.admits next = true := by
  unfold secured? at hSome
  split at hSome
  · exact (Counters.room?_eq_some_iff.mp hSome).2
  · cases hSome

------------------------------------------------------------
-- Heaps one after Another
------------------------------------------------------------

namespace Heap

variable {κ : Type}

/-
  One heap comes after another, and collectors stand by their
  terms: live bytes that were within the limit still are, and
  whatever refusal was told in between was due.
-/
structure Abides (h h' : Heap κ) : Prop where
  size : h.collectors.size ≤ h'.collectors.size
  terms :
    ∀ c, c < h.collectors.size → h'.terms c = h.terms c
  live :
    ∀ c, (h.terms c).limit.admits (h.counters c).live →
      (h'.terms c).limit.admits (h'.counters c).live
  told :
    ∃ news, h'.log = news ++ h.log ∧
      ∀ c r, .heap c (.refused r) ∈ news →
        c < h'.collectors.size ∧ r.Due (h'.terms c)

variable {h h' h'' : Heap κ}

theorem Abides.trans
    (hFirst : h.Abides h')
    (hSecond : h'.Abides h'') :
    h.Abides h'' := by
  rcases hFirst.told with ⟨news, hLog, hNews⟩
  rcases hSecond.told with ⟨news', hLog', hNews'⟩
  refine
    ⟨Nat.le_trans hFirst.size hSecond.size, ?_,
      fun c hc => hSecond.live c (hFirst.live c hc),
      news' ++ news, ?_, ?_⟩
  · intro c hc
    rw [hSecond.terms c (Nat.lt_of_lt_of_le hc hFirst.size),
      hFirst.terms c hc]
  · rw [hLog', hLog, List.append_assoc]
  · intro c r hMem
    rcases List.mem_append.mp hMem with hMem | hMem
    · exact hNews' c r hMem
    · rcases hNews c r hMem with ⟨hc, hDue⟩
      refine ⟨Nat.lt_of_lt_of_le hc hSecond.size, ?_⟩
      rw [hSecond.terms c hc]
      exact hDue

/- Where no collector works, only asides are told. -/
theorem Abides.of_collectors_eq
    {news : List Event}
    (hProvides : h'.provides = h.provides)
    (hCollectors : h'.collectors = h.collectors)
    (hLog : h'.log = news ++ h.log)
    (hNews : ∀ c r, .heap c (.refused r) ∉ news) :
    h.Abides h' := by
  have hTerms : ∀ c, h'.terms c = h.terms c := by
    intro c
    unfold Heap.terms collector
    rw [hProvides, hCollectors]
  have hCounters : ∀ c, h'.counters c = h.counters c := by
    intro c
    unfold counters collector
    rw [hCollectors]
  refine ⟨?_, fun c _ => hTerms c, ?_, news, hLog, ?_⟩
  · rw [hCollectors]
  · intro c hc
    rw [hTerms, hCounters]
    exact hc
  · intro c r hMem
    exact absurd hMem (hNews c r)

theorem Abides.refl
    (h : Heap κ) :
    h.Abides h :=
  .of_collectors_eq rfl rfl (List.nil_append _).symm (by simp)

/- What is told of an application is no refusal. -/
theorem abides_record
    (h : Heap κ)
    {e : Event}
    (hEvent : ∀ c r, e ≠ .heap c (.refused r)) :
    h.Abides (h.record e) := by
  have hLog : (h.record e).log = [e] ++ h.log := rfl
  refine .of_collectors_eq rfl rfl hLog ?_
  intro c r hMem
  exact hEvent c r (List.mem_singleton.mp hMem).symm

/- Objects do not matter. -/
theorem Abides.congr
    (hAbides : h.Abides h')
    (hProvides : h''.provides = h'.provides)
    (hCollectors : h''.collectors = h'.collectors)
    (hLog : h''.log = h'.log) :
    h.Abides h'' :=
  hAbides.trans
    (.of_collectors_eq hProvides hCollectors
      (hLog.trans (List.nil_append _).symm) (by simp))

------------------------------------------------------------
-- Calls
------------------------------------------------------------

variable {c : CollectorId}
variable {counters : Counters}
variable {ns : List Notice}

/- A call leaves configurations as they are. -/
theorem config_tally
    (h : Heap κ)
    (c : CollectorId)
    (counters : Counters)
    (ns : List Notice)
    (d : CollectorId) :
    ((h.tally c counters ns).collector d).config =
      (h.collector d).config := by
  unfold tally collector
  simp only [Array.getElem?_setIfInBounds]
  by_cases hd : c = d
  · subst hd
    by_cases hc : c < h.collectors.size <;> simp [hc]
  · simp [hd]

/- So it leaves the terms as they are. -/
theorem terms_tally
    (h : Heap κ)
    (c : CollectorId)
    (counters : Counters)
    (ns : List Notice)
    (d : CollectorId) :
    (h.tally c counters ns).terms d = h.terms d := by
  unfold Heap.terms
  rw [config_tally]
  rfl

/-
  A call stands by the terms if it leaves the live bytes
  within the limit and all refusals that it tells are due.
-/
theorem abides_tally
    (hc : c < h.collectors.size)
    (hLive :
      (h.terms c).limit.admits (h.counters c).live →
        (h.terms c).limit.admits counters.live)
    (hDue : ∀ r, .refused r ∈ ns → r.Due (h.terms c)) :
    h.Abides (h.tally c counters ns) := by
  refine
    ⟨Nat.le_of_eq (by simp [tally]),
      fun d _ => terms_tally h c counters ns d, ?_,
      ns.map (.heap c), rfl, ?_⟩
  · intro d hd
    rw [terms_tally, counters_tally hc]
    split
    · rename_i hSame
      subst hSame
      exact hLive hd
    · exact hd
  · intro d r hMem
    rcases List.mem_map.mp hMem with ⟨n, hn, hEvent⟩
    cases hEvent
    rw [terms_tally]
    exact ⟨by simpa [tally] using hc, hDue r hn⟩

/- To give live bytes back keeps them within the limit. -/
private theorem admits_sub
    {l : Limit}
    {live bytes : UInt64}
    (hLe : bytes ≤ live)
    (hAdmits : l.admits live) :
    l.admits (live - bytes) :=
  Limit.admits_of_le (UInt64.sub_le hLe) hAdmits

theorem abides_allocate
    (hc : c < h.collectors.size)
    (size : UInt64) :
    h.Abides
      (h.perform c ((h.terms c).allocate size)).2 := by
  rw [perform_eq, Terms.run_allocate]
  cases hSecured :
      (h.terms c).secured? (h.counters c) size with
  | some next =>
      refine abides_tally hc (fun _ => ?_) (by simp)
      exact Terms.admits_of_secured? hSecured
  | none =>
      refine abides_tally hc (fun hAdmits => hAdmits) ?_
      simpa using Terms.due_of_secured? hSecured

theorem abides_openArray
    (hc : c < h.collectors.size)
    (width hint : UInt64) :
    h.Abides
      (h.perform c
        ((h.terms c).openArray width hint)).2 := by
  rw [perform_eq, Terms.run_openArray]
  cases Word.mul? hint width with
  | none =>
      refine abides_tally hc (fun hAdmits => hAdmits) ?_
      simp [Refusal.Due, Terms.refusal]
  | some hinted =>
      simp only
      cases hSecured :
          (h.terms c).secured? (h.counters c) hinted with
      | some next =>
          refine abides_tally hc (fun _ => ?_) (by simp)
          exact Terms.admits_of_secured? hSecured
      | none =>
          refine abides_tally hc (fun hAdmits => hAdmits) ?_
          simpa using Terms.due_of_secured? hSecured

/-
  A call that is refused when it closes gives up what it had
  reserved, so its last refusal quotes what was live without
  it.
-/
theorem abides_closeArray
    {hinted : UInt64}
    (hc : c < h.collectors.size)
    (hLe : hinted ≤ (h.counters c).live)
    (width : UInt64)
    (count : Nat) :
    h.Abides
      (h.perform c
        ((h.terms c).closeArray width hinted count)).2 := by
  rw [perform_eq, Terms.run_closeArray]
  simp only
  cases Word.ofNat? (count * width.toNat) with
  | none =>
      refine abides_tally hc (admits_sub hLe) ?_
      simp [Refusal.Due, Terms.refusal]
  | some size =>
      simp only
      split
      · rename_i hFits
        cases hRoom :
            (h.counters c).room? (h.terms c).limit
              (size - hinted) with
        | some next =>
            refine abides_tally hc (fun _ => ?_) (by simp)
            exact (Counters.room?_eq_some_iff.mp hRoom).2
        | none =>
            have hNot := Counters.room?_eq_none_iff.mp hRoom
            have hSame :
                ((h.counters c).live - hinted).toNat +
                    size.toNat =
                  (h.counters c).live.toNat +
                    (size - hinted).toNat := by
              rw [UInt64.toNat_sub_of_le _ _ hLe,
                UInt64.toNat_sub_of_le _ _ hFits]
              rw [UInt64.le_iff_toNat_le] at hLe hFits
              omega
            refine abides_tally hc (admits_sub hLe) ?_
            intro r hMem
            rw [List.mem_pair] at hMem
            rcases hMem with hLast | hFirst
            · cases hLast
              exact ⟨rfl, Or.inl (hSame ▸ hNot)⟩
            · cases hFirst
              exact ⟨rfl, Or.inl hNot⟩
      · rename_i hFits
        refine abides_tally hc (admits_sub ?_) (by simp)
        have hLess : size ≤ hinted :=
          UInt64.le_of_lt (UInt64.not_le.mp hFits)
        rw [UInt64.le_iff_toNat_le,
          UInt64.toNat_sub_of_le _ _ hLess]
        rw [UInt64.le_iff_toNat_le] at hLe
        omega

/- So is the return of a lease. -/
theorem abides_release
    {bytes : UInt64}
    (hc : c < h.collectors.size)
    (hLe : bytes ≤ (h.counters c).live) :
    h.Abides (h.perform c (Steps.release bytes)).2 := by
  rw [perform_eq, Steps.run_release]
  exact abides_tally hc (admits_sub hLe) (by simp)

/- A collector that is not there is not called. -/
theorem abides_resetPeak
    (h : Heap κ)
    (c : CollectorId) :
    h.Abides (h.perform c Steps.resetPeak).2 := by
  by_cases hc : c < h.collectors.size
  · rw [perform_eq, Steps.run_resetPeak]
    exact abides_tally hc (fun hAdmits => hAdmits) (by simp)
  · refine
      .of_collectors_eq rfl ?_ (List.nil_append _).symm
        (by simp)
    exact
      Array.setIfInBounds_eq_of_size_le
        (Nat.le_of_not_lt hc)

------------------------------------------------------------
-- Steps
------------------------------------------------------------

/- The underlying allocator stays what it is. -/
theorem provides_retain
    (h : Heap κ)
    (i : ObjectId) :
    (h.retain i).provides = h.provides := by
  unfold retain
  split <;> rfl

theorem provides_step
    (h : Heap κ)
    (f : Frame) :
    (h.step f).2.provides = h.provides := by
  have hTake : ∀ p, (h.take p).2.provides = h.provides := by
    intro p
    rcases take_cases h p with
      ⟨lease, contents, _, hTake⟩ | ⟨_, hTake⟩
    · rw [hTake]
      rfl
    · rw [hTake]
  cases f with
  | value v =>
      cases hv : v.payload? with
      | none => simp only [Heap.step, hv]
      | some p =>
          simp only [Heap.step, hv]
          exact hTake p
  | activation v pending =>
      cases pending with
      | nil => rfl
      | cons w pending =>
          cases hw : w.payload? with
          | none => simp only [Heap.step, hw]
          | some p =>
              simp only [Heap.step, hw]
              exact hTake p
  | handle i =>
      simp only [Heap.step]
      rcases release_cases h i with
        ⟨_, hRelease⟩ | ⟨n, cell, _, hRelease⟩ |
          ⟨n, cell, _, _, hRelease⟩ <;>
        rw [hRelease]
  | lease l => rfl

/- A step of the reclaimer returns a lease at most. -/
theorem Balanced.abides_step
    {f : Frame}
    {fs : List Frame}
    {reserved : List Lease}
    (hBalanced : h.Balanced (f :: fs) reserved) :
    h.Abides (h.step f).2 := by
  have hPlain :
      (∀ l, f ≠ .lease l) → h.Abides (h.step f).2 :=
    fun hNot =>
      .of_collectors_eq (provides_step h f)
        (step_collectors hNot).1
        ((step_collectors hNot).2.trans
          (List.nil_append _).symm)
        (by simp)
  cases f with
  | lease l =>
      have hLive := hBalanced.live l.owner
      rw [owing_cons_lease, Lease.bytesAt,
        if_pos rfl] at hLive
      refine
        abides_release
          (hBalanced.lt_of_pending List.mem_cons_self) ?_
      rw [UInt64.le_iff_toNat_le]
      omega
  | value v => exact hPlain (by simp)
  | activation v pending => exact hPlain (by simp)
  | handle i => exact hPlain (by simp)

end Heap

------------------------------------------------------------
-- Operations
------------------------------------------------------------

namespace World

variable {κ : Type}
variable (w : World κ)

/- A world without the collector makes no call. -/
theorem abides_allocate
    (c : CollectorId)
    (size : UInt64) :
    w.heap.Abides (w.allocate c size).2.heap := by
  unfold allocate
  split
  · rename_i hHas
    have hAbides :=
      Heap.abides_allocate (h := w.heap) (c := c)
        (by simpa [Heap.hasCollector] using hHas) size
    split
    · rename_i r heap hCall
      rw [hCall] at hAbides
      exact hAbides
    · rename_i heap hCall
      rw [hCall] at hAbides
      exact hAbides.congr rfl rfl rfl
  · exact .refl _

theorem abides_openArray
    (c : CollectorId)
    (s : Shape)
    (hint : UInt64) :
    w.heap.Abides (w.openArray c s hint).2.heap := by
  unfold openArray
  split
  · rename_i hHas
    exact
      Heap.abides_openArray
        (by simpa [Heap.hasCollector] using hHas) _ _
  · exact .refl _

theorem abides_close
    {c : CollectorId}
    {hinted : UInt64}
    (hc : c < w.heap.collectors.size)
    (hLe : hinted ≤ (w.heap.counters c).live)
    (s : Shape)
    (items : List s.Item) :
    w.heap.Abides (w.close c s hinted items).heap := by
  have hAbides :=
    Heap.abides_closeArray (h := w.heap) hc hLe s.width
      items.length
  unfold close
  split
  · rename_i r heap hCall
    rw [hCall] at hAbides
    exact hAbides
  · rename_i bytes heap hCall
    rw [hCall] at hAbides
    rcases heap_store { w with heap } ⟨c, bytes⟩ s items with
      ⟨contents, hStore⟩
    rw [hStore]
    exact hAbides.congr rfl rfl rfl

/- An application tells of itself. -/
theorem abides_enter
    (c : Closure)
    (args : Nat) :
    w.heap.Abides (w.enter c args).heap := by
  unfold enter
  split
  · rename_i env code hEnv hCode
    have hEntered :=
      Heap.abides_record w.heap
        (e := .enter env.length args) (by simp)
    simp only
    split
    · refine hEntered.congr ?_ ?_ ?_
      all_goals
        unfold countRun
        split <;> rfl
    · exact
        (hEntered.trans
          (Heap.abides_record _ (by simp))).trans
          (Heap.abides_record _ (by simp))
  · exact .refl _

theorem provides_clone
    (r : Ref) :
    (w.clone r).2.heap.provides = w.heap.provides := by
  have hRetain := Heap.provides_retain (κ := κ)
  unfold clone
  split
  · cases r with
    | value v =>
        cases v with
        | integer n => rfl
        | list p => exact hRetain _ _
        | closure c => exact (hRetain _ _).trans (hRetain _ _)
    | array p => exact hRetain _ _
    | code q => exact hRetain _ _
  · rfl

/- A new collector leaves the others and has nothing live. -/
theorem abides_newCollector
    (w : World κ)
    (config : Config) :
    w.heap.Abides (w.newCollector config).2.heap := by
  have hCollector :
      ∀ c, c < w.heap.collectors.size →
        (w.newCollector config).2.heap.collector c =
          w.heap.collector c := by
    intro c hc
    unfold Heap.collector
    simp [newCollector, Array.getElem?_push,
      Nat.ne_of_lt hc]
  refine ⟨by simp [newCollector], ?_, ?_, [], rfl, by simp⟩
  · intro c hc
    simp only [Heap.terms, hCollector c hc]
    rfl
  · intro c hAdmits
    by_cases hc : c < w.heap.collectors.size
    · simpa only [Heap.terms, Heap.counters,
        hCollector c hc] using hAdmits
    · have hZero :
          (w.newCollector config).2.heap.counters c =
            .zero := by
        unfold Heap.counters Heap.collector
        simp only [newCollector, Array.getElem?_push]
        split
        · rfl
        · rw [Array.getElem?_eq_none (Nat.le_of_not_lt hc)]
          rfl
      rw [hZero]
      exact Limit.admits_zero

/- Whatever an action does, collectors stand by their terms. -/
theorem abides_begin
    (a : Action κ) :
    w.heap.Abides (w.begin a).2.heap := by
  have hNothing :
      ∀ h : Heap κ,
        h.provides = w.heap.provides →
          h.collectors = w.heap.collectors →
            h.log = w.heap.log → w.heap.Abides h :=
    fun h hProvides hCollectors hLog =>
      (Heap.Abides.refl w.heap).congr hProvides hCollectors
        hLog
  cases a with
  | newCollector config => exact w.abides_newCollector config
  | resetPeak c => exact Heap.abides_resetPeak w.heap c
  | allocate c size => exact w.abides_allocate c size
  | clone r =>
      exact
        hNothing _ (w.provides_clone r)
          (w.collectors_clone r).1 (w.collectors_clone r).2
  | drop x =>
      simp only [begin, letGo]
      split <;> exact hNothing _ rfl rfl rfl
  | writeNumber x i n =>
      simp only [begin, writeNumber]
      split
      · split <;> exact hNothing _ rfl rfl rfl
      · exact .refl _
      · exact .refl _
  | writeValue x i item =>
      simp only [begin]
      rcases exchange_cases w x i item with
        ⟨hExchange, _⟩ |
          ⟨p, lease, vs, old, v, _, _, _, hExchange, _⟩ <;>
        rw [hExchange] <;>
        exact hNothing _ rfl rfl rfl
  | newCode body values codes =>
      simp only [begin, newCode, issue, hold, heap_takeCodes,
        heap_takeValues]
      exact hNothing _ rfl rfl rfl

end World

------------------------------------------------------------
-- Moves and Runs
------------------------------------------------------------

namespace Moment

variable {κ : Type}
variable {m : Moment κ}

/- What an array call has reserved is live. -/
theorem Sound.le_live
    (hSound : m.Sound)
    {l : Lease}
    (hMem : l ∈ m.reserved) :
    l.bytes ≤ (m.world.heap.counters l.owner).live := by
  have hLive := hSound.balanced.live l.owner
  have hLe :
      Lease.bytesAt l.owner l ≤
        Lease.sum (Lease.bytesAt l.owner) m.reserved :=
    List.single_le_sum (by simp) _
      (List.mem_map_of_mem hMem)
  rw [Lease.bytesAt, if_pos rfl] at hLe
  rw [Heap.owing] at hLive
  rw [UInt64.le_iff_toNat_le]
  omega

/- Whatever move is made, collectors stand by their terms. -/
theorem Sound.abides_step
    (hSound : m.Sound)
    (v : Move κ) :
    m.world.heap.Abides (m.step v).world.heap := by
  rcases step_cases m v with
    ⟨hFrames, hStep⟩ | ⟨f, fs, hFrames, hStep⟩ | hStep
  · rw [hStep]
    cases v with
    | act a => exact m.world.abides_begin a
    | openArray c s hint =>
        have hAbides := m.world.abides_openArray c s hint
        unfold Moment.start
        simp only
        split
        · rename_i r w hOpen
          rw [hOpen] at hAbides
          exact hAbides
        · rename_i hinted w hOpen
          rw [hOpen] at hAbides
          exact hAbides
    | closeArray k s items =>
        unfold Moment.start
        simp only
        split
        · exact .refl _
        · rename_i c hinted hk
          have hMem := List.mem_of_getElem? hk
          exact
            m.world.abides_close
              (hSound.balanced.lt_of_reserved hMem)
              (hSound.le_live hMem) s items
    | enter c args => exact m.world.abides_enter c args
    | exit => exact Heap.abides_record _ (by simp)
    | reclaim => exact .refl _
  · rw [hStep]
    have hBalanced := hSound.balanced
    rw [hFrames] at hBalanced
    exact hBalanced.abides_step
  · rw [hStep]
    exact .refl _

theorem Sound.abides_run
    (hSound : m.Sound)
    (moves : List (Move κ)) :
    m.world.heap.Abides (m.run moves).world.heap := by
  induction moves generalizing m with
  | nil => exact .refl _
  | cons v moves ih =>
      exact (hSound.abides_step v).trans (ih (hSound.step v))

/- Some run leads to a moment. -/
def Reached
    (provides : UInt64 → Bool)
    (m : Moment κ) : Prop :=
  ∃ moves, (fresh provides).run moves = m

variable {provides : UInt64 → Bool}
variable {m' : Moment κ}

theorem Reached.leads
    (hReached : m.Reached provides)
    (hLeads : m.Leads m') :
    m'.Reached provides := by
  rcases hReached with ⟨moves, rfl⟩
  rcases hLeads with ⟨more, rfl⟩
  exact ⟨moves ++ more, run_append _ moves more⟩

theorem Reached.sound
    (hReached : m.Reached provides) :
    m.Sound := by
  rcases hReached with ⟨moves, rfl⟩
  exact sound_run_fresh provides moves

/- Since the start, all collectors stood by their terms. -/
theorem Reached.abides
    (hReached : m.Reached provides) :
    (Heap.fresh provides).Abides m.world.heap := by
  rcases hReached with ⟨moves, rfl⟩
  exact (sound_fresh provides).abides_run moves

/- No collector is past its limit. -/
theorem Reached.admits
    (hReached : m.Reached provides)
    (c : CollectorId) :
    (m.world.heap.terms c).limit.admits
      (m.world.heap.counters c).live := by
  refine hReached.abides.live c ?_
  have hZero :
      (Heap.fresh (κ := κ) provides).counters c = .zero := by
    unfold Heap.counters Heap.collector Heap.fresh
    cases c <;> rfl
  rw [hZero]
  exact Limit.admits_zero

/- All refusals in the trace were due. -/
theorem Reached.due
    (hReached : m.Reached provides)
    {c : CollectorId}
    {r : Refusal}
    (hMem : .heap c (.refused r) ∈ m.world.heap.log) :
    r.Due (m.world.heap.terms c) := by
  rcases hReached.abides.told with ⟨news, hLog, hNews⟩
  rw [hLog, List.mem_append] at hMem
  rcases hMem with hMem | hMem
  · exact (hNews c r hMem).2
  · simp [Heap.fresh] at hMem

/- The underlying allocator is that of the start. -/
theorem Reached.provides_eq
    (hReached : m.Reached provides) :
    m.world.heap.provides = provides := by
  have hCommon :
      0 < (Heap.fresh (κ := κ) provides).collectors.size :=
    Nat.one_pos
  have hTerms := hReached.abides.terms 0 hCommon
  exact congrArg Terms.provides hTerms

end Moment

end LeasedHeap

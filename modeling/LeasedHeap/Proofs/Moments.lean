import LeasedHeap.Run

/-
  Runs of programs as sequences of moves.

  A program works on a world through a few kinds of moves,
  and any sequence of moves is a run of some program.  A drop
  is not one move: it leaves frames behind, and each move of
  the reclaimer does the next thing of the innermost one.
  Until no frame is left the program has to wait, so what is
  seen between two moves is all that can ever be seen.

  Array calls overlap: while the source of one is pulled,
  other moves are made and other arrays opened.  A moment
  keeps what the calls under way have reserved.

  Key definitions include:
    * `Move`
    * `Moment`
    * `Moment.step`
    * `Moment.run`

  Every run of a program is a sequence of moves by:
    * `Moment.leads_exec`
    * `Moment.leads_run`
-/

namespace LeasedHeap

------------------------------------------------------------
-- Operations that Leave Frames
------------------------------------------------------------

namespace World

variable {κ : Type}

/- Let go of a handle, and leave what it held to be dropped. -/
def letGo
    (w : World κ)
    (x : Handle) : List Frame × World κ :=
  match w.ref? x with
  | none => ([], w)
  | some r =>
      (r.frames, { w with held := w.held.erase x.key })

/-
  Move a value into an array, and leave the one that was in
  its place to be dropped.
-/
def exchange
    (w : World κ)
    (x : Handle)
    (i : Nat)
    (item : Handle) : List Frame × World κ :=
  match w.unique? x with
  | some (p, lease, .slots vs) =>
      match vs[i]?, w.value? item with
      | some old, some v =>
          ([.value old],
            { w with
              held := w.held.erase item.key }.setContents
              p lease (.slots (vs.set i v)))
      | _, _ => ([], w)
  | _ => ([], w)

/- Begin an action, and leave what it drops. -/
def begin
    (w : World κ) : Action κ → List Frame × World κ
| .drop x => w.letGo x
| .writeValue x i item => w.exchange x i item
| .newCollector config => ([], (w.newCollector config).2)
| .resetPeak c => ([], w.resetPeak c)
| .allocate c size => ([], (w.allocate c size).2)
| .clone r => ([], (w.clone r).2)
| .writeNumber x i n => ([], (w.writeNumber x i n).2)
| .newCode body values codes =>
    ([], (w.newCode body values codes).2)

/-
  Finish an array call.  If it is refused, the items are
  still to be dropped.
-/
def close
    (w : World κ)
    (c : CollectorId)
    (s : Shape)
    (hinted : UInt64)
    (items : List s.Item) : World κ :=
  match w.heap.perform c
      ((w.heap.terms c).closeArray s.width hinted
        items.length) with
  | (.error _, heap) => { w with heap }
  | (.ok bytes, heap) =>
      ({ w with heap }.store ⟨c, bytes⟩ s items).2

/- Begin to apply a closure to so many arguments. -/
def enter
    (w : World κ)
    (c : Closure)
    (args : Nat) : World κ :=
  match w.heap.elements? c.environment,
      w.heap.code? c.code with
  | some env, some _ =>
      let w := w.record (.enter env.length args)
      if args = env.length then
        w.countRun c.code
      else
        (w.record (.mismatch env.length args)).record .exit
  | _, _ => w

/- Work until no frame is left. -/
def reclaim
    (w : World κ)
    (fs : List Frame) : World κ :=
  { w with heap := w.heap.reclaim fs }

@[simp]
theorem reclaim_nil
    (w : World κ) :
    w.reclaim [] = w := by
  unfold reclaim
  rw [Heap.reclaim]

/- A drop lets go, and then gives everything up. -/
theorem drop_eq_reclaim
    (w : World κ)
    (x : Handle) :
    (w.drop x).2 = (w.letGo x).2.reclaim (w.letGo x).1 := by
  unfold drop letGo
  cases w.ref? x with
  | none => exact (reclaim_nil w).symm
  | some r => rfl

/-
  A value is exchanged for one in an array of values with a
  single handle; otherwise nothing happens.
-/
theorem exchange_cases
    (w : World κ)
    (x : Handle)
    (i : Nat)
    (item : Handle) :
    (w.exchange x i item = ([], w) ∧
        (w.writeValue x i item).2 = w) ∨
      ∃ p lease vs old v,
        w.unique? x = some (p, lease, .slots vs) ∧
          vs[i]? = some old ∧ w.value? item = some v ∧
          w.exchange x i item =
            ([.value old],
              { w with
                held := w.held.erase item.key }.setContents
                p lease (.slots (vs.set i v))) ∧
          (w.writeValue x i item).2 =
            ({ w with
                held := w.held.erase item.key }.setContents
              p lease (.slots (vs.set i v))).reclaim
              [.value old] := by
  unfold exchange writeValue
  rcases hUnique : w.unique? x with _ | ⟨p, lease, contents⟩
  · exact Or.inl ⟨rfl, rfl⟩
  · cases contents with
    | numbers width ns => exact Or.inl ⟨rfl, rfl⟩
    | elements vs => exact Or.inl ⟨rfl, rfl⟩
    | slots vs =>
        cases hOld : vs[i]? with
        | none => simp [hOld]
        | some old =>
            cases hItem : w.value? item with
            | none => simp [hOld]
            | some v =>
                refine
                  Or.inr
                    ⟨p, lease, vs, old, v, rfl, hOld, rfl,
                      ?_, ?_⟩
                · simp only [hOld]
                · simp only [hOld]
                  rfl

end World

------------------------------------------------------------
-- Moments and Moves
------------------------------------------------------------

/-
  A world between two moves, the frames left to give up, and
  what the array calls under way have reserved.
-/
structure Moment (κ : Type) where
  world : World κ
  frames : List Frame
  reserved : List Lease

/-
  What can happen next.  An array call is named by its place
  among those under way, the one opened last first.
-/
inductive Move (κ : Type) where
| act : Action κ → Move κ
| openArray : CollectorId → Shape → UInt64 → Move κ
| closeArray : Nat → (s : Shape) → List s.Item → Move κ
| enter : Closure → Nat → Move κ
| exit : Move κ
/- The next thing of the innermost frame. -/
| reclaim : Move κ

namespace Moment

variable {κ : Type}

/- The moment at which nothing has been done. -/
def fresh (provides : UInt64 → Bool) : Moment κ where
  world := .fresh provides
  frames := []
  reserved := []

/- What a program does when no frame is left. -/
def start
    (m : Moment κ) : Move κ → Moment κ
| .act a =>
    { m with
      world := (m.world.begin a).2
      frames := (m.world.begin a).1 }
| .openArray c s hint =>
    match m.world.openArray c s hint with
    | (.error _, w) => { m with world := w }
    | (.ok hinted, w) =>
        { m with
          world := w
          reserved := ⟨c, hinted⟩ :: m.reserved }
| .closeArray k s items =>
    match m.reserved[k]? with
    | none => m
    | some ⟨c, hinted⟩ =>
        { m with
          world := m.world.close c s hinted items
          reserved := m.reserved.eraseIdx k }
| .enter c args => { m with world := m.world.enter c args }
| .exit => { m with world := m.world.record .exit }
| .reclaim => m

/- One move.  While frames are left, programs wait. -/
def step
    (m : Moment κ)
    (v : Move κ) : Moment κ :=
  match m.frames with
  | [] => m.start v
  | f :: fs =>
      match v with
      | .reclaim =>
          { m with
            world :=
              { m.world with
                heap := (m.world.heap.step f).2 }
            frames := (m.world.heap.step f).1 ++ fs }
      | _ => m

/-
  A program's move is made when no frame is left, one of the
  reclaimer's when one is; every other move waits.
-/
theorem step_cases
    (m : Moment κ)
    (v : Move κ) :
    (m.frames = [] ∧ m.step v = m.start v) ∨
      (∃ f fs, m.frames = f :: fs ∧
        m.step v =
          { m with
            world :=
              { m.world with
                heap := (m.world.heap.step f).2 }
            frames := (m.world.heap.step f).1 ++ fs }) ∨
      m.step v = m := by
  unfold step
  cases hFrames : m.frames with
  | nil => exact Or.inl ⟨rfl, rfl⟩
  | cons f fs =>
      cases v with
      | reclaim => exact Or.inr (Or.inl ⟨f, fs, rfl, rfl⟩)
      | act a => exact Or.inr (Or.inr rfl)
      | openArray c s hint => exact Or.inr (Or.inr rfl)
      | closeArray k s items => exact Or.inr (Or.inr rfl)
      | enter c args => exact Or.inr (Or.inr rfl)
      | exit => exact Or.inr (Or.inr rfl)

/- A program's move leaves one reference to be dropped, or none. -/
theorem frames_start
    {m : Moment κ}
    (hFrames : m.frames = [])
    (v : Move κ) :
    (m.start v).frames = [] ∨
      ∃ r : Ref, (m.start v).frames = r.frames := by
  cases v with
  | act a =>
      cases a with
      | drop x =>
          simp only [start, World.begin, World.letGo]
          split
          · exact Or.inl rfl
          · exact Or.inr ⟨_, rfl⟩
      | writeValue x i item =>
          simp only [start, World.begin]
          rcases World.exchange_cases m.world x i item with
            ⟨hExchange, _⟩ |
              ⟨p, lease, vs, old, v, _, _, _, hExchange, _⟩
          · rw [hExchange]
            exact Or.inl rfl
          · rw [hExchange]
            exact Or.inr ⟨.value old, rfl⟩
      | newCollector config => exact Or.inl rfl
      | resetPeak c => exact Or.inl rfl
      | allocate c size => exact Or.inl rfl
      | clone r => exact Or.inl rfl
      | writeNumber x i n => exact Or.inl rfl
      | newCode body values codes => exact Or.inl rfl
  | openArray c s hint =>
      simp only [start]
      split <;> exact Or.inl hFrames
  | closeArray k s items =>
      simp only [start]
      split <;> exact Or.inl hFrames
  | enter c args => exact Or.inl hFrames
  | exit => exact Or.inl hFrames
  | reclaim => exact Or.inl hFrames

/- One move after another. -/
def run
    (m : Moment κ) : List (Move κ) → Moment κ
| [] => m
| v :: vs => (m.step v).run vs

@[simp]
theorem run_nil
    (m : Moment κ) :
    m.run [] = m :=
  rfl

@[simp]
theorem run_cons
    (m : Moment κ)
    (v : Move κ)
    (vs : List (Move κ)) :
    m.run (v :: vs) = (m.step v).run vs :=
  rfl

theorem run_append
    (m : Moment κ)
    (vs ws : List (Move κ)) :
    m.run (vs ++ ws) = (m.run vs).run ws := by
  induction vs generalizing m with
  | nil => rfl
  | cons v vs ih => exact ih (m.step v)

------------------------------------------------------------
-- Runs of Programs
------------------------------------------------------------

/- Some moves lead from one moment to another. -/
def Leads (m m' : Moment κ) : Prop :=
  ∃ moves, m.run moves = m'

theorem Leads.refl
    (m : Moment κ) :
    m.Leads m :=
  ⟨[], rfl⟩

theorem Leads.single
    (m : Moment κ)
    (v : Move κ) :
    m.Leads (m.step v) :=
  ⟨[v], rfl⟩

theorem Leads.trans
    {m m' m'' : Moment κ}
    (hFirst : m.Leads m')
    (hSecond : m'.Leads m'') :
    m.Leads m'' := by
  rcases hFirst with ⟨vs, rfl⟩
  rcases hSecond with ⟨ws, rfl⟩
  exact ⟨vs ++ ws, run_append m vs ws⟩

/- So many moves of the reclaimer give up the first frames. -/
theorem exists_run_reclaim
    (w : World κ)
    (fs gs : List Frame)
    (reserved : List Lease) :
    ∃ n,
      run ⟨w, fs ++ gs, reserved⟩
          (List.replicate n .reclaim) =
        ⟨w.reclaim fs, gs, reserved⟩ := by
  rcases w with ⟨h, held⟩
  unfold World.reclaim
  induction h, fs using Heap.reclaim.induct with
  | case1 h =>
      refine ⟨0, ?_⟩
      rw [Heap.reclaim]
      rfl
  | case2 h f fs next ih =>
      rcases ih with ⟨n, hRun⟩
      refine ⟨n + 1, ?_⟩
      rw [Heap.reclaim, List.replicate_succ, run_cons,
        ← hRun, List.append_assoc]
      rfl

/- The reclaimer's moves give up all frames. -/
theorem leads_reclaim
    (w : World κ)
    (fs : List Frame)
    (reserved : List Lease) :
    Leads ⟨w, fs, reserved⟩ ⟨w.reclaim fs, [], reserved⟩ := by
  rcases exists_run_reclaim w fs [] reserved with ⟨n, hRun⟩
  rw [List.append_nil] at hRun
  exact ⟨_, hRun⟩

/- An action begins, and then its drops are carried out. -/
theorem act_eq_reclaim
    (w : World κ)
    (a : Action κ) :
    (w.act a).2 = (w.begin a).2.reclaim (w.begin a).1 := by
  cases a with
  | drop x => exact World.drop_eq_reclaim w x
  | writeValue x i item =>
      rcases World.exchange_cases w x i item with
        ⟨hExchange, hWrite⟩ |
          ⟨p, lease, vs, old, v, _, _, _, hExchange, hWrite⟩
      · simp only [World.act, World.begin, hExchange, hWrite]
        exact (World.reclaim_nil w).symm
      · simp only [World.act, World.begin, hExchange, hWrite]
  | newCollector config => exact (World.reclaim_nil _).symm
  | resetPeak c => exact (World.reclaim_nil _).symm
  | allocate c size => exact (World.reclaim_nil _).symm
  | clone r => exact (World.reclaim_nil _).symm
  | writeNumber x i n => exact (World.reclaim_nil _).symm
  | newCode body values codes =>
      exact (World.reclaim_nil _).symm

variable {w w' : World κ}
variable {reserved : List Lease}

theorem leads_act
    (w : World κ)
    (a : Action κ)
    (reserved : List Lease) :
    Leads ⟨w, [], reserved⟩ ⟨(w.act a).2, [], reserved⟩ := by
  rw [act_eq_reclaim]
  exact
    (Leads.single _ (.act a)).trans (leads_reclaim _ _ _)

/- Handles are dropped one by one. -/
theorem leads_dropAll
    (w : World κ)
    (xs : List Handle)
    (reserved : List Lease) :
    Leads ⟨w, [], reserved⟩ ⟨w.dropAll xs, [], reserved⟩ := by
  induction xs generalizing w with
  | nil => exact .refl _
  | cons x xs ih =>
      exact (leads_act w (.drop x) reserved).trans (ih _)

/- What a refused array call was given is dropped after it. -/
theorem leads_closeArray
    (w : World κ)
    (c : CollectorId)
    (s : Shape)
    (hinted : UInt64)
    (items : List s.Item)
    (reserved : List Lease) :
    Leads ⟨w, [], ⟨c, hinted⟩ :: reserved⟩
      ⟨(w.closeArray c s hinted items).2, [], reserved⟩ := by
  have hClose :
      Leads ⟨w, [], ⟨c, hinted⟩ :: reserved⟩
        ⟨w.close c s hinted items, [], reserved⟩ :=
    .single _ (.closeArray 0 s items)
  refine hClose.trans ?_
  unfold World.closeArray World.close
  rcases w.heap.perform c
      ((w.heap.terms c).closeArray s.width hinted
        items.length) with ⟨r, heap⟩
  cases r with
  | error r => exact leads_dropAll _ _ _
  | ok bytes => exact .refl _

/- A way to apply values that makes nothing but moves. -/
def Applies.ByMoves (applies : Applies κ) : Prop :=
  ∀ f args w r w', applies f args w = some (r, w') →
    ∀ reserved,
      Leads ⟨w, [], reserved⟩ ⟨w', [], reserved⟩

/- A run of a program is a sequence of moves. -/
theorem leads_exec
    {applies : Applies κ}
    (hApplies : Applies.ByMoves applies)
    {α : Type}
    {p : Program κ α}
    {a : α}
    (hRun : p.exec applies w = some (a, w')) :
    Leads ⟨w, [], reserved⟩ ⟨w', [], reserved⟩ := by
  induction p generalizing w w' reserved with
  | done b =>
      cases hRun
      exact .refl _
  | ask q rest ih => exact ih _ hRun
  | act move rest ih =>
      exact (leads_act w move reserved).trans (ih _ hRun)
  | array c s hint owned items rest ihItems ih =>
      have hOpen :=
        Leads.single ⟨w, [], reserved⟩
          (.openArray c s hint)
      simp only [step, start] at hOpen
      simp only [Program.exec] at hRun
      split at hRun
      · rename_i r opened hRefused
        rw [hRefused] at hOpen
        exact
          (hOpen.trans (leads_dropAll _ _ _)).trans
            (ih _ hRun)
      · rename_i hinted opened hGranted
        rw [hGranted] at hOpen
        split at hRun
        · cases hRun
        · rename_i xs pulled hItems
          refine (hOpen.trans (ihItems hItems)).trans ?_
          exact
            (leads_closeArray pulled c s hinted xs
              reserved).trans (ih _ hRun)
  | apply f args rest ih =>
      simp only [Program.exec] at hRun
      split at hRun
      · cases hRun
      · rename_i r applied hCall
        exact
          (hApplies f args w r applied hCall reserved).trans
            (ih _ hRun)

/- To apply a closure is to enter, to run and to exit. -/
theorem byMoves_applyClosure
    {behaves : Behaves κ}
    {runs :
      Program κ Outcome → World κ →
        Option (Outcome × World κ)}
    (hRuns :
      ∀ p w r w', runs p w = some (r, w') →
        ∀ reserved,
          Leads ⟨w, [], reserved⟩ ⟨w', [], reserved⟩) :
    Applies.ByMoves (World.applyClosure behaves runs) := by
  intro f args w r w' hRun reserved
  cases f with
  | integer i =>
      cases hRun
      exact .refl _
  | list p =>
      cases hRun
      exact .refl _
  | closure c =>
      have hEnter :=
        Leads.single ⟨w, [], reserved⟩
          (.enter c args.length)
      simp only [step, start, World.enter] at hEnter
      simp only [World.applyClosure] at hRun
      split at hRun
      · rename_i env code hEnv hCode
        rw [hEnv, hCode] at hEnter
        simp only at hEnter
        split at hRun
        · rename_i hArity
          rw [if_pos hArity] at hEnter
          split at hRun
          · cases hRun
          · rename_i s ran hCall
            cases hRun
            exact
              (hEnter.trans (hRuns _ _ s ran hCall _)).trans
                (.single _ .exit)
        · rename_i hArity
          rw [if_neg hArity] at hEnter
          cases hRun
          exact hEnter
      · cases hRun
        exact .refl _

theorem byMoves_applyWithin
    (behaves : Behaves κ)
    (depth : Nat) :
    Applies.ByMoves (World.applyWithin behaves depth) := by
  induction depth with
  | zero =>
      intro f args w r w' hRun
      cases hRun
  | succ depth ih =>
      apply byMoves_applyClosure
      intro p w r w' hRun reserved
      exact leads_exec ih hRun

/-
  Whatever programs and the bodies of codes do, it is a
  sequence of moves.
-/
theorem leads_run
    {behaves : Behaves κ}
    {depth : Nat}
    {α : Type}
    {p : Program κ α}
    {a : α}
    (hRun : w.run behaves depth p = some (a, w')) :
    Leads ⟨w, [], reserved⟩ ⟨w', [], reserved⟩ :=
  leads_exec (byMoves_applyWithin behaves depth) hRun

end Moment

end LeasedHeap

import LeasedHeap.Proofs.Moments

/-
  The tree of applications that a run makes.

  While a program runs it applies closures, and while their
  codes run these apply others.  A run makes a tree of
  applications, and which one is told by the program alone:
  the relation below has no bound on how deep applications
  nest.  It relates exactly the runs that end for some bound.

  Key definitions include:
    * `World.callee?`
    * `Application` and `Applications`
    * `Program.Makes`

  Main declarations:
    * `World.applyClosure_eq`
    * `World.run_mono`
    * `Program.exists_run_iff_makes`
    * `Program.Makes.leads`
-/

namespace LeasedHeap

------------------------------------------------------------
-- Closures that Can Be Applied
------------------------------------------------------------

/- A closure that is there: its environment and its code. -/
structure Callee (κ : Type) where
  closure : Closure
  environment : List Value
  code : Code κ

/- What the body of a code is given for some arguments. -/
def Callee.invocation
    {κ : Type}
    (k : Callee κ)
    (args : List Value) : Invocation :=
  ⟨k.environment, args, k.code.values, k.code.codes,
    k.code.runs + 1⟩

namespace World

variable {κ : Type}

/- The closure of a value, if it is one that is there. -/
def callee?
    (w : World κ) : Value → Option (Callee κ)
| .closure c =>
    match w.heap.elements? c.environment,
        w.heap.code? c.code with
    | some env, some code => some ⟨c, env, code⟩
    | _, _ => none
| _ => none

/- An application begins, and the code's run is counted. -/
def entered
    (w : World κ)
    (k : Callee κ)
    (args : List Value) : World κ :=
  (w.record (.enter k.environment.length args.length)).countRun
    k.closure.code

/- An application with too few or too many arguments. -/
def mismatched
    (w : World κ)
    (k : Callee κ)
    (args : List Value) : World κ :=
  ((w.record
      (.enter k.environment.length args.length)).record
    (.mismatch k.environment.length args.length)).record .exit

variable {w : World κ}
variable {f : Value}
variable {k : Callee κ}

/- What is found is what the value refers to. -/
theorem callee?_eq_some
    (hCallee : w.callee? f = some k) :
    f = .closure k.closure ∧
      w.heap.elements? k.closure.environment =
        some k.environment ∧
      w.heap.code? k.closure.code = some k.code := by
  unfold callee? at hCallee
  split at hCallee
  · split at hCallee
    · rename_i env code hEnv hCode
      cases hCallee
      exact ⟨rfl, hEnv, hCode⟩
    · cases hCallee
  · cases hCallee

/- To apply a value is to apply the closure that is found. -/
theorem applyClosure_eq
    (behaves : Behaves κ)
    (runs :
      Program κ Outcome → World κ →
        Option (Outcome × World κ))
    (f : Value)
    (args : List Value)
    (w : World κ) :
    applyClosure behaves runs f args w =
      match w.callee? f with
      | none => some (none, w)
      | some k =>
          if args.length = k.environment.length then
            match runs
                (behaves k.code.body (k.invocation args))
                (w.entered k args) with
            | none => none
            | some (r, ran) => some (some r, ran.record .exit)
          else
            some
              (some
                (.error
                  (.arityMismatch k.environment.length
                    args.length)),
                w.mismatched k args) := by
  cases f with
  | integer n => rfl
  | list p => rfl
  | closure c =>
      simp only [applyClosure, callee?]
      cases w.heap.elements? c.environment with
      | none => rfl
      | some env =>
          cases w.heap.code? c.code with
          | none => rfl
          | some code =>
              simp only
              split <;> rfl

end World

------------------------------------------------------------
-- Deeper Runs
------------------------------------------------------------

namespace Program

variable {κ α : Type}

/- A way to apply values that answers wherever another does. -/
def Extends (applies applies' : Applies κ) : Prop :=
  ∀ f args w r,
    applies f args w = some r → applies' f args w = some r

/- A run that ends is the same run however much is answered. -/
theorem exec_mono
    {applies applies' : Applies κ}
    (hExtends : Extends applies applies')
    {p : Program κ α}
    {w : World κ}
    {r : α × World κ}
    (hRun : p.exec applies w = some r) :
    p.exec applies' w = some r := by
  induction p generalizing w with
  | done a => exact hRun
  | ask q rest ih => exact ih _ hRun
  | act a rest ih => exact ih _ hRun
  | array c s hint owned items rest ihItems ih =>
      simp only [exec] at hRun ⊢
      split
      · rename_i refusal opened hOpen
        rw [hOpen] at hRun
        exact ih _ hRun
      · rename_i hinted opened hOpen
        rw [hOpen] at hRun
        simp only at hRun
        cases hItems : exec applies items opened with
        | none =>
            rw [hItems] at hRun
            cases hRun
        | some pulled =>
            rw [hItems] at hRun
            rw [ihItems hItems]
            exact ih _ hRun
  | apply f args rest ih =>
      simp only [exec] at hRun ⊢
      cases hApply : applies f args w with
      | none =>
          rw [hApply] at hRun
          cases hRun
      | some applied =>
          rw [hApply] at hRun
          rw [hExtends _ _ _ _ hApply]
          exact ih _ hRun

end Program

namespace World

variable {κ : Type}

/- One more level of nesting answers wherever fewer do. -/
theorem extends_applyWithin_succ
    (behaves : Behaves κ)
    (depth : Nat) :
    Program.Extends (applyWithin behaves depth)
      (applyWithin behaves (depth + 1)) := by
  induction depth with
  | zero =>
      intro f args w r hRun
      cases hRun
  | succ depth ih =>
      intro f args w r hRun
      rw [applyWithin, applyClosure_eq] at hRun ⊢
      split at hRun
      · exact hRun
      · rename_i k hCallee
        split at hRun
        · rename_i hArity
          simp only [hArity, if_true]
          split at hRun
          · cases hRun
          · rename_i s ran hCode
            rw [Program.exec_mono ih hCode]
            exact hRun
        · rename_i hArity
          simp only [hArity, if_false]
          exact hRun

theorem extends_applyWithin
    (behaves : Behaves κ)
    {n m : Nat}
    (hLe : n ≤ m) :
    Program.Extends (applyWithin behaves n)
      (applyWithin behaves m) := by
  induction hLe with
  | refl => exact fun _ _ _ _ hRun => hRun
  | step _ ih =>
      exact fun f args w r hRun =>
        extends_applyWithin_succ behaves _ f args w r
          (ih f args w r hRun)

/- A run that ends at one bound ends so at every higher one. -/
theorem run_mono
    {behaves : Behaves κ}
    {n m : Nat}
    (hLe : n ≤ m)
    {α : Type}
    {p : Program κ α}
    {w : World κ}
    {r : α × World κ}
    (hRun : w.run behaves n p = some r) :
    w.run behaves m p = some r :=
  Program.exec_mono (extends_applyWithin behaves hLe) hRun

end World

------------------------------------------------------------
-- Trees of Applications
------------------------------------------------------------

/-
  One application: the closure, the arguments, what it came
  to, and the worlds before and after it.
-/
structure Application (κ : Type) where
  callee : Callee κ
  arguments : List Value
  before : World κ
  outcome : Outcome
  after : World κ

/-
  Applications in the order in which they were made.  Each
  comes with those that were made inside it, that is, while
  its code ran.
-/
inductive Applications (κ : Type) where
| nil : Applications κ
| cons :
    Application κ → Applications κ → Applications κ →
    Applications κ

namespace Applications

variable {κ : Type}

/- Some applications, and then others. -/
def append : Applications κ → Applications κ → Applications κ
| nil, others => others
| cons a inside later, others =>
    cons a inside (later.append others)

/- An application was made, at any depth. -/
inductive Has (a : Application κ) : Applications κ → Prop where
| here {inside later : Applications κ} :
    Has a (cons a inside later)
| inside
    {b : Application κ}
    {inside later : Applications κ} :
    Has a inside → Has a (cons b inside later)
| later
    {b : Application κ}
    {inside later : Applications κ} :
    Has a later → Has a (cons b inside later)

variable {a : Application κ}

theorem Has.of_append
    {first second : Applications κ}
    (hHas : (first.append second).Has a) :
    first.Has a ∨ second.Has a := by
  induction first with
  | nil => exact Or.inr hHas
  | cons b inside later _ ih =>
      cases hHas with
      | here => exact Or.inl .here
      | inside hInside => exact Or.inl (.inside hInside)
      | later hLater =>
          rcases ih hLater with hFirst | hSecond
          · exact Or.inl (.later hFirst)
          · exact Or.inr hSecond

end Applications

------------------------------------------------------------
-- Runs and Their Trees
------------------------------------------------------------

/-
  A program runs from one world to another, comes to an
  answer, and makes a tree of applications.
-/
inductive Program.Makes
    {κ : Type}
    (behaves : Behaves κ) :
    {α : Type} → Program κ α → World κ → Applications κ →
      α → World κ → Prop where
| done
    {α : Type}
    (a : α)
    (w : World κ) :
    Makes behaves (.done a) w .nil a w
| ask
    {α : Type}
    {q : Query}
    {rest : q.Reply → Program κ α}
    {w w' : World κ}
    {calls : Applications κ}
    {a : α} :
    Makes behaves (rest (w.answer q)) w calls a w' →
    Makes behaves (.ask q rest) w calls a w'
| act
    {α : Type}
    {move : Action κ}
    {rest : move.Reply → Program κ α}
    {w w' : World κ}
    {calls : Applications κ}
    {a : α} :
    Makes behaves (rest (w.act move).1) (w.act move).2
      calls a w' →
    Makes behaves (.act move rest) w calls a w'
| refused
    {α : Type}
    {c : CollectorId}
    {s : Shape}
    {hint : UInt64}
    {owned : List Handle}
    {items : Program κ (List s.Item)}
    {rest : Except Refusal Handle → Program κ α}
    {r : Refusal}
    {w opened w' : World κ}
    {calls : Applications κ}
    {a : α} :
    w.openArray c s hint = (.error r, opened) →
    Makes behaves (rest (.error r))
      (opened.dropAll (owned ++ s.ownHandles)) calls a w' →
    Makes behaves (.array c s hint owned items rest) w
      calls a w'
| array
    {α : Type}
    {c : CollectorId}
    {s : Shape}
    {hint hinted : UInt64}
    {owned : List Handle}
    {items : Program κ (List s.Item)}
    {rest : Except Refusal Handle → Program κ α}
    {xs : List s.Item}
    {w opened pulled w' : World κ}
    {inside later : Applications κ}
    {a : α} :
    w.openArray c s hint = (.ok hinted, opened) →
    Makes behaves items opened inside xs pulled →
    Makes behaves (rest (pulled.closeArray c s hinted xs).1)
      (pulled.closeArray c s hinted xs).2 later a w' →
    Makes behaves (.array c s hint owned items rest) w
      (inside.append later) a w'
| nothing
    {α : Type}
    {f : Value}
    {args : List Value}
    {rest : Option Outcome → Program κ α}
    {w w' : World κ}
    {calls : Applications κ}
    {a : α} :
    w.callee? f = none →
    Makes behaves (rest none) w calls a w' →
    Makes behaves (.apply f args rest) w calls a w'
| mismatch
    {α : Type}
    {f : Value}
    {args : List Value}
    {rest : Option Outcome → Program κ α}
    {k : Callee κ}
    {r : Outcome}
    {w w' : World κ}
    {later : Applications κ}
    {a : α} :
    w.callee? f = some k →
    args.length ≠ k.environment.length →
    r =
      .error
        (.arityMismatch k.environment.length args.length) →
    Makes behaves (rest (some r)) (w.mismatched k args)
      later a w' →
    Makes behaves (.apply f args rest) w
      (.cons ⟨k, args, w, r, w.mismatched k args⟩ .nil
        later) a w'
| runs
    {α : Type}
    {f : Value}
    {args : List Value}
    {rest : Option Outcome → Program κ α}
    {k : Callee κ}
    {r : Outcome}
    {w ran w' : World κ}
    {inside later : Applications κ}
    {a : α} :
    w.callee? f = some k →
    args.length = k.environment.length →
    Makes behaves (behaves k.code.body (k.invocation args))
      (w.entered k args) inside r ran →
    Makes behaves (rest (some r)) (ran.record .exit)
      later a w' →
    Makes behaves (.apply f args rest) w
      (.cons ⟨k, args, w, r, ran.record .exit⟩ inside
        later) a w'

namespace Program

variable {κ : Type}
variable {behaves : Behaves κ}

/-
  A way to apply values that makes trees: it finds no closure,
  or a mismatch, or it runs a code.
-/
def Traced
    (behaves : Behaves κ)
    (applies : Applies κ) : Prop :=
  ∀ f args w r w', applies f args w = some (r, w') →
    (w.callee? f = none ∧ r = none ∧ w' = w) ∨
      ∃ k, w.callee? f = some k ∧
        ((args.length ≠ k.environment.length ∧
            r =
              some
                (.error
                  (.arityMismatch k.environment.length
                    args.length)) ∧
            w' = w.mismatched k args) ∨
          ∃ s ran inside,
            args.length = k.environment.length ∧
              Makes behaves
                (behaves k.code.body (k.invocation args))
                (w.entered k args) inside s ran ∧
              r = some s ∧ w' = ran.record .exit)

/- Programs that apply values so make trees. -/
theorem Traced.makes
    {applies : Applies κ}
    (hTraced : Traced behaves applies)
    {α : Type}
    {p : Program κ α}
    {w w' : World κ}
    {a : α}
    (hRun : p.exec applies w = some (a, w')) :
    ∃ calls, Makes behaves p w calls a w' := by
  induction p generalizing w w' with
  | done b =>
      cases hRun
      exact ⟨.nil, .done _ _⟩
  | ask q rest ih =>
      rcases ih _ hRun with ⟨calls, hMakes⟩
      exact ⟨calls, .ask hMakes⟩
  | act move rest ih =>
      rcases ih _ hRun with ⟨calls, hMakes⟩
      exact ⟨calls, .act hMakes⟩
  | array c s hint owned items rest ihItems ih =>
      simp only [exec] at hRun
      split at hRun
      · rename_i r opened hOpen
        rcases ih _ hRun with ⟨calls, hMakes⟩
        exact ⟨calls, .refused hOpen hMakes⟩
      · rename_i hinted opened hOpen
        split at hRun
        · cases hRun
        · rename_i xs pulled hItems
          rcases ihItems hItems with ⟨inside, hInside⟩
          rcases ih _ hRun with ⟨later, hLater⟩
          exact
            ⟨inside.append later,
              .array hOpen hInside hLater⟩
  | apply f args rest ih =>
      simp only [exec] at hRun
      split at hRun
      · cases hRun
      · rename_i r applied hApply
        rcases ih _ hRun with ⟨later, hLater⟩
        rcases hTraced _ _ _ _ _ hApply with
          ⟨hNone, rfl, rfl⟩ |
            ⟨k, hCallee, ⟨hArity, rfl, rfl⟩ |
              ⟨s, ran, inside, hArity, hInside, rfl, rfl⟩⟩
        · exact ⟨later, .nothing hNone hLater⟩
        · exact ⟨_, .mismatch hCallee hArity rfl hLater⟩
        · exact ⟨_, .runs hCallee hArity hInside hLater⟩

/- What a tree tells is a run, if applications may nest so. -/
theorem Makes.exists_run
    {α : Type}
    {p : Program κ α}
    {w w' : World κ}
    {calls : Applications κ}
    {a : α}
    (hMakes : Makes behaves p w calls a w') :
    ∃ depth, w.run behaves depth p = some (a, w') := by
  induction hMakes with
  | done a w => exact ⟨0, rfl⟩
  | ask _ ih => exact ih
  | act _ ih => exact ih
  | refused hOpen _ ih =>
      rcases ih with ⟨n, hRest⟩
      refine ⟨n, ?_⟩
      simp only [World.run, exec, hOpen]
      exact hRest
  | array hOpen _ _ ihInside ihLater =>
      rcases ihInside with ⟨n, hInside⟩
      rcases ihLater with ⟨m, hLater⟩
      refine ⟨max n m, ?_⟩
      have hItems :=
        World.run_mono (Nat.le_max_left n m) hInside
      have hRest :=
        World.run_mono (Nat.le_max_right n m) hLater
      unfold World.run at hItems hRest
      simp only [World.run, exec, hOpen, hItems]
      exact hRest
  | nothing hNone _ ih =>
      rcases ih with ⟨n, hRest⟩
      refine ⟨n + 1, ?_⟩
      have hMore := World.run_mono (Nat.le_succ n) hRest
      simp only [World.run, exec, World.applyWithin,
        World.applyClosure_eq, hNone]
      exact hMore
  | mismatch hCallee hArity hAnswer _ ih =>
      rcases ih with ⟨n, hRest⟩
      refine ⟨n + 1, ?_⟩
      have hMore := World.run_mono (Nat.le_succ n) hRest
      simp only [World.run, exec, World.applyWithin,
        World.applyClosure_eq, hCallee, if_neg hArity]
      rw [hAnswer] at hMore
      exact hMore
  | runs hCallee hArity _ _ ihInside ihLater =>
      rcases ihInside with ⟨n, hInside⟩
      rcases ihLater with ⟨m, hLater⟩
      refine ⟨max n m + 1, ?_⟩
      have hCode :=
        World.run_mono (Nat.le_max_left n m) hInside
      have hRest :=
        World.run_mono
          (Nat.le_succ_of_le (Nat.le_max_right n m)) hLater
      unfold World.run at hCode hRest
      simp only [World.run, exec]
      rw [World.applyWithin, World.applyClosure_eq]
      simp only [hCallee, if_pos hArity, hCode]
      exact hRest

/- A program makes one tree, and comes to one end. -/
theorem Makes.unique
    {α : Type}
    {p : Program κ α}
    {w w' w'' : World κ}
    {calls calls' : Applications κ}
    {a a' : α}
    (hMakes : Makes behaves p w calls a w')
    (hAgain : Makes behaves p w calls' a' w'') :
    calls' = calls ∧ a' = a ∧ w'' = w' := by
  induction hMakes generalizing calls' w'' with
  | done a w =>
      cases hAgain
      exact ⟨rfl, rfl, rfl⟩
  | ask _ ih =>
      cases hAgain with
      | ask hRest => exact ih hRest
  | act _ ih =>
      cases hAgain with
      | act hRest => exact ih hRest
  | refused hOpen _ ih =>
      cases hAgain with
      | refused hOpen' hRest =>
          cases hOpen.symm.trans hOpen'
          exact ih hRest
      | array hOpen' => cases hOpen.symm.trans hOpen'
  | array hOpen _ _ ihInside ihLater =>
      cases hAgain with
      | refused hOpen' => cases hOpen.symm.trans hOpen'
      | array hOpen' hInside hLater =>
          cases hOpen.symm.trans hOpen'
          rcases ihInside hInside with ⟨rfl, rfl, rfl⟩
          rcases ihLater hLater with ⟨rfl, rfl, rfl⟩
          exact ⟨rfl, rfl, rfl⟩
  | nothing hNone _ ih =>
      cases hAgain with
      | nothing _ hRest => exact ih hRest
      | mismatch hCallee => cases hNone.symm.trans hCallee
      | runs hCallee => cases hNone.symm.trans hCallee
  | mismatch hCallee hArity hAnswer _ ih =>
      cases hAgain with
      | nothing hNone => cases hNone.symm.trans hCallee
      | mismatch hCallee' _ hAnswer' hLater =>
          cases hCallee.symm.trans hCallee'
          subst hAnswer
          subst hAnswer'
          rcases ih hLater with ⟨rfl, rfl, rfl⟩
          exact ⟨rfl, rfl, rfl⟩
      | runs hCallee' hArity' =>
          cases hCallee.symm.trans hCallee'
          exact absurd hArity' hArity
  | runs hCallee hArity _ _ ihInside ihLater =>
      cases hAgain with
      | nothing hNone => cases hNone.symm.trans hCallee
      | mismatch hCallee' hArity' =>
          cases hCallee.symm.trans hCallee'
          exact absurd hArity hArity'
      | runs hCallee' _ hInside hLater =>
          cases hCallee.symm.trans hCallee'
          rcases ihInside hInside with ⟨rfl, rfl, rfl⟩
          rcases ihLater hLater with ⟨rfl, rfl, rfl⟩
          exact ⟨rfl, rfl, rfl⟩

/- To enter a closure that is found, or to fail to, is one move. -/
theorem leads_enter
    {w next : World κ}
    {f : Value}
    {k : Callee κ}
    {args : List Value}
    (hCallee : w.callee? f = some k)
    (hNext :
      (if args.length = k.environment.length then
          w.entered k args
        else
          w.mismatched k args) =
        next)
    (reserved : List Lease) :
    Moment.Leads ⟨w, [], reserved⟩ ⟨next, [], reserved⟩ := by
  have hEnter :=
    Moment.Leads.single ⟨w, [], reserved⟩
      (.enter k.closure args.length)
  rcases World.callee?_eq_some hCallee with ⟨_, hEnv, hCode⟩
  simp only [Moment.step, Moment.start, World.enter, hEnv,
    hCode] at hEnter
  rw [← hNext]
  exact hEnter

/- So is the opening of an array, refused or not. -/
theorem leads_refused
    {w opened : World κ}
    {c : CollectorId}
    {s : Shape}
    {hint : UInt64}
    {r : Refusal}
    (hOpen : w.openArray c s hint = (.error r, opened))
    (reserved : List Lease) :
    Moment.Leads ⟨w, [], reserved⟩
      ⟨opened, [], reserved⟩ := by
  have hMove :=
    Moment.Leads.single ⟨w, [], reserved⟩
      (.openArray c s hint)
  simp only [Moment.step, Moment.start, hOpen] at hMove
  exact hMove

theorem leads_opened
    {w opened : World κ}
    {c : CollectorId}
    {s : Shape}
    {hint hinted : UInt64}
    (hOpen : w.openArray c s hint = (.ok hinted, opened))
    (reserved : List Lease) :
    Moment.Leads ⟨w, [], reserved⟩
      ⟨opened, [], ⟨c, hinted⟩ :: reserved⟩ := by
  have hMove :=
    Moment.Leads.single ⟨w, [], reserved⟩
      (.openArray c s hint)
  simp only [Moment.step, Moment.start, hOpen] at hMove
  exact hMove

/-
  Moves lead to the end of a run, and to the world before
  each application; there other arrays may be under way.
-/
theorem Makes.leads
    {α : Type}
    {p : Program κ α}
    {w w' : World κ}
    {calls : Applications κ}
    {a : α}
    (hMakes : Makes behaves p w calls a w')
    (reserved : List Lease) :
    Moment.Leads ⟨w, [], reserved⟩ ⟨w', [], reserved⟩ ∧
      ∀ b, calls.Has b →
        ∃ more, Moment.Leads ⟨w, [], reserved⟩
          ⟨b.before, [], more⟩ := by
  constructor
  · rcases hMakes.exists_run with ⟨depth, hRun⟩
    exact Moment.leads_run hRun
  induction hMakes generalizing reserved with
  | done a w =>
      intro b hHas
      cases hHas
  | ask _ ih => exact ih reserved
  | act _ ih =>
      intro b hHas
      rcases ih reserved b hHas with ⟨more, hLeads⟩
      exact
        ⟨more, (Moment.leads_act _ _ reserved).trans hLeads⟩
  | refused hOpen _ ih =>
      intro b hHas
      rcases ih reserved b hHas with ⟨more, hLeads⟩
      exact
        ⟨more,
          ((leads_refused hOpen reserved).trans
            (Moment.leads_dropAll _ _ _)).trans hLeads⟩
  | array hOpen hInside _ ihInside ihLater =>
      have hOpened := leads_opened hOpen reserved
      intro b hHas
      rcases hHas.of_append with hHas | hHas
      · rcases ihInside _ b hHas with ⟨more, hLeads⟩
        exact ⟨more, hOpened.trans hLeads⟩
      · rcases ihLater reserved b hHas with ⟨more, hLeads⟩
        rcases hInside.exists_run with ⟨depth, hRun⟩
        exact
          ⟨more,
            ((hOpened.trans (Moment.leads_run hRun)).trans
              (Moment.leads_closeArray _ _ _ _ _
                reserved)).trans hLeads⟩
  | nothing _ _ ih => exact ih reserved
  | mismatch hCallee hArity _ _ ih =>
      intro b hHas
      cases hHas with
      | here => exact ⟨reserved, .refl _⟩
      | inside hHas => cases hHas
      | later hHas =>
          rcases ih reserved b hHas with ⟨more, hLeads⟩
          have hEnter :=
            leads_enter hCallee (if_neg hArity) reserved
          exact ⟨more, hEnter.trans hLeads⟩
  | runs hCallee hArity hInside _ ihInside ihLater =>
      have hEnter :=
        leads_enter hCallee (if_pos hArity) reserved
      intro b hHas
      cases hHas with
      | here => exact ⟨reserved, .refl _⟩
      | inside hHas =>
          rcases ihInside reserved b hHas with
            ⟨more, hLeads⟩
          exact ⟨more, hEnter.trans hLeads⟩
      | later hHas =>
          rcases ihLater reserved b hHas with
            ⟨more, hLeads⟩
          rcases hInside.exists_run with ⟨depth, hRun⟩
          have hCode :
              Moment.Leads ⟨_, [], reserved⟩
                ⟨_, [], reserved⟩ :=
            Moment.leads_run hRun
          exact
            ⟨more,
              ((hEnter.trans hCode).trans
                (.single _ .exit)).trans hLeads⟩

end Program

end LeasedHeap

import LeasedHeap.Equality
import LeasedHeap.Text
import LeasedHeap.Proofs.Views
import Mathlib.Data.List.Forall2

/-
  Equality is the equality of unfolded values.

  A comparison skips payloads that two values share, and a
  tree knows nothing of payloads.  They agree: two values are
  equal exactly when they unfold into one tree.  So nothing
  but the trees matters to a comparison, and nothing but the
  trees matters to a text.

  Main declarations:
    * `Heap.Unfolds` and `Heap.Exact.unfolds_iff`
    * `Heap.equal_iff`
    * `Heap.render_eq_of_tree_eq`
    * `Moment.equality_is_of_trees`
-/

namespace LeasedHeap

------------------------------------------------------------
-- Items Side by Side
------------------------------------------------------------

/- A relation that is a function relates a list to its image. -/
private theorem forall₂_iff_map
    {α β : Type}
    {R : α → β → Prop}
    {f : α → β}
    {vs : List α}
    (hR : ∀ v ∈ vs, ∀ t, R v t ↔ t = f v)
    {ts : List β} :
    List.Forall₂ R vs ts ↔ ts = vs.map f := by
  induction vs generalizing ts with
  | nil => simp
  | cons v vs ih =>
      have hHead := hR v List.mem_cons_self
      have hRest :
          ∀ ts, List.Forall₂ R vs ts ↔ ts = vs.map f :=
        fun _ =>
          ih (fun w hw => hR w (List.mem_cons_of_mem v hw))
      cases ts with
      | nil => simp
      | cons t ts =>
          rw [List.forall₂_cons, hHead, hRest, List.map_cons,
            List.cons.injEq]

------------------------------------------------------------
-- Unfolding
------------------------------------------------------------

namespace Tree

mutual

/- A tree with other names for its codes. -/
def renamed (f : ObjectId → ObjectId) : Tree → Tree
| .integer i => .integer i
| .list ts => .list (renamedAll f ts)
| .closure ts q => .closure (renamedAll f ts) (f q)

/- Trees with other names for their codes. -/
def renamedAll
    (f : ObjectId → ObjectId) : List Tree → List Tree
| [] => []
| t :: ts => t.renamed f :: renamedAll f ts

end

mutual

/- Different trees stay different under different names. -/
theorem renamed_inj
    {f : ObjectId → ObjectId}
    (hf : Function.Injective f) :
    ∀ {t u : Tree}, t.renamed f = u.renamed f → t = u
| .integer i, .integer j, h => by
    simpa [renamed] using h
| .list ts, .list us, h => by
    rw [renamed, renamed, Tree.list.injEq] at h
    rw [renamedAll_inj hf h]
| .closure ts q, .closure us r, h => by
    rw [renamed, renamed, Tree.closure.injEq] at h
    rw [renamedAll_inj hf h.1, hf h.2]
| .integer _, .list _, h => by simp [renamed] at h
| .integer _, .closure _ _, h => by simp [renamed] at h
| .list _, .integer _, h => by simp [renamed] at h
| .list _, .closure _ _, h => by simp [renamed] at h
| .closure _ _, .integer _, h => by simp [renamed] at h
| .closure _ _, .list _, h => by simp [renamed] at h

theorem renamedAll_inj
    {f : ObjectId → ObjectId}
    (hf : Function.Injective f) :
    ∀ {ts us : List Tree},
      renamedAll f ts = renamedAll f us → ts = us
| [], [], _ => rfl
| t :: ts, u :: us, h => by
    rw [renamedAll, renamedAll, List.cons.injEq] at h
    rw [renamed_inj hf h.1, renamedAll_inj hf h.2]
| [], _ :: _, h => by simp [renamedAll] at h
| _ :: _, [], h => by simp [renamedAll] at h

end

end Tree

namespace Heap

variable {κ κ' : Type}
variable {h : Heap κ}
variable {h' : Heap κ'}

/-
  A value unfolds into a tree: an integer into itself, a list
  and a closure into what all their elements unfold into.
-/
inductive Unfolds (h : Heap κ) : Value → Tree → Prop where
| integer (i : Int64) : Unfolds h (.integer i) (.integer i)
| list {p : ObjectId} {vs : List Value} {ts : List Tree} :
    h.elements? p = some vs →
    List.Forall₂ (Unfolds h) vs ts →
    Unfolds h (.list p) (.list ts)
| closure
    {c : Closure} {code : Code κ}
    {vs : List Value} {ts : List Tree} :
    h.elements? c.environment = some vs →
    h.code? c.code = some code →
    List.Forall₂ (Unfolds h) vs ts →
    Unfolds h (.closure c) (.closure ts c.code)

/- A value that unfolds is there. -/
theorem Unfolds.admits
    {v : Value}
    {t : Tree}
    (hUnfolds : h.Unfolds v t) :
    h.admits v := by
  cases hUnfolds with
  | integer i => rfl
  | list hElements hItems => simp [Heap.admits, hElements]
  | closure hElements hCode hItems =>
      simp [Heap.admits, hElements, hCode]

/- The elements of an object are what it holds. -/
theorem values_of_elements?
    {p : ObjectId}
    {vs : List Value}
    (hElements : h.elements? p = some vs) :
    ∃ n lease,
      h.objects.get? p =
          some ⟨n, .payload ⟨lease, .elements vs⟩⟩ ∧
        h.values p = vs := by
  unfold elements? at hElements
  split at hElements
  · rename_i lease ws hPayload
    cases hElements
    rcases payload?_eq_some_iff.mp hPayload with ⟨n, hGet⟩
    refine ⟨n, lease, hGet, ?_⟩
    simp [values, hGet, Cell.values, Contents.values]
  · cases hElements

variable {outer : ObjectId → Nat}

/-
  The elements of a value that is there are there, and they
  are older.
-/
theorem Exact.elements
    (hExact : h.Exact outer)
    {v : Value}
    (hAdmits : h.admits v)
    {p : ObjectId}
    (hv : v.payload? = some p)
    {vs : List Value}
    (hElements : h.elements? p = some vs) :
    h.items v = vs ∧
      ∀ w ∈ vs, h.admits w ∧ w.rank < v.rank := by
  rcases values_of_elements? hElements with
    ⟨n, lease, hGet, hValues⟩
  have hItems : h.items v = vs :=
    (hExact.items_eq hAdmits hv).trans hValues
  refine ⟨hItems, ?_⟩
  intro w hw
  constructor
  · apply admits_iff.mpr
    intro l hl
    refine hExact.typed p _ hGet l ?_
    exact
      List.mem_append_left _
        (List.mem_flatMap.mpr ⟨w, hw, hl⟩)
  · exact rank_lt_of_mem_items (hItems ▸ hw)

/-
  Where counts are exact, a value that is there unfolds into
  its tree and into no other.  The induction is on the age of
  the value.
-/
theorem Exact.unfolds_iff
    (hExact : h.Exact outer)
    {v : Value}
    (hAdmits : h.admits v)
    {t : Tree} :
    h.Unfolds v t ↔ t = h.tree v := by
  induction hRank : v.rank
    using Nat.strong_induction_on generalizing v t with
  | _ rank ih =>
      have hAll :
          ∀ {p vs ts},
            v.payload? = some p →
              h.elements? p = some vs →
                (List.Forall₂ h.Unfolds vs ts ↔
                  ts = (h.items v).map h.tree) := by
        intro p vs ts hv hElements
        rcases hExact.elements hAdmits hv hElements with
          ⟨hItems, hOlder⟩
        rw [hItems]
        apply forall₂_iff_map
        intro w hw u
        exact
          ih w.rank (hRank ▸ (hOlder w hw).2)
            (hOlder w hw).1 rfl
      cases v with
      | integer i =>
          rw [tree_integer]
          constructor
          · rintro ⟨⟩
            rfl
          · rintro rfl
            exact .integer i
      | list p =>
          rcases Option.isSome_iff_exists.mp hAdmits with
            ⟨vs, hElements⟩
          rw [tree_list]
          constructor
          · intro hUnfolds
            cases hUnfolds with
            | list hSome hItems =>
                rw [(hAll rfl hSome).mp hItems]
          · rintro rfl
            exact
              .list hElements ((hAll rfl hElements).mpr rfl)
      | closure c =>
          rcases Bool.and_eq_true_iff.mp hAdmits with
            ⟨hEnvironment, hCode⟩
          rcases Option.isSome_iff_exists.mp hEnvironment with
            ⟨vs, hElements⟩
          rcases Option.isSome_iff_exists.mp hCode with
            ⟨code, hCode⟩
          rw [tree_closure]
          constructor
          · intro hUnfolds
            cases hUnfolds with
            | closure hSome _ hItems =>
                rw [(hAll rfl hSome).mp hItems]
          · rintro rfl
            exact
              .closure hElements hCode
                ((hAll rfl hElements).mpr rfl)

------------------------------------------------------------
-- Comparisons
------------------------------------------------------------

/- Lists have one tree if their items have, one by one. -/
theorem tree_list_eq_iff
    {p q : ObjectId} :
    h.tree (.list p) = h'.tree (.list q) ↔
      List.Forall₂ (fun v w => h.tree v = h'.tree w)
        (h.items (.list p)) (h'.items (.list q)) := by
  rw [tree_list, tree_list, Tree.list.injEq,
    ← List.forall₂_eq_eq_eq, List.forall₂_map_left_iff,
    List.forall₂_map_right_iff]

/-
  Closures have one tree if their codes are one and their
  items have one tree, one by one.
-/
theorem tree_closure_eq_iff
    {c d : Closure} :
    h.tree (.closure c) = h'.tree (.closure d) ↔
      c.code = d.code ∧
        List.Forall₂ (fun v w => h.tree v = h'.tree w)
          (h.items (.closure c)) (h'.items (.closure d)) := by
  rw [tree_closure, tree_closure, Tree.closure.injEq,
    ← List.forall₂_eq_eq_eq, List.forall₂_map_left_iff,
    List.forall₂_map_right_iff]
  exact And.comm

/- Closures of one environment have one row of items. -/
private theorem items_closure
    {c d : Closure}
    (hSame : c.environment = d.environment) :
    h.items (.closure c) = h.items (.closure d) := by
  rcases c with ⟨p, q⟩
  rcases d with ⟨p', q'⟩
  cases hSame
  rfl

/- Pairs of items are compared before the pairs that wait. -/
private theorem forall_zip_append_iff
    {vs ws : List Value}
    (hLength : vs.length = ws.length)
    (rest : List (Value × Value)) :
    (∀ x ∈ vs.zip ws ++ rest, h.tree x.1 = h.tree x.2) ↔
      List.Forall₂ (fun v w => h.tree v = h.tree w) vs ws ∧
        ∀ x ∈ rest, h.tree x.1 = h.tree x.2 := by
  rw [List.forall_mem_append, List.forall₂_iff_zip]
  simp [hLength]

/-
  All pairs are equal exactly when each unfolds into one
  tree.  The induction follows the comparison; payloads that
  are shared are the cases that look no further.
-/
theorem equalAll_iff
    (pairs : List (Value × Value)) :
    h.equalAll pairs = true ↔
      ∀ x ∈ pairs, h.tree x.1 = h.tree x.2 := by
  induction pairs using equalAll.induct (h := h) with
  | case1 => simp [equalAll]
  | case2 i rest ih =>
      rw [equalAll, if_pos rfl, ih, List.forall_mem_cons]
      simp
  | case3 i j rest hNe =>
      rw [equalAll, if_neg hNe, List.forall_mem_cons]
      simp [hNe]
  | case4 p rest ih =>
      rw [equalAll, if_pos rfl, ih, List.forall_mem_cons]
      simp
  | case5 p q rest hNe hLength ih =>
      rw [equalAll, if_neg hNe, if_pos hLength, ih,
        forall_zip_append_iff hLength, List.forall_mem_cons,
        tree_list_eq_iff]
  | case6 p q rest hNe hLength =>
      rw [equalAll, if_neg hNe, if_neg hLength,
        List.forall_mem_cons, tree_list_eq_iff]
      simp only [Bool.false_eq_true, false_iff]
      exact fun hAll => hLength hAll.1.length_eq
  | case7 c d rest hCode hEnvironment ih =>
      rw [equalAll, if_pos hCode, if_pos hEnvironment, ih,
        List.forall_mem_cons, tree_closure_eq_iff,
        items_closure hEnvironment]
      simp [hCode]
  | case8 c d rest hCode hEnvironment hLength ih =>
      rw [equalAll, if_pos hCode, if_neg hEnvironment,
        if_pos hLength, ih, forall_zip_append_iff hLength,
        List.forall_mem_cons, tree_closure_eq_iff]
      simp [hCode]
  | case9 c d rest hCode hEnvironment hLength =>
      rw [equalAll, if_pos hCode, if_neg hEnvironment,
        if_neg hLength, List.forall_mem_cons,
        tree_closure_eq_iff]
      simp only [Bool.false_eq_true, false_iff]
      exact fun hAll => hLength hAll.1.2.length_eq
  | case10 c d rest hCode =>
      rw [equalAll, if_neg hCode, List.forall_mem_cons,
        tree_closure_eq_iff]
      simp [hCode]
  | case11 pairs hNil hIntegers hLists hClosures =>
      rcases pairs with _ | ⟨⟨v, w⟩, rest⟩
      · exact absurd rfl hNil
      · rw [equalAll, List.forall_mem_cons]
        · cases v <;> cases w <;>
            simp_all [tree_list, tree_closure]
        all_goals assumption

/- Two values are equal exactly if they unfold into one tree. -/
theorem equal_iff
    (v w : Value) :
    h.equal v w = true ↔ h.tree v = h.tree w := by
  rw [equal, equalAll_iff, List.forall_mem_singleton]

------------------------------------------------------------
-- Texts
------------------------------------------------------------

/-
  Pieces of two heaps with the same words, and with values
  that unfold into one tree.
-/
inductive Alike
    (h : Heap κ)
    (h' : Heap κ') : Piece → Piece → Prop where
| words (s : String) : Alike h h' (.words s) (.words s)
| value (depth : Nat) {v w : Value} :
    h.tree v = h'.tree w →
    Alike h h' (.value depth v) (.value depth w)

variable {vs ws : List Value}

/- Values with words in between. -/
private theorem alike_separated
    (separator : String)
    (depth : Nat)
    (hItems :
      List.Forall₂ (fun v w => h.tree v = h'.tree w) vs ws) :
    List.Forall₂ (h.Alike h')
      (Piece.separated separator depth vs)
      (Piece.separated separator depth ws) := by
  induction hItems with
  | nil => exact .nil
  | cons hHead hRest ih =>
      cases hRest with
      | nil => exact .cons (.value depth hHead) .nil
      | cons hNext hOthers =>
          exact
            .cons (.value depth hHead)
              (.cons (.words separator) ih)

/- Values on lines of their own. -/
private theorem alike_lines
    (depth : Nat)
    (hItems :
      List.Forall₂ (fun v w => h.tree v = h'.tree w) vs ws) :
    List.Forall₂ (h.Alike h') (Piece.lines depth vs)
      (Piece.lines depth ws) := by
  induction hItems with
  | nil => exact .nil
  | cons hHead hRest ih =>
      exact
        .cons (.words _)
          (.cons (.value depth hHead) (.cons (.words _) ih))

/- Rows of values in brackets, on one line. -/
private theorem alike_row
    (hItems :
      List.Forall₂ (fun v w => h.tree v = h'.tree w) vs ws) :
    List.Forall₂ (h.Alike h') (Piece.row vs)
      (Piece.row ws) :=
  .cons (.words _)
    (List.rel_append (alike_separated _ _ hItems)
      (.cons (.words _) .nil))

/- Rows of values in brackets, one value a line. -/
private theorem alike_column
    (depth : Nat)
    (hItems :
      List.Forall₂ (fun v w => h.tree v = h'.tree w) vs ws) :
    List.Forall₂ (h.Alike h') (Piece.column depth vs)
      (Piece.column depth ws) := by
  cases hItems with
  | nil => exact .cons (.words _) .nil
  | cons hHead hRest =>
      have hLines :=
        alike_lines (depth + 1) (.cons hHead hRest)
      exact
        .cons (.words _)
          (List.rel_append hLines (.cons (.words _) .nil))

/- One tree has one layout in every style. -/
private theorem alike_layout
    (style : Style)
    (depth : Nat)
    {v w : Value}
    (hTree : h.tree v = h'.tree w) :
    List.Forall₂ (h.Alike h')
      (style.layout depth (h.items v) v)
      (style.layout depth (h'.items w) w) := by
  cases v with
  | integer i =>
      cases w with
      | integer j =>
          simp only [tree_integer, Tree.integer.injEq]
            at hTree
          subst hTree
          cases style <;> exact .cons (.words _) .nil
      | list q => simp [tree_list] at hTree
      | closure d => simp [tree_closure] at hTree
  | list p =>
      cases w with
      | integer j => simp [tree_list] at hTree
      | closure d => simp [tree_list, tree_closure] at hTree
      | list q =>
          have hItems := tree_list_eq_iff.mp hTree
          cases style with
          | short =>
              exact
                .cons (.words _)
                  (List.rel_append
                    (alike_separated _ _ hItems)
                    (.cons (.words _) .nil))
          | full =>
              exact
                .cons (.words _)
                  (List.rel_append (alike_row hItems)
                    (.cons (.words _) .nil))
          | indented =>
              exact
                .cons (.words _)
                  (List.rel_append (alike_column _ hItems)
                    (.cons (.words _) .nil))
  | closure c =>
      cases w with
      | integer j => simp [tree_closure] at hTree
      | list q => simp [tree_list, tree_closure] at hTree
      | closure d =>
          have hItems := (tree_closure_eq_iff.mp hTree).2
          cases style with
          | short =>
              simp only [Style.layout, Style.layoutShort,
                hItems.length_eq]
              exact .cons (.words _) .nil
          | full =>
              exact
                .cons (.words _)
                  (List.rel_append (alike_row hItems)
                    (.cons (.words _) .nil))
          | indented =>
              exact
                .cons (.words _)
                  (List.rel_append (alike_column _ hItems)
                    (.cons (.words _) .nil))

/-
  Pieces that are alike are written alike.  The induction
  follows the writing of the first pieces.
-/
private theorem write_eq_of_alike
    (style : Style)
    (text : String)
    {ps qs : List Piece}
    (hAlike : List.Forall₂ (h.Alike h') ps qs) :
    h.write style text ps = h'.write style text qs := by
  induction text, ps using write.induct h style
    generalizing qs with
  | case1 text =>
      cases hAlike
      rw [write, write]
  | case2 text s rest ih =>
      cases hAlike with
      | cons hHead hRest =>
          cases hHead
          rw [write, write, ih hRest]
  | case3 text depth v rest ih =>
      cases hAlike with
      | cons hHead hRest =>
          cases hHead with
          | value _ hTree =>
              rw [write, write]
              exact
                ih
                  (List.rel_append
                    (alike_layout style depth hTree) hRest)

/- The text of a value is a matter of its tree. -/
theorem render_eq_of_tree_eq
    (style : Style)
    {v w : Value}
    (hTree : h.tree v = h'.tree w) :
    h.render style v = h'.render style w :=
  write_eq_of_alike style "" (.cons (.value 0 hTree) .nil)

------------------------------------------------------------
-- Structural Heaps
------------------------------------------------------------

/-
  Values unfold, and being equal is a matter of what they
  unfold into; so it is an equivalence, and texts follow it.
-/
structure Structural (h : Heap κ) : Prop where
  unfolds : ∀ v, h.admits v → ∃! t, h.Unfolds v t
  equal_iff :
    ∀ v w t u, h.Unfolds v t → h.Unfolds w u →
      (h.equal v w = true ↔ t = u)
  refl : ∀ v, h.equal v v = true
  symm : ∀ v w, h.equal v w = true → h.equal w v = true
  trans :
    ∀ u v w, h.equal u v = true → h.equal v w = true →
      h.equal u w = true
  text :
    ∀ v w, h.equal v w = true →
      ∀ style, h.render style v = h.render style w

/- Heaps with exact counts are structural. -/
theorem Exact.structural
    (hExact : h.Exact outer) :
    h.Structural := by
  constructor
  · intro v hAdmits
    refine ⟨h.tree v, ?_, ?_⟩
    · exact (hExact.unfolds_iff hAdmits).mpr rfl
    · intro t hUnfolds
      exact (hExact.unfolds_iff hAdmits).mp hUnfolds
  · intro v w t u hLeft hRight
    rw [equal_iff,
      (hExact.unfolds_iff hLeft.admits).mp hLeft,
      (hExact.unfolds_iff hRight.admits).mp hRight]
  · intro v
    exact (equal_iff v v).mpr rfl
  · intro v w hEqual
    exact (equal_iff w v).mpr ((equal_iff v w).mp hEqual).symm
  · intro u v w hFirst hSecond
    have hTree :=
      ((equal_iff u v).mp hFirst).trans
        ((equal_iff v w).mp hSecond)
    exact (equal_iff u w).mpr hTree
  · intro v w hEqual style
    exact
      render_eq_of_tree_eq style ((equal_iff v w).mp hEqual)

/-
  A comparison has one result in all structural heaps, for
  whatever unfolds into the same trees but for the names of
  the codes.
-/
theorem Structural.equal_eq
    (hHere : h.Structural)
    (hThere : h'.Structural)
    {f : ObjectId → ObjectId}
    (hf : Function.Injective f)
    {v w v' w' : Value}
    {t u : Tree}
    (hv : h.Unfolds v t)
    (hw : h.Unfolds w u)
    (hv' : h'.Unfolds v' (t.renamed f))
    (hw' : h'.Unfolds w' (u.renamed f)) :
    h'.equal v' w' = h.equal v w := by
  rw [Bool.eq_iff_iff, hThere.equal_iff _ _ _ _ hv' hw',
    hHere.equal_iff _ _ _ _ hv hw]
  constructor
  · exact Tree.renamed_inj hf
  · rintro rfl
    rfl

end Heap

------------------------------------------------------------
-- Comparisons of Reachable Values
------------------------------------------------------------

namespace Moment

variable {κ κ' : Type}

/-
  At every moment of every run, to compare values is to
  compare the trees that they unfold into.  Nothing else
  matters: values of another run, however they came to be
  and whatever they share, compare alike if their trees are
  the same but for the names of the codes.
-/
theorem equality_is_of_trees
    {provides provides' : UInt64 → Bool}
    {moves : List (Move κ)}
    {moves' : List (Move κ')}
    {m : Moment κ}
    {m' : Moment κ'}
    (hHere : (fresh provides).run moves = m)
    (hThere : (fresh provides').run moves' = m') :
    m.world.heap.Structural ∧
      ∀ f : ObjectId → ObjectId, Function.Injective f →
        ∀ v w v' w' t u,
          m.world.heap.Unfolds v t →
            m.world.heap.Unfolds w u →
              m'.world.heap.Unfolds v' (t.renamed f) →
                m'.world.heap.Unfolds w' (u.renamed f) →
                  m'.world.heap.equal v' w' =
                    m.world.heap.equal v w := by
  have hSound : m.Sound :=
    hHere ▸ sound_run_fresh provides moves
  have hSound' : m'.Sound :=
    hThere ▸ sound_run_fresh provides' moves'
  refine ⟨hSound.exact.structural, ?_⟩
  intro f hf v w v' w' t u hv hw hv' hw'
  exact
    hSound.exact.structural.equal_eq
      hSound'.exact.structural hf hv hw hv' hw'

/-
  Two closures of one code, with environments of two
  collectors, are equal; in another run, one such closure is
  equal to itself, by another name of the code.
-/
theorem equality_is_of_trees_renamed :
    ∃ m m' : Moment Unit,
      (fresh (fun _ => true)).run
          [.act (.newCollector .standard),
            .act (.clone (.value (.integer 7))),
            .act (.newCode () [] []),
            .act (.clone (.code 0)),
            .openArray 0 (.closure ⟨1⟩) 1,
            .closeArray 0 (.closure ⟨1⟩) [⟨0⟩],
            .act (.clone (.value (.integer 7))),
            .openArray 1 (.closure ⟨2⟩) 1,
            .closeArray 0 (.closure ⟨2⟩) [⟨4⟩]] = m ∧
        (fresh (fun _ => true)).run
            [.openArray 0 .list 0,
              .closeArray 0 .list [],
              .act (.clone (.value (.integer 7))),
              .act (.newCode () [] []),
              .openArray 0 (.closure ⟨2⟩) 1,
              .closeArray 0 (.closure ⟨2⟩) [⟨1⟩]] = m' ∧
        m.world.heap.equal (.closure ⟨1, 0⟩)
            (.closure ⟨2, 0⟩) = true ∧
        m.world.heap.render .short (.closure ⟨1, 0⟩) =
          m.world.heap.render .short (.closure ⟨2, 0⟩) ∧
        m'.world.heap.equal (.closure ⟨2, 1⟩)
            (.closure ⟨2, 1⟩) =
          m.world.heap.equal (.closure ⟨1, 0⟩)
            (.closure ⟨2, 0⟩) := by
  refine ⟨_, _, rfl, rfl, ?_⟩
  generalize hHere : (fresh _).run _ = m
  generalize hThere : (fresh _).run _ = m'
  have hBoth := equality_is_of_trees hHere hThere
  have hFirst :
      m.world.heap.Unfolds (.closure ⟨1, 0⟩)
        (.closure [.integer 7] 0) :=
    .closure (by rw [← hHere]; rfl) (by rw [← hHere]; rfl)
      (.cons (.integer 7) .nil)
  have hSecond :
      m.world.heap.Unfolds (.closure ⟨2, 0⟩)
        (.closure [.integer 7] 0) :=
    .closure (by rw [← hHere]; rfl) (by rw [← hHere]; rfl)
      (.cons (.integer 7) .nil)
  have hOther :
      m'.world.heap.Unfolds (.closure ⟨2, 1⟩)
        (.closure [.integer 7] 1) :=
    .closure (by rw [← hThere]; rfl) (by rw [← hThere]; rfl)
      (.cons (.integer 7) .nil)
  have hEqual :=
    (hBoth.1.equal_iff _ _ _ _ hFirst hSecond).mpr rfl
  refine ⟨hEqual, hBoth.1.text _ _ hEqual .short, ?_⟩
  exact
    hBoth.2 Nat.succ Nat.succ_injective _ _ _ _ _ _ hFirst
      hSecond hOther hOther

end Moment

end LeasedHeap

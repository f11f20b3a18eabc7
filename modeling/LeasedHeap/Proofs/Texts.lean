import LeasedHeap.Proofs.Readability

/-
  The letters of the full styles.

  Both full styles spell out every constructor of a tree.  One
  keeps to a line; the other gives each item a line of its
  own, behind a margin of four blanks for each level.  The
  text of a value is what is spelled for its tree, however it
  was written.

  Main declarations:
    * `Tree.spelled`
    * `Tree.indented`
    * `Heap.toList_write`
    * `Heap.toList_render_full`
    * `Heap.toList_render_indented`
-/

namespace LeasedHeap

------------------------------------------------------------
-- What Is Spelled
------------------------------------------------------------

namespace Tree

/- The digits of an integer, behind its sign. -/
def number (i : Int64) : List Char :=
  (toString i.toInt).toList

/- An integer is written with digits and a sign. -/
theorem mem_number
    {i : Int64}
    {c : Char}
    (hc : c ∈ number i) :
    c = '-' ∨ c.isDigit = true := by
  unfold number at hc
  cases hInt : i.toInt with
  | ofNat n =>
      rw [hInt] at hc
      exact Or.inr (Outline.isDigit_of_mem_nat hc)
  | negSucc n =>
      rw [hInt, Outline.toList_negSucc] at hc
      rcases List.mem_cons.mp hc with hSign | hDigit
      · exact Or.inl hSign
      · exact Or.inr (Outline.isDigit_of_mem_nat hDigit)

theorem not_mem_number
    {c : Char}
    (hSign : c ≠ '-')
    (hDigit : c.isDigit = false)
    (i : Int64) :
    c ∉ number i := by
  intro hc
  rcases mem_number hc with hSame | hIs
  · exact hSign hSame
  · rw [hDigit] at hIs
    cases hIs

/- What is written for an integer, in both styles. -/
def integerText (i : Int64) : List Char :=
  ['I', 'n', 't', 'e', 'g', 'e', 'r', '('] ++
    (number i ++ [')'])

mutual

/- What is written for a tree, on one line. -/
def spelled : Tree → List Char
| .integer i => integerText i
| .list ts =>
    ['L', 'i', 's', 't', '('] ++ (spelledRow ts ++ [')'])
| .closure ts _ =>
    ['C', 'l', 'o', 's', 'u', 'r', 'e', ' ', '\x7b', ' ',
        'e', 'n', 'v', ':', ' '] ++
      (spelledRow ts ++
        [',', ' ', 'c', 'o', 'd', 'e', ':', ' ',
          '<', 'c', 'o', 'd', 'e', ' ', '*', '>', ' ', '\x7d'])

/- A row of trees, in brackets. -/
def spelledRow : List Tree → List Char
| [] => ['[', ']']
| t :: ts => '[' :: (t.spelled ++ spelledRest ts)

/- The trees to come in a row, and its end. -/
def spelledRest : List Tree → List Char
| [] => [']']
| t :: ts => ',' :: ' ' :: (t.spelled ++ spelledRest ts)

end

/- The blanks before a line at some level. -/
def margin (level : Nat) : List Char :=
  List.replicate (4 * level) ' '

mutual

/-
  What is written for a tree that begins at some level, with
  one item a line.
-/
def indented (level : Nat) : Tree → List Char
| .integer i => integerText i
| .list ts =>
    ['L', 'i', 's', 't', '(', '\n'] ++
      (margin (level + 1) ++
        (column (level + 1) ts ++
          ([',', '\n'] ++ (margin level ++ [')']))))
| .closure ts _ =>
    ['C', 'l', 'o', 's', 'u', 'r', 'e', ' ', '\x7b', '\n'] ++
      (margin (level + 1) ++
        (['e', 'n', 'v', ':', ' '] ++
          (column (level + 1) ts ++
            ([',', '\n'] ++
              (margin (level + 1) ++
                (['c', 'o', 'd', 'e', ':', ' ', '<', 'c',
                    'o', 'd', 'e', ' ', '*', '>', ',',
                    '\n'] ++
                  (margin level ++ ['\x7d'])))))))

/- A column of trees, in brackets. -/
def column (level : Nat) : List Tree → List Char
| [] => ['[', ']']
| t :: ts =>
    ['[', '\n'] ++
      (margin (level + 1) ++
        (t.indented (level + 1) ++
          ([',', '\n'] ++ columnRest level ts)))

/- The trees to come in a column, and its end. -/
def columnRest (level : Nat) : List Tree → List Char
| [] => margin level ++ [']']
| t :: ts =>
    margin (level + 1) ++
      (t.indented (level + 1) ++
        ([',', '\n'] ++ columnRest level ts))

end

end Tree

------------------------------------------------------------
-- What Is Written
------------------------------------------------------------

namespace Heap

variable {κ : Type}

/- What a piece spells, given what is written for trees. -/
def spells
    (h : Heap κ)
    (letters : Nat → Tree → List Char) : Piece → List Char
| .words s => s.toList
| .value level v => letters level (h.tree v)

/-
  A text is what its pieces spell, if the layout of a value is
  what is written for its tree.
-/
theorem toList_write
    {h : Heap κ}
    {style : Style}
    {letters : Nat → Tree → List Char}
    (hLayout :
      ∀ level v,
        (style.layout level (h.items v) v).flatMap
            (h.spells letters) =
          letters level (h.tree v))
    (text : String)
    (ps : List Piece) :
    (h.write style text ps).toList =
      text.toList ++ ps.flatMap (h.spells letters) := by
  induction text, ps using write.induct h style with
  | case1 text => simp [write]
  | case2 text s rest ih =>
      rw [write, ih, String.toList_append, List.append_assoc]
      rfl
  | case3 text level v rest ih =>
      rw [write, ih, List.flatMap_append, hLayout]
      rfl

------------------------------------------------------------
-- The Full Style
------------------------------------------------------------

/- A comma stands between items, a bracket after the last. -/
private theorem spelled_append_rest
    (h : Heap κ)
    (v : Value)
    (vs : List Value) :
    (h.tree v).spelled ++ Tree.spelledRest (vs.map h.tree) =
      (Piece.separated ", " 0 (v :: vs)).flatMap
          (h.spells (fun _ => Tree.spelled)) ++ [']'] := by
  induction vs generalizing v with
  | nil => simp [Piece.separated, spells, Tree.spelledRest]
  | cons w vs ih =>
      rw [List.map_cons, Tree.spelledRest, ih w,
        Piece.separated]
      simp [spells]

private theorem flatMap_row
    (h : Heap κ)
    (vs : List Value) :
    (Piece.row vs).flatMap (h.spells (fun _ => Tree.spelled)) =
      Tree.spelledRow (vs.map h.tree) := by
  cases vs with
  | nil => rfl
  | cons v vs =>
      rw [List.map_cons, Tree.spelledRow,
        spelled_append_rest]
      simp [Piece.row, spells]

theorem flatMap_layoutFull
    (h : Heap κ)
    (level : Nat)
    (v : Value) :
    (Style.full.layout level (h.items v) v).flatMap
        (h.spells (fun _ => Tree.spelled)) =
      (h.tree v).spelled := by
  cases v with
  | integer i =>
      simp [Style.layout, Style.layoutFull, spells,
        Tree.spelled, Tree.integerText, Tree.number]
  | list p =>
      rw [tree_list, Tree.spelled, ← flatMap_row]
      simp [Style.layout, Style.layoutFull, spells]
  | closure c =>
      rw [tree_closure, Tree.spelled, ← flatMap_row]
      simp [Style.layout, Style.layoutFull, spells]

/- The full text of a value spells out its tree. -/
theorem toList_render_full
    (h : Heap κ)
    (v : Value) :
    (h.render .full v).toList = (h.tree v).spelled := by
  rw [render, toList_write h.flatMap_layoutFull]
  simp [spells]

------------------------------------------------------------
-- The Indented Style
------------------------------------------------------------

theorem toList_indent
    (level : Nat) :
    (Piece.indent level).toList = Tree.margin level :=
  String.toList_ofList

/- Every item has its line, and the bracket has the last. -/
private theorem flatMap_lines
    (h : Heap κ)
    (level : Nat)
    (vs : List Value) :
    (Piece.lines (level + 1) vs).flatMap
          (h.spells Tree.indented) ++
        (Tree.margin level ++ [']']) =
      Tree.columnRest level (vs.map h.tree) := by
  induction vs with
  | nil => rfl
  | cons v vs ih =>
      rw [List.map_cons, Tree.columnRest, ← ih]
      simp [Piece.lines, spells, toList_indent]

private theorem flatMap_column
    (h : Heap κ)
    (level : Nat)
    (vs : List Value) :
    (Piece.column level vs).flatMap (h.spells Tree.indented) =
      Tree.column level (vs.map h.tree) := by
  cases vs with
  | nil => rfl
  | cons v vs =>
      rw [List.map_cons, Tree.column, ← flatMap_lines]
      simp [Piece.column, Piece.lines, spells, toList_indent]

theorem flatMap_layoutIndented
    (h : Heap κ)
    (level : Nat)
    (v : Value) :
    (Style.indented.layout level (h.items v) v).flatMap
        (h.spells Tree.indented) =
      (h.tree v).indented level := by
  cases v with
  | integer i =>
      simp [Style.layout, Style.layoutIndented, spells,
        Tree.indented, Tree.integerText, Tree.number]
  | list p =>
      rw [tree_list, Tree.indented, ← flatMap_column]
      simp [Style.layout, Style.layoutIndented, spells,
        toList_indent]
  | closure c =>
      rw [tree_closure, Tree.indented, ← flatMap_column]
      simp [Style.layout, Style.layoutIndented, spells,
        toList_indent]

/- The indented text of a value spells out its tree as well. -/
theorem toList_render_indented
    (h : Heap κ)
    (v : Value) :
    (h.render .indented v).toList =
      (h.tree v).indented 0 := by
  rw [render, toList_write h.flatMap_layoutIndented]
  simp [spells]

end Heap

end LeasedHeap

import LeasedHeap.Tree

/-
  The texts of values.

  There are three styles: the short one shows lists in
  parentheses and closures by their arity; the full one and
  the indented one show every constructor.  A style says how
  one node is laid out in pieces; `Heap.write` writes pieces
  from left to right and lays out values as it meets them,
  so the nesting may be as deep as it likes.

  Key definitions include:
    * `Style`
    * `Piece`
    * `Style.layout`
    * `Heap.write`
    * `Heap.render`
-/

namespace LeasedHeap

------------------------------------------------------------
-- Pieces
------------------------------------------------------------

/- The ways to write a value. -/
inductive Style where
/- Lists in parentheses, closures by arity. -/
| short : Style
/- All constructors, on one line. -/
| full : Style
/- All constructors, one item a line, indented by depth. -/
| indented : Style
deriving DecidableEq, Repr

/-
  A piece of a text: words as they are, or a value that is
  to be laid out at some depth of indentation.
-/
inductive Piece where
| words : String → Piece
| value : Nat → Value → Piece

namespace Piece

/- Values with words in between. -/
def separated
    (separator : String)
    (depth : Nat) : List Value → List Piece
| [] => []
| [v] => [.value depth v]
| v :: w :: vs =>
    .value depth v :: .words separator ::
      separated separator depth (w :: vs)

/- The blanks at the start of a line. -/
def indent (depth : Nat) : String :=
  String.ofList (List.replicate (4 * depth) ' ')

/- Values on lines of their own. -/
def lines
    (depth : Nat)
    (vs : List Value) : List Piece :=
  vs.flatMap (fun v =>
    [.words (indent depth), .value depth v, .words ",\n"])

/- A row of values in brackets, on one line. -/
def row (vs : List Value) : List Piece :=
  .words "[" :: (separated ", " 0 vs ++ [.words "]"])

/- A row of values in brackets, one value a line. -/
def column
    (depth : Nat)
    (vs : List Value) : List Piece :=
  if vs.isEmpty then
    [.words "[]"]
  else
    .words "[\n" ::
      (lines (depth + 1) vs ++
        [.words (indent depth ++ "]")])

end Piece

------------------------------------------------------------
-- Layouts
------------------------------------------------------------

namespace Style

open Piece

/- One node in the short style. -/
def layoutShort
    (items : List Value) : Value → List Piece
| .integer i => [.words (toString i.toInt)]
| .list _ =>
    .words "(" :: (separated " " 0 items ++ [.words ")"])
| .closure _ =>
    [.words ("#<closure/" ++ toString items.length ++ ">")]

/- One node in the full style. -/
def layoutFull
    (items : List Value) : Value → List Piece
| .integer i =>
    [.words ("Integer(" ++ toString i.toInt ++ ")")]
| .list _ =>
    .words "List(" :: (row items ++ [.words ")"])
| .closure _ =>
    .words "Closure \x7b env: " ::
      (row items ++ [.words ", code: <code *> \x7d"])

/- One node in the indented style. -/
def layoutIndented
    (depth : Nat)
    (items : List Value) : Value → List Piece
| .integer i =>
    [.words ("Integer(" ++ toString i.toInt ++ ")")]
| .list _ =>
    .words ("List(\n" ++ indent (depth + 1)) ::
      (column (depth + 1) items ++
        [.words (",\n" ++ indent depth ++ ")")])
| .closure _ =>
    .words
        ("Closure \x7b\n" ++ indent (depth + 1) ++ "env: ") ::
      (column (depth + 1) items ++
        [.words (",\n" ++ indent (depth + 1) ++
          "code: <code *>,\n" ++ indent depth ++ "\x7d")])

/- One node with its items, in a style. -/
def layout
    (style : Style)
    (depth : Nat)
    (items : List Value)
    (v : Value) : List Piece :=
  match style with
  | .short => layoutShort items v
  | .full => layoutFull items v
  | .indented => layoutIndented depth items v

end Style

------------------------------------------------------------
-- Sizes
------------------------------------------------------------

namespace Heap

variable {κ : Type}

/- The work of writing a piece. -/
def pieceSize
    (h : Heap κ) : Piece → Nat
| .words _ => 1
| .value _ v => 8 * h.size v

/- The work of writing some pieces. -/
def pieceSizes
    (h : Heap κ) : List Piece → Nat
| [] => 0
| p :: ps => h.pieceSize p + h.pieceSizes ps

@[simp]
private theorem pieceSizes_nil
    (h : Heap κ) :
    h.pieceSizes [] = 0 :=
  rfl

@[simp]
private theorem pieceSizes_cons
    (h : Heap κ)
    (p : Piece)
    (ps : List Piece) :
    h.pieceSizes (p :: ps) =
      h.pieceSize p + h.pieceSizes ps :=
  rfl

@[simp]
private theorem pieceSizes_append
    (h : Heap κ)
    (ps qs : List Piece) :
    h.pieceSizes (ps ++ qs) =
      h.pieceSizes ps + h.pieceSizes qs := by
  induction ps with
  | nil => simp
  | cons p ps ih =>
      simp only [List.cons_append, pieceSizes_cons, ih]
      omega

/- Separated values weigh no more than as items. -/
private theorem pieceSizes_separated_le
    (h : Heap κ)
    (separator : String)
    (depth : Nat)
    (vs : List Value) :
    h.pieceSizes (Piece.separated separator depth vs) ≤
      8 * h.sizes vs := by
  induction vs with
  | nil => simp [Piece.separated]
  | cons v vs ih =>
      cases vs with
      | nil =>
          simp only [Piece.separated, pieceSizes_cons,
            pieceSizes_nil, pieceSize, sizes_cons]
          omega
      | cons w vs =>
          simp only [Piece.separated, pieceSizes_cons,
            pieceSize, sizes_cons] at ih ⊢
          omega

/- Values on lines weigh no more than as items. -/
private theorem pieceSizes_lines_le
    (h : Heap κ)
    (depth : Nat)
    (vs : List Value) :
    h.pieceSizes (Piece.lines depth vs) ≤
      8 * h.sizes vs := by
  induction vs with
  | nil => simp [Piece.lines]
  | cons v vs ih =>
      simp only [Piece.lines, List.flatMap_cons,
        pieceSizes_append, pieceSizes_cons, pieceSizes_nil,
        pieceSize, sizes_cons] at ih ⊢
      omega

/- A column is at most two words more than its items. -/
private theorem pieceSizes_column_le
    (h : Heap κ)
    (depth : Nat)
    (vs : List Value) :
    h.pieceSizes (Piece.column depth vs) ≤
      2 + 8 * h.sizes vs := by
  have hLines := pieceSizes_lines_le h (depth + 1) vs
  unfold Piece.column
  split <;> simp [pieceSize] <;> omega

/- A node weighs more than its pieces. -/
private theorem pieceSizes_layout_lt
    (h : Heap κ)
    (style : Style)
    (depth : Nat)
    (v : Value) :
    h.pieceSizes (style.layout depth (h.items v) v) <
      h.pieceSize (.value depth v) := by
  have hSize := size_eq h v
  have hSeparated := fun sep =>
    pieceSizes_separated_le h sep 0 (h.items v)
  have hColumn := fun d =>
    pieceSizes_column_le h d (h.items v)
  have hShort := hSeparated " "
  have hFull := hSeparated ", "
  have hIndented := hColumn (depth + 1)
  cases style <;> cases v <;>
    simp [Style.layout, Style.layoutShort,
      Style.layoutFull, Style.layoutIndented, Piece.row,
      pieceSize] <;>
    omega

------------------------------------------------------------
-- Writing
------------------------------------------------------------

/- Write pieces after a text. -/
def write
    (h : Heap κ)
    (style : Style)
    (text : String)
    (pieces : List Piece) : String :=
  match pieces with
  | [] => text
  | .words s :: rest => h.write style (text ++ s) rest
  | .value depth v :: rest =>
      h.write style text
        (style.layout depth (h.items v) v ++ rest)
termination_by h.pieceSizes pieces
decreasing_by
  · simp [pieceSize]
  · have := pieceSizes_layout_lt h style depth v
    simp
    omega

/- The text of a value. -/
def render
    (h : Heap κ)
    (style : Style)
    (v : Value) : String :=
  h.write style "" [.value 0 v]

/- The text of a row of values, on one line. -/
def renderRow
    (h : Heap κ)
    (vs : List Value) : String :=
  h.write .full "" (Piece.row vs)

end Heap

end LeasedHeap

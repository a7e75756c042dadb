import SeekParse.Expr.Basic

/-!
# Writing expressions

A `Spelling` says what a tree is written as, one level at a time: pieces that are text, and pieces
that are the trees below. `spell` writes a tree by it, from a list of the pieces still to be
written, so it needs no more stack for a deep tree than for a shallow one. What it writes is what
the recursive reading of the spelling says (`spell_eq`).

There are two spellings.

* `source` is an expression in its own language, with no parentheses but those that keep a chain
  together where it is an operand.
* `outline` shows the shape: each operand of a prefix operator in parentheses, each chain in
  brackets. No two trees look alike in it.
-/

namespace SeekParse

/-- A part of what is to be written. -/
inductive Piece where
  /-- These characters. -/
  | text (characters : String)
  /-- Whatever the tree is written as. -/
  | tree (e : Expr)
  deriving Inhabited

namespace Piece

/-- How much work is left in a piece. -/
def weight : Piece → Nat
  | .text _ => 1
  | .tree e => e.weight

/-- How much work is left in a list of pieces. -/
def total : List Piece → Nat
  | [] => 0
  | p :: rest => p.weight + total rest

/-- The pieces of the links of a chain, with each operand written in the given way. -/
def ofLinks (operand : Expr → List Piece) (links : List (BinaryOp × Expr)) : List Piece :=
  links.flatMap fun (op, e) => .text op.symbol.toString :: operand e

theorem total_nil : total [] = 0 := rfl

theorem total_cons (p : Piece) (pieces : List Piece) :
    total (p :: pieces) = p.weight + total pieces := rfl

theorem total_append (p q : List Piece) : total (p ++ q) = total p + total q := by
  induction p with
  | nil => simp [total]
  | cons piece p ih =>
    rw [List.cons_append, total_cons, total_cons, ih]
    omega

/-- The links of a chain are heavy enough for any way of writing an operand that adds two texts at
most. -/
theorem total_ofLinks_le {operand : Expr → List Piece}
    (h : ∀ e, total (operand e) ≤ e.weight + 2) (links : List (BinaryOp × Expr)) :
    total (ofLinks operand links) ≤ Expr.linksWeight links := by
  induction links with
  | nil => simp [ofLinks, total, Expr.linksWeight]
  | cons link links ih =>
    obtain ⟨op, e⟩ := link
    have := h e
    simp only [ofLinks, List.flatMap_cons, total_append, total_cons, weight,
      Expr.linksWeight] at ih ⊢
    omega

end Piece

/-- A way of writing expressions. -/
structure Spelling where
  /-- What one level of a tree is written as. -/
  pieces : Expr → List Piece
  /-- The pieces are lighter than the tree, so that writing them comes to an end. -/
  lighter : ∀ e, Piece.total (pieces e) < e.weight

namespace Spelling

/-- Write these pieces after what has been written. -/
def write (s : Spelling) : List Piece → (written : String) → String
  | [], written => written
  | .text characters :: rest, written => s.write rest (written ++ characters)
  | .tree e :: rest, written => s.write (s.pieces e ++ rest) written
termination_by pieces => Piece.total pieces
decreasing_by
  · simp [Piece.total_cons, Piece.weight]
  · have := s.lighter e
    simp only [Piece.total_cons, Piece.total_append, Piece.weight]
    omega

/-- An expression in this spelling. -/
def spell (s : Spelling) (e : Expr) : String := s.write [.tree e] ""

/-- What a piece is written as. -/
def spellPiece (s : Spelling) : Piece → String
  | .text characters => characters
  | .tree e => s.spell e

/-- What a list of pieces is written as: one after the other. -/
def spellAll (s : Spelling) : List Piece → String
  | [] => ""
  | p :: rest => s.spellPiece p ++ s.spellAll rest

theorem write_after (s : Spelling) (pieces : List Piece) (before written : String) :
    s.write pieces (before ++ written) = before ++ s.write pieces written := by
  fun_induction Spelling.write s pieces written with
  | case1 written => rw [write]
  | case2 characters rest written ih => rw [write, String.append_assoc, ih]
  | case3 e rest written ih => rw [write, ih]

theorem write_append (s : Spelling) (p q : List Piece) (written : String) :
    s.write (p ++ q) written = s.write q (s.write p written) := by
  fun_induction Spelling.write s p written with
  | case1 written => rfl
  | case2 characters rest written ih => rw [List.cons_append, write, ih]
  | case3 e rest written ih => rw [List.cons_append, write, ← List.append_assoc, ih]

theorem write_tree (s : Spelling) (e : Expr) (written : String) :
    s.write (s.pieces e) written = written ++ s.spell e := by
  rw [spell, ← write_after, write, List.append_nil, String.append_empty]

theorem write_eq (s : Spelling) (pieces : List Piece) (written : String) :
    s.write pieces written = written ++ s.spellAll pieces := by
  induction pieces generalizing written with
  | nil => rw [write, spellAll, String.append_empty]
  | cons p rest ih =>
    cases p with
    | text characters => rw [write, ih, spellAll, spellPiece, String.append_assoc]
    | tree e => rw [write, write_append, write_tree, ih, spellAll, spellPiece, String.append_assoc]

/-- A tree is written as its pieces are, one after the other. -/
theorem spell_eq (s : Spelling) (e : Expr) : s.spell e = s.spellAll (s.pieces e) := by
  have h := s.write_tree e ""
  rw [write_eq, String.empty_append, String.empty_append] at h
  exact h.symm

end Spelling

namespace Expr

/-- The pieces of an operand in source text: a chain is kept together by parentheses. -/
def operandPieces (e : Expr) : List Piece :=
  if e.isChain then [.text "(", .tree e, .text ")"] else [.tree e]

theorem total_operandPieces_le (e : Expr) : Piece.total e.operandPieces ≤ e.weight + 2 := by
  unfold operandPieces
  split <;> simp only [Piece.total_cons, Piece.total_nil, Piece.weight] <;> omega

/-- Source text with no more parentheses than it needs. -/
def sourceSpelling : Spelling where
  pieces
    | .number value => [.text (toString value.toNat)]
    | .unary op operand => .text op.symbol.toString :: operand.operandPieces
    | .chain first op second rest =>
      first.operandPieces ++ Piece.ofLinks operandPieces ((op, second) :: rest)
  lighter e := by
    cases e with
    | number value => simp [Piece.total, Piece.weight, weight]
    | unary op operand =>
      have := total_operandPieces_le operand
      simp only [Piece.total_cons, Piece.weight, weight]
      omega
    | chain first op second rest =>
      have := total_operandPieces_le first
      have := Piece.total_ofLinks_le total_operandPieces_le ((op, second) :: rest)
      simp only [Piece.total_append, weight, linksWeight] at *
      omega

/-- The text of an expression in its own language. -/
def source (e : Expr) : String := sourceSpelling.spell e

theorem total_tree_le (e : Expr) : Piece.total [.tree e] ≤ e.weight + 2 := by
  simp only [Piece.total_cons, Piece.total_nil, Piece.weight]
  omega

/-- The shape of a tree. -/
def outlineSpelling : Spelling where
  pieces
    | .number value => [.text (toString value.toNat)]
    | .unary op operand => [.text op.symbol.toString, .text "(", .tree operand, .text ")"]
    | .chain first op second rest =>
      .text "[" :: .tree first :: Piece.ofLinks ([.tree ·]) ((op, second) :: rest) ++ [.text "]"]
  lighter e := by
    cases e with
    | number value => simp [Piece.total, Piece.weight, weight]
    | unary op operand =>
      simp only [Piece.total_cons, Piece.total_nil, Piece.weight, weight]
      omega
    | chain first op second rest =>
      have := Piece.total_ofLinks_le total_tree_le ((op, second) :: rest)
      simp only [List.cons_append, Piece.total_append, Piece.total_cons, Piece.total_nil,
        Piece.weight, weight, linksWeight] at *
      omega

/-- The shape of an expression. -/
def outline (e : Expr) : String := outlineSpelling.spell e

end Expr

end SeekParse

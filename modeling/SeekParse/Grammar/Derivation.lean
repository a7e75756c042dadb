import SeekParse.Grammar.Machine

/-!
# The grammar as a relation

What the constructs of the grammar are written as, and which tree each text stands for, said without
a machine and without a cursor: a text derives a tree if it falls into parts as the rules say. The
relation does not say where a construct ends in a longer text, or how to find its parts. That is
what the machine decides.

* `number` needs a bound on the value, and none on the run: zeros in front are free.
* `group` adds no node, and neither does an operand that stands `alone`. A `chain` is one node for
  all its operands, so it is flat in the tree exactly where it is flat in the text.
* `DerivesLinks` lists the further operands of a chain, each after its operator.

The machine builds the tree of a chain from operands that it has kept on its stack, and has one
function for both cases. That this is the tree of the rules is a lemma (`Derives.ofChain`).
-/

namespace SeekParse

mutual

/-- `Derives rule text e`: as a construct of this kind, the whole text stands for `e`. -/
inductive Derives : Rule → List UInt8 → Expr → Prop where
  | number {digits : List UInt8} :
      digits ≠ [] → (∀ digit ∈ digits, Literal.isDigit digit = true) →
      Literal.value digits ≤ Literal.largest →
      Derives .primary digits (.number (UInt64.ofNat (Literal.value digits)))
  | group {text : List UInt8} {e : Expr} :
      Derives .expr text e → Derives .primary (openParen :: text ++ [closeParen]) e
  | primary {text : List UInt8} {e : Expr} :
      Derives .primary text e → Derives .unary text e
  | applied {text : List UInt8} {e : Expr} (op : UnaryOp) :
      Derives .unary text e → Derives .unary (op.byte :: text) (.unary op e)
  | alone {text : List UInt8} {e : Expr} :
      Derives .unary text e → Derives .expr text e
  | chain {text more : List UInt8} {first second : Expr} {op : BinaryOp}
      {rest : List (BinaryOp × Expr)} :
      Derives .unary text first → DerivesLinks more ((op, second) :: rest) →
      Derives .expr (text ++ more) (.chain first op second rest)

/-- The rest of a chain after its first operand. -/
inductive DerivesLinks : List UInt8 → List (BinaryOp × Expr) → Prop where
  | nil : DerivesLinks [] []
  | cons {text more : List UInt8} {e : Expr} {links : List (BinaryOp × Expr)} (op : BinaryOp) :
      Derives .unary text e → DerivesLinks more links →
      DerivesLinks (op.byte :: text ++ more) ((op, e) :: links)

end

/-- Every construct takes a byte at least. -/
theorem Derives.ne_nil {rule : Rule} {text : List UInt8} {e : Expr} :
    Derives rule text e → text ≠ []
  | .number hne _ _ => hne
  | .group _ => List.cons_ne_nil _ _
  | .primary h => h.ne_nil
  | .applied _ _ => List.cons_ne_nil _ _
  | .alone h => h.ne_nil
  | .chain h _ => fun hnil => h.ne_nil (List.append_eq_nil_iff.1 hnil).1

/-- Links go on with links. -/
theorem DerivesLinks.append {more more' : List UInt8} {links links' : List (BinaryOp × Expr)}
    (h' : DerivesLinks more' links') :
    DerivesLinks more links → DerivesLinks (more ++ more') (links ++ links')
  | .nil => h'
  | .cons op he h => by
    rw [List.append_assoc]
    exact .cons op he (append h' h)

/-- An operand and any number of links are an expression: a chain, if there are links. -/
theorem Derives.ofChain {text more : List UInt8} {e : Expr} {links : List (BinaryOp × Expr)}
    (h : Derives .unary text e) (hlinks : DerivesLinks more links) :
    Derives .expr (text ++ more) (.ofChain e links) := by
  cases links with
  | nil =>
      cases hlinks
      rw [List.append_nil]
      exact .alone h
  | cons link rest => exact .chain h hlinks

end SeekParse

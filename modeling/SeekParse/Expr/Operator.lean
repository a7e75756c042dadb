/-!
# Operators

The operators of the expression language, each written as one ASCII character. `-` is both a prefix
and a binary operator; which one is meant is for the grammar to say, by where it stands.
-/

namespace SeekParse

/-- An operator in front of its operand. -/
inductive UnaryOp where
  | neg
  | not
  deriving DecidableEq, Repr, Inhabited

/-- An operator between two operands. All of them bind alike. -/
inductive BinaryOp where
  | add
  | sub
  | div
  | mul
  deriving DecidableEq, Repr, Inhabited

namespace UnaryOp

/-- Every prefix operator, in the order in which messages list them. -/
def all : List UnaryOp := [.neg, .not]

/-- How an operator is written. -/
def symbol : UnaryOp → Char
  | .neg => '-'
  | .not => '!'

/-- The byte that an operator is written as. -/
def byte (op : UnaryOp) : UInt8 := op.symbol.toUInt8

/-- The operator that a byte stands for where an operand may start. -/
def ofByte? (byte : UInt8) : Option UnaryOp := all.find? (·.byte == byte)

/-- All prefix operators, as messages list them. -/
def symbols : String := String.ofList (all.map symbol)

theorem ofByte?_byte (op : UnaryOp) : ofByte? op.byte = some op := by cases op <;> rfl

theorem ofByte?_eq_some_iff {b : UInt8} {op : UnaryOp} : ofByte? b = some op ↔ b = op.byte := by
  constructor
  · intro h
    have hb := List.find?_some h
    exact (beq_iff_eq.1 hb).symm
  · rintro rfl
    exact ofByte?_byte op

end UnaryOp

namespace BinaryOp

/-- Every binary operator, in the order in which messages list them. -/
def all : List BinaryOp := [.add, .sub, .div, .mul]

/-- How an operator is written. -/
def symbol : BinaryOp → Char
  | .add => '+'
  | .sub => '-'
  | .div => '/'
  | .mul => '*'

/-- The byte that an operator is written as. -/
def byte (op : BinaryOp) : UInt8 := op.symbol.toUInt8

/-- The operator that a byte stands for after an operand. -/
def ofByte? (byte : UInt8) : Option BinaryOp := all.find? (·.byte == byte)

/-- All binary operators, as messages list them. -/
def symbols : String := String.ofList (all.map symbol)

theorem ofByte?_byte (op : BinaryOp) : ofByte? op.byte = some op := by cases op <;> rfl

theorem ofByte?_eq_some_iff {b : UInt8} {op : BinaryOp} : ofByte? b = some op ↔ b = op.byte := by
  constructor
  · intro h
    have hb := List.find?_some h
    exact (beq_iff_eq.1 hb).symm
  · rintro rfl
    exact ofByte?_byte op

end BinaryOp

end SeekParse

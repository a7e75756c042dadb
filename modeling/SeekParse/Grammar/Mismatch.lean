import SeekParse.Diagnostic.Basic
import SeekParse.Expr.Operator
import SeekParse.Grammar.Literal
import SeekParse.Text.OneLine

/-!
# What the grammar can find wrong

The ways in which an input fails to be an expression, and what is said about each. All the wording
of the grammar is here. A byte of the input that does not fit may be any byte, and is quoted on one
line. The digits of a literal need only be decoded, since there is no line feed among them.
-/

namespace SeekParse

/-- A way in which the input is no expression. -/
inductive Mismatch where
  /-- No operand starts here. -/
  | noOperand (found : Option UInt8)
  /-- The group opened there is not closed here. -/
  | unclosed (opened : Location) (found : Option UInt8)
  /-- The expression was complete before this byte. -/
  | trailing (found : UInt8)
  /-- These digits stand for a number that does not fit. -/
  | tooLarge (digits : List UInt8)
  deriving DecidableEq, Repr

namespace Mismatch

/-- The kind of mismatch. -/
def code : Mismatch → ErrorCode
  | .noOperand _ => .invalidPrimary
  | .unclosed .. => .unbalancedParenthesis
  | .trailing _ => .trailingInput
  | .tooLarge _ => .literalTooLarge

/-- What there is where something else should be. -/
def describe : Option UInt8 → String
  | some byte => s!"found '{oneLine [byte]}'"
  | none => "reached end of input"

/-- What is wrong. -/
def message : Mismatch → String
  | .noOperand found => s!"invalid primary: {describe found}"
  | .unclosed _ found => s!"unbalanced parenthesis: expected ')' but {describe found}"
  | .trailing found =>
    s!"unexpected trailing input: expected one of '{BinaryOp.symbols}' or end of input but " ++
      describe (some found)
  | .tooLarge digits =>
    s!"integer literal too large: {String.ofList (Utf8.decodeLossy digits)} does not fit in " ++
      s!"{Literal.bits} bits"

/-- What would be right. -/
def help : Mismatch → List String
  | .noOperand _ =>
    ["a primary is a run of digits or a parenthesized expression, optionally prefixed by one of " ++
      s!"'{UnaryOp.symbols}'"]
  | .unclosed opened _ => [s!"the group was opened at {opened.text}"]
  | .trailing _ => []
  | .tooLarge _ => [s!"the largest literal is {Literal.largest}"]

end Mismatch

end SeekParse

/-!
# Error codes

Every failure has a code by which it can be searched for. The first digit of a code's label says
which layer found the failure: `0` the byte source, `1` the grammar.

* `ofLabel?_label`: reading a code's label gives the code back, so labels are distinct.
-/

namespace SeekParse

/-- What kind of failure a report is about. -/
inductive ErrorCode where
  /-- The source cannot be positioned at all. -/
  | sourceNotSeekable
  /-- The source did not go back to an offset it had been at. -/
  | seekFailed
  /-- A byte could not be read. -/
  | readFailed
  /-- A byte or text other than the one asked for. -/
  | unexpectedCharacter
  /-- No operand where one must start. -/
  | invalidPrimary
  /-- A group without its closing parenthesis. -/
  | unbalancedParenthesis
  /-- Something after a complete expression. -/
  | trailingInput
  /-- A literal that does not fit its type. -/
  | literalTooLarge
  deriving DecidableEq, Repr, Inhabited

namespace ErrorCode

/-- Every code, in the order of their labels. -/
def all : List ErrorCode :=
  [.sourceNotSeekable, .seekFailed, .readFailed, .unexpectedCharacter, .invalidPrimary,
    .unbalancedParenthesis, .trailingInput, .literalTooLarge]

/-- The text a code is known by. -/
def label : ErrorCode → String
  | .sourceNotSeekable => "E0001"
  | .seekFailed => "E0002"
  | .readFailed => "E0003"
  | .unexpectedCharacter => "E1001"
  | .invalidPrimary => "E1002"
  | .unbalancedParenthesis => "E1003"
  | .trailingInput => "E1004"
  | .literalTooLarge => "E1005"

instance : ToString ErrorCode := ⟨label⟩

/-- What a code stands for, in a few words. -/
def description : ErrorCode → String
  | .sourceNotSeekable => "source is not seekable"
  | .seekFailed => "source could not be repositioned"
  | .readFailed => "source read failed"
  | .unexpectedCharacter => "unexpected character"
  | .invalidPrimary => "invalid primary expression"
  | .unbalancedParenthesis => "unbalanced parenthesis"
  | .trailingInput => "trailing input after expression"
  | .literalTooLarge => "integer literal too large"

/-- Whether the byte source failed. -/
def isSource : ErrorCode → Bool
  | .sourceNotSeekable | .seekFailed | .readFailed => true
  | _ => false

/-- Whether the input does not fit what was asked of it. -/
def isGrammar (code : ErrorCode) : Bool := !code.isSource

/-- The code with a given label, in either case. Case is that of ASCII letters only, so no other
letter is taken for one of a label. -/
def ofLabel? (text : String) : Option ErrorCode :=
  all.find? (fun code => text.toUpper == code.label)

theorem mem_all (code : ErrorCode) : code ∈ all := by cases code <;> decide

theorem toUpper_label (code : ErrorCode) : code.label.toUpper = code.label := by
  rw [← String.toList_inj, String.toUpper, String.toList_map]
  cases code <;> decide

theorem ofLabel?_label (code : ErrorCode) : ofLabel? code.label = some code := by
  rw [ofLabel?, toUpper_label]
  cases code <;> rfl

end ErrorCode

/-- A text that is the label of no code. -/
structure UnknownCode where
  /-- The text, as it was given. -/
  text : String
  deriving DecidableEq, Repr

/-- The report of a label that is not known. -/
def UnknownCode.message (e : UnknownCode) : String :=
  s!"unknown error code: {e.text}"

/-- Read a code's label, or report that there is none such. -/
def ErrorCode.ofLabel (text : String) : Except UnknownCode ErrorCode :=
  match ofLabel? text with
  | some code => .ok code
  | none => .error ⟨text⟩

end SeekParse

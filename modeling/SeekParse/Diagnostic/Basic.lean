import SeekParse.Diagnostic.Code

/-!
# Diagnostics

A diagnostic says what in the input does not fit, and where. It is written on one line; the excerpt
and the help notes that it carries are for whoever shows it, and are not part of that line.
-/

namespace SeekParse

/-- A place in the input. Lines and columns count from one, and columns count bytes. -/
structure Location where
  line : UInt32
  column : UInt32
  deriving DecidableEq, Repr, Inhabited

/-- How a place is named in messages. -/
def Location.text (l : Location) : String :=
  s!"line {l.line}, char {l.column}"

instance : ToString Location := ⟨Location.text⟩

/-- A mismatch between the input and what was asked of it. -/
structure Diagnostic where
  /-- The kind of mismatch. -/
  code : ErrorCode
  /-- What was wrong, for a person to read. -/
  message : String
  /-- Where it was noticed. -/
  location : Location
  /-- The input from there on, as text on one line. -/
  excerpt : Option String := none
  /-- Further advice, the oldest first. -/
  help : List String := []
  deriving DecidableEq, Repr

namespace Diagnostic

/-- The same diagnostic with this excerpt, in place of any that it had. -/
def withExcerpt (d : Diagnostic) (excerpt : String) : Diagnostic :=
  { d with excerpt := some excerpt }

/-- The same diagnostic with one more note, after those that it had. -/
def withHelp (d : Diagnostic) (note : String) : Diagnostic :=
  { d with help := d.help ++ [note] }

/-- The diagnostic in one sentence. -/
def text (d : Diagnostic) : String :=
  s!"parse error: {d.message} near {d.location.text}"

instance : ToString Diagnostic := ⟨text⟩

/-- The diagnostic as a line of a report, with the line feed that ends it. -/
def render (d : Diagnostic) : String :=
  d.text ++ "\n"

end Diagnostic

end SeekParse

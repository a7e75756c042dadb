import SeekParse.Diagnostic.Basic
import SeekParse.Source.Error

/-!
# Why a reading of the input failed

Either the input does not fit, which a diagnostic describes, or the source of the input failed. The
two are kept apart: what a failing source would have delivered is not known, so it never makes the
input wrong.
-/

namespace SeekParse

/-- Why a reading of the input failed. -/
inductive Failure where
  /-- The input does not fit what was asked of it. -/
  | mismatch (diagnostic : Diagnostic)
  /-- The input could not be read. -/
  | source (error : SourceError)
  deriving DecidableEq, Repr

namespace Failure

/-- The kind of failure. -/
def code : Failure → ErrorCode
  | .mismatch d => d.code
  | .source e => e.code

/-- What does not fit, if that is the reason. -/
def diagnostic? : Failure → Option Diagnostic
  | .mismatch d => some d
  | .source _ => none

/-- The failure as a line of a report, with the line feed that ends it. -/
def render : Failure → String
  | .mismatch d => d.render
  | .source e => s!"source error: {e.message}\n"

end Failure

end SeekParse

import SeekParse.Diagnostic.Code
import SeekParse.Source.Basic

/-!
# Failures of a source, as seen by a reader

A mismatch with the grammar is an answer; a failure of the source is none, and whoever was reading
cannot go on. The error says what was being done at which offset, and keeps the fault itself.
-/

namespace SeekParse

/-- What could not be done with a source, and why. -/
inductive SourceError where
  /-- It could not be positioned at its start, before anything was read. -/
  | unusable (cause : Fault)
  /-- It could not be positioned at an offset. -/
  | seek (offset : Nat) (cause : Fault)
  /-- It could not be read at, or from, an offset. -/
  | read (offset : Nat) (cause : Fault)
  deriving DecidableEq, Repr, Inhabited

namespace SourceError

/-- The kind of failure. -/
def code : SourceError → ErrorCode
  | .unusable _ => .sourceNotSeekable
  | .seek .. => .seekFailed
  | .read .. => .readFailed

/-- The fault behind the failure. -/
def cause : SourceError → Fault
  | .unusable cause | .seek _ cause | .read _ cause => cause

/-- The offset at which it happened, where the failure has one. -/
def offset? : SourceError → Option Nat
  | .unusable _ => none
  | .seek offset _ | .read offset _ => some offset

/-- The failure in one sentence, without its cause. -/
def message : SourceError → String
  | .unusable _ => "invalid source: cannot position the source at its start"
  | .seek offset _ => s!"failed to seek to offset {offset}"
  | .read offset _ => s!"failed to read source at offset {offset}"

/-- A failure to seek while a source is first put into use makes it unusable. -/
def atStart : SourceError → SourceError
  | .seek _ cause => .unusable cause
  | e => e

end SourceError

end SeekParse

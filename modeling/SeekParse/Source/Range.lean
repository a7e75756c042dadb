import SeekParse.Source.Error

/-!
# Reading a range of a source

`readRange` is random access: it moves the head to a range, and reads it. It leaves the head where
the reading stopped. An empty range is known without the source, so nothing is asked of it then, and
no byte past the range is asked for either; both matter to a source that fails.
-/

namespace SeekParse

/-- Computations on a source that may fail. -/
abbrev SourceM := EStateM SourceError Source

namespace Source

/-- Read one byte; a failure is reported at `origin`. -/
def readFrom (origin : Nat) : SourceM (Option UInt8) :=
  EStateM.adaptExcept (.read origin) read

/-- Put the head at exactly this offset. A source that ends elsewhere has failed to seek, but its
head has moved all the same. -/
def seekTo (offset : Nat) : SourceM Unit := do
  let landed ← EStateM.adaptExcept (.seek offset) (seek offset)
  unless landed = offset do
    throw (.seek offset (.landedAt landed))

/-- Read `count` bytes, or as many as there are, after those `taken` so far, the last first. -/
def readUpTo (origin : Nat) : (count : Nat) → (taken : List UInt8) → SourceM (List UInt8)
  | 0, taken => return taken.reverse
  | count + 1, taken => do
    match ← readFrom origin with
    | none => return taken.reverse
    | some byte => readUpTo origin count (byte :: taken)

/-- The bytes from one offset up to another, or up to the end of the source if that comes first. -/
def readRange (first past : Nat) : SourceM (List UInt8) := do
  if past ≤ first then
    return []
  seekTo first
  readUpTo first (past - first) []

end Source

end SeekParse

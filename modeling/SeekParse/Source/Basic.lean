/-!
# Seekable byte sources that can fail

A source holds bytes and a head that reads them one at a time and can be moved. Real sources fail:
a read reports a device error, a seek is refused, or ends elsewhere than it was asked to. `Faults`
says when that happens to this source; with none of them set, the source is plain memory.

An operation that fails still leaves a state behind, and the head need not be where it was: a seek
that ends elsewhere *has* moved the head. So the operations are in `EStateM`, which hands on the
state of a failure as well as of a success, and callers have to put the head back themselves.
-/

namespace SeekParse

/-- Why an operation on a source failed. -/
inductive Fault where
  /-- The device says so, in its own words. -/
  | reported (report : String)
  /-- A seek ended at another offset than it was to. -/
  | landedAt (offset : Nat)
  deriving DecidableEq, Repr, Inhabited

namespace Fault

/-- What a fault is called in reports. -/
def message : Fault → String
  | .reported report => report
  | .landedAt offset => s!"source landed at offset {offset}"

/-- What a source says that can no longer read. -/
def deviceLost : Fault := .reported "device lost"

/-- What a source says that can no longer seek. -/
def notSeekable : Fault := .reported "not seekable"

end Fault

/-- When a source fails. A field that is `none` causes no failure. -/
structure Faults where
  /-- Reads fail with the head at or past this offset, at the end of the bytes too. -/
  unreadableFrom : Option Nat := none
  /-- How many more seeks are granted. -/
  seeksLeft : Option Nat := none
  /-- No seek gets past this offset. -/
  seekLimit : Option Nat := none
  deriving DecidableEq, Repr, Inhabited

/-- A seekable source of bytes. -/
structure Source where
  /-- The bytes that it holds. -/
  contents : Array UInt8
  /-- The offset of the next byte to read; past the end, there is none. -/
  head : Nat := 0
  /-- When it fails. -/
  faults : Faults := {}
  deriving DecidableEq, Repr, Inhabited

namespace Source

/-- Bytes in memory, read from their start. -/
def ofBytes (bytes : List UInt8) : Source := { contents := bytes.toArray }

/-- The UTF-8 bytes of a text, in memory. -/
def ofText (text : String) : Source := { contents := text.toUTF8.data }

/-- Everything that a source holds, wherever its head is. -/
def bytes (s : Source) : List UInt8 := s.contents.toList

/-- How many bytes lie ahead of the head. -/
def ahead (s : Source) : Nat := s.contents.size - s.head

/-- Whether a read with the head where it is fails. -/
def readFails (s : Source) : Bool := s.faults.unreadableFrom.any (· ≤ s.head)

/-- Read one byte, or find that there are no more. -/
def read : EStateM Fault Source (Option UInt8) := fun s =>
  if s.readFails then .error .deviceLost s
  else
    match s.contents[s.head]? with
    | some byte => .ok (some byte) { s with head := s.head + 1 }
    | none => .ok none s

/-- A byte that was read lay ahead of the head, which has passed it. -/
theorem read_eq_some {s s' : Source} {byte : UInt8} (h : s.read = .ok (some byte) s') :
    s.head < s.contents.size ∧ s' = { s with head := s.head + 1 } := by
  unfold read at h
  split at h
  · cases h
  · split at h
    · rename_i hb
      cases h
      exact ⟨(Array.getElem?_eq_some_iff.1 hb).1, rfl⟩
    · cases h

/-- Finding no more bytes changes nothing. -/
theorem read_eq_none {s s' : Source} (h : s.read = .ok none s') : s' = s := by
  unfold read at h
  split at h
  · cases h
  · split at h <;> cases h
    rfl

/-- Move the head towards an offset, and say where it ended. A source with no
seeks left refuses, and stays where it is. -/
def seek (offset : Nat) : EStateM Fault Source Nat := fun s =>
  if s.faults.seeksLeft = some 0 then .error .notSeekable s
  else
    let landed := match s.faults.seekLimit with
      | some limit => min offset limit
      | none => offset
    .ok landed { s with
      head := landed
      faults := { s.faults with seeksLeft := s.faults.seeksLeft.map (· - 1) } }

end Source

end SeekParse

/-!
# Reading bytes as UTF-8 text, with replacement

Input bytes are quoted in messages, and input need not be valid UTF-8. This file decodes any byte
list to characters: each maximal prefix of a valid sequence that is not completed, and each byte
that can start none, becomes one replacement character.

The decoder is a machine fed one byte at a time. Between characters it is `idle`; inside one it
knows the bits read so far and the span the next byte must lie in. Carrying the span, and not only
the count of bytes owed, is what rules out overlong forms, surrogates and values past the last code
point at the earliest byte that shows them, and that is what makes the replaced prefix maximal.

* `Decoder.feed_ascii`: an ASCII byte is never absorbed. It closes whatever was under way and
  stands for itself, so a text is decoded piece by piece between its ASCII bytes.
-/

namespace SeekParse.Utf8

/-- What stands for bytes that are no character. -/
def replacement : Char := '\uFFFD'

/-- The spans that a byte after the first may have to lie in. -/
inductive Span where
  /-- Any continuation byte. -/
  | full
  /-- After `E0`: less would be an overlong form of a shorter sequence. -/
  | fromA0
  /-- After `ED`: more would be a surrogate. -/
  | upTo9F
  /-- After `F0`: less would be an overlong form. -/
  | from90
  /-- After `F4`: more would lie past the last code point. -/
  | upTo8F
  deriving DecidableEq, Repr

/-- The least byte of a span. -/
def Span.least : Span → UInt8
  | .full | .upTo9F | .upTo8F => 0x80
  | .fromA0 => 0xA0
  | .from90 => 0x90

/-- The greatest byte of a span. -/
def Span.greatest : Span → UInt8
  | .full | .fromA0 | .from90 => 0xBF
  | .upTo9F => 0x9F
  | .upTo8F => 0x8F

instance : Membership UInt8 Span := ⟨fun span byte => span.least ≤ byte ∧ byte ≤ span.greatest⟩

instance (byte : UInt8) (span : Span) : Decidable (byte ∈ span) :=
  inferInstanceAs (Decidable (span.least ≤ byte ∧ byte ≤ span.greatest))

/-- No span holds an ASCII byte. -/
theorem Span.not_mem_of_ascii {byte : UInt8} (h : byte < 0x80) (span : Span) : byte ∉ span := by
  have hl : (0x80 : UInt8) ≤ span.least := by cases span <;> decide
  exact fun hm => absurd (UInt8.le_trans hl hm.1) (UInt8.not_le.mpr h)

/-- Where the decoder stands between two bytes. -/
inductive Decoder where
  /-- Between characters. -/
  | idle
  /-- Inside a character whose bits so far are `value`: the next byte must lie in `next`, and
  `owed` more continuation bytes follow it. -/
  | inside (value : Nat) (next : Span) (owed : Nat)
  deriving DecidableEq, Repr

namespace Decoder

/-- The first byte of a character: what it completes, and where the decoder stands after it. -/
def start (byte : UInt8) : List Char × Decoder :=
  if byte < 0x80 then ([Char.ofNat byte.toNat], .idle)
  else if byte < 0xC2 then ([replacement], .idle)
  else if byte < 0xE0 then ([], .inside (byte.toNat - 0xC0) .full 0)
  else if byte = 0xE0 then ([], .inside 0x0 .fromA0 1)
  else if byte = 0xED then ([], .inside 0xD .upTo9F 1)
  else if byte < 0xF0 then ([], .inside (byte.toNat - 0xE0) .full 1)
  else if byte = 0xF0 then ([], .inside 0x0 .from90 2)
  else if byte < 0xF4 then ([], .inside (byte.toNat - 0xF0) .full 2)
  else if byte = 0xF4 then ([], .inside 0x4 .upTo8F 2)
  else ([replacement], .idle)

/-- One byte: the characters it completes, and where the decoder stands after it. A byte out of
span ends the character under way, which is replaced, and is then the first byte of the next. -/
def feed : Decoder → UInt8 → List Char × Decoder
  | .idle, byte => start byte
  | .inside value next owed, byte =>
    if byte ∈ next then
      let value := value * 0x40 + (byte.toNat - 0x80)
      match owed with
      | 0 => ([Char.ofNat value], .idle)
      | owed + 1 => ([], .inside value .full owed)
    else
      (replacement :: (start byte).1, (start byte).2)

/-- What the end of the bytes completes. -/
def flush : Decoder → List Char
  | .idle => []
  | .inside .. => [replacement]

/-- An ASCII byte flushes what was under way and then stands for itself. -/
theorem feed_ascii (d : Decoder) {byte : UInt8} (h : byte < 0x80) :
    d.feed byte = (d.flush ++ [Char.ofNat byte.toNat], .idle) := by
  have hs : start byte = ([Char.ofNat byte.toNat], .idle) := by unfold start; rw [if_pos h]
  cases d with
  | idle => exact hs
  | inside value next owed => simp [feed, flush, Span.not_mem_of_ascii h next, hs]

/-- The characters completed so far and the decoder, after one more byte. -/
def push : Array Char × Decoder → UInt8 → Array Char × Decoder
  | (done, d), byte => (done ++ (d.feed byte).1, (d.feed byte).2)

end Decoder

/-- The bytes of a text. -/
def encode (text : String) : List UInt8 := text.toUTF8.data.toList

/-- The text of a byte list, with invalid parts replaced. -/
def decodeLossy (bytes : List UInt8) : List Char :=
  let (done, d) := bytes.foldl Decoder.push (#[], .idle)
  (done ++ d.flush).toList

end SeekParse.Utf8

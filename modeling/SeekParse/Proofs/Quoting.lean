import SeekParse.Proofs.Decoding
import SeekParse.Proofs.ReportLines

/-!
# What is quoted on one line

A message is one line, so input that is quoted in it is decoded, and the line feeds among its
characters are escaped. Escaping is done character by character, and what that does to a list of
characters is plain. What it does to bytes depends on the decoder, which may make one character of
several bytes, and of bytes that are no text.

* `oneLine_append_ascii`: an ASCII byte divides what is quoted, so it is neither lost nor absorbed.
* `oneLine_keeps_ascii`: this, and that no line feed is left, and that a text is quoted as it is but
  for its line feeds.
-/

namespace SeekParse

theorem oneLine_eq_join (bytes : List UInt8) :
    oneLine bytes = String.join ((Utf8.decodeLossy bytes).map fun c =>
      if c = '\n' then "\\n" else String.singleton c) := by
  rw [oneLine]
  induction Utf8.decodeLossy bytes with
  | nil => rfl
  | cons c rest ih =>
      rw [List.flatMap_cons, String.ofList_append, ih, List.map_cons, String.join_cons,
        escapeLineFeed, apply_ite String.ofList, String.singleton_eq_ofList]

/-- A byte that is a character by itself is the line feed if the character is. -/
theorem ofNat_eq_iff_of_ascii {byte : UInt8} (h : byte < 0x80) :
    Char.ofNat byte.toNat = '\n' ↔ byte = lineFeed := by
  constructor
  · intro hline
    have hback := (Utf8.toUInt8_ofNat_of_ascii h).2
    rw [hline] at hback
    exact hback.symm
  · rintro rfl
    rfl

/-- **An ASCII byte divides what is quoted.** -/
theorem oneLine_append_ascii (before after : List UInt8) {byte : UInt8} (h : byte < 0x80) :
    oneLine (before ++ [byte] ++ after)
      = oneLine before
        ++ (if byte = lineFeed then "\\n" else String.singleton (Char.ofNat byte.toNat))
        ++ oneLine after := by
  have hread := Utf8.Decoder.idle.read_append_ascii h before after
  rw [List.append_assoc, List.singleton_append, oneLine_eq_join, oneLine_eq_join, oneLine_eq_join,
    Utf8.decodeLossy_eq, Utf8.decodeLossy_eq, Utf8.decodeLossy_eq, hread, List.map_append,
    List.map_cons, String.join_append, String.join_cons, String.append_assoc,
    if_congr (ofNat_eq_iff_of_ascii h) rfl rfl]

/--
**What is quoted on one line has every ASCII byte in its place.**

An ASCII byte divides what is quoted: the part before it and the part after it are quoted as they
would be alone. The byte itself is quoted as the character that it is, or as `\` and `n` if it is a
line feed. So there is no line feed in what is quoted, and of a text all is quoted as it is but for
its line feeds.
-/
theorem oneLine_keeps_ascii :
    (∀ (before after : List UInt8) (byte : UInt8), byte < 0x80 →
        oneLine (before ++ [byte] ++ after)
          = oneLine before
            ++ (if byte = lineFeed then "\\n" else String.singleton (Char.ofNat byte.toNat))
            ++ oneLine after)
      ∧ (∀ bytes : List UInt8, '\n' ∉ (oneLine bytes).toList)
      ∧ ∀ text : String, oneLine (Utf8.encode text)
          = String.join (text.toList.map fun c =>
              if c = '\n' then "\\n" else String.singleton c) := by
  refine ⟨fun before after byte h => oneLine_append_ascii before after h, fun bytes => ?_,
    fun text => ?_⟩
  · exact List.count_eq_zero.1 (lineBreaks_oneLine bytes)
  · rw [oneLine_eq_join, Utf8.decodeLossy_encode]

/-- A line feed in the middle of what might have been the bytes of a euro sign. -/
theorem oneLine_keeps_ascii_truncated :
    lineFeed < 0x80
      ∧ oneLine ([0xE2, 0x82] ++ [lineFeed] ++ [0xAC]) = "\uFFFD" ++ "\\n" ++ "\uFFFD" :=
  ⟨by decide, (oneLine_keeps_ascii.1 [0xE2, 0x82] [0xAC] lineFeed (by decide)).trans rfl⟩

end SeekParse

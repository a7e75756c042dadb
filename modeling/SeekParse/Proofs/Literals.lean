import Mathlib.Data.List.TakeWhile
import SeekParse.Proofs.Decoding
import SeekParse.Proofs.Places
import SeekParse.Proofs.Printing

/-!
# Literals are read exactly

A literal is its whole run of digits, with any number of zeros in front, and stands for the value of
the run if that fits in a word. The parser does not know that value beforehand: it multiplies and
adds in a word, digit by digit, and gives up where one of the two would exceed it. This comes to
the same (`Literal.ofDigits?_eq`). Here it is said of the parser, from the first digit to where it
stops.

* `Utf8.encode_decodeLossy_of_ascii`: bytes that are characters by themselves are quoted as they
  are.
* `parse_fits`, `parse_tooLarge`: a run of digits is read to its end if it fits. If not, it is
  blamed as a whole, and the parser goes back to its first digit.
* `literal_exact`: both, for a parser that stands on a digit, whatever it has been asked before.
-/

namespace SeekParse

variable {text bytes : List UInt8} {i k : Nat}

/-! ## Quoting digits -/

namespace Utf8

/-- A byte that is a character by itself. -/
theorem toUInt8_ofNat_of_ascii {byte : UInt8} (h : byte < 0x80) :
    (Char.ofNat byte.toNat).val ≤ 127 ∧ (Char.ofNat byte.toNat).toUInt8 = byte := by
  have hlt : byte.toNat < 128 := UInt8.lt_iff_toNat_lt.1 h
  have hvalid : byte.toNat.isValidChar := .inl (by omega)
  have hval : (Char.ofNat byte.toNat).val.toNat = byte.toNat := by
    rw [Char.ofNat, dif_pos hvalid]
    rfl
  constructor
  · rw [UInt32.le_iff_toNat_le, hval]
    exact Nat.le_of_lt_succ hlt
  · rw [← UInt8.toNat_inj]
    show (Char.ofNat byte.toNat).val.toNat % 256 = byte.toNat
    rw [hval]
    omega

/-- Bytes that are characters by themselves are decoded one by one. -/
theorem decodeLossy_of_ascii (h : ∀ byte ∈ bytes, byte < 0x80) :
    decodeLossy bytes = bytes.map fun byte => Char.ofNat byte.toNat := by
  rw [decodeLossy_eq]
  induction bytes with
  | nil => rfl
  | cons byte bytes ih =>
      have hread := Decoder.idle.read_append_ascii (h byte (List.mem_cons_self ..)) [] bytes
      rw [ih fun byte' hmem => h byte' (List.mem_cons_of_mem _ hmem)] at hread
      exact hread

/-- Bytes that are characters by themselves are quoted as they are. -/
theorem encode_decodeLossy_of_ascii (h : ∀ byte ∈ bytes, byte < 0x80) :
    encode (String.ofList (decodeLossy bytes)) = bytes := by
  have hascii : ∀ c ∈ bytes.map fun byte => Char.ofNat byte.toNat, c.val ≤ 127 := by
    intro c hmem
    obtain ⟨byte, hbyte, rfl⟩ := List.mem_map.1 hmem
    exact (toUInt8_ofNat_of_ascii (h byte hbyte)).1
  have hback : ∀ byte ∈ bytes, (Char.toUInt8 ∘ fun byte => Char.ofNat byte.toNat) byte = byte :=
    fun byte hbyte => (toUInt8_ofNat_of_ascii (h byte hbyte)).2
  rw [decodeLossy_of_ascii h, encode_ofList_of_ascii hascii, List.map_map,
    List.map_congr_left hback, List.map_id']

/-- Among bytes that are characters by themselves, a line feed stands for itself alone. -/
theorem not_mem_decodeLossy_of_ascii (h : ∀ byte ∈ bytes, byte < 0x80)
    (hline : lineFeed ∉ bytes) : '\n' ∉ decodeLossy bytes := by
  intro hmem
  rw [decodeLossy_of_ascii h] at hmem
  obtain ⟨byte, hbyte, heq⟩ := List.mem_map.1 hmem
  have hsame := (toUInt8_ofNat_of_ascii (h byte hbyte)).2
  rw [heq] at hsame
  rw [← hsame] at hbyte
  exact hline hbyte

end Utf8

theorem lt_of_isDigit {byte : UInt8} (h : Literal.isDigit byte = true) : byte < 0x80 := by
  rw [Literal.isDigit, Bool.and_eq_true, decide_eq_true_iff, decide_eq_true_iff,
    UInt8.le_iff_toNat_le, UInt8.le_iff_toNat_le] at h
  have hhigh : byte.toNat ≤ 57 := h.2
  rw [UInt8.lt_iff_toNat_lt]
  exact Nat.lt_of_le_of_lt hhigh (by decide)

/-- The digits of a literal are quoted as they stand in the text. -/
theorem encode_decodeLossy_digits {digits : List UInt8}
    (h : ∀ digit ∈ digits, Literal.isDigit digit = true) :
    Utf8.encode (String.ofList (Utf8.decodeLossy digits)) = digits :=
  Utf8.encode_decodeLossy_of_ascii fun digit hmem => lt_of_isDigit (h digit hmem)

/-- A literal that is too large is quoted whole, however long it is. -/
theorem Mismatch.message_tooLarge (digits : List UInt8) :
    (tooLarge digits).message
      = "integer literal too large: " ++ String.ofList (Utf8.decodeLossy digits)
        ++ " does not fit in 64 bits" := by
  have hwidth : " does not fit in " ++ (toString Literal.bits ++ " bits")
      = " does not fit in 64 bits" := by decide
  rw [← hwidth, ← String.append_assoc]
  rfl

/-! ## Runs of digits -/

/-- A run of digits that fits is read to its end, as its value. -/
theorem parse_fits (options : Cursor.Options) (hik : i < k) (hk : k ≤ text.length)
    (hdigits : ∀ digit ∈ text.extract i k, Literal.isDigit digit = true)
    (hnext : text[k]?.filter Literal.isDigit = none)
    (hfits : Literal.value (text.extract i k) ≤ Literal.largest) :
    Cursor.parse .primary (Cursor.along text options i)
      = .ok (.number (UInt64.ofNat (Literal.value (text.extract i k))))
          (Cursor.along text options k) := by
  have hne : text.extract i k ≠ [] := by
    intro hnil
    have hlen := length_extract (j := i) hk
    rw [hnil, List.length_nil] at hlen
    omega
  exact parse_of_derives (Nat.le_of_lt hik) hk (.number hne hdigits hfits)
    (stopsAt_of_not_digit (by decide) hk hnext)

/-- A run of digits that does not fit is blamed as a whole, at its first digit. -/
theorem parse_tooLarge (options : Cursor.Options) (hik : i < k) (hk : k ≤ text.length)
    (hdigits : ∀ digit ∈ text.extract i k, Literal.isDigit digit = true)
    (hnext : text[k]?.filter Literal.isDigit = none)
    (hlarge : Literal.largest < Literal.value (text.extract i k)) :
    Cursor.parse .primary (Cursor.along text options i)
      = .error (.mismatch ((Mismatch.tooLarge (text.extract i k)).diagnosticAt text options i))
          (Cursor.along text options i) := by
  exact parse_of_rejects options (Reading.moves_run hik hk hdigits)
    (Nat.le_trans (Nat.le_of_lt hik) hk) (Reading.step_tooLarge hnext hlarge) (.inr rfl)

namespace Parser

variable {options : Options}

/--
**A literal is read exactly.**

A parser on a text in memory stands on a digit, whatever it has been asked before, and is asked for
a primary. If the run of digits there is the decimal of a word, the answer is that word, and the
parser stands on what comes after the run. If it is the decimal of more, the answer is an error at
the first digit that quotes the run, and the parser is what it was, the head of its source
included.
-/
theorem literal_exact {p : Parser} {digit : UInt8} {digits : List UInt8}
    (hp : Reached text options p) (hcurrent : p.cursor.current = some digit)
    (hdigit : Literal.isDigit digit = true)
    (hrun : (text.drop p.cursor.state.offset).takeWhile Literal.isDigit = digits) :
    (Literal.value digits < UInt64.size →
        ∃ (n : UInt64) (p' : Parser), n.toNat = Literal.value digits
          ∧ p.answer (.construct .primary) = (.ok (.number n), p')
          ∧ p'.cursor.state.offset = p.cursor.state.offset + digits.length
          ∧ p'.cursor.current = text[p.cursor.state.offset + digits.length]?
          ∧ (p'.cursor.state.isActive = true
              ↔ p.cursor.state.offset + digits.length < text.length))
      ∧ (UInt64.size ≤ Literal.value digits →
          ∃ (d : Diagnostic) (quoted : String),
            p.answer (.construct .primary) = (.error (.mismatch d), p)
            ∧ d.code = .literalTooLarge
            ∧ Utf8.encode quoted = digits
            ∧ d.message = "integer literal too large: " ++ quoted ++ " does not fit in 64 bits"
            ∧ d.location = p.cursor.location
            ∧ (text.length < UInt32.size → d.location.Marks text p.cursor.state.offset)) := by
  obtain ⟨i, hi, rfl⟩ := reached_along hp
  have hoffset : (along text options i).cursor.state.offset = i := Cursor.State.offset_along hi
  have hbyte : text[i]? = some digit := (Cursor.State.current_along text i).symm.trans hcurrent
  rw [hoffset] at hrun ⊢
  obtain ⟨hk, hextract, hnext⟩ := extract_run hi hrun
  obtain ⟨k, hkdef⟩ : ∃ k, k = i + digits.length := ⟨_, rfl⟩
  rw [← hkdef] at hk hextract hnext ⊢
  have hall : ∀ digit ∈ digits, Literal.isDigit digit = true := by
    intro digit' hmem
    rw [← hrun] at hmem
    exact List.mem_takeWhile_imp hmem
  -- there is one digit at least, the one that the parser stands on
  have hik : i < k := by
    by_cases hlt : i < k
    · exact hlt
    · obtain rfl : i = k := by omega
      rw [hbyte, Option.filter_some, if_pos hdigit] at hnext
      cases hnext
  have hdigits : ∀ digit ∈ text.extract i k, Literal.isDigit digit = true := by
    rwa [hextract]
  constructor
  · intro hvalue
    have hfits : Literal.value (text.extract i k) ≤ Literal.largest := by
      rw [hextract]
      exact Nat.le_of_lt_succ hvalue
    have hparse := parse_fits options.toOptions hik hk hdigits hnext hfits
    rw [hextract] at hparse
    have hanswer := answer_of_ok options (.construct .primary) hparse
    exact ⟨_, _, UInt64.toNat_ofNat_of_lt' hvalue, hanswer,
      Cursor.State.offset_along hk, Cursor.State.current_along text k,
      Cursor.State.isActive_along_iff text k⟩
  · intro hvalue
    have hlarge : Literal.largest < Literal.value (text.extract i k) := by
      rw [hextract]
      exact hvalue
    have hparse := parse_tooLarge options.toOptions hik hk hdigits hnext hlarge
    rw [hextract] at hparse
    have hanswer := answer_of_error options (.construct .primary) hparse
    refine ⟨_, String.ofList (Utf8.decodeLossy digits), hanswer,
      Mismatch.code_diagnosticAt _ _ _ _, encode_decodeLossy_digits hall, ?_,
      Mismatch.location_diagnosticAt _ _ _ _, ?_⟩
    · rw [Mismatch.diagnosticAt, Diagnostic.foldl_withHelp]
      exact Mismatch.message_tooLarge digits
    · intro hlen
      have hlt := (List.getElem?_eq_some_iff.1 hbyte).1
      exact (Mismatch.pointsAt_diagnosticAt _ _ hlen).onByte hlt

/-- A parser on a number in decimal stands on the first digit of a run that is all of the text. -/
theorem reached_toString (n : Nat) :
    ∃ p digit, Reached (Utf8.encode (toString n)) {} p ∧ p.cursor.state.offset = 0
      ∧ p.cursor.current = some digit ∧ Literal.isDigit digit = true
      ∧ ((Utf8.encode (toString n)).drop p.cursor.state.offset).takeWhile Literal.isDigit
        = Utf8.encode (toString n) := by
  obtain ⟨text, htext⟩ : ∃ text, text = Utf8.encode (toString n) := ⟨_, rfl⟩
  have hall : ∀ digit ∈ text, Literal.isDigit digit = true := by
    intro digit hmem
    rw [htext] at hmem
    exact Literal.isDigit_of_mem_toString hmem
  have hne : text ≠ [] := by
    rw [htext, Literal.encode_toString]
    exact fun hnil => Nat.toDigits_ne_nil (List.map_eq_nil_iff.1 hnil)
  have hoffset : (along text {} 0).cursor.state.offset = 0 :=
    Cursor.State.offset_along (Nat.zero_le _)
  rw [← htext]
  obtain ⟨digit, rest, rfl⟩ := List.exists_cons_of_ne_nil hne
  refine ⟨along (digit :: rest) {} 0, digit, .opened (ofSource_ofBytes _ _), hoffset,
    Cursor.State.current_along (digit :: rest) 0, hall digit (List.mem_cons_self ..), ?_⟩
  rw [hoffset, List.drop_zero, List.takeWhile_eq_self_iff]
  exact hall

/-- The largest word is read, and the next number is not. -/
theorem literal_exact_boundary :
    (∃ p n p', Reached (Utf8.encode (toString 18446744073709551615)) {} p
        ∧ n.toNat = 18446744073709551615
        ∧ p.answer (.construct .primary) = (.ok (.number n), p')
        ∧ p'.cursor.state.isActive = false)
      ∧ ∃ p d, Reached (Utf8.encode (toString 18446744073709551616)) {} p
          ∧ p.answer (.construct .primary) = (.error (.mismatch d), p)
          ∧ d.code = .literalTooLarge := by
  constructor
  · obtain ⟨p, digit, hp, hoffset, hcurrent, hdigit, hrun⟩ := reached_toString 18446744073709551615
    have hexact := literal_exact hp hcurrent hdigit hrun
    rw [Literal.value_toString, hoffset, Nat.zero_add] at hexact
    obtain ⟨n, p', hn, hanswer, -, -, hactive⟩ := hexact.1 (Nat.lt_succ_self _)
    exact ⟨p, n, p', hp, hn, hanswer, Bool.eq_false_iff.2 fun h => Nat.lt_irrefl _ (hactive.1 h)⟩
  · obtain ⟨p, digit, hp, hoffset, hcurrent, hdigit, hrun⟩ := reached_toString 18446744073709551616
    have hexact := literal_exact hp hcurrent hdigit hrun
    rw [Literal.value_toString] at hexact
    obtain ⟨d, quoted, hanswer, hcode, -⟩ := hexact.2 (Nat.le_refl _)
    exact ⟨p, d, hp, hanswer, hcode⟩

end Parser

end SeekParse

import SeekParse.Text.Utf8

/-!
# What is read of bytes

Bytes that are no text are read as text all the same: parts of them are replaced, and the decoder
decides how much each replacement stands for. It decides so byte by byte, going by what it has of a
character that is under way. What it ought to decide is said here without it, by the bytes of
characters alone: `Begins` says which bytes might be the first ones of a character, and a
replacement stands for as many bytes as might be of one, or for a single byte that begins none.

* `Decoder.read_append_ascii`: what comes after an ASCII byte is read as if nothing came before it.
* `UnderWay`: what a decoder inside a character has read of it. The first byte says how many there
  are and in which span the second is, so there is a case for each length.
* `UnderWay.last`, `Spelled.underWay`: the bytes that complete what is under way are those of the
  character with these bits, and the bytes of every character are read like this.
* `lossy_iff`: the decoder replaces what it ought to, and nothing else.
* `decodeLossy_encode`: so the bytes of a text are read as that text, whichever characters it has.
-/

namespace SeekParse.Utf8

variable {part own bytes rest : List UInt8} {text : List Char} {byte : UInt8} {next : Span}
  {v value owed bits : Nat}

/-! ## Reading to the end -/

/-- The characters that a decoder makes of bytes, to their end. -/
def Decoder.read : Decoder → List UInt8 → List Char
  | d, [] => d.flush
  | d, byte :: rest => (d.feed byte).1 ++ (d.feed byte).2.read rest

theorem Decoder.foldl_push (bytes : List UInt8) (done : Array Char) (d : Decoder) :
    (bytes.foldl push (done, d)).1.toList ++ (bytes.foldl push (done, d)).2.flush
      = done.toList ++ d.read bytes := by
  induction bytes generalizing done d with
  | nil => rfl
  | cons byte rest ih =>
      rw [List.foldl_cons, push, ih, read, Array.toList_appendList, List.append_assoc]

theorem decodeLossy_eq (bytes : List UInt8) : decodeLossy bytes = Decoder.idle.read bytes := by
  have hread := Decoder.foldl_push bytes #[] .idle
  rw [decodeLossy]
  simpa using hread

/-- **An ASCII byte stands for itself, wherever it is.** What comes after it is read as if nothing
came before it. -/
theorem Decoder.read_append_ascii (d : Decoder) {byte : UInt8} (h : byte < 0x80)
    (before after : List UInt8) :
    d.read (before ++ byte :: after)
      = d.read before ++ Char.ofNat byte.toNat :: idle.read after := by
  induction before generalizing d with
  | nil =>
      rw [List.nil_append, read, read, d.feed_ascii h, List.append_assoc]
      rfl
  | cons first before ih => rw [List.cons_append, read, ih, read, List.append_assoc]

/-! ## The bytes of a character -/

/-- A byte after the first of a character, with the last six bits of these. -/
def continuation (bits : Nat) : UInt8 := UInt8.ofNat (bits % 64 + 128)

theorem toNat_continuation (bits : Nat) : (continuation bits).toNat = bits % 64 + 128 :=
  UInt8.toNat_ofNat_of_lt' (show bits % 64 + 128 < 256 by omega)

theorem continuation_add (value bits : Nat) :
    continuation (value * 64 + bits % 64) = continuation bits := by
  rw [continuation, continuation, show (value * 64 + bits % 64) % 64 = bits % 64 by omega]

theorem continuation_mem_iff :
    continuation bits ∈ next
      ↔ next.least.toNat ≤ bits % 64 + 128 ∧ bits % 64 + 128 ≤ next.greatest.toNat := by
  rw [← toNat_continuation, ← UInt8.le_iff_toNat_le, ← UInt8.le_iff_toNat_le]
  exact Iff.rfl

theorem continuation_mem_full (bits : Nat) : continuation bits ∈ Span.full :=
  continuation_mem_iff.2 ⟨show 128 ≤ _ by omega, show _ ≤ 191 by omega⟩

/-- All spans are of such bytes. -/
theorem Span.exists_continuation (h : byte ∈ next) : ∃ bits, byte = continuation bits := by
  have hleast : 128 ≤ next.least.toNat := by cases next <;> decide
  have hgreatest : next.greatest.toNat ≤ 191 := by cases next <;> decide
  have hlow := UInt8.le_iff_toNat_le.1 h.1
  have hhigh := UInt8.le_iff_toNat_le.1 h.2
  refine ⟨byte.toNat - 128, UInt8.toNat_inj.1 ?_⟩
  rw [toNat_continuation]
  omega

theorem Span.least_mem (next : Span) : next.least ∈ next := by
  cases next <;> decide

/-- The span of the second byte of three, after these bits in the first. -/
def secondOfThree (first : Nat) : Span :=
  if first = 0 then .fromA0 else if first = 13 then .upTo9F else .full

/-- The span of the second byte of four, after these bits in the first. -/
def secondOfFour (first : Nat) : Span :=
  if first = 0 then .from90 else if first = 4 then .upTo8F else .full

/-- Overlong forms and surrogates are kept out by the second byte alone. -/
theorem continuation_mem_secondOfThree {first : Nat} :
    continuation bits ∈ secondOfThree first
      ↔ 0x1F < first * 64 + bits % 64
        ∧ (first * 64 + bits % 64 < 0x360 ∨ 0x37F < first * 64 + bits % 64) := by
  rw [continuation_mem_iff, secondOfThree]
  split
  · show 160 ≤ _ ∧ _ ≤ 191 ↔ _
    omega
  · split
    · show 128 ≤ _ ∧ _ ≤ 159 ↔ _
      omega
    · show 128 ≤ _ ∧ _ ≤ 191 ↔ _
      omega

/-- Overlong forms and values past the last character are kept out as well. -/
theorem continuation_mem_secondOfFour {first : Nat} (h : first < 5) :
    continuation bits ∈ secondOfFour first
      ↔ 0xF < first * 64 + bits % 64 ∧ first * 64 + bits % 64 < 0x110 := by
  rw [continuation_mem_iff, secondOfFour]
  split
  · show 144 ≤ _ ∧ _ ≤ 191 ↔ _
    omega
  · split
    · show 128 ≤ _ ∧ _ ≤ 143 ↔ _
      omega
    · show 128 ≤ _ ∧ _ ≤ 191 ↔ _
      omega

/-- The bytes of a character, by how many there are. -/
inductive Spelled (v : Nat) : List UInt8 → Prop where
  | one : v ≤ 0x7F → Spelled v [UInt8.ofNat v]
  | two : 0x7F < v → v ≤ 0x7FF → Spelled v [UInt8.ofNat (v / 64 + 192), continuation v]
  | three : 0x7FF < v → v ≤ 0xFFFF → v < 0xD800 ∨ 0xDFFF < v →
      Spelled v [UInt8.ofNat (v / 4096 + 224), continuation (v / 64), continuation v]
  | four : 0xFFFF < v → v < 0x110000 →
      Spelled v [UInt8.ofNat (v / 262144 + 240), continuation (v / 4096), continuation (v / 64),
        continuation v]

theorem spelled_utf8EncodeChar (c : Char) : Spelled c.val.toNat (String.utf8EncodeChar c) := by
  have hvalid : c.val.toNat < 0xD800 ∨ 0xDFFF < c.val.toNat ∧ c.val.toNat < 0x110000 := c.valid
  rw [String.utf8EncodeChar]
  generalize c.val.toNat = v at hvalid
  by_cases hone : v ≤ 0x7F
  · rw [if_pos hone]
    exact .one hone
  rw [if_neg hone]
  by_cases htwo : v ≤ 0x7FF
  · rw [if_pos htwo, Nat.mod_eq_of_lt (show v / 64 < 32 by omega)]
    exact .two (by omega) htwo
  rw [if_neg htwo]
  by_cases hthree : v ≤ 0xFFFF
  · rw [if_pos hthree, Nat.mod_eq_of_lt (show v / 4096 < 16 by omega)]
    exact .three (by omega) hthree (by omega)
  rw [if_neg hthree, Nat.mod_eq_of_lt (show v / 262144 < 8 by omega)]
  exact .four (by omega) (by omega)

theorem Spelled.unique {own' : List UInt8} (h : Spelled v own) (h' : Spelled v own') :
    own' = own := by
  -- the values that are spelled in one way are not spelled in another
  cases h <;> cases h' <;> first | omega | rfl

theorem Spelled.isValidChar (h : Spelled v own) : v.isValidChar := by
  show v < 0xD800 ∨ 0xDFFF < v ∧ v < 0x110000
  cases h <;> omega

/-- There is a character that they are the bytes of. -/
theorem Spelled.eq_utf8EncodeChar (h : Spelled v own) :
    own = String.utf8EncodeChar (Char.ofNat v) := by
  have hspelled := spelled_utf8EncodeChar (Char.ofNat v)
  have hval : (Char.ofNat v).val.toNat = v := by
    rw [Char.ofNat, dif_pos h.isValidChar]
    rfl
  rw [hval] at hspelled
  exact hspelled.unique h

/-! ## Inside a character -/

/-- Some bytes of a character have been read. They have the bits of `value`, the next byte is to
be in `next`, and after it `owed` more are to come. -/
inductive UnderWay : List UInt8 → Nat → Span → Nat → Prop where
  | two {first : Nat} : 2 ≤ first → first < 32 →
      UnderWay [UInt8.ofNat (first + 192)] first .full 0
  | three {first : Nat} : first < 16 →
      UnderWay [UInt8.ofNat (first + 224)] first (secondOfThree first) 1
  | four {first : Nat} : first < 5 →
      UnderWay [UInt8.ofNat (first + 240)] first (secondOfFour first) 2
  | continued {part : List UInt8} {value owed bits : Nat} {next : Span} :
      UnderWay part value next (owed + 1) → continuation bits ∈ next →
      UnderWay (part ++ [continuation bits]) (value * 64 + bits % 64) .full owed

namespace Decoder

theorem feed_first_of_two : ∀ first < 32, 2 ≤ first →
    idle.feed (UInt8.ofNat (first + 192)) = ([], .inside first .full 0) := by decide

theorem feed_first_of_three : ∀ first < 16,
    idle.feed (UInt8.ofNat (first + 224)) = ([], .inside first (secondOfThree first) 1) := by decide

theorem feed_first_of_four : ∀ first < 5,
    idle.feed (UInt8.ofNat (first + 240)) = ([], .inside first (secondOfFour first) 2) := by decide

/-- A byte that does not complete what is under way. -/
theorem read_cons_of_feed {d d' : Decoder} (h : d.feed byte = ([], d')) (rest : List UInt8) :
    d.read (byte :: rest) = d'.read rest := by
  rw [read, h, List.nil_append]

/-- A byte in span adds its bits to those before, and more bytes are to come. -/
theorem feed_continuation (h : continuation bits ∈ next) :
    (inside value next (owed + 1)).feed (continuation bits)
      = ([], .inside (value * 64 + bits % 64) .full owed) := by
  rw [feed, if_pos h, toNat_continuation, Nat.add_sub_cancel]

/-- The last byte completes the character. -/
theorem read_cons_last (h : continuation bits ∈ next) (rest : List UInt8) :
    (inside value next 0).read (continuation bits :: rest)
      = Char.ofNat (value * 64 + bits % 64) :: idle.read rest := by
  rw [read, feed, if_pos h, toNat_continuation, Nat.add_sub_cancel]
  rfl

/-- What is under way is replaced where it does not go on. -/
theorem read_of_not_mem (h : ∀ byte ∈ rest.head?, byte ∉ next) :
    (inside value next owed).read rest = replacement :: idle.read rest := by
  cases rest with
  | nil => rfl
  | cons byte rest =>
      rw [read, feed, if_neg (h byte rfl)]
      rfl

end Decoder

/-- A decoder that has read so much has that much of a character. -/
theorem UnderWay.read (h : UnderWay part value next owed) (rest : List UInt8) :
    Decoder.idle.read (part ++ rest) = (Decoder.inside value next owed).read rest := by
  induction h generalizing rest with
  | two hleast hlt => exact Decoder.read_cons_of_feed (Decoder.feed_first_of_two _ hlt hleast) rest
  | three hlt => exact Decoder.read_cons_of_feed (Decoder.feed_first_of_three _ hlt) rest
  | four hlt => exact Decoder.read_cons_of_feed (Decoder.feed_first_of_four _ hlt) rest
  | continued _ hbits ih =>
      rw [List.append_assoc, ih, List.singleton_append]
      exact Decoder.read_cons_of_feed (Decoder.feed_continuation hbits) rest

/-- A character has four bytes at most. -/
theorem UnderWay.owed_le (h : UnderWay part value next owed) : owed ≤ 2 := by
  induction h with
  | two _ _ => decide
  | three _ => decide
  | four _ => decide
  | continued _ _ ih => exact Nat.le_of_succ_le ih

/-- **The last byte makes these the bytes of a character.** -/
theorem UnderWay.last (h : UnderWay part value next 0) (hbits : continuation bits ∈ next) :
    part ++ [continuation bits] = String.utf8EncodeChar (Char.ofNat (value * 64 + bits % 64)) := by
  refine Spelled.eq_utf8EncodeChar ?_
  rw [← continuation_add value bits]
  generalize hv : value * 64 + bits % 64 = v
  cases h with
  | two hleast hlt =>
      obtain rfl : value = v / 64 := by omega
      exact .two (by omega) (by omega)
  | @continued _ value _ bits' _ h hbits' =>
      rw [← continuation_add value bits', show value * 64 + bits' % 64 = v / 64 by omega]
      cases h with
      | three hlt =>
          have hsecond := continuation_mem_secondOfThree.1 hbits'
          obtain rfl : value = v / 4096 := by omega
          exact .three (by omega) (by omega) (by omega)
      | @continued _ value' _ bits'' _ h hbits'' =>
          rw [← continuation_add value' bits'', show value' * 64 + bits'' % 64 = v / 4096 by omega]
          cases h with
          | four hlt =>
              have hsecond := (continuation_mem_secondOfFour hlt).1 hbits''
              obtain rfl : value' = v / 262144 := by omega
              exact .four (by omega) (by omega)
          | continued h _ => exact absurd h.owed_le (by decide)

/-- All but the last byte of a character is under way, unless there is only one. -/
theorem Spelled.underWay (h : Spelled v own) (hv : 0x7F < v) :
    ∃ part next, own = part ++ [continuation v] ∧ UnderWay part (v / 64) next 0
      ∧ continuation v ∈ next := by
  cases h with
  | one hone => omega
  | two hleast hle =>
      exact ⟨_, _, rfl, .two (by omega) (by omega), continuation_mem_full v⟩
  | three hleast hle hvalid =>
      have hbits : v / 4096 * 64 + v / 64 % 64 = v / 64 := by omega
      have hmem : continuation (v / 64) ∈ secondOfThree (v / 4096) :=
        continuation_mem_secondOfThree.2 (by omega)
      have hsecond := (UnderWay.three (show v / 4096 < 16 by omega)).continued hmem
      rw [hbits] at hsecond
      exact ⟨_, _, rfl, hsecond, continuation_mem_full v⟩
  | four hleast hlt =>
      have hbits : v / 262144 * 64 + v / 4096 % 64 = v / 4096 := by omega
      have hbits' : v / 4096 * 64 + v / 64 % 64 = v / 64 := by omega
      have hfirst : v / 262144 < 5 := by omega
      have hmem : continuation (v / 4096) ∈ secondOfFour (v / 262144) :=
        (continuation_mem_secondOfFour hfirst).2 (by omega)
      have hsecond := (UnderWay.four hfirst).continued hmem
      rw [hbits] at hsecond
      have hthird := hsecond.continued (continuation_mem_full (v / 64))
      rw [hbits'] at hthird
      exact ⟨_, _, rfl, hthird, continuation_mem_full v⟩

/-- **The bytes of a character are read as that character.** -/
theorem Decoder.read_utf8EncodeChar (c : Char) (rest : List UInt8) :
    idle.read (String.utf8EncodeChar c ++ rest) = c :: idle.read rest := by
  have hspelled := spelled_utf8EncodeChar c
  have hback : Char.ofNat c.val.toNat = c := Char.ofNat_toNat c
  generalize String.utf8EncodeChar c = own at hspelled
  generalize c.val.toNat = v at hspelled hback
  subst hback
  by_cases hone : v ≤ 0x7F
  · obtain rfl := (Spelled.one hone).unique hspelled
    have hbyte : (UInt8.ofNat v).toNat = v := UInt8.toNat_ofNat_of_lt' (show v < 256 by omega)
    have hascii : UInt8.ofNat v < 0x80 := by
      rw [UInt8.lt_iff_toNat_lt, hbyte]
      exact Nat.lt_succ_of_le hone
    have hread := idle.read_append_ascii hascii [] rest
    rwa [hbyte] at hread
  · obtain ⟨part, next, rfl, hpart, hlast⟩ := hspelled.underWay (by omega)
    rw [List.append_assoc, hpart.read, List.singleton_append, read_cons_last hlast,
      Nat.div_add_mod']

/-! ## What begins a character -/

/-- These bytes might be the first ones of a character. -/
def Begins (part : List UInt8) : Prop := ∃ c : Char, part <+: String.utf8EncodeChar c

theorem Begins.of_isPrefix {whole : List UInt8} (h : Begins whole) (hpart : part <+: whole) :
    Begins part := by
  obtain ⟨c, hwhole⟩ := h
  exact ⟨c, hpart.trans hwhole⟩

/-- What is under way might go on with any byte in span. -/
theorem UnderWay.begins_concat (h : UnderWay part value next owed) (hbyte : byte ∈ next) :
    Begins (part ++ [byte]) := by
  obtain ⟨bits, rfl⟩ := Span.exists_continuation hbyte
  induction owed generalizing part value next bits with
  | zero =>
      rw [h.last hbyte]
      exact ⟨_, List.prefix_rfl⟩
  | succ owed ih =>
      have hmore := ih (h.continued hbyte) 0 (continuation_mem_full 0)
      exact hmore.of_isPrefix (List.prefix_append _ _)

theorem UnderWay.begins (h : UnderWay part value next owed) : Begins part :=
  (h.begins_concat next.least_mem).of_isPrefix (List.prefix_append _ _)

theorem isPrefix_singleton (hne : part ≠ []) (h : part <+: [byte]) : part = [byte] := by
  rcases List.prefix_concat_iff.1 (show part <+: [] ++ [byte] from h) with rfl | hnil
  · rfl
  · exact absurd (List.prefix_nil.1 hnil) hne

/-- What was read before was under way as well. -/
theorem UnderWay.of_isPrefix {whole : List UInt8} (h : UnderWay whole value next owed)
    (hpart : part <+: whole) (hne : part ≠ []) :
    ∃ value next owed, UnderWay part value next owed := by
  induction h with
  | two hleast hlt =>
      obtain rfl := isPrefix_singleton hne hpart
      exact ⟨_, _, _, .two hleast hlt⟩
  | three hlt =>
      obtain rfl := isPrefix_singleton hne hpart
      exact ⟨_, _, _, .three hlt⟩
  | four hlt =>
      obtain rfl := isPrefix_singleton hne hpart
      exact ⟨_, _, _, .four hlt⟩
  | continued h hbits ih =>
      rcases List.prefix_concat_iff.1 hpart with rfl | hpart
      · exact ⟨_, _, _, .continued h hbits⟩
      · exact ih hpart

/-- **What begins a character and is none is under way.** -/
theorem Begins.underWay (h : Begins part) (hne : part ≠ [])
    (hno : ∀ c, part ≠ String.utf8EncodeChar c) :
    ∃ value next owed, UnderWay part value next owed := by
  obtain ⟨c, hpart⟩ := h
  have hspelled := spelled_utf8EncodeChar c
  by_cases hone : c.val.toNat ≤ 0x7F
  · have hsingle := (Spelled.one hone).unique hspelled
    rw [hsingle] at hpart
    exact absurd ((isPrefix_singleton hne hpart).trans hsingle.symm) (hno c)
  · obtain ⟨whole, next, hown, hwhole, -⟩ := hspelled.underWay (by omega)
    rw [hown] at hpart
    rcases List.prefix_concat_iff.1 hpart with rfl | hpart
    · exact absurd hown.symm (hno c)
    · exact hwhole.of_isPrefix hpart hne

/-- A byte that begins a character is one by itself, or tells how many there are. -/
theorem begins_of_first (h : byte < 0x80 ∨ 0xC2 ≤ byte.toNat ∧ byte.toNat < 0xF5) :
    Begins [byte] := by
  have hlead : ∀ first lead, byte.toNat = first + lead → byte = UInt8.ofNat (first + lead) :=
    fun first lead heq => by rw [← heq, UInt8.ofNat_toNat]
  rcases h with hascii | ⟨hleast, hlt⟩
  · have hle := Nat.le_of_lt_succ (UInt8.lt_iff_toNat_lt.1 hascii)
    have hown := (Spelled.one hle).eq_utf8EncodeChar
    rw [UInt8.ofNat_toNat] at hown
    rw [hown]
    exact ⟨_, List.prefix_rfl⟩
  · by_cases htwo : byte.toNat < 0xE0
    · rw [hlead (byte.toNat - 192) 192 (by omega)]
      exact (UnderWay.two (by omega) (by omega)).begins
    by_cases hthree : byte.toNat < 0xF0
    · rw [hlead (byte.toNat - 224) 224 (by omega)]
      exact (UnderWay.three (by omega)).begins
    rw [hlead (byte.toNat - 240) 240 (by omega)]
    exact (UnderWay.four (by omega)).begins

/-- A byte that begins no character is replaced at once. -/
theorem Decoder.start_of_not_begins (h : ¬ Begins [byte]) :
    start byte = ([replacement], .idle) := by
  have hno := mt begins_of_first h
  rw [not_or] at hno
  obtain ⟨hascii, hlead⟩ := hno
  rw [start, if_neg hascii]
  by_cases hlow : byte < 0xC2
  · rw [if_pos hlow]
  · have hleast : 0xC2 ≤ byte.toNat :=
      Nat.le_of_not_lt fun hlt => hlow (UInt8.lt_iff_toNat_lt.2 hlt)
    have hbyte : 0xF5 ≤ byte.toNat := by omega
    have hnlt : ∀ bound : UInt8, bound.toNat ≤ 0xF5 → ¬ byte < bound := fun bound hbound hlt =>
      absurd (UInt8.lt_iff_toNat_lt.1 hlt) (by omega)
    have hne : ∀ other : UInt8, other.toNat < 0xF5 → byte ≠ other := by
      rintro other hother rfl
      omega
    rw [if_neg hlow, if_neg (hnlt _ (by decide)), if_neg (hne _ (by decide)),
      if_neg (hne _ (by decide)), if_neg (hnlt _ (by decide)), if_neg (hne _ (by decide)),
      if_neg (hnlt _ (by decide)), if_neg (hne _ (by decide))]

/-! ## What is replaced -/

/-- The text that bytes are read as, said without the decoder. -/
inductive Lossy : List UInt8 → List Char → Prop where
  | nil : Lossy [] []
  /-- The bytes of a character are read as it. -/
  | character {rest : List UInt8} {text : List Char} (c : Char) :
      Lossy rest text → Lossy (String.utf8EncodeChar c ++ rest) (c :: text)
  /-- A character has begun and does not go on. One replacement stands for all there is of it. -/
  | cutShort {part rest : List UInt8} {text : List Char} :
      part ≠ [] → Begins part → (∀ c, part ≠ String.utf8EncodeChar c) →
      (∀ byte ∈ rest.head?, ¬ Begins (part ++ [byte])) →
      Lossy rest text → Lossy (part ++ rest) (replacement :: text)
  /-- A replacement stands for a byte that begins no character. -/
  | stray {byte : UInt8} {rest : List UInt8} {text : List Char} :
      ¬ Begins [byte] → Lossy rest text → Lossy (byte :: rest) (replacement :: text)

/-- The decoder reads bytes so. -/
theorem Lossy.read (h : Lossy bytes text) : Decoder.idle.read bytes = text := by
  induction h with
  | nil => rfl
  | character c _ ih => rw [Decoder.read_utf8EncodeChar, ih]
  | cutShort hne hbegins hno hstop _ ih =>
      obtain ⟨value, next, owed, hpart⟩ := hbegins.underWay hne hno
      rw [hpart.read, Decoder.read_of_not_mem fun byte hbyte hmem =>
        hstop byte hbyte (hpart.begins_concat hmem), ih]
  | stray hno _ ih =>
      rw [Decoder.read, Decoder.feed, Decoder.start_of_not_begins hno, ih]
      rfl

/-- As many bytes are taken as might be of one character. -/
theorem Begins.exists_longest (h : Begins part) (rest : List UInt8) :
    ∃ longest rest', part ++ rest = longest ++ rest' ∧ part <+: longest ∧ Begins longest
      ∧ ∀ byte ∈ rest'.head?, ¬ Begins (longest ++ [byte]) := by
  induction rest generalizing part with
  | nil => exact ⟨part, [], rfl, List.prefix_rfl, h, nofun⟩
  | cons byte rest ih =>
      by_cases hbyte : Begins (part ++ [byte])
      · obtain ⟨longest, rest', heq, hpart, hlongest, hstop⟩ := ih hbyte
        rw [List.append_assoc, List.singleton_append] at heq
        exact ⟨longest, rest', heq, (List.prefix_append _ _).trans hpart, hlongest, hstop⟩
      · refine ⟨part, byte :: rest, rfl, List.prefix_rfl, h, fun byte' hbyte' => ?_⟩
        cases hbyte'
        exact hbyte

/-- They are a character, or there is one that has been cut short. -/
theorem Lossy.exists_of_longest (h : Lossy rest text) (hne : part ≠ []) (hbegins : Begins part)
    (hstop : ∀ byte ∈ rest.head?, ¬ Begins (part ++ [byte])) :
    ∃ text, Lossy (part ++ rest) text := by
  by_cases hcharacter : ∃ c, part = String.utf8EncodeChar c
  · obtain ⟨c, rfl⟩ := hcharacter
    exact ⟨_, .character c h⟩
  · exact ⟨_, .cutShort hne hbegins (not_exists.1 hcharacter) hstop h⟩

/-- Any bytes are read as some text. -/
theorem exists_lossy (bytes : List UInt8) : ∃ text, Lossy bytes text := by
  induction hlen : bytes.length using Nat.strongRecOn generalizing bytes with
  | ind n ih =>
      cases bytes with
      | nil => exact ⟨[], .nil⟩
      | cons byte rest =>
          by_cases hbegins : Begins [byte]
          · obtain ⟨part, rest', heq, hpart, hbegins, hstop⟩ := hbegins.exists_longest rest
            have hne : part ≠ [] := by
              rintro rfl
              cases List.prefix_nil.1 hpart
            rw [List.singleton_append] at heq
            rw [heq, List.length_append] at hlen
            have hpos := List.length_pos_iff.2 hne
            obtain ⟨text, htext⟩ := ih rest'.length (by omega) rest' rfl
            rw [heq]
            exact htext.exists_of_longest hne hbegins hstop
          · rw [List.length_cons] at hlen
            obtain ⟨text, htext⟩ := ih rest.length (by omega) rest rfl
            exact ⟨_, .stray hbegins htext⟩

/--
**Only what is no character is replaced, and as much of it at once as might have been one.**

The decoder goes by spans and counts, and looks at each byte once. It comes to the one text that
there is, if the bytes of each character are read as it, and everything else is replaced by the
longest parts that begin a character, or by single bytes that do not.
-/
theorem lossy_iff : Lossy bytes text ↔ decodeLossy bytes = text := by
  rw [decodeLossy_eq]
  refine ⟨Lossy.read, ?_⟩
  rintro rfl
  obtain ⟨text, htext⟩ := exists_lossy bytes
  rwa [htext.read]

/-! ## Reading a text -/

theorem encode_eq_flatMap (text : String) :
    encode text = text.toList.flatMap String.utf8EncodeChar := by
  conv => lhs; rw [← String.ofList_toList (s := text)]
  rw [encode, String.toUTF8, String.toByteArray_ofList, List.utf8Encode,
    List.toList_data_toByteArray]

/-- **The bytes of a text are read as that text.** -/
theorem decodeLossy_encode (text : String) : decodeLossy (encode text) = text.toList := by
  refine lossy_iff.1 ?_
  rw [encode_eq_flatMap]
  induction text.toList with
  | nil => exact .nil
  | cons c rest ih => exact .character c ih

end SeekParse.Utf8

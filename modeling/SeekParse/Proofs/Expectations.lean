import SeekParse.Proofs.Lexemes
import SeekParse.Proofs.Places

/-!
# What is reported of input that was expected to be something else

A cursor that was told what to expect, and does not find it, quotes what it finds. By then it has
come back from the byte at which a text broke off, and it reads the quotation anew from the byte it
stands on, twice: once for the message, and once for the diagnostic, which reads its own and is then
given the other. All of this has to be about the same place. In memory it is: every part of the
diagnostic is a function of the text and the offset at which the cursor stood, and the cursor that
reports it is the one that was asked.

* `expectText_of_not_isPrefix`, `expectOneOf_of_not_at`: what is reported.
* `expects_or_quotes`: when it is, of a cursor that has been asked anything before.
-/

namespace SeekParse.Cursor

variable {text : List UInt8} {i : Nat} {c : Cursor}

/-! ## Texts -/

theorem expectText_of_isPrefix (options : Options) {t : String}
    (h : Utf8.encode t <+: text.drop i) :
    expectText t (along text options i) = .ok () (along text options (i + t.utf8ByteSize)) := by
  simp only [expectText, bind, EStateM.bind, liftM_eq, acceptText_of_isPrefix options h]
  rfl

/-- A text that is not there is reported with an excerpt that is wider than usual by its length. -/
theorem expectText_of_not_isPrefix (options : Options) (hi : i ≤ text.length) {t found : String}
    (h : ¬ Utf8.encode t <+: text.drop i)
    (hfound : oneLine (text.extract i (i + (t.utf8ByteSize + options.excerptWidth))) = found) :
    expectText t (along text options i)
      = .error
          (.mismatch
            { code := .unexpectedCharacter
              message := "expected \"" ++ t ++ "\", but found '" ++ found ++ "' instead"
              location := (State.along text i).location
              excerpt := some found })
          (along text options i) := by
  have hget : (get : ParseM Cursor) (along text options i)
      = .ok (along text options i) (along text options i) := rfl
  have hwidth : (along text options i).options.excerptWidth = options.excerptWidth := rfl
  simp only [expectText, bind, EStateM.bind, liftM_eq, acceptText_of_not_isPrefix options h, hget,
    hwidth, excerpt_along options hi, diagnose_along options hi, hfound, Bool.false_eq_true,
    if_false]
  rfl

/-! ## Single bytes -/

/-- A cursor is at one of a set if the byte that it stands on is one of the set's bytes. -/
theorem atOneOf_iff (c : Cursor) (set : String) :
    c.atOneOf set = true ↔ ∃ byte ∈ Utf8.encode set, c.current = some byte := by
  rw [atOneOf, Option.any_eq_true]
  constructor
  · rintro ⟨byte, hcurrent, hmem⟩
    exact ⟨byte, List.contains_iff_mem.1 hmem, hcurrent⟩
  · rintro ⟨byte, hmem, hcurrent⟩
    exact ⟨byte, hcurrent, List.contains_iff_mem.2 hmem⟩

theorem expectOneOf_of_at (options : Options) {set : String}
    (hset : (along text options i).atOneOf set = true) (message : Option String) :
    i < text.length
      ∧ expectOneOf set message (along text options i) = .ok () (along text options (i + 1)) := by
  obtain ⟨byte, -, hcurrent⟩ := (atOneOf_iff _ set).1 hset
  have hbyte : text[i]? = some byte := (State.current_along text i).symm.trans hcurrent
  have hlt : i < text.length := (List.getElem?_eq_some_iff.1 hbyte).1
  obtain ⟨moved, hadvance⟩ := advance_along options hlt
  refine ⟨hlt, ?_⟩
  simp only [expectOneOf, bind, EStateM.bind, liftM_eq, acceptOneOf_eq, if_pos hset, hadvance]
  rfl

/-- A byte that is not one of the set is reported with the caller's message, if there is one. -/
theorem expectOneOf_of_not_at (options : Options) (hi : i ≤ text.length) {set found : String}
    (hset : ¬ (along text options i).atOneOf set = true) (message : Option String)
    (hfound : oneLine (text.extract i (i + options.excerptWidth)) = found) :
    expectOneOf set message (along text options i)
      = .error
          (.mismatch
            { code := .unexpectedCharacter
              message :=
                message.getD ("expected one of '" ++ set ++ "' but found '" ++ found ++ "'")
              location := (State.along text i).location
              excerpt := some found })
          (along text options i) := by
  have hget : (get : ParseM Cursor) (along text options i)
      = .ok (along text options i) (along text options i) := rfl
  have hwidth : (along text options i).options.excerptWidth = options.excerptWidth := rfl
  simp only [expectOneOf, bind, EStateM.bind, liftM_eq, acceptOneOf_eq, if_neg hset, hget, hwidth,
    excerpt_along options hi, diagnose_along options hi, hfound, Bool.false_eq_true, if_false]
  rfl

/-! ## The main result -/

/--
**What is expected is taken, or what is there instead is quoted.**

Of a cursor on a text in memory, whatever it has been asked before. A text is taken exactly where it
is a prefix of what is left, and one byte of a set exactly where the cursor stands on one. The
cursor is then as many steps further as bytes have been taken. Otherwise the diagnostic is placed
where the cursor stands, and quotes what is left from there on: as far as the options say, and for a
text further by its length. The message quotes the same, unless it is the caller's. The cursor is
the one that was asked, the head of its source included.
-/
theorem expects_or_quotes (h : Reached text c) (t set : String) (message : Option String) :
    ((∃ c', expectText t c = .ok () c') ↔ Utf8.encode t <+: text.drop c.state.offset)
      ∧ (¬ Utf8.encode t <+: text.drop c.state.offset → ∃ found,
          found = oneLine (text.extract c.state.offset
            (min (c.state.offset + t.utf8ByteSize + c.options.excerptWidth) text.length))
          ∧ expectText t c
            = .error
                (.mismatch
                  { code := .unexpectedCharacter
                    message := "expected \"" ++ t ++ "\", but found '" ++ found ++ "' instead"
                    location := c.location
                    excerpt := some found }) c)
      ∧ (∀ c', expectText t c = .ok () c' →
          c' = steps t.utf8ByteSize c ∧ c'.state.offset = c.state.offset + t.utf8ByteSize)
      ∧ ((∃ c', expectOneOf set message c = .ok () c')
          ↔ ∃ byte ∈ Utf8.encode set, c.current = some byte)
      ∧ (∀ c', expectOneOf set message c = .ok () c' →
          c' = steps 1 c ∧ c'.state.offset = c.state.offset + 1)
      ∧ ((¬ ∃ byte ∈ Utf8.encode set, c.current = some byte) → ∃ found,
          found = oneLine (text.extract c.state.offset
            (min (c.state.offset + c.options.excerptWidth) text.length))
          ∧ expectOneOf set message c
            = .error
                (.mismatch
                  { code := .unexpectedCharacter
                    message :=
                      message.getD ("expected one of '" ++ set ++ "' but found '" ++ found ++ "'")
                    location := c.location
                    excerpt := some found }) c) := by
  obtain ⟨options, i, hi, rfl⟩ := reached_along h
  have hoffset : (along text options i).state.offset = i := State.offset_along hi
  have hwidth : (along text options i).options = options := rfl
  rw [hoffset, hwidth, extract_min, extract_min, ← atOneOf_iff, Nat.add_assoc]
  have hstarts : ∀ c', expectText t (along text options i) = .ok () c' →
      Utf8.encode t <+: text.drop i := by
    intro c' htaken
    by_cases hstarts : Utf8.encode t <+: text.drop i
    · exact hstarts
    · rw [expectText_of_not_isPrefix options hi hstarts rfl] at htaken
      cases htaken
  have hmember : ∀ c', expectOneOf set message (along text options i) = .ok () c' →
      (along text options i).atOneOf set = true := by
    intro c' htaken
    by_cases hset : (along text options i).atOneOf set = true
    · exact hset
    · rw [expectOneOf_of_not_at options hi hset message rfl] at htaken
      cases htaken
  refine ⟨⟨?_, fun hbegins => ⟨_, expectText_of_isPrefix options hbegins⟩⟩,
    fun hbegins => ⟨_, rfl, expectText_of_not_isPrefix options hi hbegins rfl⟩, ?_,
    ⟨?_, fun hset => ⟨_, (expectOneOf_of_at options hset message).2⟩⟩, ?_,
    fun hset => ⟨_, rfl, expectOneOf_of_not_at options hi hset message rfl⟩⟩
  · rintro ⟨c', htaken⟩
    exact hstarts c' htaken
  · intro c' htaken
    have hbegins := hstarts c' htaken
    refine ⟨steps_of_expectText htaken, ?_⟩
    rw [expectText_of_isPrefix options hbegins] at htaken
    cases htaken
    exact State.offset_along (add_length_le hi hbegins)
  · rintro ⟨c', htaken⟩
    exact hmember c' htaken
  · intro c' htaken
    obtain ⟨hlt, htake⟩ := expectOneOf_of_at options (hmember c' htaken) message
    refine ⟨steps_of_expectOneOf htaken, ?_⟩
    rw [htake] at htaken
    cases htaken
    exact State.offset_along hlt

/-- On the second byte of `ab\nc`, the text `bc` breaks off at the line feed. -/
theorem expects_or_quotes_lineFeed :
    ∃ c, Reached [0x61, 0x62, 0x0A, 0x63] c ∧ c.location = { line := 1, column := 2 }
      ∧ expectText "bc" c
          = .error
              (.mismatch
                { code := .unexpectedCharacter
                  message := "expected \"bc\", but found 'b\\nc' instead"
                  location := { line := 1, column := 2 }
                  excerpt := some "b\\nc" }) c
      ∧ expectOneOf "+-" none c
          = .error
              (.mismatch
                { code := .unexpectedCharacter
                  message := "expected one of '+-' but found 'b\\nc'"
                  location := { line := 1, column := 2 }
                  excerpt := some "b\\nc" }) c
      ∧ (∃ c', expectText "b\n" c = .ok () c' ∧ c' = steps 2 c)
      ∧ ∃ c', expectOneOf "ab" none c = .ok () c' ∧ c' = steps 1 c := by
  have hopened : Reached [0x61, 0x62, 0x0A, 0x63] (along [0x61, 0x62, 0x0A, 0x63] {} 0) :=
    .opened rfl rfl (ofSource_ofBytes _ {})
  have hsecond := hopened.answered .advance nofun
  obtain ⟨-, htext, -, -, -, hset⟩ := expects_or_quotes hsecond "bc" "+-" none
  obtain ⟨found, hfound, hmissing⟩ := htext (by decide)
  obtain ⟨found', hfound', hnone⟩ := hset (by decide)
  obtain ⟨hstarts, -, hsteps, hmember, htaken, -⟩ := expects_or_quotes hsecond "b\n" "ab" none
  obtain ⟨c₂, htext₂⟩ := hstarts.2 (by decide)
  obtain ⟨c', htake⟩ := hmember.2 ⟨0x62, by decide, rfl⟩
  have hquoted : found = "b\\nc" := hfound
  have hquoted' : found' = "b\\nc" := hfound'
  rw [hquoted] at hmissing
  rw [hquoted'] at hnone
  exact ⟨_, hsecond, rfl, hmissing, hnone, ⟨c₂, htext₂, (hsteps c₂ htext₂).1⟩, c', htake,
    (htaken c' htake).1⟩

end SeekParse.Cursor

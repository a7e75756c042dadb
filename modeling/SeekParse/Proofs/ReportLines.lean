import SeekParse.Proofs.Expectations
import SeekParse.Proofs.Literals

/-!
# How many lines a report takes

A report is meant to take one line. What gives it more is a line feed in its message, and one could
get there in two ways. One is the input. A byte that does not fit may be any byte, but it is quoted
on one line, as an excerpt is; and of a literal only digits are quoted, which need no escape. So
whatever the input is, and whatever becomes of its source, no report of a parser takes more than one
line.

The other way is open. A caller says which text or which set it expects, and the report of a
mismatch repeats that as it is. So such a report takes one more line for each line feed in it.

* `Machine.onDigits_step`: what a machine has taken for a literal is digits.
* `answers_on_one_line`: no answer of a parser takes more than one line.
* `expectations_break_lines`: how many lines it takes to report what was expected.
-/

namespace SeekParse

variable {α β : Type} {c c' : Cursor} {d : Diagnostic} {mismatch : Mismatch}

/-! ## Line feeds -/

/-- How many line feeds a text has. -/
def lineBreaks (text : String) : Nat := text.toList.count '\n'

theorem lineBreaks_append (a b : String) : lineBreaks (a ++ b) = lineBreaks a + lineBreaks b := by
  rw [lineBreaks, String.toList_append, List.count_append]
  rfl

theorem lineBreaks_ofList {characters : List Char} (h : '\n' ∉ characters) :
    lineBreaks (String.ofList characters) = 0 := by
  rw [lineBreaks, String.toList_ofList, List.count_eq_zero]
  exact h

theorem lineBreaks_append_eq_zero {a b : String} (ha : lineBreaks a = 0) (hb : lineBreaks b = 0) :
    lineBreaks (a ++ b) = 0 := by
  rw [lineBreaks_append, ha, hb]

/-- What is quoted on one line has no line feed, whatever the bytes are. -/
theorem lineBreaks_oneLine (bytes : List UInt8) : lineBreaks (oneLine bytes) = 0 := by
  refine lineBreaks_ofList fun hmem => ?_
  obtain ⟨c, -, hc⟩ := List.mem_flatMap.1 hmem
  rw [escapeLineFeed] at hc
  by_cases hline : c = '\n'
  · rw [if_pos hline] at hc
    exact absurd hc (by decide)
  · rw [if_neg hline, List.mem_singleton] at hc
    exact hline hc.symm

theorem lineBreaks_toString (n : Nat) : lineBreaks (toString n) = 0 := by
  refine lineBreaks_ofList fun hmem => ?_
  exact absurd (Literal.isDigit_of_mem_toDigits hmem) (by decide)

/-- Among digits there is no line feed, so they need no escape. -/
theorem lineBreaks_digits {digits : List UInt8}
    (h : ∀ digit ∈ digits, Literal.isDigit digit = true) :
    lineBreaks (String.ofList (Utf8.decodeLossy digits)) = 0 := by
  have hascii : ∀ digit ∈ digits, digit < 0x80 := fun digit hmem => lt_of_isDigit (h digit hmem)
  refine lineBreaks_ofList (Utf8.not_mem_decodeLossy_of_ascii hascii fun hmem => ?_)
  exact absurd (h _ hmem) (by decide)

theorem Location.text_eq (l : Location) :
    l.text = "line " ++ toString l.line ++ ", char " ++ toString l.column := rfl

theorem Location.lineBreaks_text (l : Location) : lineBreaks l.text = 0 := by
  have hline : lineBreaks (toString l.line) = 0 := lineBreaks_toString l.line.toNat
  have hcolumn : lineBreaks (toString l.column) = 0 := lineBreaks_toString l.column.toNat
  rw [l.text_eq, lineBreaks_append, lineBreaks_append, lineBreaks_append, hline, hcolumn]
  rfl

/-- A report is a line that has as many line feeds as the message, and one more to end it. -/
theorem Diagnostic.render_breaks (d : Diagnostic) :
    ∃ line,
      line = "parse error: " ++ d.message ++ " near line " ++ toString d.location.line
        ++ ", char " ++ toString d.location.column
      ∧ d.render = line ++ "\n" ∧ lineBreaks line = lineBreaks d.message := by
  have htext : d.text = "parse error: " ++ d.message ++ " near " ++ d.location.text := rfl
  refine ⟨d.text, ?_, rfl, ?_⟩
  · have hnear : " near " ++ "line " = " near line " := by decide
    rw [htext, d.location.text_eq, ← hnear]
    simp only [String.append_assoc]
  · have hbefore : lineBreaks "parse error: " = 0 := rfl
    rw [htext, lineBreaks_append, lineBreaks_append, lineBreaks_append, d.location.lineBreaks_text,
      hbefore, Nat.zero_add]
    rfl

/-! ## What is reported of a mismatch -/

namespace Cursor

theorem excerpt_ok {width : Nat} {quoted : String} (h : excerpt width c = .ok quoted c') :
    ∃ bytes, quoted = oneLine bytes := by
  rw [excerpt_eq] at h
  cases hslice : slice c.state.offset (c.state.offset + width) c with
  | ok bytes c₁ =>
      rw [hslice] at h
      cases h
      exact ⟨bytes, rfl⟩
  | error e c₁ =>
      rw [hslice] at h
      cases h

theorem diagnose_ok {code : ErrorCode} {message : String} (h : diagnose code message c = .ok d c') :
    ∃ bytes, d = { code, message, location := c.location, excerpt := some (oneLine bytes) } := by
  rw [diagnose_eq] at h
  cases hexcerpt : excerpt c.options.excerptWidth c with
  | ok quoted c₁ =>
      obtain ⟨bytes, rfl⟩ := excerpt_ok hexcerpt
      rw [hexcerpt] at h
      cases h
      exact ⟨bytes, rfl⟩
  | error e c₁ =>
      rw [hexcerpt] at h
      cases h

/-- A mismatch comes from the last part of a computation whose other parts are about the source. -/
theorem bind_mismatch {x : CursorM α} {f : α → ParseM β}
    (h : (liftM x >>= f) c = .error (.mismatch d) c') :
    ∃ a c₁, x c = .ok a c₁ ∧ f a c₁ = .error (.mismatch d) c' := by
  simp only [bind, EStateM.bind, liftM_eq] at h
  cases hx : x c with
  | ok a c₁ =>
      rw [hx] at h
      exact ⟨a, c₁, rfl, h⟩
  | error e c₁ =>
      rw [hx] at h
      cases h

end Cursor

/-- A diagnostic that says of a mismatch what there is to say, with an excerpt on one line. -/
structure Mismatch.Reported (mismatch : Mismatch) (d : Diagnostic) : Prop where
  message : d.message = mismatch.message
  help : d.help = mismatch.help
  excerpt : ∃ bytes, d.excerpt = some (oneLine bytes)

namespace Cursor

theorem report_reported (h : (report mismatch : ParseM α) c = .error (.mismatch d) c') :
    mismatch.Reported d := by
  obtain ⟨d₀, c₁, hdiagnose, hthrow⟩ := bind_mismatch h
  obtain ⟨bytes, rfl⟩ := diagnose_ok hdiagnose
  rw [Diagnostic.foldl_withHelp] at hthrow
  cases hthrow
  exact ⟨rfl, rfl, bytes, rfl⟩

theorem reportAt_reported {site : Option State}
    (h : (reportAt mismatch site : ParseM α) c = .error (.mismatch d) c') :
    mismatch.Reported d := by
  cases site with
  | none => exact report_reported h
  | some start =>
      obtain ⟨u, c₁, -, hreport⟩ := bind_mismatch h
      exact report_reported hreport

end Cursor

/-! ## Only digits are quoted of a literal -/

/-- What has been taken for a literal, the last byte first. -/
def Phase.taken : Phase → List UInt8
  | .digits _ taken => taken
  | .expecting _ | .built _ => []

/-- The bytes that are quoted of a literal. -/
def Mismatch.literal : Mismatch → List UInt8
  | .tooLarge digits => digits
  | .noOperand _ | .unclosed .. | .trailing _ => []

/-- A step after which only digits have been taken for a literal, and only digits are blamed. -/
def Step.OnDigits : Step → Prop
  | .take next | .turn next => ∀ digit ∈ next.phase.taken, Literal.isDigit digit = true
  | .accept _ => True
  | .reject mismatch _ => ∀ digit ∈ mismatch.literal, Literal.isDigit digit = true

/-- **What a machine takes for a literal is digits.** -/
theorem Machine.onDigits_step {m : Machine}
    (h : ∀ digit ∈ m.phase.taken, Literal.isDigit digit = true) (s : Cursor.State) :
    (m.step s).OnDigits := by
  have hnone : ∀ digit ∈ ([] : List UInt8), Literal.isDigit digit = true := by simp
  obtain ⟨frames, phase⟩ := m
  cases phase with
  | expecting rule =>
      cases rule with
      | expr => exact hnone
      | unary =>
          simp only [step, expect]
          split
          · exact hnone
          · exact hnone
      | primary =>
          simp only [step, expect]
          split
          · exact hnone
          · split
            · rename_i byte _ hdigit
              intro digit hmem
              rwa [List.mem_singleton.1 hmem]
            · split
              · exact hnone
              · exact hnone
  | digits start taken =>
      simp only [step, number]
      split
      · rename_i byte hnext
        obtain ⟨-, hdigit⟩ := Option.filter_eq_some_iff.1 hnext
        intro digit hmem
        rcases List.mem_cons.1 hmem with rfl | hmem
        · exact hdigit
        · exact h digit hmem
      · split
        · exact hnone
        · exact fun digit hmem => h digit (List.mem_reverse.1 hmem)
  | built e =>
      cases frames with
      | nil => trivial
      | cons frame frames =>
          cases frame with
          | applied op => exact hnone
          | chain before =>
              simp only [step, deliver]
              split
              · exact hnone
              · exact hnone
          | group opened =>
              simp only [step, deliver]
              split
              · exact hnone
              · exact hnone

theorem Mismatch.lineBreaks_describe (found : Option UInt8) : lineBreaks (describe found) = 0 := by
  cases found with
  | none => exact lineBreaks_ofList (by decide)
  | some byte =>
      show lineBreaks ("found '" ++ oneLine [byte] ++ "'") = 0
      exact lineBreaks_append_eq_zero
        (lineBreaks_append_eq_zero (lineBreaks_ofList (by decide)) (lineBreaks_oneLine [byte])) rfl

/-- The message of a mismatch takes one line, if it quotes digits where it quotes a literal. -/
theorem Mismatch.lineBreaks_message
    (h : ∀ digit ∈ mismatch.literal, Literal.isDigit digit = true) :
    lineBreaks mismatch.message = 0 := by
  cases mismatch with
  | noOperand found =>
      exact lineBreaks_append_eq_zero (lineBreaks_ofList (by decide)) (lineBreaks_describe found)
  | unclosed opened found =>
      exact lineBreaks_append_eq_zero (lineBreaks_ofList (by decide)) (lineBreaks_describe found)
  | trailing found =>
      refine lineBreaks_append_eq_zero ?_ (lineBreaks_describe (some found))
      show lineBreaks ("unexpected trailing input: expected one of '" ++ BinaryOp.symbols
        ++ "' or end of input but ") = 0
      exact lineBreaks_append_eq_zero
        (lineBreaks_append_eq_zero (lineBreaks_ofList (by decide)) rfl)
        (lineBreaks_ofList (by decide))
  | tooLarge digits =>
      have hdigits : lineBreaks (String.ofList (Utf8.decodeLossy digits)) = 0 := lineBreaks_digits h
      rw [message_tooLarge]
      exact lineBreaks_append_eq_zero
        (lineBreaks_append_eq_zero (lineBreaks_ofList (by decide)) hdigits)
        (lineBreaks_ofList (by decide))

theorem Mismatch.lineBreaks_help {note : String} (h : note ∈ mismatch.help) :
    lineBreaks note = 0 := by
  cases mismatch with
  | noOperand found =>
      rw [List.mem_singleton.1 h]
      exact lineBreaks_append_eq_zero (lineBreaks_ofList (by decide)) rfl
  | unclosed opened found =>
      rw [List.mem_singleton.1 h]
      exact lineBreaks_append_eq_zero (lineBreaks_ofList (by decide)) opened.lineBreaks_text
  | trailing found => cases h
  | tooLarge digits =>
      rw [List.mem_singleton.1 h]
      rfl

/-- A diagnostic that has no line feed in anything that it says. -/
structure Diagnostic.OnOneLine (d : Diagnostic) : Prop where
  message : lineBreaks d.message = 0
  excerpt : ∃ quoted, d.excerpt = some quoted ∧ lineBreaks quoted = 0
  help : ∀ note ∈ d.help, lineBreaks note = 0

theorem Mismatch.Reported.onOneLine (h : mismatch.Reported d)
    (hdigits : ∀ digit ∈ mismatch.literal, Literal.isDigit digit = true) : d.OnOneLine where
  message := by
    rw [h.message]
    exact lineBreaks_message hdigits
  excerpt := by
    obtain ⟨bytes, hbytes⟩ := h.excerpt
    exact ⟨_, hbytes, lineBreaks_oneLine bytes⟩
  help := by
    rw [h.help]
    exact fun note hnote => lineBreaks_help hnote

/-! ## Parsers -/

namespace Cursor

/-- A run reports on one line, if what it has taken for a literal so far is digits. -/
theorem run_onOneLine {m : Machine} (hm : ∀ digit ∈ m.phase.taken, Literal.isDigit digit = true)
    (h : run m c = .error (.mismatch d) c') : d.OnOneLine := by
  fun_induction Cursor.run m c with
  | case1 m c e hstep => cases h
  | case2 m c mismatch site hstep =>
      have hdigits := Machine.onDigits_step hm c.state
      rw [hstep] at hdigits
      exact (reportAt_reported h).onOneLine hdigits
  | case3 m c next hstep ih =>
      have hdigits := Machine.onDigits_step hm c.state
      rw [hstep] at hdigits
      exact ih hdigits h
  | case4 m c next hstep moved c₁ hadvance ih =>
      have hdigits := Machine.onDigits_step hm c.state
      rw [hstep] at hdigits
      exact ih hdigits h
  | case5 m c next hstep e c₁ hadvance => cases h

theorem parse_onOneLine {rule : Rule} (h : parse rule c = .error (.mismatch d) c') :
    d.OnOneLine :=
  run_onOneLine (m := .start rule) (fun _ hmem => absurd hmem List.not_mem_nil) h

theorem parseToEnd_onOneLine (h : parseToEnd c = .error (.mismatch d) c') : d.OnOneLine := by
  rw [parseToEnd_eq] at h
  cases hparse : parse .expr c with
  | error failure c₁ =>
      rw [hparse] at h
      cases h
      exact parse_onOneLine hparse
  | ok e c₁ =>
      rw [hparse] at h
      dsimp only at h
      cases hcurrent : c₁.current with
      | none =>
          rw [hcurrent] at h
          cases h
      | some byte =>
          rw [hcurrent] at h
          have hreported : (Mismatch.trailing byte).Reported d := report_reported h
          exact hreported.onOneLine nofun

end Cursor

namespace Parser

theorem Call.read_onOneLine {call : Call} {requireEnd : Bool}
    (h : call.read requireEnd c = .error (.mismatch d) c') : d.OnOneLine := by
  cases call with
  | parse =>
      unfold read at h
      by_cases hend : requireEnd = true
      · rw [if_pos hend] at h
        exact Cursor.parseToEnd_onOneLine h
      · rw [if_neg hend] at h
        exact Cursor.parse_onOneLine h
  | toEnd => exact Cursor.parseToEnd_onOneLine h
  | construct rule => exact Cursor.parse_onOneLine h

/-- A mismatch is answered as it is read, so on one line. -/
theorem answer_onOneLine {call : Call} {p : Parser}
    (h : (p.answer call).1 = .error (.mismatch d)) : d.OnOneLine := by
  rw [answer_fst] at h
  cases hread : call.read p.requireEnd p.cursor with
  | ok e c₁ =>
      rw [hread] at h
      cases h
  | error failure c₁ =>
      rw [hread] at h
      cases h
      exact Call.read_onOneLine hread

/-- So is every mismatch that any calls are answered with. -/
theorem answerAll_onOneLine (calls : List Call) {p : Parser} {s : Cursor.State}
    (h : (.error (.mismatch d), s) ∈ (answerAll calls p).1) : d.OnOneLine := by
  induction calls generalizing p with
  | nil => cases h
  | cons call rest ih =>
      rcases List.mem_cons.1 h with hfirst | hrest
      · exact answer_onOneLine (congrArg Prod.fst hfirst).symm
      · exact ih hrest

/--
**No answer of a parser takes more than one line.**

A parser may be on any source, in any state, and be asked for anything any number of times: wherever
it answers with a mismatch, there is no line feed in the message, in the excerpt or in a note. The
report is one line, which says what is wrong and where, and ends with the only line feed.
-/
theorem answers_on_one_line (calls : List Call) (p : Parser) {s : Cursor.State}
    (h : (.error (.mismatch d), s) ∈ (answerAll calls p).1) :
    lineBreaks d.message = 0
      ∧ (∃ quoted, d.excerpt = some quoted ∧ lineBreaks quoted = 0)
      ∧ (∀ note ∈ d.help, lineBreaks note = 0)
      ∧ ∃ line,
          line = "parse error: " ++ d.message ++ " near line " ++ toString d.location.line
            ++ ", char " ++ toString d.location.column
          ∧ d.render = line ++ "\n" ∧ lineBreaks line = 0 := by
  have hline := answerAll_onOneLine calls h
  obtain ⟨line, hsays, hrender, hbreaks⟩ := d.render_breaks
  exact ⟨hline.message, hline.excerpt, hline.help, line, hsays, hrender,
    hbreaks.trans hline.message⟩

/-- After `1` there is a line feed, and after that a byte that begins a character and does not end
it. -/
theorem answers_on_one_line_lineFeed :
    ∃ p d s, ofSource (.ofBytes [0x31, 0x0A, 0xE2, 0x0A]) {} = .ok p
      ∧ (.error (.mismatch d), s) ∈ (answerAll [.toEnd] p).1
      ∧ d.excerpt = some "\\n\uFFFD\\n"
      ∧ lineBreaks d.message = 0
      ∧ ∃ line, d.render = line ++ "\n" ∧ lineBreaks line = 0 := by
  have hone : Derives .expr (List.extract [0x31, 0x0A, 0xE2, 0x0A] 0 1) (.number 1) :=
    .alone (.primary (@Derives.digit 0x31 rfl))
  have hstop : StopsAt .unary [0x31, 0x0A, 0xE2, 0x0A] 1 := stopsAt_of_next (by decide) rfl rfl
  have hend := Cursor.parseToEnd_trailing {} (Nat.zero_le 1) hone (hstop.expr (by decide)) rfl
  have hrun : (answerAll [.toEnd] (along [0x31, 0x0A, 0xE2, 0x0A] {} 0)).1 =
      [(.error (.mismatch ((Mismatch.trailing 0x0A).diagnosticAt [0x31, 0x0A, 0xE2, 0x0A] {} 1)),
        (along [0x31, 0x0A, 0xE2, 0x0A] {} 1).cursor.state)] := by
    simp only [answerAll, answer_of_error {} .toEnd hend]
  have hmem := hrun ▸ List.mem_singleton_self _
  obtain ⟨hmessage, -, -, line, -, hrender, hline⟩ := answers_on_one_line [.toEnd] _ hmem
  exact ⟨_, _, _, ofSource_ofBytes _ _, hmem, rfl, hmessage, line, hrender, hline⟩

end Parser

/-! ## What a caller expects -/

namespace Cursor

theorem expectText_mismatch {t : String} (h : expectText t c = .error (.mismatch d) c') :
    ∃ bytes,
      d.message = "expected \"" ++ t ++ "\", but found '" ++ oneLine bytes ++ "' instead" := by
  simp only [expectText] at h
  obtain ⟨taken, c₁, -, h⟩ := bind_mismatch h
  cases taken with
  | true => cases h
  | false =>
      obtain ⟨found, c₂, hfound, h⟩ := bind_mismatch
        (x := excerpt (t.utf8ByteSize + c₁.options.excerptWidth)) h
      obtain ⟨d₀, c₃, hdiagnose, h⟩ := bind_mismatch h
      obtain ⟨bytes, rfl⟩ := excerpt_ok hfound
      obtain ⟨_, rfl⟩ := diagnose_ok hdiagnose
      cases h
      exact ⟨bytes, rfl⟩

theorem expectOneOf_mismatch {set : String}
    (h : expectOneOf set none c = .error (.mismatch d) c') :
    ∃ bytes, d.message = "expected one of '" ++ set ++ "' but found '" ++ oneLine bytes ++ "'" := by
  simp only [expectOneOf] at h
  obtain ⟨taken, c₁, -, h⟩ := bind_mismatch h
  cases taken with
  | true => cases h
  | false =>
      obtain ⟨found, c₂, hfound, h⟩ := bind_mismatch (x := excerpt c₁.options.excerptWidth) h
      obtain ⟨d₀, c₃, hdiagnose, h⟩ := bind_mismatch h
      obtain ⟨bytes, rfl⟩ := excerpt_ok hfound
      obtain ⟨_, rfl⟩ := diagnose_ok hdiagnose
      cases h
      exact ⟨bytes, rfl⟩

/--
**The report of a mismatch has the line feeds of what was expected, and one to end it.**

What was found is quoted on one line, but the text or the set that the caller expects is repeated as
it is. So the report takes one line exactly where there is no line feed in that.
-/
theorem expectations_break_lines (c : Cursor) :
    (∀ t d c', expectText t c = .error (.mismatch d) c' →
        ∃ line, d.render = line ++ "\n" ∧ lineBreaks line = lineBreaks t)
      ∧ ∀ set d c', expectOneOf set none c = .error (.mismatch d) c' →
        ∃ line, d.render = line ++ "\n" ∧ lineBreaks line = lineBreaks set := by
  constructor
  · intro t d c' h
    obtain ⟨line, -, hrender, hbreaks⟩ := d.render_breaks
    obtain ⟨bytes, hmessage⟩ := expectText_mismatch h
    have hbefore : lineBreaks "expected \"" = 0 := rfl
    have hbetween : lineBreaks "\", but found '" = 0 := rfl
    have hafter : lineBreaks "' instead" = 0 := rfl
    refine ⟨line, hrender, ?_⟩
    rw [hbreaks, hmessage]
    simp only [lineBreaks_append, lineBreaks_oneLine, hbefore, hbetween, hafter, Nat.zero_add,
      Nat.add_zero]
  · intro set d c' h
    obtain ⟨line, -, hrender, hbreaks⟩ := d.render_breaks
    obtain ⟨bytes, hmessage⟩ := expectOneOf_mismatch h
    have hbefore : lineBreaks "expected one of '" = 0 := rfl
    have hbetween : lineBreaks "' but found '" = 0 := rfl
    have hafter : lineBreaks "'" = 0 := rfl
    refine ⟨line, hrender, ?_⟩
    rw [hbreaks, hmessage]
    simp only [lineBreaks_append, lineBreaks_oneLine, hbefore, hbetween, hafter, Nat.zero_add,
      Nat.add_zero]

/-- On `x`, a text of two lines and the set of the signs. -/
theorem expectations_break_lines_two :
    ∃ c d d' c' c'', Reached [0x78] c
      ∧ expectText "a\nb" c = .error (.mismatch d) c'
      ∧ expectOneOf "+-" none c = .error (.mismatch d') c''
      ∧ (∃ line, d.render = line ++ "\n" ∧ lineBreaks line = 1)
      ∧ ∃ line, d'.render = line ++ "\n" ∧ lineBreaks line = 0 := by
  have hopened : Reached [0x78] (along [0x78] {} 0) := .opened rfl rfl (ofSource_ofBytes _ {})
  have htext := expectText_of_not_isPrefix {} (Nat.zero_le _)
    (show ¬ Utf8.encode "a\nb" <+: List.drop 0 [0x78] by decide) rfl
  have hset := expectOneOf_of_not_at {} (Nat.zero_le _)
    (show ¬ (along [0x78] {} 0).atOneOf "+-" = true by decide) none rfl
  obtain ⟨htexts, hsets⟩ := expectations_break_lines (along [0x78] {} 0)
  exact ⟨_, _, _, _, _, hopened, htext, hset, htexts _ _ _ htext, hsets _ _ _ hset⟩

/-- So the report of a mismatch can take two lines, whether it is a text that was expected or a byte
of a set. -/
theorem expectations_not_on_one_line :
    ∃ c d d', Reached [0x78] c
      ∧ expectText "a\nb" c = .error (.mismatch d) c
      ∧ expectOneOf "+\n" none c = .error (.mismatch d') c
      ∧ d.message = "expected \"a\nb\", but found 'x' instead"
      ∧ lineBreaks d.render = 2 ∧ lineBreaks d'.render = 2 := by
  have hopened : Reached [0x78] (along [0x78] {} 0) := .opened rfl rfl (ofSource_ofBytes _ {})
  have htext := expectText_of_not_isPrefix {} (Nat.zero_le _)
    (show ¬ Utf8.encode "a\nb" <+: List.drop 0 [0x78] by decide) rfl
  have hset := expectOneOf_of_not_at {} (Nat.zero_le _)
    (show ¬ (along [0x78] {} 0).atOneOf "+\n" = true by decide) none rfl
  have htwo : ∀ d : Diagnostic, lineBreaks d.message = 1 → lineBreaks d.render = 2 := by
    intro d hmessage
    obtain ⟨line, -, hrender, hbreaks⟩ := d.render_breaks
    rw [hrender, lineBreaks_append, hbreaks, hmessage]
    rfl
  exact ⟨_, _, _, hopened, htext, hset, rfl, htwo _ rfl, htwo _ rfl⟩

end Cursor

end SeekParse

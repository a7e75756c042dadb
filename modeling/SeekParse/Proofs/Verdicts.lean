import SeekParse.Proofs.Places

/-!
# What is decided before anything is reported

Of a text in memory, the machine decides whether it is as a construct should be, and where it is
not. A report of that is written afterwards, and may quote bytes that the machine has never looked
at. A `Verdict` is what is decided: a tree or a mismatch, and how far along the text. It is the same
for every parser on the text, whatever the width of its excerpts, and what the parser answers can be
read off it.

So two parsers can be compared by their verdicts. Where the verdicts are the same, and the places on
the two texts are, the answers are the same but for the excerpts (`Verdict.answer_alike`).

* `exists_concludes`: there is a verdict on every construct.
* `Concludes.congr`: it has been reached without a look past the byte that it is on.
* `Parser.answer_of_concludes`: it decides the answer of a parser, and where that is left.
-/

namespace SeekParse

variable {text text' : List UInt8} {rule : Rule} {i : Nat}

/-- What has been decided about a text, and how far along it. -/
inductive Verdict where
  /-- What is there is this, and ends before the byte. -/
  | tree (e : Expr) (k : Nat)
  /-- The byte is where the text does not fit. -/
  | blame (mismatch : Mismatch) (k : Nat)

namespace Verdict

/-- Where a parser is left. -/
def offset : Verdict → Nat
  | .tree _ k | .blame _ k => k

/-- What a parser answers. -/
def answer (text : List UInt8) (options : Cursor.Options) : Verdict → Except Failure Expr
  | .tree e _ => .ok e
  | .blame mismatch k => .error (.mismatch (mismatch.diagnosticAt text options k))

/-- What a cursor comes to. -/
def outcome (text : List UInt8) (options : Cursor.Options) :
    Verdict → EStateM.Result Failure Cursor Expr
  | .tree e k => .ok e (Cursor.along text options k)
  | .blame mismatch k =>
    .error (.mismatch (mismatch.diagnosticAt text options k)) (Cursor.along text options k)

/-- The verdict if the text was to end where the tree does. -/
def toEnd (text : List UInt8) : Verdict → Verdict
  | .tree e k =>
    match text[k]? with
    | some byte => .blame (.trailing byte) k
    | none => .tree e k
  | .blame mismatch k => .blame mismatch k

@[simp] theorem offset_toEnd (v : Verdict) : (v.toEnd text).offset = v.offset := by
  cases v with
  | tree e k =>
      rw [toEnd]
      cases text[k]? with
      | some byte => rfl
      | none => rfl
  | blame mismatch k => rfl

end Verdict

/-! ## What a machine decides -/

/-- The verdict that a machine comes to, which starts at `i` to read a construct. -/
inductive Concludes (text : List UInt8) (rule : Rule) (i : Nat) : Verdict → Prop where
  | accepts {r : Reading} {e : Expr} :
      Reading.Moves text ⟨.start rule, i⟩ r → r.step text = .accept e →
      Concludes text rule i (.tree e r.offset)
  | rejects {r : Reading} {mismatch : Mismatch} :
      Reading.Moves text ⟨.start rule, i⟩ r → r.step text = .reject mismatch none →
      Concludes text rule i (.blame mismatch r.offset)
  /-- A literal is blamed on its first byte, and by then its last one has been passed. -/
  | goesBack {r : Reading} {digits : List UInt8} {j : Nat} :
      Reading.Moves text ⟨.start rule, i⟩ r →
      r.step text = .reject (.tooLarge digits) (some (Cursor.State.along text j)) →
      Concludes text rule i (.blame (.tooLarge digits) j)

/-- **There is a verdict on every construct.** -/
theorem exists_concludes (rule : Rule) (hi : i ≤ text.length) :
    ∃ v, Concludes text rule i v ∧ v.offset ≤ text.length := by
  obtain ⟨r, hmoves, hstopped⟩ := Reading.exists_stops text ⟨.start rule, i⟩
  have hspells := (spells_start rule hi).moves hmoves
  have hle := hspells.offset_le_length
  cases hstopped with
  | accept hstep => exact ⟨_, .accepts hmoves hstep, hle⟩
  | reject hstep =>
      have hfits := hspells.fits
      rw [hstep] at hfits
      obtain ⟨j, hrejects, ⟨rfl, rfl⟩ | ⟨rfl, digits, rfl⟩⟩ := hfits
      · exact ⟨_, .rejects hmoves hstep, hle⟩
      · exact ⟨_, .goesBack hmoves hstep, hrejects.le_length⟩

namespace Concludes

variable {v : Verdict}

/-- Whatever the width of the excerpts is, a cursor comes to what the verdict says. -/
theorem parse_eq (h : Concludes text rule i v) (hle : v.offset ≤ text.length)
    (options : Cursor.Options) :
    Cursor.parse rule (Cursor.along text options i) = v.outcome text options := by
  cases h with
  | @accepts r e hmoves hstep =>
      have haccept : r.machine.step (Cursor.along text options r.offset).state = .accept e := hstep
      refine (hmoves.run_eq options).trans ?_
      rw [Cursor.run_eq, haccept]
      rfl
  | rejects hmoves hstep => exact parse_of_rejects options hmoves hle hstep (.inl ⟨rfl, rfl⟩)
  | goesBack hmoves hstep => exact parse_of_rejects options hmoves hle hstep (.inr rfl)

theorem parseToEnd_eq (h : Concludes text .expr i v) (hle : v.offset ≤ text.length)
    (options : Cursor.Options) :
    Cursor.parseToEnd (Cursor.along text options i) = (v.toEnd text).outcome text options := by
  rw [Cursor.parseToEnd_eq, h.parse_eq hle options]
  cases v with
  | tree e k =>
      have hcurrent : (Cursor.along text options k).current = text[k]? :=
        Cursor.State.current_along text k
      simp only [Verdict.outcome, Verdict.toEnd, hcurrent]
      cases text[k]? with
      | some byte => exact Cursor.report_along (.trailing byte) hle
      | none => rfl
  | blame mismatch k => rfl

/-- **A verdict is reached without a look past the byte that it is on.** So it is the verdict on
every text that is the same up to there. Only of a literal that is too large has more been seen. -/
theorem congr (h : Concludes text rule i v) (hlt : v.offset < text.length)
    (hfits : ∀ digits, v ≠ .blame (.tooLarge digits) v.offset)
    (hsame : text.take (v.offset + 1) = text'.take (v.offset + 1)) : Concludes text' rule i v := by
  cases h with
  | @accepts r e hmoves hstep =>
      have hnext := Reading.step_congr (Nat.le_refl r.offset) hlt hsame
      exact .accepts (Reading.moves_congr hmoves (Nat.le_refl _) hlt hsame)
        (hnext.symm.trans hstep)
  | @rejects r mismatch hmoves hstep =>
      have hnext := Reading.step_congr (Nat.le_refl r.offset) hlt hsame
      exact .rejects (Reading.moves_congr hmoves (Nat.le_refl _) hlt hsame)
        (hnext.symm.trans hstep)
  | goesBack hmoves hstep => exact absurd rfl (hfits _)

end Concludes

/-- A text that is the same up to a byte has that byte too. -/
theorem getElem?_congr {k : Nat} (hsame : text.take (k + 1) = text'.take (k + 1)) :
    text[k]? = text'[k]? := by
  rw [← List.getElem?_take_of_succ, hsame, List.getElem?_take_of_succ]

theorem Verdict.toEnd_congr {v : Verdict}
    (hsame : text.take (v.offset + 1) = text'.take (v.offset + 1)) :
    v.toEnd text = v.toEnd text' := by
  cases v with
  | tree e k =>
      have hnext : text[k]? = text'[k]? := getElem?_congr hsame
      rw [toEnd, toEnd, hnext]
  | blame mismatch k => rfl

/-! ## Answers that are alike -/

/-- Two diagnostics that say the same, and may quote different parts of the input. -/
structure Diagnostic.Alike (d d' : Diagnostic) : Prop where
  code : d.code = d'.code
  message : d.message = d'.message
  location : d.location = d'.location
  help : d.help = d'.help

/-- Two answers that are the same tree, or mismatches whose diagnostics are related. -/
inductive AnsweredAlike (Related : Diagnostic → Diagnostic → Prop) :
    Except Failure Expr → Except Failure Expr → Prop where
  | tree (e : Expr) : AnsweredAlike Related (.ok e) (.ok e)
  | mismatch {d d' : Diagnostic} :
      Related d d' → AnsweredAlike Related (.error (.mismatch d)) (.error (.mismatch d'))

/-- A mismatch is described alike at places that look alike, whatever comes after them. -/
theorem Mismatch.diagnosticAt_alike (mismatch : Mismatch) {k : Nat}
    {options options' : Cursor.Options}
    (h : Cursor.State.along text k = Cursor.State.along text' k) :
    (mismatch.diagnosticAt text options k).Alike (mismatch.diagnosticAt text' options' k) := by
  simp only [diagnosticAt, Diagnostic.foldl_withHelp, h]
  exact ⟨rfl, rfl, rfl, rfl⟩

/-- The same verdict is answered alike where the places on two texts are. -/
theorem Verdict.answer_alike (v : Verdict) {options options' : Cursor.Options}
    (h : Cursor.State.along text v.offset = Cursor.State.along text' v.offset) :
    AnsweredAlike Diagnostic.Alike (v.answer text options) (v.answer text' options') := by
  cases v with
  | tree e k => exact .tree e
  | blame mismatch k => exact .mismatch (mismatch.diagnosticAt_alike h)

/-! ## What is decided about a call -/

namespace Parser

/-- The construct that is read for a call. -/
def Call.goal : Call → Rule
  | .parse | .toEnd => .expr
  | .construct rule => rule

/-- Whether the construct is to be all the rest of the input. -/
def Call.wantsEnd (requireEnd : Bool) : Call → Bool
  | .parse => requireEnd
  | .toEnd => true
  | .construct _ => false

/-- What the verdict on the construct means for the call. -/
def Call.judge (call : Call) (text : List UInt8) (requireEnd : Bool) (v : Verdict) : Verdict :=
  if call.wantsEnd requireEnd then v.toEnd text else v

@[simp] theorem Call.offset_judge (call : Call) (text : List UInt8) (requireEnd : Bool)
    (v : Verdict) :
    (call.judge text requireEnd v).offset = v.offset := by
  rw [judge]
  split
  · exact v.offset_toEnd
  · rfl

theorem Call.judge_blame (call : Call) (requireEnd : Bool) (mismatch : Mismatch) (k : Nat) :
    call.judge text requireEnd (.blame mismatch k) = .blame mismatch k := by
  rw [judge]
  split
  · rfl
  · rfl

theorem Call.judge_congr (call : Call) (requireEnd : Bool) {v : Verdict}
    (hsame : text.take (v.offset + 1) = text'.take (v.offset + 1)) :
    call.judge text requireEnd v = call.judge text' requireEnd v := by
  rw [judge, judge, Verdict.toEnd_congr hsame]

theorem Call.read_of_concludes {call : Call} {v : Verdict} (h : Concludes text call.goal i v)
    (hle : v.offset ≤ text.length) (requireEnd : Bool) (options : Cursor.Options) :
    call.read requireEnd (Cursor.along text options i)
      = (call.judge text requireEnd v).outcome text options := by
  cases call with
  | parse =>
      cases requireEnd with
      | true => exact h.parseToEnd_eq hle options
      | false => exact h.parse_eq hle options
  | toEnd => exact h.parseToEnd_eq hle options
  | construct rule => exact h.parse_eq hle options

/-- **A verdict decides what a parser answers, and where that leaves it.** -/
theorem answer_of_concludes {call : Call} {v : Verdict} (h : Concludes text call.goal i v)
    (hle : v.offset ≤ text.length) (options : Options) :
    (along text options i).answer call
      = ((call.judge text options.requireEnd v).answer text options.toOptions,
          along text options v.offset) := by
  have hread := Call.read_of_concludes h hle options.requireEnd options.toOptions
  rw [← call.offset_judge text options.requireEnd v]
  cases hjudge : call.judge text options.requireEnd v with
  | tree e k =>
      rw [hjudge] at hread
      exact answer_of_ok options call hread
  | blame mismatch k =>
      rw [hjudge] at hread
      exact answer_of_error options call hread

end Parser

end SeekParse

import SeekParse.Proofs.Verdicts

/-!
# The parser does not look ahead

A parser decides about each byte while it stands on it. So where it is left on a byte, what comes
after that does not matter: on a text that is the same up to there, and goes on differently or not
at all, the parser gives the same answer and is left in the same state. To report a mismatch it
reads on, but the bytes that it reads then are only quoted.

This is not so for a literal that is too large. The parser goes back to its first digit, and by then
has seen the others.

* `answer_congr`: for a parser that has come any way along its text.
* `commits_on_current_byte`: for new parsers.
-/

namespace SeekParse.Parser

variable {text text' : List UInt8} {options : Options} {call : Call}
  {result : Except Failure Expr} {p p' q : Parser}

/-- **Where a parser is left on a byte, the text after it does not matter.** -/
theorem answer_congr {i : Nat} (hi : i ≤ text.length)
    (hanswer : (along text options i).answer call = (result, q))
    (hactive : q.cursor.state.isActive = true)
    (hcode : ∀ d, result = .error (.mismatch d) → d.code ≠ .literalTooLarge)
    (hsame : text.take (q.cursor.state.offset + 1) = text'.take (q.cursor.state.offset + 1)) :
    ∃ result' q', (along text' options i).answer call = (result', q')
      ∧ AnsweredAlike Diagnostic.Alike result result'
      ∧ q'.cursor.state = q.cursor.state := by
  obtain ⟨v, hv, hle⟩ := exists_concludes call.goal hi
  rw [answer_of_concludes hv hle options] at hanswer
  cases hanswer
  have hoffset : (along text options v.offset).cursor.state.offset = v.offset :=
    Cursor.State.offset_along hle
  have hlt : v.offset < text.length := (Cursor.State.isActive_along_iff text v.offset).1 hactive
  rw [hoffset] at hsame
  have hstate : Cursor.State.along text v.offset = Cursor.State.along text' v.offset :=
    Cursor.State.along_congr (Nat.le_refl _) hlt hsame
  have hfits : ∀ digits, v ≠ .blame (.tooLarge digits) v.offset := by
    intro digits hblame
    rw [hblame, Call.judge_blame] at hcode
    exact hcode _ rfl (Mismatch.code_diagnosticAt _ _ _ _)
  have hle' : v.offset ≤ text'.length := by
    have hlen := congrArg List.length hsame
    rw [List.length_take_of_le hlt, List.length_take] at hlen
    omega
  -- the verdict is the same on the two texts, and so is what it means for the call
  have hv' : Concludes text' call.goal i v := hv.congr hlt hfits hsame
  have hjudge : call.judge text options.requireEnd v = call.judge text' options.requireEnd v :=
    call.judge_congr options.requireEnd hsame
  refine ⟨_, _, answer_of_concludes hv' hle' options, ?_, hstate.symm⟩
  rw [← hjudge]
  refine Verdict.answer_alike _ ?_
  rw [Call.offset_judge]
  exact hstate

/--
**The parser commits on the current byte.**

Let a new parser be asked for anything, and be left on a byte, with a tree or with a mismatch that
is not a literal too large. Then on every text that begins the same, that byte included, a new
parser answers alike and is left in the same state. Trees are the same, and mismatches are the same
but for their excerpts.
-/
theorem commits_on_current_byte (hp : ofSource (.ofBytes text) options = .ok p)
    (hp' : ofSource (.ofBytes text') options = .ok p') (hanswer : p.answer call = (result, q))
    (hactive : q.cursor.state.isActive = true)
    (hcode : ∀ d, result = .error (.mismatch d) → d.code ≠ .literalTooLarge)
    (hsame : text.take (q.cursor.state.offset + 1) = text'.take (q.cursor.state.offset + 1)) :
    ∃ result' q', p'.answer call = (result', q')
      ∧ AnsweredAlike Diagnostic.Alike result result'
      ∧ q'.cursor.state = q.cursor.state := by
  rw [ofSource_ofBytes] at hp hp'
  cases hp
  cases hp'
  exact answer_congr (Nat.zero_le _) hanswer hactive hcode hsame

/-- After `1)` anything may come. -/
theorem commits_on_current_byte_closeParen :
    ∃ p p' d d' q q', ofSource (.ofBytes [0x31, 0x29, 0x78]) {} = .ok p
      ∧ ofSource (.ofBytes [0x31, 0x29]) {} = .ok p'
      ∧ p.answer .toEnd = (.error (.mismatch d), q)
      ∧ p'.answer .toEnd = (.error (.mismatch d'), q')
      ∧ d.excerpt = some ")x" ∧ d'.code = .trailingInput ∧ d'.location = d.location
      ∧ q.cursor.state.offset = 1 ∧ q'.cursor.state = q.cursor.state := by
  have hone : Derives .expr (List.extract [0x31, 0x29, 0x78] 0 1) (.number 1) :=
    .alone (.primary (@Derives.digit 0x31 rfl))
  have hstop : StopsAt .unary [0x31, 0x29, 0x78] 1 :=
    stopsAt_of_next (by decide) rfl isDigit_closeParen
  have hend := Cursor.parseToEnd_trailing {} (Nat.zero_le 1) hone (hstop.expr (by decide)) rfl
  have hanswer : (along [0x31, 0x29, 0x78] {} 0).answer .toEnd =
      (.error (.mismatch ((Mismatch.trailing closeParen).diagnosticAt [0x31, 0x29, 0x78] {} 1)),
        along [0x31, 0x29, 0x78] {} 1) := answer_of_error {} .toEnd hend
  have hcode : ∀ d : Diagnostic, (.error (.mismatch
      ((Mismatch.trailing closeParen).diagnosticAt [0x31, 0x29, 0x78] {} 1)) : Except Failure Expr)
        = .error (.mismatch d) → d.code ≠ .literalTooLarge := by
    intro d hd
    cases hd
    decide
  obtain ⟨result', q', hanswer', halike, hstate⟩ :=
    commits_on_current_byte (ofSource_ofBytes [0x31, 0x29, 0x78] {})
      (ofSource_ofBytes [0x31, 0x29] {}) hanswer rfl hcode rfl
  cases halike with
  | mismatch halike =>
      exact ⟨_, _, _, _, _, _, ofSource_ofBytes _ _, ofSource_ofBytes _ _, hanswer, hanswer', rfl,
        halike.code.symm, halike.location.symm, rfl, hstate⟩

end SeekParse.Parser

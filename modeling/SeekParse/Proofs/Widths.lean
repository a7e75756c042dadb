import Mathlib.Data.List.Infix
import SeekParse.Proofs.Verdicts

/-!
# The width of excerpts does not matter to the parser

To quote the input, a cursor moves its source: it seeks to where the excerpt begins, reads as far as
the excerpt is wide, and seeks back. With no width it does none of that. So of two parsers that
differ in their widths, one may move its source where the other does not. In memory this is the only
time at which they differ. After every call they are at the same place, in the same state, and have
answered alike; and what they quote are two windows on the same text, from the byte at which they
both stopped.

* `Windows`: what the two quote.
* `answer_inStep`: one call leaves the two in step, since one verdict decides it for both.
* `answerAll_along`: so they stay together, whatever they are asked.
* `width_not_observed`: whatever they have been asked, the next call leaves them in step.
-/

namespace SeekParse

variable {text : List UInt8}

/-- Two diagnostics that say the same, and quote two windows on a text: from byte `k` on, as far as
the one and the other width go. The narrower window is a prefix of the wider. -/
structure Windows (text : List UInt8) (k width width' : Nat) (d d' : Diagnostic) : Prop extends
    Diagnostic.Alike d d' where
  quoted : ∃ window window',
    d.excerpt = some (oneLine window) ∧ d'.excerpt = some (oneLine window')
      ∧ window <+: text.drop k ∧ window' <+: text.drop k
      ∧ window.length = min width (text.length - k)
      ∧ window'.length = min width' (text.length - k)
      ∧ (width ≤ width' → window <+: window') ∧ (width' ≤ width → window' <+: window)

/-- What is said of a mismatch is the same through both windows. -/
theorem Mismatch.windows_diagnosticAt (mismatch : Mismatch) (k : Nat)
    (options options' : Cursor.Options) :
    Windows text k options.excerptWidth options'.excerptWidth
      (mismatch.diagnosticAt text options k) (mismatch.diagnosticAt text options' k) where
  toAlike := mismatch.diagnosticAt_alike rfl
  quoted := by
    have hquoted : ∀ options : Cursor.Options,
        (mismatch.diagnosticAt text options k).excerpt
          = some (oneLine ((text.drop k).take options.excerptWidth)) := by
      intro options
      rw [mismatch.excerpt_diagnosticAt, List.extract_eq_take_drop, Nat.add_sub_cancel_left]
    have hlength : ∀ width, ((text.drop k).take width).length = min width (text.length - k) := by
      intro width
      rw [List.length_take, List.length_drop]
    exact ⟨_, _, hquoted options, hquoted options', List.take_prefix _ _, List.take_prefix _ _,
      hlength _, hlength _, fun h => List.take_isPrefix_take.2 (.inl h),
      fun h => List.take_isPrefix_take.2 (.inl h)⟩

namespace Parser

/-- Two parsers that have answered a call, and do not differ in anything but what they quote. -/
structure InStep (text : List UInt8) (width width' : Nat) (a a' : Except Failure Expr × Parser) :
    Prop where
  answers :
    AnsweredAlike (Windows text a.2.cursor.state.offset width width') a.1 a'.1
  state : a.2.cursor.state = a'.2.cursor.state
  source : a.2.cursor.source = a'.2.cursor.source

/-- **A call keeps parsers of any widths in step**: there is one verdict on it for all of them. -/
theorem answer_inStep {i : Nat} (hi : i ≤ text.length) (call : Call) (options options' : Options)
    (hend : options.requireEnd = options'.requireEnd) :
    InStep text options.excerptWidth options'.excerptWidth ((along text options i).answer call)
      ((along text options' i).answer call) := by
  obtain ⟨v, hv, hle⟩ := exists_concludes call.goal hi
  rw [answer_of_concludes hv hle options, answer_of_concludes hv hle options', ← hend]
  refine ⟨?_, rfl, rfl⟩
  have hoffset : (along text options v.offset).cursor.state.offset = v.offset :=
    Cursor.State.offset_along hle
  dsimp only
  rw [hoffset, ← call.offset_judge text options.requireEnd v]
  cases call.judge text options.requireEnd v with
  | tree e k => exact .tree e
  | blame mismatch k => exact .mismatch (mismatch.windows_diagnosticAt k _ _)

/-- Any calls leave parsers of any widths at the same place. -/
theorem answerAll_along (calls : List Call) (requireEnd : Bool) {i : Nat} (hi : i ≤ text.length) :
    ∃ k, k ≤ text.length ∧ ∀ options : Options, options.requireEnd = requireEnd →
      (answerAll calls (along text options i)).2 = along text options k := by
  induction calls generalizing i with
  | nil => exact ⟨i, hi, fun _ _ => rfl⟩
  | cons call rest ih =>
      obtain ⟨v, hv, hle⟩ := exists_concludes call.goal hi
      obtain ⟨k, hk, hrest⟩ := ih hle
      refine ⟨k, hk, fun options hend => ?_⟩
      simp only [answerAll, answer_of_concludes hv hle options]
      exact hrest options hend

/--
**How much a parser quotes does not matter to what it reads.**

Take two parsers on a text in memory that quote as much as they like, the one perhaps nothing, and
that agree on whether an expression is to be all of the text. Whatever they have both been asked,
the next call is answered by the same tree or by a mismatch that is described alike, and leaves the
two in the same state, with their sources at the same place. The two excerpts are windows on the
text from that place on, as wide as they should be or as long as the rest of the text.
-/
theorem width_not_observed (text : List UInt8) (requireEnd : Bool) (width width' : Nat) :
    ∃ p p', ofSource (.ofBytes text) { excerptWidth := width, requireEnd } = .ok p
      ∧ ofSource (.ofBytes text) { excerptWidth := width', requireEnd } = .ok p'
      ∧ p.cursor.state = p'.cursor.state ∧ p.cursor.source = p'.cursor.source
      ∧ ∀ calls call, InStep text width width' ((answerAll calls p).2.answer call)
          ((answerAll calls p').2.answer call) := by
  refine ⟨_, _, ofSource_ofBytes _ _, ofSource_ofBytes _ _, rfl, rfl, fun calls call => ?_⟩
  obtain ⟨k, hk, halong⟩ := answerAll_along calls requireEnd (Nat.zero_le text.length)
  rw [halong { excerptWidth := width, requireEnd } rfl,
    halong { excerptWidth := width', requireEnd } rfl]
  exact answer_inStep hk call { excerptWidth := width, requireEnd }
    { excerptWidth := width', requireEnd } rfl

/-- After the `1` in `1?`, one parser quotes nothing, and the other what there is. -/
theorem width_not_observed_nothing :
    ∃ p p' d d' q q', ofSource (.ofBytes [0x31, 0x3F]) { excerptWidth := 0 } = .ok p
      ∧ ofSource (.ofBytes [0x31, 0x3F]) { excerptWidth := 10 } = .ok p'
      ∧ (answerAll [.construct .primary] p).2.answer .toEnd = (.error (.mismatch d), q)
      ∧ (answerAll [.construct .primary] p').2.answer .toEnd = (.error (.mismatch d'), q')
      ∧ d.excerpt = some "" ∧ d'.excerpt = some "?" ∧ d.message = d'.message
      ∧ q.cursor.state = q'.cursor.state ∧ q.cursor.source = q'.cursor.source := by
  have hanswer : ∀ options : Options,
      (answerAll [.construct .primary] (along [0x31, 0x3F] options 0)).2.answer .toEnd
        = (.error (.mismatch ((Mismatch.noOperand (some 0x3F)).diagnosticAt [0x31, 0x3F]
            options.toOptions 1)), along [0x31, 0x3F] options 1) := by
    intro options
    have hone : Cursor.parse .primary (Cursor.along [0x31, 0x3F] options.toOptions 0) =
        .ok (.number 1) (Cursor.along [0x31, 0x3F] options.toOptions 1) :=
      parse_of_derives (by decide) (by decide) (@Derives.digit 0x31 rfl)
        (stopsAt_of_next (by decide) rfl rfl)
    simp only [answerAll, answer_of_ok options (.construct .primary) hone]
    refine answer_of_error options .toEnd (Cursor.parseToEnd_of_error ?_)
    have hmoves : Reading.Moves [0x31, 0x3F] ⟨.start .expr, 1⟩
        ⟨⟨[.chain []], .expecting .primary⟩, 1⟩ := (Reading.Moves.turn .refl rfl).turn rfl
    exact parse_of_rejects options.toOptions hmoves (by decide) rfl (.inl ⟨rfl, rfl⟩)
  obtain ⟨p, p', hp, hp', -, -, hstep⟩ := width_not_observed [0x31, 0x3F] false 0 10
  rw [ofSource_ofBytes] at hp hp'
  cases hp
  cases hp'
  obtain ⟨hanswers, hstate, hsource⟩ := hstep [.construct .primary] .toEnd
  rw [hanswer, hanswer] at hanswers hstate hsource
  cases hanswers with
  | mismatch halike =>
      exact ⟨_, _, _, _, _, _, ofSource_ofBytes _ _, ofSource_ofBytes _ _, hanswer _, hanswer _,
        rfl, rfl, halike.message, hstate, hsource⟩

end Parser

end SeekParse

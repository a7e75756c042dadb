import SeekParse.Proofs.Verdicts

/-!
# Asking again does not help

A parser that fails goes on from where the failure left it, and may be asked for anything next. Most
mismatches leave it on a byte that some other call can read. Where an operand was to start and none
does, no call can: whatever it is for, the first thing that it reads is an operand. So the parser is
at an impasse. Every call finds the same mismatch at the same byte, and leaves the parser as it was,
the head of its source included.

* `Blocks`: which mismatch stands in the way of every operand at a byte. It is said of the text
  alone.
* `rejects_of_concludes`, `Rejects.blocks`: what a failed call knows about the byte on which it has
  left the parser. How deep the call was by then is in the frames, and does not matter any more.
* `Blocks.concludes`: from there every construct comes to the same verdict.
* `operand_error_repeats`: so all further calls are answered alike.

A call for a primary is the exception: to it a prefix operator is no operand, and to all the others
it is the start of one.
-/

namespace SeekParse

variable {text : List UInt8} {rule : Rule} {i k : Nat} {mismatch : Mismatch}

/-! ## Where no operand can be read -/

/-- The mismatch that keeps any operand from being read at a byte: what is there starts none, or is
a run of digits that stands for nothing. -/
inductive Blocks (text : List UInt8) (k : Nat) : Mismatch → Prop where
  | noOperand :
      text[k]?.bind UnaryOp.ofByte? = none →
      (∀ byte, text[k]? = some byte → Literal.isDigit byte = false ∧ byte ≠ openParen) →
      Blocks text k (.noOperand text[k]?)
  | tooLarge {past : Nat} :
      k < past → past ≤ text.length →
      (∀ digit ∈ text.extract k past, Literal.isDigit digit = true) →
      text[past]?.filter Literal.isDigit = none →
      Literal.largest < Literal.value (text.extract k past) →
      Blocks text k (.tooLarge (text.extract k past))

/-- What a machine blames on a missing operand is in the way of every operand. -/
theorem Rejects.blocks (h : Rejects text rule i mismatch k)
    (hcode : mismatch.code = .literalTooLarge ∨ mismatch.code = .invalidPrimary ∧ rule ≠ .primary) :
    Blocks text k mismatch := by
  cases h with
  | noOperand hk hframes hunary hno =>
      rcases hcode with hcode | ⟨-, hrule⟩
      · cases hcode
      · exact .noOperand (hunary.resolve_left hrule) hno
  | unclosed hjk hk hframes he hstop hclose =>
      rcases hcode with hcode | ⟨hcode, -⟩
      · cases hcode
      · cases hcode
  | tooLarge hjk hk hframes hdigits hnext hlarge => exact .tooLarge hjk hk hdigits hnext hlarge

/-! ## What a verdict blames -/

/-- A verdict that blames a byte has been come to by what was read up to there. -/
theorem rejects_of_concludes (h : Concludes text rule i (.blame mismatch k)) (hi : i ≤ text.length)
    (hk : k ≤ text.length) : Rejects text rule i mismatch k := by
  cases h with
  | @rejects r mismatch hmoves hstep =>
      have hfits := ((spells_start rule hi).moves hmoves).fits
      rw [hstep] at hfits
      obtain ⟨j, hrejects, ⟨-, rfl⟩ | ⟨hsite, -⟩⟩ := hfits
      · exact hrejects
      · cases hsite
  | @goesBack r digits j hmoves hstep =>
      have hfits := ((spells_start rule hi).moves hmoves).fits
      rw [hstep] at hfits
      obtain ⟨j, hrejects, ⟨hsite, -⟩ | ⟨hsite, -⟩⟩ := hfits
      · cases hsite
      · -- the state to go back to says at which byte it was saved
        have hoffset := congrArg Cursor.State.offset (Option.some.inj hsite)
        rw [Cursor.State.offset_along hk, Cursor.State.offset_along hrejects.le_length] at hoffset
        rw [hoffset]
        exact hrejects

/-! ## What is read from there -/

/-- Without a prefix operator, whatever is read starts with a primary. -/
theorem Reading.exists_moves_primary (rule : Rule) (h : text[k]?.bind UnaryOp.ofByte? = none) :
    ∃ frames, Moves text ⟨.start rule, k⟩ ⟨⟨frames, .expecting .primary⟩, k⟩ := by
  have hunary : ∀ frames, step text ⟨⟨frames, .expecting .unary⟩, k⟩
      = .turn ⟨frames, .expecting .primary⟩ := by
    intro frames
    rw [step_unary, h]
  cases rule with
  | expr => exact ⟨[.chain []], (Moves.turn .refl rfl).turn (hunary _)⟩
  | unary => exact ⟨[], Moves.turn .refl (hunary [])⟩
  | primary => exact ⟨[], .refl⟩

/-- **What keeps operands from being read is the verdict on every construct.** -/
theorem Blocks.concludes (h : Blocks text k mismatch) (rule : Rule) :
    Concludes text rule k (.blame mismatch k) := by
  cases h with
  | noOperand hunary hno =>
      obtain ⟨frames, hmoves⟩ := Reading.exists_moves_primary rule hunary
      refine .rejects hmoves ?_
      rw [Reading.step_primary]
      cases hbyte : text[k]? with
      | none => rfl
      | some byte =>
          obtain ⟨hdigit, hopen⟩ := hno byte hbyte
          dsimp only
          rw [if_neg (Bool.eq_false_iff.1 hdigit), if_neg hopen]
  | @tooLarge past hlt hpast hdigits hnext hlarge =>
      have hbyte := List.getElem?_eq_getElem (Nat.lt_of_lt_of_le hlt hpast)
      have hdigit := hdigits _ (by rw [extract_cons hlt hbyte]; exact List.mem_cons_self ..)
      have hunary : text[k]?.bind UnaryOp.ofByte? = none := by
        rw [hbyte]
        exact unaryOp_of_digit hdigit
      obtain ⟨frames, hmoves⟩ := Reading.exists_moves_primary rule hunary
      exact .goesBack (hmoves.trans (Reading.moves_run hlt hpast hdigits))
        (Reading.step_tooLarge hnext hlarge)

namespace Parser

variable {options : Options} {call : Call} {p p' : Parser} {d : Diagnostic}

/-- Where no operand can be read, no call gets anywhere. -/
theorem answer_of_blocks (h : Blocks text k mismatch) (hk : k ≤ text.length) (options : Options)
    (call : Call) :
    (along text options k).answer call
      = (.error (.mismatch (mismatch.diagnosticAt text options.toOptions k)),
          along text options k) := by
  rw [answer_of_concludes (h.concludes call.goal) hk options, Call.judge_blame]
  rfl

/-- Only a call for a primary reads one and nothing else. -/
theorem Call.eq_of_goal (h : call.goal = .primary) : call = .construct .primary := by
  cases call with
  | parse => cases h
  | toEnd => cases h
  | construct rule =>
      cases h
      rfl

/-- After a tree, the only mismatch is that it is not all of the text. -/
theorem Call.judge_tree (call : Call) (text : List UInt8) (requireEnd : Bool) (e : Expr) (k : Nat) :
    call.judge text requireEnd (.tree e k) = .tree e k
      ∨ ∃ byte, call.judge text requireEnd (.tree e k) = .blame (.trailing byte) k := by
  rw [judge]
  split
  · rw [Verdict.toEnd]
    cases text[k]? with
    | some byte => exact .inr ⟨byte, rfl⟩
    | none => exact .inl rfl
  · exact .inl rfl

/-- A call that misses an operand leaves the parser where none can be read. -/
theorem blocks_of_answer (hi : i ≤ text.length)
    (h : (along text options i).answer call = (.error (.mismatch d), p'))
    (hcode : d.code = .literalTooLarge ∨ d.code = .invalidPrimary ∧ call ≠ .construct .primary) :
    ∃ mismatch k, k ≤ text.length ∧ Blocks text k mismatch
      ∧ d = mismatch.diagnosticAt text options.toOptions k ∧ p' = along text options k := by
  obtain ⟨v, hv, hle⟩ := exists_concludes call.goal hi
  rw [answer_of_concludes hv hle options] at h
  cases v with
  | tree e k =>
      rcases call.judge_tree text options.requireEnd e k with hjudge | ⟨byte, hjudge⟩
      · rw [hjudge] at h
        cases h
      · rw [hjudge] at h
        cases h
        rw [Mismatch.code_diagnosticAt] at hcode
        rcases hcode with hcode | ⟨hcode, -⟩
        · cases hcode
        · cases hcode
  | blame mismatch k =>
      rw [Call.judge_blame] at h
      cases h
      rw [Mismatch.code_diagnosticAt] at hcode
      refine ⟨mismatch, k, hle, (rejects_of_concludes hv hi hle).blocks ?_, rfl, rfl⟩
      exact hcode.imp_right fun hmissing =>
        ⟨hmissing.1, fun hgoal => hmissing.2 (Call.eq_of_goal hgoal)⟩

/--
**Asking again for an operand that is not there does not help.**

A parser on a text in memory, whatever it has been asked before, is asked for anything and finds a
literal that is too large, or nothing that starts an operand. In the second case it was not asked
for a primary, which could not have started with a prefix operator. Then whatever it is asked from
there on, and however often, it gives the same diagnostic, and neither it nor its source changes.
-/
theorem operand_error_repeats (hp : Reached text options p)
    (h : p.answer call = (.error (.mismatch d), p'))
    (hcode : d.code = .literalTooLarge ∨ d.code = .invalidPrimary ∧ call ≠ .construct .primary)
    (calls : List Call) :
    p'.answerAll calls = (calls.map fun _ => (.error (.mismatch d), p'.cursor.state), p') := by
  obtain ⟨i, hi, rfl⟩ := reached_along hp
  obtain ⟨mismatch, k, hk, hblocks, rfl, rfl⟩ := blocks_of_answer hi h hcode
  induction calls with
  | nil => rfl
  | cons call rest ih =>
      simp only [answerAll, answer_of_blocks hblocks hk options call, ih, List.map_cons]

/-- After the minus there are twenty nines, which are too many for a word. -/
theorem operand_error_repeats_nines :
    ∃ p p' d, Reached (0x2D :: List.replicate 20 0x39) {} p
      ∧ p.answer (.construct .expr) = (.error (.mismatch d), p')
      ∧ d.code = .literalTooLarge ∧ p'.cursor.state.offset = 1
      ∧ p'.answerAll [.construct .primary, .toEnd]
        = ([(.error (.mismatch d), p'.cursor.state), (.error (.mismatch d), p'.cursor.state)],
            p') := by
  obtain ⟨text, htext⟩ : ∃ text : List UInt8, text = 0x2D :: List.replicate 20 0x39 := ⟨_, rfl⟩
  have hlen : text.length = 21 := by rw [htext]; rfl
  have hnines : text.extract 1 21 = List.replicate 20 0x39 := by rw [htext]; rfl
  have hdigits : ∀ digit ∈ text.extract 1 21, Literal.isDigit digit = true := by
    rw [hnines]
    exact List.forall_mem_replicate.2 (.inr rfl)
  have hlarge : Literal.largest < Literal.value (text.extract 1 21) := by
    rw [hnines]
    decide
  have hminus : Reading.Moves text ⟨.start .expr, 0⟩
      ⟨⟨[.applied .neg, .chain []], .expecting .primary⟩, 1⟩ := by
    subst htext
    exact ((Reading.Moves.turn .refl rfl).take rfl).turn rfl
  have hmoves := hminus.trans (Reading.moves_run (by decide) (Nat.le_of_eq hlen.symm) hdigits)
  have hnext : text[21]?.filter Literal.isDigit = none := by rw [htext]; rfl
  have hle : 1 ≤ text.length := hlen ▸ (by decide)
  have hconcludes : Concludes text (Call.construct .expr).goal 0
      (.blame (.tooLarge (text.extract 1 21)) 1) :=
    .goesBack hmoves (Reading.step_tooLarge hnext hlarge)
  have hanswer := answer_of_concludes hconcludes hle {}
  rw [Call.judge_blame] at hanswer
  have hp : Reached text {} (along text {} 0) := .opened (ofSource_ofBytes text {})
  have hcode := Mismatch.code_diagnosticAt (.tooLarge (text.extract 1 21)) text {} 1
  rw [← htext]
  exact ⟨_, _, _, hp, hanswer, hcode, Cursor.State.offset_along hle,
    operand_error_repeats hp hanswer (.inl hcode) [.construct .primary, .toEnd]⟩

end Parser

end SeekParse

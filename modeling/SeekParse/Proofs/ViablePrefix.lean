import SeekParse.Proofs.Recognition

/-!
# Errors are found at the first byte that is wrong

A text that is no expression is blamed at one offset, and this file says that it is the right one.
What has been read up to there can be completed: every frame of the machine can still be closed
(`Awaits.completes`). One byte more, and nothing can complete it, since the machine stops on that
byte in every text that goes on with it. And the kind of error can be told from the text alone: from
the last byte before the offset, from how many groups are open there, and from what comes next.

* `accepts_iff`: the accepted texts are those that derive an expression.
* `toEnd_error_earliest`: where reading to the end fails, the text before is the longest part that
  begins any accepted text, and `Blamed` decides the code.

A literal that is too large is the exception. It is blamed as a whole at its first digit, though all
its digits but the last ones begin an accepted text.
-/

namespace SeekParse

variable {text own read : List UInt8} {root rule : Rule} {start k : Nat} {frames : List Frame}
  {e : Expr}

/-! ## Completing what has been read -/

/-- What the frames wait for can be followed by what closes them. -/
theorem Awaits.completes (h : Awaits text root start frames rule k) (he : Derives rule own e) :
    ∃ rest e', Derives root (text.extract start k ++ own ++ rest) e' := by
  induction h generalizing own e with
  | root =>
      refine ⟨[], e, ?_⟩
      rw [extract_self, List.append_nil]
      exact he
  | applied op hframes hop ih =>
      obtain ⟨rest, e', h'⟩ := ih (.applied op he)
      refine ⟨rest, e', ?_⟩
      rw [extract_succ hframes.le hop, List.append_assoc _ [op.byte]]
      exact h'
  | chain hframes hoperands ih =>
      have hchain := hoperands.derives he .nil
      rw [List.append_nil] at hchain
      obtain ⟨rest, e', h'⟩ := ih hchain
      refine ⟨rest, e', ?_⟩
      rw [← List.append_assoc, extract_append text hframes.le hoperands.le] at h'
      exact h'
  | group hframes hopen ih =>
      obtain ⟨rest, e', h'⟩ := ih (.group he)
      refine ⟨closeParen :: rest, e', ?_⟩
      rw [extract_succ hframes.le hopen]
      simpa using h'
  | primary _ ih => exact ih (.primary he)

/-- Any operand will do to complete what waits for one. -/
theorem Awaits.viable (h : Awaits text .expr 0 frames .primary k) :
    ∃ rest e, Derives .expr (text.take k ++ rest) e := by
  obtain ⟨rest, e, he⟩ := h.completes (@Derives.digit 0x30 rfl)
  rw [extract_zero, List.append_assoc] at he
  exact ⟨_, e, he⟩

/-! ## The last byte of what has been read -/

/-- An operand can start with this byte. -/
def StartsOperand (byte : UInt8) : Prop :=
  Literal.isDigit byte = true ∨ byte = openParen ∨ ∃ op : UnaryOp, byte = op.byte

/-- An operand comes next: nothing has been read, or the last byte is an operator or opens a
group. -/
def OperandNext (read : List UInt8) : Prop :=
  ∀ last ∈ read.getLast?,
    last = openParen ∨ (∃ op : UnaryOp, last = op.byte) ∨ ∃ op : BinaryOp, last = op.byte

/-- An operand came last: the last byte is a digit or closes a group. -/
def OperandLast (read : List UInt8) : Prop :=
  ∃ last ∈ read.getLast?, last = closeParen ∨ Literal.isDigit last = true

theorem OperandNext.not_last (h : OperandNext read) : ¬ OperandLast read := by
  intro hlast
  obtain ⟨last, hmem, hend⟩ := hlast
  rcases h last hmem with rfl | ⟨op, rfl⟩ | ⟨op, rfl⟩
  · exact absurd hend (by decide)
  · cases op <;> exact absurd hend (by decide)
  · cases op <;> exact absurd hend (by decide)

theorem operandNext_concat (read : List UInt8) {last : UInt8}
    (h : last = openParen ∨ (∃ op : UnaryOp, last = op.byte) ∨ ∃ op : BinaryOp, last = op.byte) :
    OperandNext (read ++ [last]) := by
  intro last' hlast
  rw [List.getLast?_concat, Option.mem_some_iff] at hlast
  rwa [← hlast]

theorem OperandLast.prepend (h : OperandLast own) (read : List UInt8) :
    OperandLast (read ++ own) := by
  obtain ⟨last, hlast, hend⟩ := h
  refine ⟨last, ?_, hend⟩
  rw [Option.mem_def] at hlast ⊢
  rw [List.getLast?_append, hlast, Option.some_or]

/-- Frames that wait have just read what they wait after. -/
theorem Awaits.operandNext (h : Awaits text root start frames rule k) :
    OperandNext (text.extract start k) := by
  induction h with
  | root =>
      rw [extract_self]
      exact nofun
  | applied op hframes hop _ =>
      rw [extract_succ hframes.le hop]
      exact operandNext_concat _ (.inr (.inl ⟨op, rfl⟩))
  | chain hframes hoperands ih =>
      cases hoperands with
      | nil => exact ih
      | cons op hbefore hjk _ hop =>
          -- the operator after the last operand is the last byte read
          have hle := hbefore.le
          rw [extract_succ (Nat.le_trans hframes.le (by omega)) hop]
          exact operandNext_concat _ (.inr (.inr ⟨op, rfl⟩))
  | group hframes hopen _ =>
      rw [extract_succ hframes.le hopen]
      exact operandNext_concat _ (.inl rfl)
  | primary _ ih => exact ih

mutual

/-- Every construct ends as an operand does. -/
theorem Derives.operandLast {rule : Rule} {own : List UInt8} {e : Expr} :
    Derives rule own e → OperandLast own
  | .number hne hdigits _ =>
      ⟨_, List.getLast?_eq_some_getLast hne, .inr (hdigits _ (List.getLast_mem hne))⟩
  | .group _ => ⟨closeParen, List.getLast?_concat, .inl rfl⟩
  | .primary h => h.operandLast
  | .applied op h => h.operandLast.prepend [op.byte]
  | .alone h => h.operandLast
  | @Derives.chain first _ _ _ _ _ h hlinks => by
      rcases hlinks.operandLast with rfl | hmore
      · rw [List.append_nil]
        exact h.operandLast
      · exact hmore.prepend first

theorem DerivesLinks.operandLast {more : List UInt8} {links : List (BinaryOp × Expr)} :
    DerivesLinks more links → more = [] ∨ OperandLast more
  | .nil => .inl rfl
  | @DerivesLinks.cons own _ _ _ op h hlinks => by
      refine .inr ?_
      rcases hlinks.operandLast with rfl | hmore
      · rw [List.append_nil]
        exact h.operandLast.prepend [op.byte]
      · exact hmore.prepend (op.byte :: own)

end

/-! ## Open groups -/

/-- As many groups are closed as are opened. -/
def Balanced (read : List UInt8) : Prop := read.count openParen = read.count closeParen

instance (read : List UInt8) : Decidable (Balanced read) := inferInstanceAs (Decidable (_ = _))

theorem Balanced.append {more : List UInt8} (h : Balanced read) (h' : Balanced more) :
    Balanced (read ++ more) := by
  rw [Balanced, List.count_append, List.count_append, h, h']

theorem balanced_of_not_mem (hopen : openParen ∉ read) (hclose : closeParen ∉ read) :
    Balanced read := by
  rw [Balanced, List.count_eq_zero_of_not_mem hopen, List.count_eq_zero_of_not_mem hclose]

theorem balanced_unaryOp (op : UnaryOp) : Balanced [op.byte] := by
  cases op <;> exact balanced_of_not_mem (by decide) (by decide)

theorem balanced_binaryOp (op : BinaryOp) : Balanced [op.byte] := by
  cases op <;> exact balanced_of_not_mem (by decide) (by decide)

theorem Balanced.enclosed (h : Balanced read) :
    Balanced (openParen :: read ++ [closeParen]) := by
  have hopen : [closeParen].count openParen = 0 := by decide
  have hclose : [closeParen].count closeParen = 1 := by decide
  have hne : openParen ≠ closeParen := by decide
  rw [Balanced, List.count_append, List.count_append, List.count_cons_self,
    List.count_cons_of_ne hne, hopen, hclose, h]

mutual

theorem Derives.balanced {rule : Rule} {own : List UInt8} {e : Expr} :
    Derives rule own e → Balanced own
  | .number _ hdigits _ => by
      refine balanced_of_not_mem ?_ ?_
      · intro hmem
        exact absurd (hdigits _ hmem) (by decide)
      · intro hmem
        exact absurd (hdigits _ hmem) (by decide)
  | .group h => h.balanced.enclosed
  | .primary h => h.balanced
  | .applied op h => (balanced_unaryOp op).append h.balanced
  | .alone h => h.balanced
  | .chain h hlinks => h.balanced.append hlinks.balanced

theorem DerivesLinks.balanced {more : List UInt8} {links : List (BinaryOp × Expr)} :
    DerivesLinks more links → Balanced more
  | .nil => rfl
  | .cons op h hlinks => ((balanced_binaryOp op).append h.balanced).append hlinks.balanced

end

theorem Operands.balanced {before : List (Expr × BinaryOp)}
    (h : Operands text start before k) : Balanced (text.extract start k) := by
  induction h with
  | nil =>
      rw [extract_self]
      rfl
  | @cons before e j k op hbefore hjk he hop ih =>
      have hle := Nat.le_trans hbefore.le (Nat.le_of_lt hjk)
      rw [extract_succ hle hop, ← extract_append text hbefore.le (Nat.le_of_lt hjk)]
      exact (ih.append he.balanced).append (balanced_binaryOp op)

/-- No group is closed that the frames have not opened. -/
theorem Awaits.count_le (h : Awaits text root start frames rule k) :
    (text.extract start k).count closeParen ≤ (text.extract start k).count openParen := by
  induction h with
  | root => rw [extract_self]; exact Nat.le_refl _
  | applied op hframes hop ih =>
      have hbyte : [op.byte].count openParen = [op.byte].count closeParen := balanced_unaryOp op
      rw [extract_succ hframes.le hop, List.count_append, List.count_append]
      omega
  | chain hframes hoperands ih =>
      have hown := hoperands.balanced
      rw [Balanced] at hown
      rw [← extract_append text hframes.le hoperands.le, List.count_append, List.count_append]
      omega
  | group hframes hopen ih =>
      have hbyte : [openParen].count closeParen = 0 := by decide
      rw [extract_succ hframes.le hopen, List.count_append, List.count_append, hbyte]
      omega
  | primary _ ih => exact ih

/-- Inside a group, one more is open than closed at least. -/
theorem Awaits.count_lt {opened : Location}
    (h : Awaits text root start (.group opened :: frames) rule k) :
    (text.extract start k).count closeParen < (text.extract start k).count openParen := by
  obtain ⟨-, j, rfl, hframes, hopen, -⟩ := h.of_group
  have hle := hframes.count_le
  have hself : [openParen].count openParen = 1 := by decide
  have hbyte : [openParen].count closeParen = 0 := by decide
  rw [extract_succ hframes.le hopen, List.count_append, List.count_append, hself, hbyte]
  omega

/-! ## Which error it is -/

/-- The first digits of what is left, all of them. -/
theorem takeWhile_drop {j : Nat} (hjk : j ≤ k)
    (hdigits : ∀ digit ∈ text.extract j k, Literal.isDigit digit = true)
    (hnext : text[k]?.filter Literal.isDigit = none) :
    (text.drop j).takeWhile Literal.isDigit = text.extract j k := by
  have hrest : (text.drop k).takeWhile Literal.isDigit = [] := by
    cases hbyte : text[k]? with
    | none =>
        rw [List.drop_eq_nil_iff.2 (List.getElem?_eq_none_iff.1 hbyte)]
        rfl
    | some byte =>
        obtain ⟨hlt, hget⟩ := List.getElem?_eq_some_iff.1 hbyte
        rw [hbyte, Option.filter_eq_none_iff] at hnext
        rw [List.drop_eq_getElem_cons hlt, hget, List.takeWhile_cons_of_neg (hnext byte rfl)]
  have hsplit : text.drop j = text.extract j k ++ text.drop k := by
    have hdrop : text.drop k = (text.drop j).drop (k - j) := by
      rw [List.drop_drop, Nat.add_sub_cancel' hjk]
    rw [hdrop, List.extract_eq_take_drop, List.take_append_drop]
  rw [hsplit, List.takeWhile_append_of_pos hdigits, hrest, List.append_nil]

/--
The code of an error at an offset, as the text decides it.

In front of an operand there are two: what comes next starts none, or is a literal that is too
large. After an operand there are two more, for the byte that does not go on: it is inside a group,
or outside all groups.
-/
inductive Blamed (text : List UInt8) (k : Nat) : ErrorCode → Prop where
  | invalidPrimary :
      OperandNext (text.take k) → (∀ byte, text[k]? = some byte → ¬ StartsOperand byte) →
      Blamed text k .invalidPrimary
  | unbalancedParenthesis :
      OperandLast (text.take k) →
      (text.take k).count closeParen < (text.take k).count openParen →
      Blamed text k .unbalancedParenthesis
  | trailingInput :
      OperandLast (text.take k) → Balanced (text.take k) → k < text.length →
      Blamed text k .trailingInput
  | literalTooLarge :
      OperandNext (text.take k) →
      UInt64.size ≤ Literal.value ((text.drop k).takeWhile Literal.isDigit) →
      Blamed text k .literalTooLarge

/-- A literal that is too large starts an operand. -/
theorem startsOperand_of_value
    (h : UInt64.size ≤ Literal.value ((text.drop k).takeWhile Literal.isDigit)) :
    ∃ byte, text[k]? = some byte ∧ StartsOperand byte := by
  have hhead : (text.drop k).head? = text[k]? := List.head?_drop
  cases hrest : text.drop k with
  | nil =>
      rw [hrest] at h
      exact absurd h (by decide)
  | cons byte rest =>
      rw [hrest, List.head?_cons] at hhead
      refine ⟨byte, hhead.symm, .inl ?_⟩
      by_cases hdigit : Literal.isDigit byte = true
      · exact hdigit
      · rw [hrest, List.takeWhile_cons_of_neg hdigit] at h
        exact absurd h (by decide)

/-- At one offset there is one code. -/
theorem Blamed.unique {code code' : ErrorCode} (h : Blamed text k code)
    (h' : Blamed text k code') : code = code' := by
  cases h with
  | invalidPrimary hnext hno =>
      cases h' with
      | invalidPrimary => rfl
      | unbalancedParenthesis hlast _ => exact absurd hlast hnext.not_last
      | trailingInput hlast _ _ => exact absurd hlast hnext.not_last
      | literalTooLarge _ hvalue =>
          obtain ⟨byte, hbyte, hstarts⟩ := startsOperand_of_value hvalue
          exact absurd hstarts (hno byte hbyte)
  | unbalancedParenthesis hlast hopen =>
      cases h' with
      | invalidPrimary hnext _ => exact absurd hlast hnext.not_last
      | unbalancedParenthesis => rfl
      | trailingInput _ hbalanced _ =>
          rw [Balanced] at hbalanced
          omega
      | literalTooLarge hnext _ => exact absurd hlast hnext.not_last
  | trailingInput hlast hbalanced _ =>
      cases h' with
      | invalidPrimary hnext _ => exact absurd hlast hnext.not_last
      | unbalancedParenthesis _ hopen =>
          rw [Balanced] at hbalanced
          omega
      | trailingInput => rfl
      | literalTooLarge hnext _ => exact absurd hlast hnext.not_last
  | literalTooLarge hnext hvalue =>
      cases h' with
      | invalidPrimary _ hno =>
          obtain ⟨byte, hbyte, hstarts⟩ := startsOperand_of_value hvalue
          exact absurd hstarts (hno byte hbyte)
      | unbalancedParenthesis hlast _ => exact absurd hlast hnext.not_last
      | trailingInput hlast _ _ => exact absurd hlast hnext.not_last
      | literalTooLarge => rfl

/-- The mismatch that a machine finds is the one that the text decides. -/
theorem Rejects.blamed {mismatch : Mismatch} (h : Rejects text .expr 0 mismatch k) :
    Blamed text k mismatch.code := by
  cases h with
  | noOperand _ hframes hop hno =>
      have hnext := hframes.operandNext
      rw [extract_zero] at hnext
      refine .invalidPrimary hnext ?_
      intro byte hbyte hstarts
      obtain ⟨hdigit, hopen⟩ := hno byte hbyte
      rcases hstarts with hdigit' | hopen' | ⟨op, rfl⟩
      · rw [hdigit] at hdigit'
        cases hdigit'
      · exact hopen hopen'
      · rw [hbyte, Option.bind_some, UnaryOp.ofByte?_byte] at hop
        exact hop.elim nofun nofun
  | unclosed hjk _ hframes he _ _ =>
      have hread := extract_append text hframes.le (Nat.le_of_lt hjk)
      rw [extract_zero text k] at hread
      refine .unbalancedParenthesis ?_ ?_
      · rw [← hread]
        exact he.operandLast.prepend _
      · -- what the group holds is balanced, so it is still open
        have hlt := hframes.count_lt
        have hown := he.balanced
        rw [Balanced] at hown
        rw [← hread, List.count_append, List.count_append]
        omega
  | tooLarge hjk _ hframes hdigits hnext hvalue =>
      have hoperand := hframes.operandNext
      rw [extract_zero] at hoperand
      refine .literalTooLarge hoperand ?_
      rw [takeWhile_drop (Nat.le_of_lt hjk) hdigits hnext]
      exact hvalue

/-- What has been read where a mismatch is found can be completed. -/
theorem Rejects.viable {mismatch : Mismatch} (h : Rejects text .expr 0 mismatch k) :
    ∃ rest e, Derives .expr (text.take k ++ rest) e := by
  cases h with
  | noOperand _ hframes _ _ => exact hframes.viable
  | unclosed hjk _ hframes he _ _ =>
      obtain ⟨rest, e', he'⟩ := hframes.completes he
      rw [extract_append text hframes.le (Nat.le_of_lt hjk), extract_zero] at he'
      exact ⟨rest, e', he'⟩
  | tooLarge _ _ hframes _ _ _ => exact hframes.viable

/-- Reading to the end, with what the text says of the mismatch that is found. -/
theorem Cursor.parseToEnd_blamed (text : List UInt8) (options : Options) :
    ∃ r, Reading.Stops text ⟨.start .expr, 0⟩ r ∧
      ((∃ e, parseToEnd (along text options 0) = .ok e (along text options text.length)
          ∧ r.offset = text.length ∧ Derives .expr text e)
        ∨ ∃ (mismatch : Mismatch) (k : Nat), parseToEnd (along text options 0) =
            .error (.mismatch (mismatch.diagnosticAt text options k)) (along text options k)
          ∧ k ≤ text.length ∧ (∃ rest e, Derives .expr (text.take k ++ rest) e)
          ∧ Blamed text k mismatch.code ∧ (mismatch.code ≠ .literalTooLarge → k = r.offset)) := by
  obtain ⟨r, hstops, ⟨e, hparse, hr, he⟩ | ⟨mismatch, k, hparse, hcase⟩⟩ :=
    parseToEnd_cases options (Nat.zero_le text.length)
  · rw [extract_zero, List.take_length] at he
    exact ⟨r, hstops, .inl ⟨e, hparse, hr, he⟩⟩
  refine ⟨r, hstops, .inr ⟨mismatch, k, hparse, ?_⟩⟩
  rcases hcase with ⟨hrejects, hsite⟩ | ⟨e, byte, rfl, hbyte, hr, he⟩
  · refine ⟨hrejects.le_length, hrejects.viable, hrejects.blamed, fun hne => ?_⟩
    rcases hsite with hr | ⟨digits, rfl⟩
    · exact hr
    · exact absurd rfl hne
  · -- what has been read is an expression already, and needs nothing to complete it
    have hlt := (List.getElem?_eq_some_iff.1 hbyte).1
    rw [extract_zero] at he
    refine ⟨Nat.le_of_lt hlt, ⟨[], e, ?_⟩,
      .trailingInput he.operandLast he.balanced hlt, fun _ => hr⟩
    rwa [List.append_nil]

/-! ## Accepted texts -/

namespace Parser

variable {options : Options}

/-- A text that a new parser reads to its end. -/
def Accepts (options : Options) (text : List UInt8) : Prop :=
  ∃ p e p', ofSource (.ofBytes text) options = .ok p ∧ p.answer .toEnd = (.ok e, p')

theorem not_accepts_of_error {failure : Failure}
    (h : Cursor.parseToEnd (Cursor.along text options.toOptions 0)
      = .error failure (Cursor.along text options.toOptions k)) : ¬ Accepts options text := by
  intro haccepts
  obtain ⟨p, e, p', hopen, hanswer⟩ := haccepts
  rw [ofSource_ofBytes] at hopen
  cases hopen
  rw [answer_of_error options .toEnd h] at hanswer
  cases hanswer

/-- **The accepted texts are the expressions.** -/
theorem accepts_iff (options : Options) (text : List UInt8) :
    Accepts options text ↔ ∃ e, Derives .expr text e := by
  constructor
  · intro haccepts
    obtain ⟨p, e, p', hopen, hanswer⟩ := haccepts
    exact ⟨e, reads_iff.1 ⟨p, p', hopen, hanswer⟩⟩
  · intro hderives
    obtain ⟨e, he⟩ := hderives
    obtain ⟨p, p', hopen, hanswer⟩ := reads_iff.2 he
    exact ⟨p, e, p', hopen, hanswer⟩

/-- A text is not accepted where the machine stops before its end. -/
theorem not_accepts_of_stops {r : Reading} (h : Reading.Stops text ⟨.start .expr, 0⟩ r)
    (hlt : r.offset < text.length) : ¬ Accepts options text := by
  obtain ⟨r', h', ⟨e, -, hend, -⟩ | ⟨mismatch, k, hparse, -⟩⟩ :=
    Cursor.parseToEnd_blamed text options.toOptions
  · rw [h.unique h'] at hlt
    omega
  · exact not_accepts_of_error hparse

/-- Nothing that goes on with the byte on which the machine stops is accepted. -/
theorem not_accepts_take_append {r : Reading} (h : Reading.Stops text ⟨.start .expr, 0⟩ r)
    (hlt : r.offset < text.length) (rest : List UInt8) :
    ¬ Accepts options (text.take (r.offset + 1) ++ rest) := by
  have hlen : (text.take (r.offset + 1)).length = r.offset + 1 := List.length_take_of_le hlt
  have hsame : text.take (r.offset + 1)
      = (text.take (r.offset + 1) ++ rest).take (r.offset + 1) := by
    rw [List.take_left' hlen]
  -- the machine has seen nothing of `rest`, so it stops there too, and that is not the end
  refine not_accepts_of_stops (h.congr hlt hsame) ?_
  rw [List.length_append, hlen]
  omega

/--
**An error is found at the first byte that is wrong, and named for it.**

Where a new parser does not read a text in memory to its end, it has found a mismatch, and has
stopped at an offset. The text before begins an accepted text. With one byte more it does not,
unless a literal is what is blamed. And the code is the one that the text decides there.
-/
theorem toEnd_error_earliest {p₀ p : Parser} {failure : Failure}
    (hopen : ofSource (.ofBytes text) options = .ok p₀)
    (hanswer : p₀.answer .toEnd = (.error failure, p)) :
    ∃ diagnostic, failure = .mismatch diagnostic
      ∧ p.cursor.state.offset ≤ text.length
      ∧ (∃ rest, Accepts options (text.take p.cursor.state.offset ++ rest))
      ∧ (diagnostic.code ≠ .literalTooLarge → p.cursor.state.offset < text.length →
          ∀ rest, ¬ Accepts options (text.take (p.cursor.state.offset + 1) ++ rest))
      ∧ ∀ code, diagnostic.code = code ↔ Blamed text p.cursor.state.offset code := by
  rw [ofSource_ofBytes] at hopen
  cases hopen
  obtain ⟨r, hstops, ⟨e, hparse, -⟩ | ⟨mismatch, k, hparse, hk, hviable, hblamed, hsite⟩⟩ :=
    Cursor.parseToEnd_blamed text options.toOptions
  · rw [answer_of_ok options .toEnd hparse] at hanswer
    cases hanswer
  rw [answer_of_error options .toEnd hparse] at hanswer
  cases hanswer
  have hoffset : (along text options k).cursor.state.offset = k := Cursor.State.offset_along hk
  have hcode := mismatch.code_diagnosticAt text options.toOptions k
  rw [hoffset]
  refine ⟨_, rfl, hk, ?_, ?_, ?_⟩
  · obtain ⟨rest, e, he⟩ := hviable
    exact ⟨rest, (accepts_iff options _).2 ⟨e, he⟩⟩
  · intro hne hlt rest
    rw [hcode] at hne
    rw [hsite hne] at hlt ⊢
    exact not_accepts_take_append hstops hlt rest
  · intro code
    rw [hcode]
    constructor
    · intro heq
      rw [← heq]
      exact hblamed
    · exact hblamed.unique

/-- A group, and then a literal that is too large, where no operand can come. -/
def groupThenLiteral : List UInt8 := [openParen, 0x31, closeParen] ++ List.replicate 20 0x39

theorem answer_groupThenLiteral :
    (along groupThenLiteral {} 0).answer .toEnd =
      (.error (.mismatch ((Mismatch.trailing 0x39).diagnosticAt groupThenLiteral {} 3)),
        along groupThenLiteral {} 3) := by
  have hgroup : Derives .expr (groupThenLiteral.extract 0 3) (.number 1) :=
    .alone (.primary (.group (.alone (.primary (@Derives.digit 0x31 rfl)))))
  have hstop : StopsAt .expr groupThenLiteral 3 := by
    refine .inr ⟨0x39, rfl, ?_, ?_⟩
    · intro _ op
      cases op <;> decide
    · intro hdigits
      obtain ⟨last, hlast, hdigit, -⟩ := hdigits
      cases hlast
      cases hdigit
  exact answer_of_error {} .toEnd
    (Cursor.parseToEnd_trailing {} (Nat.zero_le 3) hgroup hstop rfl)

/-- `(1)` is all that can be completed of such a text. -/
theorem toEnd_error_after_group :
    ∃ p₀ p diagnostic, ofSource (.ofBytes groupThenLiteral) {} = .ok p₀
      ∧ p₀.answer .toEnd = (.error (.mismatch diagnostic), p)
      ∧ p.cursor.state.offset = 3
      ∧ diagnostic.code = .trailingInput
      ∧ (∃ rest, Accepts {} (groupThenLiteral.take 3 ++ rest))
      ∧ ∀ rest, ¬ Accepts {} (groupThenLiteral.take 4 ++ rest) := by
  have hopen := ofSource_ofBytes groupThenLiteral {}
  have hoffset : (along groupThenLiteral {} 3).cursor.state.offset = 3 := by decide
  obtain ⟨diagnostic, hfailure, -, hviable, hstuck, hcode⟩ :=
    toEnd_error_earliest hopen answer_groupThenLiteral
  rw [hoffset] at hviable hstuck hcode
  have htrailing : diagnostic.code = .trailingInput :=
    (hcode _).2 (.trailingInput ⟨closeParen, rfl, .inl rfl⟩ (by decide) (by decide))
  refine ⟨_, _, diagnostic, hopen, ?_, hoffset, htrailing, hviable, ?_⟩
  · rw [answer_groupThenLiteral, hfailure]
  · exact hstuck (by rw [htrailing]; decide) (by decide)

/-- A literal that is too large is not what is blamed where no operand can come. -/
theorem literalTooLarge_not_blamed :
    ¬ ∀ (text : List UInt8) (options : Options) (p₀ p : Parser) (diagnostic : Diagnostic),
      ofSource (.ofBytes text) options = .ok p₀ →
      p₀.answer .toEnd = (.error (.mismatch diagnostic), p) →
      (diagnostic.code = .literalTooLarge
        ↔ UInt64.size
          ≤ Literal.value ((text.drop p.cursor.state.offset).takeWhile Literal.isDigit)) := by
  intro h
  have hiff := h _ _ _ _ _ (ofSource_ofBytes groupThenLiteral {}) answer_groupThenLiteral
  rw [Mismatch.code_diagnosticAt] at hiff
  exact absurd (hiff.2 (by decide)) (by decide)

end Parser

end SeekParse

import SeekParse.Grammar.Derivation
import SeekParse.Proofs.Memory

/-!
# What a stack has read

The grammar says what a construct is written as, from its first byte to its last. A machine in the
middle of one has a stack of frames, and each frame has read a part of a construct. This file says
which part. `Awaits` is a derivation with a hole in it: the frames have read the text from where the
machine started up to an offset, and once a construct of the right kind follows there, they can go
on. `Spells` adds the phase, and is what every move of the machine keeps.

So a machine that stops has read what it says (`Spells.fits`). If it accepts, the text read derives
the tree, and the construct goes on no further. If it rejects, `Rejects` says at which byte, and why
the byte does not fit the frames.
-/

namespace SeekParse

variable {text : List UInt8}

/-! ## Parts of a text -/

theorem extract_self (text : List UInt8) (k : Nat) : text.extract k k = [] := by
  rw [List.extract_eq_take_drop, Nat.sub_self, List.take_zero]

theorem extract_zero (text : List UInt8) (k : Nat) : text.extract 0 k = text.take k := by
  rw [List.extract_eq_take_drop, List.drop_zero, Nat.sub_zero]

theorem length_extract {j k : Nat} (hk : k ≤ text.length) :
    (text.extract j k).length = k - j := by
  rw [List.extract_eq_take_drop, List.length_take, List.length_drop]
  omega

theorem extract_append (text : List UInt8) {j k l : Nat} (hjk : j ≤ k) (hkl : k ≤ l) :
    text.extract j k ++ text.extract k l = text.extract j l := by
  have hdrop : text.drop k = (text.drop j).drop (k - j) := by
    rw [List.drop_drop, Nat.add_sub_cancel' hjk]
  have hlen : l - j = k - j + (l - k) := by omega
  rw [List.extract_eq_take_drop, List.extract_eq_take_drop, List.extract_eq_take_drop, hdrop, hlen,
    List.take_add]

theorem extract_one {k : Nat} {byte : UInt8} (h : text[k]? = some byte) :
    text.extract k (k + 1) = [byte] := by
  obtain ⟨hlt, hbyte⟩ := List.getElem?_eq_some_iff.1 h
  rw [List.extract_eq_take_drop, Nat.add_sub_cancel_left, List.drop_eq_getElem_cons hlt, hbyte]
  rfl

theorem extract_succ {j k : Nat} {byte : UInt8} (hjk : j ≤ k) (h : text[k]? = some byte) :
    text.extract j (k + 1) = text.extract j k ++ [byte] := by
  rw [← extract_one h, extract_append text hjk (Nat.le_succ k)]

theorem extract_cons {j k : Nat} {byte : UInt8} (hjk : j < k) (h : text[j]? = some byte) :
    text.extract j k = byte :: text.extract (j + 1) k := by
  rw [← extract_append text (Nat.le_succ j) hjk, extract_one h]
  rfl

/-- What comes after a run does not go on with it. -/
theorem filter_takeWhile (p : UInt8 → Bool) (l : List UInt8) :
    l[(l.takeWhile p).length]?.filter p = none := by
  induction l with
  | nil => rfl
  | cons byte rest ih =>
      by_cases hbyte : p byte = true
      · rw [List.takeWhile_cons_of_pos hbyte, List.length_cons, List.getElem?_cons_succ]
        exact ih
      · rw [List.takeWhile_cons_of_neg hbyte, List.length_nil, List.getElem?_cons_zero,
          Option.filter_some, if_neg hbyte]

/-- A run of bytes that suit, as a part of the text: where it ends, and that it ends there. -/
theorem extract_run {p : UInt8 → Bool} {run : List UInt8} {i : Nat} (hi : i ≤ text.length)
    (hrun : (text.drop i).takeWhile p = run) :
    i + run.length ≤ text.length ∧ text.extract i (i + run.length) = run
      ∧ text[i + run.length]?.filter p = none := by
  have hprefix : run <+: text.drop i := by
    rw [← hrun]
    exact List.takeWhile_prefix p
  have hlen := hprefix.length_le
  rw [List.length_drop] at hlen
  refine ⟨by omega, ?_, ?_⟩
  · rw [List.extract_eq_take_drop, Nat.add_sub_cancel_left]
    exact (List.prefix_iff_eq_take.1 hprefix).symm
  · have hnext := filter_takeWhile p (text.drop i)
    rwa [hrun, List.getElem?_drop] at hnext

/-! ## Where a construct ends -/

/-- A construct of this kind that ends before an offset is one that the text does not continue: at
the offset the text ends, or there is a byte that cannot belong to it. No digit goes on a literal,
and no operator goes on an expression. -/
def StopsAt (rule : Rule) (text : List UInt8) (k : Nat) : Prop :=
  k = text.length ∨ ∃ next, text[k]? = some next
    ∧ (rule = .expr → ∀ op : BinaryOp, next ≠ op.byte)
    ∧ ¬ ∃ last, text[k - 1]? = some last ∧ Literal.isDigit last = true
      ∧ Literal.isDigit next = true

/-- A literal that no digit goes on has ended. -/
theorem stopsAt_of_not_digit {rule : Rule} {k : Nat} (hrule : rule ≠ .expr)
    (hk : k ≤ text.length) (h : text[k]?.filter Literal.isDigit = none) : StopsAt rule text k := by
  rcases Nat.lt_or_eq_of_le hk with hlt | heq
  · have hnext := List.getElem?_eq_getElem hlt
    rw [hnext, Option.filter_eq_none_iff] at h
    refine .inr ⟨_, hnext, fun he => absurd he hrule, ?_⟩
    intro hdigits
    obtain ⟨last, -, -, hdigit⟩ := hdigits
    exact h _ rfl hdigit
  · exact .inl heq

/-- Whatever comes after a byte that is no digit, it goes on no literal. -/
theorem stopsAt_of_last {rule : Rule} {k : Nat} {last : UInt8} (hrule : rule ≠ .expr)
    (hlast : text[k]? = some last) (h : Literal.isDigit last = false) :
    StopsAt rule text (k + 1) := by
  obtain ⟨hlt, -⟩ := List.getElem?_eq_some_iff.1 hlast
  rcases Nat.lt_or_eq_of_le (Nat.succ_le_of_lt hlt) with hlt' | heq
  · refine .inr ⟨_, List.getElem?_eq_getElem hlt', fun he => absurd he hrule, ?_⟩
    intro hdigits
    obtain ⟨last', hlast', hdigit, -⟩ := hdigits
    rw [Nat.add_sub_cancel, hlast] at hlast'
    cases hlast'
    rw [h] at hdigit
    cases hdigit
  · exact .inl heq

/-- An operand that no operator follows ends the expression. -/
theorem StopsAt.expr {rule : Rule} {k : Nat} (h : StopsAt rule text k)
    (hop : text[k]?.bind BinaryOp.ofByte? = none) : StopsAt .expr text k := by
  rcases h with heq | ⟨next, hnext, -, hdigits⟩
  · exact .inl heq
  · refine .inr ⟨next, hnext, fun _ op hb => ?_, hdigits⟩
    rw [hnext, Option.bind_some, BinaryOp.ofByte?_eq_some_iff.2 hb] at hop
    cases hop

/-- What ends an expression ends every construct. -/
theorem StopsAt.weaken {rule rule' : Rule} {k : Nat} (h : StopsAt rule text k)
    (hrule : rule' = .expr → rule = .expr) : StopsAt rule' text k := by
  rcases h with heq | ⟨next, hnext, hop, hdigits⟩
  · exact .inl heq
  · exact .inr ⟨next, hnext, fun he => hop (hrule he), hdigits⟩

theorem isDigit_closeParen : Literal.isDigit closeParen = false := by decide

theorem isDigit_unaryOp (op : UnaryOp) : Literal.isDigit op.byte = false := by
  cases op <;> decide

theorem isDigit_binaryOp (op : BinaryOp) : Literal.isDigit op.byte = false := by
  cases op <;> decide

/-! ## Frames -/

/-- The operands of a chain so far, each with the operator after it, the last first: where the first
of them begins, and where the next one is to begin. -/
inductive Operands (text : List UInt8) (start : Nat) : List (Expr × BinaryOp) → Nat → Prop where
  | nil : Operands text start [] start
  | cons {before : List (Expr × BinaryOp)} {e : Expr} {j k : Nat} (op : BinaryOp) :
      Operands text start before j → j < k → Derives .unary (text.extract j k) e →
      text[k]? = some op.byte → Operands text start ((e, op) :: before) (k + 1)

/--
`Awaits text root start frames rule k`: a machine that started at `start` to read a `root` has read
the text up to `k` into these frames, and a construct of kind `rule` is what they need there.

Where a unary expression is needed, a primary will do.
-/
inductive Awaits (text : List UInt8) (root : Rule) (start : Nat) :
    List Frame → Rule → Nat → Prop where
  | root : Awaits text root start [] root start
  | applied {frames : List Frame} {k : Nat} (op : UnaryOp) :
      Awaits text root start frames .unary k → text[k]? = some op.byte →
      Awaits text root start (.applied op :: frames) .unary (k + 1)
  | chain {frames : List Frame} {before : List (Expr × BinaryOp)} {j k : Nat} :
      Awaits text root start frames .expr j → Operands text j before k →
      Awaits text root start (.chain before :: frames) .unary k
  | group {frames : List Frame} {k : Nat} :
      Awaits text root start frames .primary k → text[k]? = some openParen →
      Awaits text root start (.group (Cursor.State.along text k).location :: frames) .expr (k + 1)
  | primary {frames : List Frame} {k : Nat} :
      Awaits text root start frames .unary k → Awaits text root start frames .primary k

theorem Operands.le {start k : Nat} {before : List (Expr × BinaryOp)}
    (h : Operands text start before k) : start ≤ k := by
  induction h with
  | nil => exact Nat.le_refl _
  | cons op _ hjk _ _ ih => omega

variable {root rule : Rule} {start k : Nat} {frames : List Frame} {e : Expr}

theorem Awaits.le (h : Awaits text root start frames rule k) : start ≤ k := by
  induction h with
  | root => exact Nat.le_refl _
  | applied op _ _ ih => exact Nat.le_succ_of_le ih
  | chain _ hoperands ih => exact Nat.le_trans ih hoperands.le
  | group _ _ ih => exact Nat.le_succ_of_le ih
  | primary _ ih => exact ih

/-- With one more operand and the links after it, the operands before are an expression. -/
theorem Operands.derives {j k : Nat} {before : List (Expr × BinaryOp)}
    (h : Operands text j before k) {operand more : List UInt8} {e : Expr}
    {links : List (BinaryOp × Expr)} (he : Derives .unary operand e)
    (hlinks : DerivesLinks more links) :
    Derives .expr (text.extract j k ++ operand ++ more) (Expr.ofChainAround before e links) := by
  induction h generalizing operand more e links with
  | nil =>
      rw [extract_self]
      exact he.ofChain hlinks
  | @cons before e' i k op hbefore hik he' hop ih =>
      -- the last operand before becomes the operand, and this one its first link
      have hgo := ih he' (.cons op he hlinks)
      have htext : text.extract j (k + 1) ++ operand ++ more
          = text.extract j i ++ text.extract i k ++ (op.byte :: operand ++ more) := by
        rw [extract_succ (Nat.le_trans hbefore.le (Nat.le_of_lt hik)) hop,
          extract_append text hbefore.le (Nat.le_of_lt hik)]
        simp
      rw [htext]
      exact hgo

/-! ## What the topmost frame says -/

theorem Awaits.of_nil (h : Awaits text root start [] rule k) :
    k = start ∧ (rule = root ∨ rule = .primary ∧ root = .unary) := by
  cases h with
  | root => exact ⟨rfl, .inl rfl⟩
  | primary h =>
      cases h
      exact ⟨rfl, .inr ⟨rfl, rfl⟩⟩

theorem Awaits.of_applied {op : UnaryOp}
    (h : Awaits text root start (.applied op :: frames) rule k) :
    rule ≠ .expr ∧ ∃ j, k = j + 1 ∧ Awaits text root start frames .unary j
      ∧ text[j]? = some op.byte := by
  cases h with
  | applied _ h hop => exact ⟨nofun, _, rfl, h, hop⟩
  | primary h =>
      cases h with
      | applied _ h hop => exact ⟨nofun, _, rfl, h, hop⟩

theorem Awaits.of_chain {before : List (Expr × BinaryOp)}
    (h : Awaits text root start (.chain before :: frames) rule k) :
    rule ≠ .expr ∧ ∃ j, Awaits text root start frames .expr j ∧ Operands text j before k := by
  cases h with
  | chain h hoperands => exact ⟨nofun, _, h, hoperands⟩
  | primary h =>
      cases h with
      | chain h hoperands => exact ⟨nofun, _, h, hoperands⟩

theorem Awaits.of_group {opened : Location}
    (h : Awaits text root start (.group opened :: frames) rule k) :
    rule = .expr ∧ ∃ j, k = j + 1 ∧ Awaits text root start frames .primary j
      ∧ text[j]? = some openParen ∧ opened = (Cursor.State.along text j).location := by
  cases h with
  | group h hopen => exact ⟨rfl, _, rfl, h, hopen, rfl⟩
  | primary h => cases h

/-- What will do as an operand is one. -/
theorem Derives.unary_of_ne {own : List UInt8} (h : Derives rule own e) (hrule : rule ≠ .expr) :
    Derives .unary own e := by
  cases rule with
  | expr => exact absurd rfl hrule
  | unary => exact h
  | primary => exact .primary h

/-! ## What a machine has read -/

/--
What a machine that started at `start` to read a `root` has made of the text up to where it is.

Each phase has read something the frames have not: nothing yet, the digits of a literal, or a
construct that is complete and that the text does not continue. A machine that expects a primary has
looked for a prefix operator first, unless a primary was all it was to read.
-/
inductive Spells (text : List UInt8) (root : Rule) (start : Nat) : Reading → Prop where
  | expecting {frames : List Frame} {rule : Rule} {k : Nat} :
      k ≤ text.length → Awaits text root start frames rule k →
      (rule = .primary → root = .primary ∨ text[k]?.bind UnaryOp.ofByte? = none) →
      Spells text root start ⟨⟨frames, .expecting rule⟩, k⟩
  | digits {frames : List Frame} {j k : Nat} :
      j < k → k ≤ text.length → Awaits text root start frames .primary j →
      (∀ digit ∈ text.extract j k, Literal.isDigit digit = true) →
      Spells text root start
        ⟨⟨frames, .digits (Cursor.State.along text j) (text.extract j k).reverse⟩, k⟩
  | built {frames : List Frame} {rule : Rule} {e : Expr} {j k : Nat} :
      j < k → k ≤ text.length → Awaits text root start frames rule j →
      Derives rule (text.extract j k) e → StopsAt rule text k →
      Spells text root start ⟨⟨frames, .built e⟩, k⟩

/-- A machine starts with nothing read. -/
theorem spells_start (root : Rule) (hstart : start ≤ text.length) :
    Spells text root start ⟨.start root, start⟩ :=
  .expecting hstart .root fun h => .inl h

theorem Spells.offset_le_length {r : Reading} (h : Spells text root start r) :
    r.offset ≤ text.length := by
  cases h with
  | expecting hk _ _ => exact hk
  | digits _ hk _ _ => exact hk
  | built _ hk _ _ _ => exact hk

/-! ## Steps, read off the text -/

namespace Reading

theorem step_unary (frames : List Frame) (k : Nat) :
    step text ⟨⟨frames, .expecting .unary⟩, k⟩ =
      match text[k]?.bind UnaryOp.ofByte? with
      | some op => .take ⟨.applied op :: frames, .expecting .unary⟩
      | none => .turn ⟨frames, .expecting .primary⟩ := by
  rw [← Cursor.State.current_along text k]
  rfl

theorem step_primary (frames : List Frame) (k : Nat) :
    step text ⟨⟨frames, .expecting .primary⟩, k⟩ =
      match text[k]? with
      | none => .reject (.noOperand none) none
      | some byte =>
        if Literal.isDigit byte then .take ⟨frames, .digits (Cursor.State.along text k) [byte]⟩
        else if byte = openParen then
          .take ⟨.group (Cursor.State.along text k).location :: frames, .expecting .expr⟩
        else .reject (.noOperand (some byte)) none := by
  rw [← Cursor.State.current_along text k]
  rfl

theorem step_digits (frames : List Frame) (site : Cursor.State) (taken : List UInt8) (k : Nat) :
    step text ⟨⟨frames, .digits site taken⟩, k⟩ =
      match text[k]?.filter Literal.isDigit with
      | some byte => .take ⟨frames, .digits site (byte :: taken)⟩
      | none =>
        match Literal.ofDigits? taken.reverse with
        | some value => .turn ⟨frames, .built (.number value)⟩
        | none => .reject (.tooLarge taken.reverse) (some site) := by
  rw [← Cursor.State.current_along text k]
  rfl

theorem step_chain (frames : List Frame) (before : List (Expr × BinaryOp)) (e : Expr) (k : Nat) :
    step text ⟨⟨.chain before :: frames, .built e⟩, k⟩ =
      match text[k]?.bind BinaryOp.ofByte? with
      | some op => .take ⟨.chain ((e, op) :: before) :: frames, .expecting .unary⟩
      | none => .turn ⟨frames, .built (.ofChainAround before e [])⟩ := by
  rw [← Cursor.State.current_along text k]
  rfl

theorem step_group (frames : List Frame) (opened : Location) (e : Expr) (k : Nat) :
    step text ⟨⟨.group opened :: frames, .built e⟩, k⟩ =
      if text[k]? = some closeParen then .take ⟨frames, .built e⟩
      else .reject (.unclosed opened text[k]?) none := by
  simp only [step, Machine.step, Machine.deliver, Cursor.State.current_along]

end Reading

/-! ## What a machine does with what it has read -/

/-- Which mismatch is found at which byte, and what the frames have read that it does not fit. -/
inductive Rejects (text : List UInt8) (root : Rule) (start : Nat) : Mismatch → Nat → Prop where
  | noOperand {frames : List Frame} {k : Nat} :
      k ≤ text.length → Awaits text root start frames .primary k →
      (root = .primary ∨ text[k]?.bind UnaryOp.ofByte? = none) →
      (∀ byte, text[k]? = some byte → Literal.isDigit byte = false ∧ byte ≠ openParen) →
      Rejects text root start (.noOperand text[k]?) k
  | unclosed {frames : List Frame} {opened : Location} {e : Expr} {j k : Nat} :
      j < k → k ≤ text.length → Awaits text root start (.group opened :: frames) .expr j →
      Derives .expr (text.extract j k) e → StopsAt .expr text k →
      text[k]? ≠ some closeParen →
      Rejects text root start (.unclosed opened text[k]?) k
  | tooLarge {frames : List Frame} {j k : Nat} :
      j < k → k ≤ text.length → Awaits text root start frames .primary j →
      (∀ digit ∈ text.extract j k, Literal.isDigit digit = true) →
      text[k]?.filter Literal.isDigit = none →
      Literal.largest < Literal.value (text.extract j k) →
      Rejects text root start (.tooLarge (text.extract j k)) j

theorem Rejects.le_length {mismatch : Mismatch} (h : Rejects text root start mismatch k) :
    k ≤ text.length := by
  cases h with
  | noOperand hk _ _ _ => exact hk
  | unclosed _ hk _ _ _ _ => exact hk
  | tooLarge hjk hk _ _ _ _ => omega

/-- A step that fits what has been read up to `k`. If it goes on, it goes on with what has been read
then. If it accepts, what has been read is the construct. If it rejects, the text does not fit: at
`k`, unless a literal is what is rejected. -/
def Step.Fits (text : List UInt8) (root : Rule) (start k : Nat) : Step → Prop
  | .take next => Spells text root start ⟨next, k + 1⟩
  | .turn next => Spells text root start ⟨next, k⟩
  | .accept e => Derives root (text.extract start k) e ∧ StopsAt root text k
  | .reject mismatch site => ∃ j, Rejects text root start mismatch j
      ∧ (site = none ∧ j = k
        ∨ site = some (Cursor.State.along text j) ∧ ∃ digits, mismatch = .tooLarge digits)

theorem fits_unary (hk : k ≤ text.length) (h : Awaits text root start frames .unary k) :
    (Reading.step text ⟨⟨frames, .expecting .unary⟩, k⟩).Fits text root start k := by
  rw [Reading.step_unary]
  cases hop : text[k]?.bind UnaryOp.ofByte? with
  | none => exact .expecting hk (.primary h) fun _ => .inr hop
  | some op =>
      obtain ⟨byte, hbyte, hop'⟩ := Option.bind_eq_some_iff.1 hop
      rw [UnaryOp.ofByte?_eq_some_iff.1 hop'] at hbyte
      obtain ⟨hlt, -⟩ := List.getElem?_eq_some_iff.1 hbyte
      exact .expecting hlt (.applied op h hbyte) nofun

theorem fits_primary (hk : k ≤ text.length) (h : Awaits text root start frames .primary k)
    (hop : root = .primary ∨ text[k]?.bind UnaryOp.ofByte? = none) :
    (Reading.step text ⟨⟨frames, .expecting .primary⟩, k⟩).Fits text root start k := by
  rw [Reading.step_primary]
  cases hbyte : text[k]? with
  | none =>
      have hrejects := Rejects.noOperand hk h hop (by rw [hbyte]; exact nofun)
      rw [hbyte] at hrejects
      exact ⟨k, hrejects, .inl ⟨rfl, rfl⟩⟩
  | some byte =>
      obtain ⟨hlt, -⟩ := List.getElem?_eq_some_iff.1 hbyte
      dsimp only
      by_cases hdigit : Literal.isDigit byte = true
      · rw [if_pos hdigit]
        have htaken : [byte] = (text.extract k (k + 1)).reverse := by
          rw [extract_one hbyte]
          rfl
        rw [htaken]
        refine .digits (Nat.lt_succ_self k) hlt h ?_
        rw [extract_one hbyte]
        simpa using hdigit
      · rw [if_neg hdigit]
        -- what is neither a digit nor opens a group starts no operand
        by_cases hopen : byte = openParen
        · rw [if_pos hopen]
          subst hopen
          exact .expecting hlt (.group h hbyte) nofun
        · rw [if_neg hopen]
          have hno : ∀ byte', text[k]? = some byte' →
              Literal.isDigit byte' = false ∧ byte' ≠ openParen := by
            intro byte' hbyte'
            rw [hbyte] at hbyte'
            cases hbyte'
            exact ⟨Bool.eq_false_iff.2 hdigit, hopen⟩
          have hrejects := Rejects.noOperand hk h hop hno
          rw [hbyte] at hrejects
          exact ⟨k, hrejects, .inl ⟨rfl, rfl⟩⟩

theorem fits_digits {j : Nat} (hjk : j < k) (hk : k ≤ text.length)
    (h : Awaits text root start frames .primary j)
    (hdigits : ∀ digit ∈ text.extract j k, Literal.isDigit digit = true) :
    (Reading.step text
      ⟨⟨frames, .digits (Cursor.State.along text j) (text.extract j k).reverse⟩, k⟩).Fits
        text root start k := by
  rw [Reading.step_digits, List.reverse_reverse]
  cases hnext : text[k]?.filter Literal.isDigit with
  | some byte =>
      obtain ⟨hbyte, hdigit⟩ := Option.filter_eq_some_iff.1 hnext
      obtain ⟨hlt, -⟩ := List.getElem?_eq_some_iff.1 hbyte
      have hrun := extract_succ (Nat.le_of_lt hjk) hbyte
      have htaken : byte :: (text.extract j k).reverse = (text.extract j (k + 1)).reverse := by
        rw [hrun, List.reverse_append]
        rfl
      dsimp only
      rw [htaken]
      refine .digits (Nat.lt_succ_of_lt hjk) hlt h ?_
      intro digit hmem
      rw [hrun, List.mem_append, List.mem_singleton] at hmem
      rcases hmem with hmem | rfl
      · exact hdigits digit hmem
      · exact hdigit
  | none =>
      -- the run has ended, and it is all of a literal or none at all
      dsimp only
      rw [Literal.ofDigits?_eq]
      by_cases hfits : Literal.value (text.extract j k) ≤ Literal.largest
      · rw [if_pos hfits]
        have hne : text.extract j k ≠ [] := by
          intro hnil
          have hlen := length_extract (j := j) hk
          rw [hnil, List.length_nil] at hlen
          omega
        exact .built hjk hk h (.number hne hdigits hfits) (stopsAt_of_not_digit nofun hk hnext)
      · rw [if_neg hfits]
        exact ⟨j, .tooLarge hjk hk h hdigits hnext (Nat.not_le.1 hfits), .inr ⟨rfl, _, rfl⟩⟩

theorem fits_built {j : Nat} (hjk : j < k) (hk : k ≤ text.length)
    (h : Awaits text root start frames rule j) (he : Derives rule (text.extract j k) e)
    (hstop : StopsAt rule text k) :
    (Reading.step text ⟨⟨frames, .built e⟩, k⟩).Fits text root start k := by
  cases frames with
  | nil =>
      obtain ⟨rfl, rfl | ⟨rfl, rfl⟩⟩ := h.of_nil
      · exact ⟨he, hstop⟩
      · exact ⟨.primary he, hstop.weaken nofun⟩
  | cons frame frames =>
      cases frame with
      | applied op =>
          obtain ⟨hrule, i, rfl, hi, hop⟩ := h.of_applied
          refine .built (j := i) (by omega) hk hi ?_ (hstop.weaken nofun)
          rw [extract_cons (by omega) hop]
          exact .applied op (he.unary_of_ne hrule)
      | chain before =>
          obtain ⟨hrule, i, hi, hoperands⟩ := h.of_chain
          have hunary := he.unary_of_ne hrule
          rw [Reading.step_chain]
          cases hnext : text[k]?.bind BinaryOp.ofByte? with
          | some op =>
              obtain ⟨byte, hbyte, hop⟩ := Option.bind_eq_some_iff.1 hnext
              rw [BinaryOp.ofByte?_eq_some_iff.1 hop] at hbyte
              obtain ⟨hlt, -⟩ := List.getElem?_eq_some_iff.1 hbyte
              exact .expecting hlt (.chain hi (.cons op hoperands hjk hunary hbyte)) nofun
          | none =>
              -- no operator follows, so this operand was the last one
              have hchain := hoperands.derives hunary .nil
              rw [List.append_nil, extract_append text hoperands.le (Nat.le_of_lt hjk)] at hchain
              exact .built (Nat.lt_of_le_of_lt hoperands.le hjk) hk hi hchain (hstop.expr hnext)
      | group opened =>
          obtain ⟨rfl, i, rfl, hi, hopen, -⟩ := h.of_group
          rw [Reading.step_group]
          by_cases hclose : text[k]? = some closeParen
          · rw [if_pos hclose]
            obtain ⟨hlt, -⟩ := List.getElem?_eq_some_iff.1 hclose
            -- with both parentheses, what has been read is a primary
            refine Spells.built (j := i) (by omega) hlt hi ?_
              (stopsAt_of_last nofun hclose isDigit_closeParen)
            rw [extract_succ (by omega) hclose, extract_cons (by omega) hopen]
            exact .group he
          · rw [if_neg hclose]
            exact ⟨k, .unclosed hjk hk h he hstop hclose, .inl ⟨rfl, rfl⟩⟩

/-- **Every step fits what has been read.** -/
theorem Spells.fits {r : Reading} (h : Spells text root start r) :
    (r.step text).Fits text root start r.offset := by
  cases h with
  | @expecting frames rule k hk h hop =>
      cases rule with
      | expr => exact .expecting hk (.chain h .nil) nofun
      | unary => exact fits_unary hk h
      | primary => exact fits_primary hk h (hop rfl)
  | digits hjk hk h hdigits => exact fits_digits hjk hk h hdigits
  | built hjk hk h he hstop => exact fits_built hjk hk h he hstop

/-- **What has been read is kept by every move.** -/
theorem Spells.moves {r r' : Reading} (h : Spells text root start r)
    (hmoves : Reading.Moves text r r') : Spells text root start r' := by
  induction hmoves with
  | refl => exact h
  | tail _ hmove ih =>
      have hfits := ih.fits
      cases hmove with
      | take hstep =>
          rw [hstep] at hfits
          exact hfits
      | turn hstep =>
          rw [hstep] at hfits
          exact hfits

end SeekParse

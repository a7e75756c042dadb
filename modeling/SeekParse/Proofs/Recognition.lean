import SeekParse.Proofs.Frames

/-!
# The parser accepts the grammar

What the machine accepts has been read into its frames, so it is derived (`Spells.fits`). This file
has the other direction and puts the two together. A text that derives a tree is read as that tree,
whatever the frames below, provided that the construct stops where the text does: this goes by
induction on the derivation, and is where the machine has to decide, byte by byte, as the derivation
has.

* `parse_cases`: in memory, reading a construct either accepts what the grammar derives, or finds a
  mismatch at a byte that does not fit.
* `construct_ok_iff`: a call accepts a construct exactly where the grammar has one that the text
  does not continue.

A literal is continued by any digit, and an expression by any operator. An operand is not continued
by an operator: `1` is all of the unary expression at the start of `1+2`.
-/

namespace SeekParse

variable {text : List UInt8} {options : Cursor.Options} {rule : Rule}

/-! ## Bytes that decide -/

theorem unaryOp_of_digit {byte : UInt8} (h : Literal.isDigit byte = true) :
    UnaryOp.ofByte? byte = none := by
  cases hop : UnaryOp.ofByte? byte with
  | none => rfl
  | some op =>
      rw [UnaryOp.ofByte?_eq_some_iff.1 hop, isDigit_unaryOp] at h
      cases h

/-- A digit is a literal by itself. -/
theorem Derives.digit {digit : UInt8} (h : Literal.isDigit digit = true) :
    Derives .primary [digit] (.number (UInt64.ofNat (Literal.digitValue digit))) := by
  have hvalue : Literal.value [digit] = Literal.digitValue digit := by
    rw [Literal.value, List.foldl_cons, List.foldl_nil, Nat.zero_mul, Nat.zero_add]
  have hfits : Literal.digitValue digit ≤ Literal.largest := by
    have := digit.toNat_lt
    rw [Literal.digitValue, Literal.largest_eq]
    omega
  rw [← hvalue]
  refine .number (List.cons_ne_nil _ _) ?_ (by rwa [hvalue])
  intro digit' hmem
  rwa [List.mem_singleton.1 hmem]

/-- No primary begins with a prefix operator. -/
theorem Derives.head_of_primary {own : List UInt8} {e : Expr} (h : Derives .primary own e) :
    ∃ byte more, own = byte :: more ∧ UnaryOp.ofByte? byte = none := by
  cases h with
  | @number digits hne hdigits hfits =>
      obtain ⟨digit, more, rfl⟩ := List.exists_cons_of_ne_nil hne
      exact ⟨digit, more, rfl, unaryOp_of_digit (hdigits digit (List.mem_cons_self ..))⟩
  | @group own e h => exact ⟨openParen, own ++ [closeParen], rfl, by decide⟩

/-- Whatever comes before a byte that is no digit, it goes on no literal. -/
theorem stopsAt_of_next {k : Nat} {next : UInt8} (hrule : rule ≠ .expr)
    (hnext : text[k]? = some next) (h : Literal.isDigit next = false) : StopsAt rule text k := by
  refine .inr ⟨next, hnext, fun he => absurd he hrule, ?_⟩
  intro hdigits
  obtain ⟨last, -, -, hdigit⟩ := hdigits
  rw [h] at hdigit
  cases hdigit

/-- What is read between two offsets is read in parts. -/
theorem extract_eq_append {i k : Nat} {own more : List UInt8} (hik : i ≤ k) (hk : k ≤ text.length)
    (h : text.extract i k = own ++ more) :
    i + own.length ≤ k ∧ text.extract i (i + own.length) = own
      ∧ text.extract (i + own.length) k = more := by
  have hlen := congrArg List.length h
  rw [length_extract hk, List.length_append] at hlen
  have hle : i + own.length ≤ k := by omega
  have hsplit := extract_append text (Nat.le_add_right i own.length) hle
  rw [h] at hsplit
  have hown : (text.extract i (i + own.length)).length = own.length := by
    rw [length_extract (Nat.le_trans hle hk), Nat.add_sub_cancel_left]
  obtain ⟨h₁, h₂⟩ := List.append_inj hsplit hown
  exact ⟨hle, h₁, h₂⟩

theorem getElem?_of_extract {i k : Nat} {byte : UInt8} {more : List UInt8} (hk : k ≤ text.length)
    (h : text.extract i k = byte :: more) : i < k ∧ text[i]? = some byte := by
  have hlen := congrArg List.length h
  rw [length_extract hk, List.length_cons] at hlen
  have hlt : i < k := by omega
  have hbyte := List.getElem?_eq_getElem (Nat.lt_of_lt_of_le hlt hk)
  rw [extract_cons hlt hbyte] at h
  cases h
  exact ⟨hlt, hbyte⟩

/-- An operand stops where the links of its chain begin, or where the chain ends. -/
theorem stopsAt_of_links {more : List UInt8} {links : List (BinaryOp × Expr)} {i k : Nat}
    (hik : i ≤ k) (hk : k ≤ text.length) (hmore : text.extract i k = more)
    (hstop : StopsAt .expr text k) (h : DerivesLinks more links) : StopsAt .unary text i := by
  cases h with
  | nil =>
      have hlen := length_extract (j := i) hk
      rw [hmore, List.length_nil] at hlen
      obtain rfl : i = k := by omega
      exact hstop.weaken nofun
  | cons op _ _ =>
      obtain ⟨-, hbyte⟩ := getElem?_of_extract hk hmore
      exact stopsAt_of_next nofun hbyte (isDigit_binaryOp op)

/-! ## What is derived is read -/

namespace Reading

theorem Moves.trans {r r' r'' : Reading} (h : Moves text r r') (h' : Moves text r' r'') :
    Moves text r r'' :=
  Relation.ReflTransGen.trans h h'

theorem Moves.take {r : Reading} {m next : Machine} {i : Nat} (h : Moves text r ⟨m, i⟩)
    (hstep : step text ⟨m, i⟩ = .take next) : Moves text r ⟨next, i + 1⟩ :=
  h.tail (.take hstep)

theorem Moves.turn {r : Reading} {m next : Machine} {i : Nat} (h : Moves text r ⟨m, i⟩)
    (hstep : step text ⟨m, i⟩ = .turn next) : Moves text r ⟨next, i⟩ :=
  h.tail (.turn hstep)

/-- A literal is read to the last digit of its run. -/
theorem moves_digits {frames : List Frame} {site : Cursor.State} {i j : Nat} (hij : i < j) (k : Nat)
    (hjk : j ≤ k) (hk : k ≤ text.length)
    (hdigits : ∀ digit ∈ text.extract i k, Literal.isDigit digit = true) :
    Moves text ⟨⟨frames, .digits site (text.extract i j).reverse⟩, j⟩
      ⟨⟨frames, .digits site (text.extract i k).reverse⟩, k⟩ := by
  induction hjk with
  | refl => exact .refl
  | @step k hjk ih =>
      have hjk : j ≤ k := hjk
      have hbyte := List.getElem?_eq_getElem (show k < text.length from hk)
      have hrun := extract_succ (j := i) (by omega) hbyte
      rw [hrun] at hdigits ⊢
      have hdigit : Literal.isDigit text[k] = true := hdigits _ (by simp)
      -- up to the last digit by induction, and one step for that one
      have hmoves := ih (by omega) fun digit hmem => hdigits digit (by simp [hmem])
      refine hmoves.take ?_
      rw [step_digits, hbyte, Option.filter_some, if_pos hdigit, List.reverse_append]
      rfl

/-- A run of digits is taken digit by digit. -/
theorem moves_run {frames : List Frame} {i k : Nat} (hik : i < k) (hk : k ≤ text.length)
    (hdigits : ∀ digit ∈ text.extract i k, Literal.isDigit digit = true) :
    Moves text ⟨⟨frames, .expecting .primary⟩, i⟩
      ⟨⟨frames, .digits (Cursor.State.along text i) (text.extract i k).reverse⟩, k⟩ := by
  have hbyte := List.getElem?_eq_getElem (show i < text.length by omega)
  have hfirst : Literal.isDigit text[i] = true :=
    hdigits _ (by rw [extract_cons hik hbyte]; exact List.mem_cons_self ..)
  have hstart : Moves text ⟨⟨frames, .expecting .primary⟩, i⟩
      ⟨⟨frames, .digits (Cursor.State.along text i) (text.extract i (i + 1)).reverse⟩, i + 1⟩ := by
    refine Moves.take .refl ?_
    rw [step_primary, hbyte, extract_one hbyte]
    exact if_pos hfirst
  exact hstart.trans (moves_digits (Nat.lt_succ_self i) k hik hk hdigits)

/-- A run of digits is read as its value. -/
theorem moves_number {frames : List Frame} {i k : Nat} (hik : i < k) (hk : k ≤ text.length)
    (hdigits : ∀ digit ∈ text.extract i k, Literal.isDigit digit = true)
    (hfits : Literal.value (text.extract i k) ≤ Literal.largest)
    (hstop : StopsAt .primary text k) :
    Moves text ⟨⟨frames, .expecting .primary⟩, i⟩
      ⟨⟨frames, .built (.number (UInt64.ofNat (Literal.value (text.extract i k))))⟩, k⟩ := by
  -- the run has ended, because its last byte is a digit
  have hnext : text[k]?.filter Literal.isDigit = none := by
    rcases hstop with heq | ⟨next, hnext, -, hno⟩
    · rw [heq, List.getElem?_eq_none (Nat.le_refl _)]
      rfl
    · rw [hnext, Option.filter_eq_none_iff]
      intro next' heq hdigit
      cases heq
      have hlast := List.getElem?_eq_getElem (show k - 1 < text.length by omega)
      have hmem : text[k - 1] ∈ text.extract i k := by
        have hrun := extract_succ (j := i) (by omega) hlast
        rw [Nat.sub_add_cancel (by omega)] at hrun
        rw [hrun]
        simp
      exact hno ⟨_, hlast, hdigits _ hmem, hdigit⟩
  refine (moves_run hik hk hdigits).turn ?_
  rw [step_digits, hnext, List.reverse_reverse, Literal.ofDigits?_eq, if_pos hfits]

/-- A run of digits that has no value is blamed where it started. -/
theorem step_tooLarge {frames : List Frame} {site : Cursor.State} {digits : List UInt8} {k : Nat}
    (hnext : text[k]?.filter Literal.isDigit = none)
    (hlarge : Literal.largest < Literal.value digits) :
    step text ⟨⟨frames, .digits site digits.reverse⟩, k⟩
      = .reject (.tooLarge digits) (some site) := by
  rw [step_digits, hnext, List.reverse_reverse, Literal.ofDigits?_eq,
    if_neg (Nat.not_le.2 hlarge)]

/-- A chain ends where the text does, or goes on with no operator. -/
theorem moves_chainEnd {frames : List Frame} {before : List (Expr × BinaryOp)} {e : Expr} {k : Nat}
    (hstop : StopsAt .expr text k) :
    Moves text ⟨⟨.chain before :: frames, .built e⟩, k⟩
      ⟨⟨frames, .built (Expr.ofChainAround before e [])⟩, k⟩ := by
  have hnext : text[k]?.bind BinaryOp.ofByte? = none := by
    rcases hstop with heq | ⟨next, hnext, hop, -⟩
    · rw [heq, List.getElem?_eq_none (Nat.le_refl _)]
      rfl
    · rw [hnext, Option.bind_some, Option.eq_none_iff_forall_ne_some]
      intro op hb
      exact hop rfl op (BinaryOp.ofByte?_eq_some_iff.1 hb)
  refine Moves.turn .refl ?_
  rw [step_chain, hnext]

mutual

/-- **What derives a tree is read as that tree**, whatever the frames below. -/
theorem moves_of_derives {rule : Rule} {own : List UInt8} {e : Expr} {frames : List Frame}
    {i k : Nat} (hik : i ≤ k) (hk : k ≤ text.length) (hown : text.extract i k = own)
    (hstop : StopsAt rule text k) :
    Derives rule own e →
      Moves text ⟨⟨frames, .expecting rule⟩, i⟩ ⟨⟨frames, .built e⟩, k⟩
  | .number hne hdigits hfits => by
      subst hown
      have hlt : i < k := by
        rcases Nat.lt_or_eq_of_le hik with hlt | rfl
        · exact hlt
        · exact absurd (extract_self text i) hne
      exact moves_number hlt hk hdigits hfits hstop
  | @Derives.group inner _ h => by
      obtain ⟨hlt, hopen⟩ := getElem?_of_extract hk hown
      rw [extract_cons hlt hopen] at hown
      obtain ⟨hle, hinner, hend⟩ := extract_eq_append hlt hk (List.cons.inj hown).2
      obtain ⟨hlt', hclose⟩ := getElem?_of_extract hk hend
      have hkend : k = i + 1 + inner.length + 1 := by
        have := length_extract (j := i + 1 + inner.length) hk
        rw [hend, List.length_singleton] at this
        omega
      -- the closing parenthesis goes on nothing that the group holds
      have hstop' : StopsAt .expr text (i + 1 + inner.length) :=
        (stopsAt_of_next (show Rule.unary ≠ .expr from nofun) hclose isDigit_closeParen).expr
          (by rw [hclose]; decide)
      have hstart : Moves text ⟨⟨frames, .expecting .primary⟩, i⟩
          ⟨⟨.group (Cursor.State.along text i).location :: frames, .expecting .expr⟩, i + 1⟩ := by
        refine Moves.take .refl ?_
        rw [step_primary, hopen]
        exact (if_neg (by decide)).trans (if_pos rfl)
      rw [hkend]
      refine (hstart.trans
        (moves_of_derives (Nat.le_add_right _ _) (by omega) hinner hstop' h)).take ?_
      rw [step_group, if_pos hclose]
  | .primary h => by
      -- the machine looks for a prefix operator first, and does not find one
      obtain ⟨byte, more, hbytes, hop⟩ := h.head_of_primary
      obtain ⟨-, hbyte⟩ := getElem?_of_extract hk (hown.trans hbytes)
      have hturn : Moves text ⟨⟨frames, .expecting .unary⟩, i⟩
          ⟨⟨frames, .expecting .primary⟩, i⟩ := by
        refine Moves.turn .refl ?_
        rw [step_unary, hbyte, Option.bind_some, hop]
      exact hturn.trans (moves_of_derives hik hk hown (hstop.weaken nofun) h)
  | .applied op h => by
      obtain ⟨hlt, hbyte⟩ := getElem?_of_extract hk hown
      rw [extract_cons hlt hbyte] at hown
      have hstart : Moves text ⟨⟨frames, .expecting .unary⟩, i⟩
          ⟨⟨.applied op :: frames, .expecting .unary⟩, i + 1⟩ := by
        refine Moves.take .refl ?_
        rw [step_unary, hbyte, Option.bind_some, UnaryOp.ofByte?_byte]
      exact (hstart.trans
        (moves_of_derives hlt hk (List.cons.inj hown).2 hstop h)).turn rfl
  | .alone h => by
      have hturn : Moves text ⟨⟨frames, .expecting .expr⟩, i⟩
          ⟨⟨.chain [] :: frames, .expecting .unary⟩, i⟩ := Moves.turn .refl rfl
      exact (hturn.trans (moves_of_derives hik hk hown (hstop.weaken nofun) h)).trans
        (moves_chainEnd hstop)
  | .chain h hlinks => by
      obtain ⟨hle, hfirst, hmore⟩ := extract_eq_append hik hk hown
      have hturn : Moves text ⟨⟨frames, .expecting .expr⟩, i⟩
          ⟨⟨.chain [] :: frames, .expecting .unary⟩, i⟩ := Moves.turn .refl rfl
      exact (hturn.trans
        (moves_of_derives (Nat.le_add_right _ _) (Nat.le_trans hle hk) hfirst
          (stopsAt_of_links hle hk hmore hstop hlinks) h)).trans
        (moves_of_links hle hk hmore hstop hlinks)

/-- The links of a chain are read onto the operands before. -/
theorem moves_of_links {more : List UInt8} {links : List (BinaryOp × Expr)}
    {frames : List Frame} {before : List (Expr × BinaryOp)} {e : Expr} {i k : Nat} (hik : i ≤ k)
    (hk : k ≤ text.length) (hmore : text.extract i k = more) (hstop : StopsAt .expr text k) :
    DerivesLinks more links →
      Moves text ⟨⟨.chain before :: frames, .built e⟩, i⟩
        ⟨⟨frames, .built (Expr.ofChainAround before e links)⟩, k⟩
  | .nil => by
      have hlen := length_extract (j := i) hk
      rw [hmore, List.length_nil] at hlen
      obtain rfl : i = k := by omega
      exact moves_chainEnd hstop
  | @DerivesLinks.cons own _ e' _ op h hlinks => by
      rw [List.cons_append] at hmore
      obtain ⟨hlt, hbyte⟩ := getElem?_of_extract hk hmore
      rw [extract_cons hlt hbyte] at hmore
      obtain ⟨hle, hown, hrest⟩ := extract_eq_append hlt hk (List.cons.inj hmore).2
      have hstart : Moves text ⟨⟨.chain before :: frames, .built e⟩, i⟩
          ⟨⟨.chain ((e, op) :: before) :: frames, .expecting .unary⟩, i + 1⟩ := by
        refine Moves.take .refl ?_
        rw [step_chain, hbyte, Option.bind_some, BinaryOp.ofByte?_byte]
      have hoperand : Moves text ⟨⟨.chain ((e, op) :: before) :: frames, .expecting .unary⟩, i + 1⟩
          ⟨⟨.chain ((e, op) :: before) :: frames, .built e'⟩, i + 1 + own.length⟩ :=
        moves_of_derives (Nat.le_add_right _ _) (Nat.le_trans hle hk) hown
          (stopsAt_of_links hle hk hrest hstop hlinks) h
      exact (hstart.trans hoperand).trans (moves_of_links hle hk hrest hstop hlinks)

end

end Reading

/-! ## Reading a construct -/

/-- What is derived is accepted. -/
theorem parse_of_derives {i k : Nat} {e : Expr} (hik : i ≤ k) (hk : k ≤ text.length)
    (h : Derives rule (text.extract i k) e) (hstop : StopsAt rule text k) :
    Cursor.parse rule (Cursor.along text options i) = .ok e (Cursor.along text options k) := by
  have hmoves : Reading.Moves text ⟨.start rule, i⟩ ⟨⟨[], .built e⟩, k⟩ :=
    Reading.moves_of_derives hik hk rfl hstop h
  refine (hmoves.run_eq options).trans ?_
  rw [Cursor.run_eq]
  rfl

/-- Where the machine comes to a mismatch, that is what is reported. -/
theorem parse_of_rejects {m : Machine} {i j k : Nat} {mismatch : Mismatch}
    {site : Option Cursor.State} (options : Cursor.Options)
    (hmoves : Reading.Moves text ⟨.start rule, i⟩ ⟨m, j⟩) (hk : k ≤ text.length)
    (hstep : Reading.step text ⟨m, j⟩ = .reject mismatch site)
    (hsite : site = none ∧ j = k ∨ site = some (Cursor.State.along text k)) :
    Cursor.parse rule (Cursor.along text options i) =
      .error (.mismatch (mismatch.diagnosticAt text options k)) (Cursor.along text options k) := by
  have hreject : m.step (Cursor.along text options j).state = .reject mismatch site := hstep
  refine (hmoves.run_eq options).trans ?_
  rw [Cursor.run_eq, hreject]
  rcases hsite with ⟨rfl, rfl⟩ | rfl
  · exact Cursor.report_along mismatch hk
  · exact Cursor.reportAt_along mismatch j hk

/--
**Reading a construct in memory.** Either it is accepted, and then the grammar derives it and the
text does not continue it; or there is a mismatch, at a byte that does not fit what has been read.

The machine stops where the construct ends, or at the byte of the mismatch. Only a literal that is
too large is blamed on a byte before, its first one.
-/
theorem parse_cases (options : Cursor.Options) (rule : Rule) {i : Nat} (hi : i ≤ text.length) :
    ∃ r, Reading.Stops text ⟨.start rule, i⟩ r ∧
      ((∃ e, Cursor.parse rule (Cursor.along text options i) =
            .ok e (Cursor.along text options r.offset)
          ∧ r.offset ≤ text.length ∧ Derives rule (text.extract i r.offset) e
          ∧ StopsAt rule text r.offset)
        ∨ ∃ mismatch k, Cursor.parse rule (Cursor.along text options i) =
            .error (.mismatch (mismatch.diagnosticAt text options k)) (Cursor.along text options k)
          ∧ Rejects text rule i mismatch k
          ∧ (k = r.offset ∨ ∃ digits, mismatch = .tooLarge digits)) := by
  obtain ⟨r, hstops⟩ := Reading.exists_stops text ⟨.start rule, i⟩
  refine ⟨r, hstops, ?_⟩
  have hspells := (spells_start rule hi).moves hstops.moves
  have hfits := hspells.fits
  have hle := hspells.offset_le_length
  rcases hstops.run_eq options with ⟨e, hstep, hrun⟩ | ⟨mismatch, site, hstep, hrun⟩
  · rw [hstep] at hfits
    exact .inl ⟨e, hrun, hle, hfits.1, hfits.2⟩
  · rw [hstep] at hfits
    obtain ⟨k, hrejects, ⟨rfl, rfl⟩ | ⟨rfl, hdigits⟩⟩ := hfits
    · exact .inr ⟨mismatch, r.offset, hrun.trans (Cursor.report_along mismatch hle), hrejects,
        .inl rfl⟩
    · exact .inr ⟨mismatch, k,
        hrun.trans (Cursor.reportAt_along mismatch r.offset hrejects.le_length), hrejects,
        .inr hdigits⟩

/-! ## Parsers that have been used -/

namespace Parser

/-- A parser on a text in memory that has answered any number of calls, in any order. -/
inductive Reached (text : List UInt8) (options : Options) : Parser → Prop where
  | opened {p : Parser} : ofSource (.ofBytes text) options = .ok p → Reached text options p
  | answered {p : Parser} (call : Call) :
      Reached text options p → Reached text options (p.answer call).2

/-- A parser that has come this far along a text in memory. -/
def along (text : List UInt8) (options : Options) (i : Nat) : Parser where
  cursor := Cursor.along text options.toOptions i
  requireEnd := options.requireEnd

variable {options : Options}

theorem ofSource_ofBytes (text : List UInt8) (options : Options) :
    ofSource (.ofBytes text) options = .ok (along text options 0) := by
  rw [ofSource, Cursor.ofSource_ofBytes]
  rfl

end Parser

namespace Cursor

/-- Reading to the end in memory. -/
theorem parseToEnd_cases (options : Options) {i : Nat} (hi : i ≤ text.length) :
    ∃ r, Reading.Stops text ⟨.start .expr, i⟩ r ∧
      ((∃ e, parseToEnd (along text options i) = .ok e (along text options text.length)
          ∧ r.offset = text.length ∧ Derives .expr (text.extract i text.length) e)
        ∨ ∃ mismatch k, parseToEnd (along text options i) =
            .error (.mismatch (mismatch.diagnosticAt text options k)) (along text options k)
          ∧ ((Rejects text .expr i mismatch k
              ∧ (k = r.offset ∨ ∃ digits, mismatch = .tooLarge digits))
            ∨ ∃ e byte, mismatch = .trailing byte ∧ text[k]? = some byte ∧ k = r.offset
              ∧ Derives .expr (text.extract i k) e)) := by
  obtain ⟨r, hstops, ⟨e, hparse, hr, he, -⟩ | ⟨mismatch, k, hparse, hrejects⟩⟩ :=
    parse_cases options .expr hi
  · refine ⟨r, hstops, ?_⟩
    rw [parseToEnd_eq, hparse]
    dsimp only
    have hcurrent : (along text options r.offset).current = text[r.offset]? :=
      State.current_along text r.offset
    rw [hcurrent]
    cases hbyte : text[r.offset]? with
    | none =>
        have hend : r.offset = text.length := by
          rw [List.getElem?_eq_none_iff] at hbyte
          omega
        rw [hend] at he ⊢
        exact .inl ⟨e, rfl, rfl, he⟩
    | some byte =>
        exact .inr ⟨_, r.offset, report_along _ hr, .inr ⟨e, byte, rfl, hbyte, rfl, he⟩⟩
  · exact ⟨r, hstops, .inr ⟨mismatch, k, parseToEnd_of_error hparse, .inl hrejects⟩⟩

/-- A byte that comes after a complete expression is one too many. -/
theorem parseToEnd_trailing (options : Options) {i k : Nat} {e : Expr} {byte : UInt8} (hik : i ≤ k)
    (he : Derives .expr (text.extract i k) e) (hstop : StopsAt .expr text k)
    (hbyte : text[k]? = some byte) :
    parseToEnd (along text options i) =
      .error (.mismatch ((Mismatch.trailing byte).diagnosticAt text options k))
        (along text options k) := by
  have hk : k ≤ text.length := Nat.le_of_lt (List.getElem?_eq_some_iff.1 hbyte).1
  have hcurrent : (along text options k).current = some byte :=
    (State.current_along text k).trans hbyte
  rw [parseToEnd_eq, parse_of_derives hik hk he hstop]
  dsimp only
  rw [hcurrent]
  exact report_along (.trailing byte) hk

end Cursor

/-! ## What a call comes to -/

/-- Which mismatch is found at which byte by what is read from `start` on: one that does not fit a
construct, or what comes after a construct that was to be all the rest. -/
inductive Finds (text : List UInt8) (start : Nat) : Mismatch → Nat → Prop where
  | rejects {rule : Rule} {mismatch : Mismatch} {k : Nat} :
      Rejects text rule start mismatch k → Finds text start mismatch k
  | trailing {e : Expr} {byte : UInt8} {k : Nat} :
      Derives .expr (text.extract start k) e → text[k]? = some byte →
      Finds text start (.trailing byte) k

theorem Finds.le_length {mismatch : Mismatch} {start k : Nat} (h : Finds text start mismatch k) :
    k ≤ text.length := by
  cases h with
  | rejects h => exact h.le_length
  | trailing _ hbyte => exact Nat.le_of_lt (List.getElem?_eq_some_iff.1 hbyte).1

/-- What can come of reading a text in memory from `start` on. The cursor goes some way along it,
or to the mismatch. -/
inductive ComesTo (text : List UInt8) (options : Cursor.Options) (start : Nat) :
    EStateM.Result Failure Cursor Expr → Prop where
  | ok {e : Expr} {k : Nat} :
      k ≤ text.length → ComesTo text options start (.ok e (Cursor.along text options k))
  | mismatch {mismatch : Mismatch} {k : Nat} :
      Finds text start mismatch k →
      ComesTo text options start
        (.error (.mismatch (mismatch.diagnosticAt text options k)) (Cursor.along text options k))

theorem parse_comesTo (options : Cursor.Options) (rule : Rule) {i : Nat} (hi : i ≤ text.length) :
    ComesTo text options i (Cursor.parse rule (Cursor.along text options i)) := by
  obtain ⟨r, -, ⟨e, hparse, hr, -, -⟩ | ⟨mismatch, k, hparse, hrejects, -⟩⟩ :=
    parse_cases options rule hi
  · rw [hparse]
    exact .ok hr
  · rw [hparse]
    exact .mismatch (.rejects hrejects)

theorem parseToEnd_comesTo (options : Cursor.Options) {i : Nat} (hi : i ≤ text.length) :
    ComesTo text options i (Cursor.parseToEnd (Cursor.along text options i)) := by
  obtain ⟨r, -, ⟨e, hparse, -, -⟩ | ⟨mismatch, k, hparse, hcase⟩⟩ :=
    Cursor.parseToEnd_cases options hi
  · rw [hparse]
    exact .ok (Nat.le_refl _)
  · rw [hparse]
    rcases hcase with ⟨hrejects, -⟩ | ⟨e, byte, rfl, hbyte, -, he⟩
    · exact .mismatch (.rejects hrejects)
    · exact .mismatch (.trailing he hbyte)

namespace Parser

variable {options : Options} {i k : Nat} {e : Expr} {failure : Failure}

/-- Whatever a parser is asked for, it reads some way along its text or finds a mismatch. -/
theorem Call.comesTo (options : Options) (call : Call) (hi : i ≤ text.length) :
    ComesTo text options.toOptions i
      (call.read options.requireEnd (Cursor.along text options.toOptions i)) := by
  cases call with
  | parse =>
      unfold Call.read
      by_cases hend : options.requireEnd = true
      · rw [if_pos hend]
        exact parseToEnd_comesTo options.toOptions hi
      · rw [if_neg hend]
        exact parse_comesTo options.toOptions .expr hi
  | toEnd => exact parseToEnd_comesTo options.toOptions hi
  | construct rule => exact parse_comesTo options.toOptions rule hi

theorem answer_fst (call : Call) (p : Parser) :
    (p.answer call).1 = answerOf (call.read p.requireEnd p.cursor) := by
  rw [answer]
  cases call.read p.requireEnd p.cursor <;> rfl

theorem answer_snd (call : Call) (p : Parser) :
    (p.answer call).2 = { p with cursor := stateAfter (call.read p.requireEnd) p.cursor } := by
  rw [answer, stateAfter]
  cases call.read p.requireEnd p.cursor <;> rfl

theorem read_of_answer {call : Call} {p p' : Parser} {e : Expr}
    (h : p.answer call = (.ok e, p')) : call.read p.requireEnd p.cursor = .ok e p'.cursor := by
  rw [answer] at h
  cases hr : call.read p.requireEnd p.cursor with
  | ok e' c =>
      rw [hr] at h
      cases h
      rfl
  | error e' c =>
      rw [hr] at h
      cases h

theorem answer_of_ok (options : Options) (call : Call)
    (h : call.read options.requireEnd (Cursor.along text options.toOptions i)
      = .ok e (Cursor.along text options.toOptions k)) :
    (along text options i).answer call = (.ok e, along text options k) := by
  simp only [answer, along, h]

theorem answer_of_error (options : Options) (call : Call)
    (h : call.read options.requireEnd (Cursor.along text options.toOptions i)
      = .error failure (Cursor.along text options.toOptions k)) :
    (along text options i).answer call = (.error failure, along text options k) := by
  simp only [answer, along, h]

/-- A call is answered by a tree, with the parser further along its text, or by a mismatch, with the
parser there. -/
theorem answer_cases (options : Options) (call : Call) (hi : i ≤ text.length) :
    (∃ e k, k ≤ text.length
        ∧ (along text options i).answer call = (.ok e, along text options k))
      ∨ ∃ mismatch k, Finds text i mismatch k ∧ (along text options i).answer call =
          (.error (.mismatch (mismatch.diagnosticAt text options.toOptions k)),
            along text options k) := by
  have hread := call.comesTo options hi
  obtain ⟨result, hresult⟩ : ∃ result,
      call.read options.requireEnd (Cursor.along text options.toOptions i) = result := ⟨_, rfl⟩
  rw [hresult] at hread
  cases hread with
  | ok hk => exact .inl ⟨_, _, hk, answer_of_ok options call hresult⟩
  | mismatch hfinds => exact .inr ⟨_, _, hfinds, answer_of_error options call hresult⟩

/-- A call moves a parser along its text, or leaves it where it is. -/
theorem answer_along (options : Options) (call : Call) (hi : i ≤ text.length) :
    ∃ k, k ≤ text.length ∧ ((along text options i).answer call).2 = along text options k := by
  rcases answer_cases options call hi with ⟨e, k, hk, hanswer⟩ | ⟨mismatch, k, hfinds, hanswer⟩
  · exact ⟨k, hk, by rw [hanswer]⟩
  · exact ⟨k, hfinds.le_length, by rw [hanswer]⟩

/-- A parser that has been used has come some way along its text, and nothing else about it has
changed. -/
theorem reached_along {p : Parser} (h : Reached text options p) :
    ∃ i, i ≤ text.length ∧ p = along text options i := by
  induction h with
  | opened hopen =>
      rw [ofSource_ofBytes] at hopen
      cases hopen
      exact ⟨0, Nat.zero_le _, rfl⟩
  | answered call _ ih =>
      obtain ⟨i, hi, rfl⟩ := ih
      exact answer_along options call hi

/-- A new parser on a text in memory reads it to its end as this tree. -/
def Reads (options : Options) (text : List UInt8) (e : Expr) : Prop :=
  ∃ p p', ofSource (.ofBytes text) options = .ok p ∧ p.answer .toEnd = (.ok e, p')

/-- A text is read to its end as the trees that it derives. -/
theorem reads_iff : Reads options text e ↔ Derives .expr text e := by
  constructor
  · intro hreads
    obtain ⟨p, p', hopen, hanswer⟩ := hreads
    rw [ofSource_ofBytes] at hopen
    cases hopen
    obtain ⟨r, -, ⟨e', hparse, -, he⟩ | ⟨mismatch, k, hparse, -⟩⟩ :=
      Cursor.parseToEnd_cases options.toOptions (Nat.zero_le text.length)
    · rw [answer_of_ok options .toEnd hparse] at hanswer
      cases hanswer
      rwa [extract_zero, List.take_length] at he
    · rw [answer_of_error options .toEnd hparse] at hanswer
      cases hanswer
  · intro he
    rw [← List.take_length (l := text), ← extract_zero] at he
    have hparse : Cursor.parse .expr (Cursor.along text options.toOptions 0) =
        .ok e (Cursor.along text options.toOptions text.length) :=
      parse_of_derives (Nat.zero_le _) (Nat.le_refl _) he (.inl rfl)
    have hend : (Cursor.along text options.toOptions text.length).current = none := by
      rw [Cursor.current, Cursor.along, Cursor.inMemory, Cursor.State.current_along]
      exact List.getElem?_eq_none (Nat.le_refl _)
    have haccepted : Cursor.parseToEnd (Cursor.along text options.toOptions 0) =
        .ok e (Cursor.along text options.toOptions text.length) := by
      rw [Cursor.parseToEnd_eq, hparse]
      dsimp only
      rw [hend]
    exact ⟨_, _, ofSource_ofBytes text options, answer_of_ok options .toEnd haccepted⟩

/--
**The parser accepts exactly the grammar.**

Wherever a parser has come to in a text in memory, it accepts a construct and stops at `k` exactly
if the grammar derives that tree from the text between, and the text does not continue the construct
at `k`.
-/
theorem construct_ok_iff {p : Parser} (hp : Reached text options p) (rule : Rule) (e : Expr)
    (k : Nat) :
    (∃ p', p.answer (.construct rule) = (.ok e, p') ∧ p'.cursor.state.offset = k)
      ↔ Derives rule (text.extract p.cursor.state.offset k) e ∧ StopsAt rule text k := by
  obtain ⟨i, hi, rfl⟩ := reached_along hp
  have hoffset : (along text options i).cursor.state.offset = i := Cursor.State.offset_along hi
  rw [hoffset]
  constructor
  · intro h
    obtain ⟨p', hanswer, hk⟩ := h
    obtain ⟨r, -, ⟨e', hparse, hr, he, hstop⟩ | ⟨mismatch, k', hparse, -, -⟩⟩ :=
      parse_cases options.toOptions rule hi
    · rw [answer_of_ok options (.construct rule) hparse] at hanswer
      cases hanswer
      have hr' : (along text options r.offset).cursor.state.offset = r.offset :=
        Cursor.State.offset_along hr
      rw [hr'.symm.trans hk] at he hstop
      exact ⟨he, hstop⟩
    · rw [answer_of_error options (.construct rule) hparse] at hanswer
      cases hanswer
  · intro h
    obtain ⟨he, hstop⟩ := h
    have hk : k ≤ text.length := by
      rcases hstop with rfl | ⟨next, hnext, -⟩
      · exact Nat.le_refl _
      · exact Nat.le_of_lt (List.getElem?_eq_some_iff.1 hnext).1
    -- a construct takes a byte at least, so it does not end before it starts
    have hik : i ≤ k := by
      by_cases hlt : k < i
      · refine absurd ?_ he.ne_nil
        rw [List.extract_eq_take_drop, Nat.sub_eq_zero_of_le (Nat.le_of_lt hlt), List.take_zero]
      · omega
    exact ⟨_, answer_of_ok options (.construct rule) (parse_of_derives hik hk he hstop),
      Cursor.State.offset_along hk⟩

/-- After the `1` in `1-2`, what follows is a unary expression. -/
theorem construct_ok_iff_minus :
    ∃ p p', Reached [0x31, 0x2D, 0x32] {} p
      ∧ p.cursor.state.offset = 1
      ∧ p.answer (.construct .unary) = (.ok (.unary .neg (.number 2)), p')
      ∧ p'.cursor.state.offset = 3 := by
  have hone : Cursor.parse .primary (Cursor.along [0x31, 0x2D, 0x32] {} 0) =
      .ok (.number 1) (Cursor.along [0x31, 0x2D, 0x32] {} 1) :=
    parse_of_derives (by decide) (by decide) (@Derives.digit 0x31 rfl)
      (stopsAt_of_next nofun rfl (isDigit_binaryOp .sub))
  have hp : Reached [0x31, 0x2D, 0x32] {} (along [0x31, 0x2D, 0x32] {} 1) := by
    have h := Reached.answered (.construct .primary)
      (.opened (ofSource_ofBytes [0x31, 0x2D, 0x32] {}))
    rwa [answer_of_ok {} (.construct .primary) hone] at h
  have he : Derives .unary [0x2D, 0x32] (.unary .neg (.number 2)) :=
    .applied .neg (.primary (@Derives.digit 0x32 rfl))
  obtain ⟨p', hanswer, hp'⟩ := (construct_ok_iff hp .unary _ 3).2 ⟨he, .inl rfl⟩
  exact ⟨_, p', hp, rfl, hanswer, hp'⟩

/-- An operand ends before an operator, where an expression would go on. So the constructs do not
all stop at the same bytes. -/
theorem construct_ok_before_operator :
    ¬ ∀ (text : List UInt8) (options : Options) (p : Parser), Reached text options p →
      ∀ (rule : Rule) (e : Expr) (k : Nat),
        (∃ p', p.answer (.construct rule) = (.ok e, p') ∧ p'.cursor.state.offset = k)
          ↔ Derives rule (text.extract p.cursor.state.offset k) e ∧ StopsAt .expr text k := by
  intro h
  have hopened : Reached [0x31, 0x2B, 0x32] {} (along [0x31, 0x2B, 0x32] {} 0) :=
    .opened (ofSource_ofBytes _ _)
  have hone : Cursor.parse .unary (Cursor.along [0x31, 0x2B, 0x32] {} 0) =
      .ok (.number 1) (Cursor.along [0x31, 0x2B, 0x32] {} 1) :=
    parse_of_derives (by decide) (by decide) (.primary (@Derives.digit 0x31 rfl))
      (stopsAt_of_next nofun rfl (isDigit_binaryOp .add))
  have haccepted := answer_of_ok {} (.construct .unary) hone
  obtain ⟨-, hlen | ⟨next, hnext, hop, -⟩⟩ :=
    (h _ _ _ hopened .unary (.number 1) 1).1 ⟨_, haccepted, rfl⟩
  · cases hlen
  · cases hnext
    exact hop rfl .add rfl

end Parser

end SeekParse

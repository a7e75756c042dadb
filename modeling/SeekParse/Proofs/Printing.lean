import SeekParse.Expr.Printer
import SeekParse.Proofs.Decoding
import SeekParse.Proofs.Recognition

/-!
# What is printed is read back

A tree is printed as source text with no parentheses but those around a chain that is an operand,
and with no zeros in front of a number. Reading the text gives the tree back, and no text that is
read as the tree is shorter.

Both follow from the grammar alone. `Expr.written` is what a tree is printed as where a construct of
some kind is wanted. It derives the tree, by recursion on the tree; and any text that derives the
tree as a construct of that kind is at least as long, by recursion on the derivation. Saying it for
each kind of construct is what makes the second one go through: a group that a text puts around a
chain pays for the parentheses that the printer puts there, and a group around anything else is more
than the printer needs.
-/

namespace SeekParse

/-! ## Texts as bytes -/

namespace Utf8

theorem encode_append (a b : String) : encode (a ++ b) = encode a ++ encode b := by
  simp [encode, String.toUTF8, String.toByteArray_append]

theorem encode_ofList_of_ascii {characters : List Char} (h : ∀ c ∈ characters, c.val ≤ 127) :
    encode (String.ofList characters) = characters.map Char.toUInt8 := by
  rw [encode_eq_flatMap, String.toList_ofList]
  induction characters with
  | nil => rfl
  | cons c rest ih =>
      have hc : String.utf8EncodeChar c = [c.toUInt8] :=
        String.utf8EncodeChar_eq_singleton
          (Char.utf8Size_eq_one_iff.2 (h c (List.mem_cons_self ..)))
      rw [List.flatMap_cons, hc, ih fun c' hc' => h c' (List.mem_cons_of_mem _ hc')]
      rfl

end Utf8

/-! ## Numbers in decimal -/

namespace Literal

theorem digitValue_le {digit : UInt8} (h : isDigit digit = true) : digitValue digit ≤ 9 := by
  rw [isDigit, Bool.and_eq_true, decide_eq_true_iff, decide_eq_true_iff,
    UInt8.le_iff_toNat_le, UInt8.le_iff_toNat_le] at h
  have hhigh : digit.toNat ≤ 57 := h.2
  rw [digitValue]
  omega

theorem foldl_lt {digits : List UInt8} (h : ∀ digit ∈ digits, isDigit digit = true) (v : Nat) :
    digits.foldl (fun v digit => v * 10 + digitValue digit) v
      < (v + 1) * Nat.pow 10 digits.length := by
  induction digits generalizing v with
  | nil =>
      show v < (v + 1) * 1
      omega
  | cons digit digits ih =>
      have hdigit := digitValue_le (h digit (List.mem_cons_self ..))
      have hrest := ih (fun d hd => h d (List.mem_cons_of_mem _ hd)) (v * 10 + digitValue digit)
      rw [List.foldl_cons, List.length_cons]
      calc digits.foldl (fun v digit => v * 10 + digitValue digit) (v * 10 + digitValue digit)
          < (v * 10 + digitValue digit + 1) * Nat.pow 10 digits.length := hrest
        _ ≤ (v + 1) * 10 * Nat.pow 10 digits.length := Nat.mul_le_mul_right _ (by omega)
        _ = (v + 1) * (Nat.pow 10 digits.length * 10) := by rw [Nat.mul_assoc, Nat.mul_comm 10]

theorem toNat_toUInt8 {c : Char} (h : c.isDigit = true) :
    c.toUInt8.toNat = c.toNat ∧ 48 ≤ c.toNat ∧ c.toNat ≤ 57 := by
  obtain ⟨hlow, hhigh⟩ := Char.isDigit_iff_toNat.1 h
  have hhigh' : c.toNat ≤ 57 := hhigh
  refine ⟨?_, hlow, hhigh⟩
  show c.val.toNat % 256 = c.val.toNat
  exact Nat.mod_eq_of_lt (show c.toNat < 256 by omega)

theorem isDigit_toUInt8 {c : Char} (h : c.isDigit = true) : isDigit c.toUInt8 = true := by
  obtain ⟨hnat, hlow, hhigh⟩ := toNat_toUInt8 h
  rw [isDigit, Bool.and_eq_true, decide_eq_true_iff, decide_eq_true_iff,
    UInt8.le_iff_toNat_le, UInt8.le_iff_toNat_le, hnat]
  exact ⟨hlow, hhigh⟩

theorem foldl_toUInt8 {characters : List Char} (h : ∀ c ∈ characters, c.isDigit = true) (v : Nat) :
    (characters.map Char.toUInt8).foldl (fun v digit => v * 10 + digitValue digit) v
      = Nat.ofDigitChars 10 characters v := by
  induction characters generalizing v with
  | nil => rfl
  | cons c rest ih =>
      have hc : digitValue c.toUInt8 = c.toNat - '0'.toNat := by
        rw [digitValue, (toNat_toUInt8 (h c (List.mem_cons_self ..))).1]
        rfl
      rw [List.map_cons, List.foldl_cons, ih fun c' hc' => h c' (List.mem_cons_of_mem _ hc'),
        Nat.ofDigitChars_cons, hc, Nat.mul_comm]

theorem isDigit_of_mem_toDigits {n : Nat} {c : Char} (h : c ∈ Nat.toDigits 10 n) :
    c.isDigit = true :=
  Nat.isDigit_of_mem_toDigits (by decide) (by decide) h

theorem encode_toString (n : Nat) :
    Utf8.encode (toString n) = (Nat.toDigits 10 n).map Char.toUInt8 := by
  rw [Nat.toString_eq_ofList_toDigits]
  refine Utf8.encode_ofList_of_ascii ?_
  intro c hc
  have hle := (toNat_toUInt8 (isDigit_of_mem_toDigits hc)).2.2
  rw [UInt32.le_iff_toNat_le]
  exact Nat.le_trans hle (by decide)

theorem isDigit_of_mem_toString {n : Nat} {digit : UInt8} (h : digit ∈ Utf8.encode (toString n)) :
    isDigit digit = true := by
  rw [encode_toString, List.mem_map] at h
  obtain ⟨c, hc, rfl⟩ := h
  exact isDigit_toUInt8 (isDigit_of_mem_toDigits hc)

/-- A number is printed as a literal that stands for it. -/
theorem value_toString (n : Nat) : value (Utf8.encode (toString n)) = n := by
  rw [encode_toString, value, foldl_toUInt8 fun _ => isDigit_of_mem_toDigits]
  exact Nat.ofDigitChars_toDigits (by decide) (by decide)

/-- No literal is shorter than its value is printed. -/
theorem length_toString_le {digits : List UInt8} (hne : digits ≠ [])
    (h : ∀ digit ∈ digits, isDigit digit = true) :
    (Utf8.encode (toString (value digits))).length ≤ digits.length := by
  have hlt := foldl_lt h 0
  rw [Nat.zero_add, Nat.one_mul] at hlt
  rw [encode_toString, List.length_map]
  exact (Nat.length_toDigits_le_iff (by decide) (List.length_pos_iff.2 hne)).2 hlt

end Literal

/-! ## Trees as bytes -/

theorem Spelling.spellAll_append (s : Spelling) (p q : List Piece) :
    s.spellAll (p ++ q) = s.spellAll p ++ s.spellAll q := by
  induction p with
  | nil => rw [List.nil_append, spellAll, String.empty_append]
  | cons piece p ih => rw [List.cons_append, spellAll, spellAll, ih, String.append_assoc]

namespace Expr

/-- What a tree is printed as where a construct of this kind is wanted. A chain is an expression as
it stands, and takes parentheses to be anything less. -/
def written (rule : Rule) (e : Expr) : List UInt8 :=
  match rule with
  | .expr => Utf8.encode e.source
  | .unary | .primary =>
    if e.isChain then openParen :: Utf8.encode e.source ++ [closeParen] else Utf8.encode e.source

/-- What the links of a chain are printed as. -/
def writtenLinks (links : List (BinaryOp × Expr)) : List UInt8 :=
  links.flatMap fun (op, e) => op.byte :: e.written .unary

theorem written_of_not_isChain (rule : Rule) {e : Expr} (h : e.isChain = false) :
    e.written rule = Utf8.encode e.source := by
  cases rule <;> simp [written, h]

theorem length_written (rule : Rule) (e : Expr) :
    (Utf8.encode e.source).length ≤ (e.written rule).length
      ∧ (e.written rule).length ≤ (Utf8.encode e.source).length + 2 := by
  have hgroup : (openParen :: Utf8.encode e.source ++ [closeParen]).length
      = (Utf8.encode e.source).length + 2 := by
    rw [List.length_append, List.length_cons, List.length_singleton]
  by_cases h : e.isChain = true
  · cases rule with
    | expr => exact ⟨Nat.le_refl _, Nat.le_add_right _ _⟩
    | unary =>
        rw [written, if_pos h, hgroup]
        omega
    | primary =>
        rw [written, if_pos h, hgroup]
        omega
  · rw [written_of_not_isChain rule (Bool.eq_false_iff.2 h)]
    omega

theorem encode_operandPieces (e : Expr) :
    Utf8.encode (sourceSpelling.spellAll e.operandPieces) = e.written .unary := by
  unfold operandPieces written
  by_cases h : e.isChain = true
  · rw [if_pos h, if_pos h]
    simp only [Spelling.spellAll, Spelling.spellPiece, String.append_empty, Utf8.encode_append]
    rfl
  · rw [if_neg h, if_neg h]
    simp only [Spelling.spellAll, Spelling.spellPiece, String.append_empty]
    rfl

theorem encode_ofLinks (links : List (BinaryOp × Expr)) :
    Utf8.encode (sourceSpelling.spellAll (Piece.ofLinks operandPieces links))
      = writtenLinks links := by
  induction links with
  | nil => rfl
  | cons link links ih =>
      obtain ⟨op, e⟩ := link
      have hop : Utf8.encode op.symbol.toString = [op.byte] := by cases op <;> rfl
      have hlinks : Piece.ofLinks operandPieces ((op, e) :: links)
          = .text op.symbol.toString :: (e.operandPieces ++ Piece.ofLinks operandPieces links) :=
        rfl
      rw [hlinks, Spelling.spellAll, Spelling.spellPiece, Spelling.spellAll_append,
        Utf8.encode_append, Utf8.encode_append, encode_operandPieces, hop, ih]
      rfl

theorem written_number (rule : Rule) (value : UInt64) :
    (number value).written rule = Utf8.encode (toString value.toNat) := by
  rw [written_of_not_isChain rule rfl, source, Spelling.spell_eq]
  simp only [sourceSpelling, Spelling.spellAll, Spelling.spellPiece, String.append_empty]

theorem written_unary (rule : Rule) (op : UnaryOp) (e : Expr) :
    (unary op e).written rule = op.byte :: e.written .unary := by
  have hop : Utf8.encode op.symbol.toString = [op.byte] := by cases op <;> rfl
  rw [written_of_not_isChain rule rfl, source, Spelling.spell_eq]
  show Utf8.encode (sourceSpelling.spellAll (.text op.symbol.toString :: e.operandPieces)) = _
  rw [Spelling.spellAll, Spelling.spellPiece, Utf8.encode_append, encode_operandPieces, hop]
  rfl

theorem written_chain (first : Expr) (op : BinaryOp) (second : Expr)
    (rest : List (BinaryOp × Expr)) :
    (chain first op second rest).written .expr
      = first.written .unary ++ writtenLinks ((op, second) :: rest) := by
  rw [written, source, Spelling.spell_eq]
  show Utf8.encode (sourceSpelling.spellAll
    (first.operandPieces ++ Piece.ofLinks operandPieces ((op, second) :: rest))) = _
  rw [Spelling.spellAll_append, Utf8.encode_append, encode_operandPieces, encode_ofLinks]

theorem writtenLinks_cons (op : BinaryOp) (e : Expr) (links : List (BinaryOp × Expr)) :
    writtenLinks ((op, e) :: links) = op.byte :: e.written .unary ++ writtenLinks links := rfl

end Expr

open SeekParse.Expr

/-! ## What is printed derives the tree -/

theorem derives_number (value : UInt64) :
    Derives .primary (Utf8.encode (toString value.toNat)) (.number value) := by
  have hvalue := Literal.value_toString value.toNat
  have hfits : value.toNat ≤ Literal.largest := by
    have := value.toNat_lt
    rw [Literal.largest_eq]
    omega
  have hne : Utf8.encode (toString value.toNat) ≠ [] := by
    rw [Literal.encode_toString]
    exact fun hnil => Nat.toDigits_ne_nil (List.map_eq_nil_iff.1 hnil)
  have h := Derives.number hne (fun _ => Literal.isDigit_of_mem_toString) (by rwa [hvalue])
  rwa [hvalue, UInt64.ofNat_toNat] at h

mutual

theorem derives_written_unary : ∀ e : Expr, Derives .unary (e.written .unary) e
  | .number value => by
      rw [written_number]
      exact .primary (derives_number value)
  | .unary op e => by
      rw [written_unary]
      exact .applied op (derives_written_unary e)
  | .chain first op second rest => by
      have hchain : Derives .expr ((chain first op second rest).written .expr)
          (chain first op second rest) := by
        rw [written_chain]
        exact .chain (derives_written_unary first)
          (.cons op (derives_written_unary second) (derives_writtenLinks rest))
      exact .primary (.group hchain)

theorem derives_writtenLinks :
    ∀ links : List (BinaryOp × Expr), DerivesLinks (writtenLinks links) links
  | [] => .nil
  | (op, e) :: links => .cons op (derives_written_unary e) (derives_writtenLinks links)

end

/-- **What is printed derives the tree.** -/
theorem derives_source (e : Expr) : Derives .expr (Utf8.encode e.source) e := by
  cases e with
  | number value =>
      rw [← written_of_not_isChain .unary rfl]
      exact (derives_written_unary _).alone
  | unary op operand =>
      rw [← written_of_not_isChain .unary rfl]
      exact (derives_written_unary _).alone
  | chain first op second rest =>
      have h := written_chain first op second rest
      rw [written] at h
      rw [h]
      exact .chain (derives_written_unary first)
        (.cons op (derives_written_unary second) (derives_writtenLinks rest))

/-! ## Nothing shorter derives the tree -/

mutual

/-- **No text that derives a tree is shorter than what is printed.** -/
theorem Derives.length_written_le {rule : Rule} {own : List UInt8} {e : Expr} :
    Derives rule own e → (e.written rule).length ≤ own.length
  | @Derives.number digits hne hdigits hfits => by
      have hvalue : (UInt64.ofNat (Literal.value digits)).toNat = Literal.value digits := by
        rw [Literal.largest_eq] at hfits
        exact UInt64.toNat_ofNat_of_lt' (Nat.lt_succ_of_le hfits)
      rw [written_number, hvalue]
      exact Literal.length_toString_le hne hdigits
  | @Derives.group text e h => by
      -- these parentheses pay for those that the printer needs, if it needs any
      have hinner : (Utf8.encode e.source).length ≤ text.length := h.length_written_le
      have houter := (length_written .primary e).2
      rw [List.length_append, List.length_cons, List.length_singleton]
      omega
  | .primary h => h.length_written_le
  | .applied op h => by
      rw [written_unary, List.length_cons, List.length_cons]
      exact Nat.succ_le_succ h.length_written_le
  | .alone h => Nat.le_trans (length_written .unary e).1 h.length_written_le
  | .chain h hlinks => by
      rw [written_chain, List.length_append, List.length_append]
      exact Nat.add_le_add h.length_written_le hlinks.length_written_le

theorem DerivesLinks.length_written_le {more : List UInt8} {links : List (BinaryOp × Expr)} :
    DerivesLinks more links → (writtenLinks links).length ≤ more.length
  | .nil => Nat.le_refl _
  | .cons op h hlinks => by
      have hoperand := h.length_written_le
      have hmore := hlinks.length_written_le
      rw [writtenLinks_cons, List.length_append, List.length_append, List.length_cons,
        List.length_cons]
      omega

end

/-! ## Well-formed trees -/

namespace Expr

/-- The operands of a chain, in order. -/
def operands : Expr → List Expr
  | .chain first _ second rest => first :: second :: rest.map Prod.snd
  | _ => []

/-- The operators of a chain, in order. -/
def operators : Expr → List BinaryOp
  | .chain _ op _ rest => op :: rest.map Prod.fst
  | _ => []

/-- Every chain in a tree has two operands at least, and one operator fewer than operands. -/
inductive WellFormed : Expr → Prop where
  | number (value : UInt64) : WellFormed (.number value)
  | unary {e : Expr} (op : UnaryOp) : WellFormed e → WellFormed (.unary op e)
  | chain {e : Expr} : e.isChain = true → 2 ≤ e.operands.length →
      e.operators.length + 1 = e.operands.length → (∀ operand ∈ e.operands, WellFormed operand) →
      WellFormed e

mutual

/-- The type of trees has no others. -/
theorem wellFormed : ∀ e : Expr, e.WellFormed
  | .number value => .number value
  | .unary op e => .unary op (wellFormed e)
  | .chain first op second rest => by
      refine .chain rfl (Nat.le_add_left 2 _) ?_ ?_
      · simp [operands, operators]
      · intro operand hmem
        rw [operands, List.mem_cons, List.mem_cons] at hmem
        rcases hmem with heq | heq | hmem
        · rw [heq]
          exact wellFormed first
        · rw [heq]
          exact wellFormed second
        · exact wellFormed_links rest operand hmem

theorem wellFormed_links :
    ∀ links : List (BinaryOp × Expr), ∀ operand ∈ links.map Prod.snd, operand.WellFormed
  | [], _, hmem => absurd hmem List.not_mem_nil
  | (op, e) :: links, operand, hmem => by
      rw [List.map_cons, List.mem_cons] at hmem
      rcases hmem with heq | hmem
      · rw [heq]
        exact wellFormed e
      · exact wellFormed_links links operand hmem

end

end Expr

/-! ## Reading back -/

namespace Parser

/--
**What is printed is read back, and nothing shorter is.**

A new parser reads the printed text of a tree to its end as that tree. Whatever text it reads to its
end as a tree, the printed text of the tree is read as the same tree, and is no longer than the text
was. That the tree is well-formed is said as well, though there are no others of the type
(`Expr.wellFormed`).
-/
theorem source_reads_shortest (options : Options) :
    (∀ e : Expr, Reads options (Utf8.encode e.source) e)
      ∧ ∀ (text : List UInt8) (e : Expr), Reads options text e →
          e.WellFormed ∧ Reads options (Utf8.encode e.source) e
            ∧ e.source.utf8ByteSize ≤ text.length := by
  refine ⟨fun e => reads_iff.2 (derives_source e), ?_⟩
  intro text e hreads
  have hlength : (Utf8.encode e.source).length ≤ text.length :=
    (reads_iff.1 hreads).length_written_le
  exact ⟨e.wellFormed, reads_iff.2 (derives_source e), hlength⟩

/-- `((1))*(07)` is read as a chain that is printed in three bytes. -/
theorem source_reads_shortest_product :
    ∃ e, Reads {} (Utf8.encode "((1))*(07)") e
      ∧ Utf8.encode e.source = Utf8.encode "1*7"
      ∧ Reads {} (Utf8.encode e.source) e
      ∧ e.source.utf8ByteSize ≤ (Utf8.encode "((1))*(07)").length := by
  have hone : Derives .unary [openParen, openParen, 0x31, closeParen, closeParen] (.number 1) :=
    .primary (.group (.alone (.primary (.group (.alone (.primary (@Derives.digit 0x31 rfl)))))))
  have hseven : Derives .unary [openParen, 0x30, 0x37, closeParen] (.number 7) :=
    .primary (.group (.alone (.primary (@Derives.number [0x30, 0x37] (List.cons_ne_nil _ _)
      (List.forall_mem_cons.2 ⟨rfl, List.forall_mem_singleton.2 rfl⟩) (by decide)))))
  have hreads : Reads {} (Utf8.encode "((1))*(07)") (.chain (.number 1) .mul (.number 7) []) :=
    reads_iff.2 (.chain hone (.cons .mul hseven .nil))
  obtain ⟨-, hback, hlength⟩ := (source_reads_shortest {}).2 _ _ hreads
  refine ⟨_, hreads, ?_, hback, hlength⟩
  have hwritten := written_chain (.number 1) .mul (.number 7) []
  rw [writtenLinks_cons, written_number, written_number] at hwritten
  exact hwritten

end Parser

end SeekParse

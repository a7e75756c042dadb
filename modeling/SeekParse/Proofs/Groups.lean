import SeekParse.Proofs.Places
import SeekParse.Proofs.ViablePrefix

/-!
# Which group an error names

A group that is not closed is reported where it should have been, and the report names the place
where it was opened. The machine has kept that place in a frame, below whatever has been opened and
closed since. The text knows it too, without any frames: of the parentheses before the error that
open a group, it is the last one after which as many groups are closed as are opened.

The two agree because what a frame holds is derived, and what is derived closes its groups one by
one (`Derives.closes`): cut off anything in front, and what is left opens no more than it closes. So
every parenthesis inside the group is closed inside it.

* `Rejects.innermost`: the group that a machine finds unclosed is the innermost one.
* `unclosed_names_innermost`: the note of such an error is the place of that parenthesis.
-/

namespace SeekParse

variable {text own more : List UInt8} {k : Nat}

/-! ## What is derived closes its groups -/

/-- Whatever is cut off in front, what is left opens no more groups than it closes. -/
def Closes (own : List UInt8) : Prop :=
  ∀ n, (own.drop n).count openParen ≤ (own.drop n).count closeParen

theorem Closes.append (h : Closes own) (h' : Closes more) : Closes (own ++ more) := by
  intro n
  rw [List.drop_append, List.count_append, List.count_append]
  exact Nat.add_le_add (h n) (h' (n - own.length))

theorem closes_of_not_mem (hopen : openParen ∉ own) : Closes own := by
  intro n
  have hdrop : openParen ∉ own.drop n := fun hmem => hopen (List.mem_of_mem_drop hmem)
  rw [List.count_eq_zero_of_not_mem hdrop]
  exact Nat.zero_le _

theorem closes_unaryOp (op : UnaryOp) : Closes [op.byte] := by
  cases op <;> exact closes_of_not_mem (by decide)

theorem closes_binaryOp (op : BinaryOp) : Closes [op.byte] := by
  cases op <;> exact closes_of_not_mem (by decide)

/-- A group closes the parenthesis that opens it, and what it holds closes the others. -/
theorem Closes.enclosed (h : Closes own) (hbalanced : Balanced own) :
    Closes (openParen :: own ++ [closeParen]) := by
  intro n
  cases n with
  | zero => exact Nat.le_of_eq hbalanced.enclosed
  | succ n =>
      have hclose : Closes [closeParen] := closes_of_not_mem (by decide)
      rw [List.cons_append, List.drop_succ_cons]
      exact h.append hclose n

mutual

theorem Derives.closes {rule : Rule} {own : List UInt8} {e : Expr} :
    Derives rule own e → Closes own
  | .number _ hdigits _ => by
      refine closes_of_not_mem ?_
      intro hmem
      exact absurd (hdigits _ hmem) (by decide)
  | .group h => h.closes.enclosed h.balanced
  | .primary h => h.closes
  | .applied op h => (closes_unaryOp op).append h.closes
  | .alone h => h.closes
  | .chain h hlinks => h.closes.append hlinks.closes

theorem DerivesLinks.closes {more : List UInt8} {links : List (BinaryOp × Expr)} :
    DerivesLinks more links → Closes more
  | .nil => closes_of_not_mem List.not_mem_nil
  | .cons op h hlinks => ((closes_binaryOp op).append h.closes).append hlinks.closes

end

/-! ## The innermost open group -/

/-- Byte `j` opens the innermost group that is open at `k`: as many groups are closed as are opened
between the two, and no parenthesis after `j` is like that. -/
structure Innermost (text : List UInt8) (k j : Nat) : Prop where
  before : j < k
  opens : text[j]? = some openParen
  balanced : Balanced (text.extract (j + 1) k)
  last : ∀ j', j < j' → j' < k → text[j']? = some openParen →
    ¬ Balanced (text.extract (j' + 1) k)

/-- At one offset there is one innermost group. -/
theorem Innermost.unique {j j' : Nat} (h : Innermost text k j) (h' : Innermost text k j') :
    j = j' := by
  rcases Nat.lt_trichotomy j j' with hlt | heq | hgt
  · exact absurd h'.balanced (h.last j' hlt h'.before h'.opens)
  · exact heq
  · exact absurd h.balanced (h'.last j hgt h.before h.opens)

/-- The rest of a part of a text. -/
theorem extract_drop (text : List UInt8) {i j : Nat} (hij : i ≤ j) (k : Nat) :
    text.extract j k = (text.extract i k).drop (j - i) := by
  rw [List.extract_eq_take_drop, List.extract_eq_take_drop, List.drop_take, List.drop_drop,
    Nat.add_sub_cancel' hij, Nat.sub_sub, Nat.add_sub_cancel' hij]

/-- A parenthesis after which all groups are closed that are opened is the innermost open one. -/
theorem innermost_of_closes {j : Nat} (hjk : j < k) (hopens : text[j]? = some openParen)
    (hbalanced : Balanced (text.extract (j + 1) k)) (hcloses : Closes (text.extract (j + 1) k)) :
    Innermost text k j := by
  refine ⟨hjk, hopens, hbalanced, ?_⟩
  intro j' hlt hlt' hopens' hbalanced'
  -- from that parenthesis on, there is one more to close than is closed
  have hle := hcloses (j' - (j + 1))
  have hne : openParen ≠ closeParen := by decide
  rw [← extract_drop text hlt k, extract_cons hlt' hopens', List.count_cons_self,
    List.count_cons_of_ne hne] at hle
  rw [Balanced] at hbalanced'
  omega

/-- The group that is found unclosed is the innermost one. -/
theorem Rejects.innermost {root : Rule} {start : Nat} {opened : Location} {found : Option UInt8}
    (h : Rejects text root start (.unclosed opened found) k) :
    ∃ j, Innermost text k j ∧ opened = (Cursor.State.along text j).location := by
  cases h with
  | unclosed hik _ hframes he _ _ =>
      obtain ⟨-, j, rfl, -, hopens, hopened⟩ := hframes.of_group
      exact ⟨j, innermost_of_closes (by omega) hopens he.balanced he.closes, hopened⟩

namespace Parser

variable {options : Options}

/--
**An unclosed group is named by the parenthesis that opened it.**

Whatever a parser on a text in memory has been asked before, and whatever it is asked for now: if it
answers that a group is not closed, then there is an innermost open group where it stopped, and the
one note of the error says where that was opened.
-/
theorem unclosed_names_innermost {p p' : Parser} {call : Call} {d : Diagnostic}
    (hp : Reached text options p) (hlen : text.length < UInt32.size)
    (h : p.answer call = (.error (.mismatch d), p'))
    (hcode : d.code = .unbalancedParenthesis) :
    ∃ (j : Nat) (l : Location), Innermost text p'.cursor.state.offset j ∧ l.Marks text j
      ∧ d.help = [s!"the group was opened at line {l.line}, char {l.column}"] := by
  obtain ⟨i, hi, rfl⟩ := reached_along hp
  obtain ⟨mismatch, k, hfinds, rfl, rfl⟩ := mismatch_of_answer hi h
  have hk := hfinds.le_length
  have hoffset : (along text options k).cursor.state.offset = k := Cursor.State.offset_along hk
  rw [Mismatch.code_diagnosticAt] at hcode
  cases mismatch with
  | noOperand found => cases hcode
  | trailing found => cases hcode
  | tooLarge digits => cases hcode
  | unclosed opened found =>
      cases hfinds with
      | rejects hrejects =>
          obtain ⟨j, hinnermost, rfl⟩ := hrejects.innermost
          have hjlt := Nat.lt_of_lt_of_le hinnermost.before hk
          rw [hoffset]
          refine ⟨j, _, hinnermost, (Cursor.State.onByte_along hjlt hlen).location, ?_⟩
          rw [Mismatch.diagnosticAt, Diagnostic.foldl_withHelp]
          rfl

/-- Of two groups the second is closed, and it is the first that is named. -/
theorem unclosed_names_innermost_outer :
    ∃ (p₀ p : Parser) (d : Diagnostic) (l : Location),
      ofSource (.ofBytes [0x28, 0x28, 0x31, 0x29]) {} = .ok p₀
      ∧ p₀.answer .toEnd = (.error (.mismatch d), p)
      ∧ d.code = .unbalancedParenthesis
      ∧ p.cursor.state.offset = 4
      ∧ Innermost [0x28, 0x28, 0x31, 0x29] 4 0
      ∧ l.Marks [0x28, 0x28, 0x31, 0x29] 0
      ∧ d.help = [s!"the group was opened at line {l.line}, char {l.column}"] := by
  have hopen := ofSource_ofBytes [0x28, 0x28, 0x31, 0x29] {}
  have hone : Derives .expr [0x31] (.number 1) := .alone (.primary (@Derives.digit 0x31 rfl))
  have hheld : Derives .expr [0x28, 0x31, 0x29] (.number 1) := .alone (.primary (.group hone))
  have hgroup : Reading.Moves [0x28, 0x28, 0x31, 0x29] ⟨.start .expr, 0⟩
      ⟨⟨[.group ⟨1, 1⟩, .chain []], .expecting .expr⟩, 1⟩ :=
    ((Reading.Moves.turn .refl rfl).turn rfl).take rfl
  have hinner : Reading.Moves [0x28, 0x28, 0x31, 0x29]
      ⟨⟨[.group ⟨1, 1⟩, .chain []], .expecting .expr⟩, 1⟩
      ⟨⟨[.group ⟨1, 1⟩, .chain []], .built (.number 1)⟩, 4⟩ :=
    Reading.moves_of_derives (by omega) (Nat.le_refl 4) rfl (.inl rfl) hheld
  have hparse := parse_of_rejects {} (hgroup.trans hinner) (Nat.le_refl 4) rfl (.inl ⟨rfl, rfl⟩)
  have hanswer := answer_of_error {} .toEnd (Cursor.parseToEnd_of_error hparse)
  obtain ⟨j, l, hinnermost, hmarks, hhelp⟩ :=
    unclosed_names_innermost (.opened hopen) (by decide) hanswer rfl
  have houter : Innermost [0x28, 0x28, 0x31, 0x29] 4 0 :=
    innermost_of_closes (by omega) rfl hheld.balanced hheld.closes
  obtain rfl : j = 0 := hinnermost.unique houter
  exact ⟨_, _, _, l, hopen, hanswer, rfl, rfl, houter, hmarks, hhelp⟩

end Parser

end SeekParse

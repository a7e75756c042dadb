import SeekParse.Proofs.Recognition

/-!
# Errors point at the byte that is wrong

A parser keeps the place of the byte it stands on as it goes: a line and a column, counted up byte
by byte, and put back where the parser goes back. The excerpt of an error is read from the source
anew. This file says that both are what the text has at the offset of the error, however the parser
came there: through groups that were opened and closed, after calls that failed before, or back from
the end of a literal that turned out too large.

* `Finds.start_le`: no call finds a mismatch before the byte that it started on.
* `mismatch_points`: the error that a call is answered with points at the byte that the parser is
  left on. At the end of the text there is no such byte, and it is placed at the last one.
-/

namespace SeekParse

variable {text : List UInt8} {start k : Nat} {mismatch : Mismatch}

/-! ## A mismatch comes after what has been read -/

theorem Rejects.start_le {root : Rule} (h : Rejects text root start mismatch k) : start ≤ k := by
  cases h with
  | noOperand _ hframes _ _ => exact hframes.le
  | unclosed hjk _ hframes _ _ _ => exact Nat.le_trans hframes.le (Nat.le_of_lt hjk)
  | tooLarge _ _ hframes _ _ _ => exact hframes.le

/-- A construct ends after it starts. -/
theorem Derives.lt_of_extract {rule : Rule} {e : Expr} (h : Derives rule (text.extract start k) e) :
    start < k := by
  by_cases hlt : start < k
  · exact hlt
  · refine absurd ?_ h.ne_nil
    have hlen : k - start = 0 := by omega
    rw [List.extract_eq_take_drop, hlen, List.take_zero]

theorem Finds.start_le (h : Finds text start mismatch k) : start ≤ k := by
  cases h with
  | rejects hrejects => exact hrejects.start_le
  | trailing he _ => exact Nat.le_of_lt he.lt_of_extract

/-! ## What a diagnostic points at -/

/-- A diagnostic is about byte `k` of a text, and quotes so many bytes from there. -/
structure Diagnostic.PointsAt (d : Diagnostic) (text : List UInt8) (width k : Nat) : Prop where
  /-- Its place is that of the byte. -/
  onByte : k < text.length → d.location.Marks text k
  /-- Past the last byte, it is that of the last one. -/
  atEnd : k = text.length → text ≠ [] → d.location.Marks text (text.length - 1)
  /-- With no byte at all, it is before the first column. -/
  noByte : text = [] → d.location = { line := 1, column := 0 }
  /-- It quotes what there is from the byte on, up to its width. -/
  excerpt : d.excerpt = some (oneLine (text.extract k (min (k + width) text.length)))

/-- Past its end, there is nothing more of a text to take. -/
theorem extract_min (text : List UInt8) (j k : Nat) :
    text.extract j (min k text.length) = text.extract j k := by
  rw [List.extract_eq_take_drop, List.extract_eq_take_drop, List.take_eq_take_iff,
    List.length_drop]
  omega

theorem Mismatch.location_diagnosticAt (mismatch : Mismatch) (text : List UInt8)
    (options : Cursor.Options) (k : Nat) :
    (mismatch.diagnosticAt text options k).location = (Cursor.State.along text k).location := by
  rw [diagnosticAt, Diagnostic.foldl_withHelp]

theorem Mismatch.excerpt_diagnosticAt (mismatch : Mismatch) (text : List UInt8)
    (options : Cursor.Options) (k : Nat) :
    (mismatch.diagnosticAt text options k).excerpt
      = some (oneLine (text.extract k (k + options.excerptWidth))) := by
  rw [diagnosticAt, Diagnostic.foldl_withHelp]

/-- What is said of a mismatch at an offset points at it. -/
theorem Mismatch.pointsAt_diagnosticAt (mismatch : Mismatch) (options : Cursor.Options)
    (hlen : text.length < UInt32.size) :
    (mismatch.diagnosticAt text options k).PointsAt text options.excerptWidth k := by
  have hlocation := mismatch.location_diagnosticAt text options k
  constructor
  · intro hlt
    rw [hlocation]
    exact (Cursor.State.onByte_along hlt hlen).location
  · intro hend hne
    rw [hlocation, hend]
    exact (Cursor.State.atEnd_along_length hlen).location hne
  · intro hnil
    subst hnil
    rw [hlocation]
    rfl
  · rw [mismatch.excerpt_diagnosticAt, extract_min]

namespace Parser

variable {options : Options}

/-- The mismatch behind an error, and where it has left the parser. -/
theorem mismatch_of_answer {i : Nat} (hi : i ≤ text.length) {call : Call} {d : Diagnostic}
    {p : Parser} (h : (along text options i).answer call = (.error (.mismatch d), p)) :
    ∃ mismatch k, Finds text i mismatch k ∧ d = mismatch.diagnosticAt text options.toOptions k
      ∧ p = along text options k := by
  rcases answer_cases options call hi with ⟨e, k, -, hanswer⟩ | ⟨mismatch, k, hfinds, hanswer⟩
  · rw [hanswer] at h
    cases h
  · rw [hanswer] at h
    cases h
    exact ⟨mismatch, k, hfinds, rfl, rfl⟩

/--
**An error points at the byte on which it leaves the parser.**

Whatever a parser on a text in memory has been asked before, and whatever it is asked for now: if it
answers with a mismatch, it has not gone back behind where it was. The error's place and its excerpt
are those of the byte that the parser is left on, counted in the text.
-/
theorem mismatch_points {p p' : Parser} {call : Call} {d : Diagnostic}
    (hp : Reached text options p) (hlen : text.length < UInt32.size)
    (h : p.answer call = (.error (.mismatch d), p')) :
    p.cursor.state.offset ≤ p'.cursor.state.offset
      ∧ p'.cursor.state.offset ≤ text.length
      ∧ d.location = p'.cursor.location
      ∧ d.PointsAt text options.excerptWidth p'.cursor.state.offset := by
  obtain ⟨i, hi, rfl⟩ := reached_along hp
  obtain ⟨mismatch, k, hfinds, rfl, rfl⟩ := mismatch_of_answer hi h
  have hk := hfinds.le_length
  have hoffset : (along text options i).cursor.state.offset = i := Cursor.State.offset_along hi
  have hoffset' : (along text options k).cursor.state.offset = k := Cursor.State.offset_along hk
  rw [hoffset, hoffset']
  exact ⟨hfinds.start_le, hk, mismatch.location_diagnosticAt text options.toOptions k,
    mismatch.pointsAt_diagnosticAt options.toOptions hlen⟩

/-- After `-(` there is a line feed, which is what the error is about and what it quotes. -/
theorem mismatch_points_lineFeed :
    ∃ p p' d, Reached [0x2D, 0x28, 0x0A] {} p
      ∧ p.answer (.construct .expr) = (.error (.mismatch d), p')
      ∧ p'.cursor.state.offset = 2
      ∧ d.location.Marks [0x2D, 0x28, 0x0A] 2
      ∧ d.excerpt = some "\\n" := by
  have hp : Reached [0x2D, 0x28, 0x0A] {} (along [0x2D, 0x28, 0x0A] {} 0) :=
    .opened (ofSource_ofBytes _ _)
  -- a minus, a parenthesis, and then the expression and its operand that are missing
  have hminus : Reading.Moves [0x2D, 0x28, 0x0A] ⟨.start .expr, 0⟩
      ⟨⟨[.applied .neg, .chain []], .expecting .unary⟩, 1⟩ :=
    (Reading.Moves.turn .refl rfl).take rfl
  have hgroup : Reading.Moves [0x2D, 0x28, 0x0A] ⟨.start .expr, 0⟩
      ⟨⟨[.group ⟨1, 2⟩, .applied .neg, .chain []], .expecting .expr⟩, 2⟩ :=
    (hminus.turn rfl).take rfl
  have hoperand := (hgroup.turn rfl).turn rfl
  have hparse := parse_of_rejects {} hoperand (Nat.le_succ 2) rfl (.inl ⟨rfl, rfl⟩)
  have hanswer := answer_of_error {} (.construct .expr) hparse
  obtain ⟨-, -, -, hpoints⟩ := mismatch_points hp (by decide) hanswer
  exact ⟨_, _, _, hp, hanswer, rfl, hpoints.onByte (by decide), hpoints.excerpt⟩

end Parser

end SeekParse

import SeekParse.Proofs.Seeks
import SeekParse.Proofs.Recognition

/-!
# A failing source is never mistaken for another input

A parser on a source that fails answers every call as it would on the same bytes in memory, until it
says that the source has failed. In particular no tree, no mismatch and no end of the input is made
up from what could not be read.

For a source that only becomes unreadable somewhere, one can say where that is noticed. A cursor has
read the byte that it stands on, and none after it. So an expression that ends before the offset is
read as ever, although what comes after it cannot be; and one that ends there, or later, is not read
at all.

* `same_until_source_fails`: both, for all sources and all runs of calls.
-/

namespace SeekParse

variable {α : Type}

/-- Whether an answer says something about the input. -/
def Delivered : Except Failure α → Bool
  | .error (.source _) => false
  | .ok _ | .error (.mismatch _) => true

namespace Parser

/-- The same parser, with a source that fails like this. -/
def under (p : Parser) (faults : Faults) : Parser := { p with cursor := p.cursor.under faults }

theorem needs_read {c : Cursor} (hc : c.source.faults = {}) (requireEnd : Bool) (call : Call) :
    ∃ seeks, Needs Failure.source (call.read requireEnd) c seeks := by
  cases call with
  | parse =>
      unfold Call.read
      by_cases hend : requireEnd = true
      · rw [if_pos hend]
        exact ⟨_, Cursor.needs_parseToEnd hc⟩
      · rw [if_neg hend]
        exact ⟨_, Cursor.needs_run (.start .expr) hc⟩
  | toEnd => exact ⟨_, Cursor.needs_parseToEnd hc⟩
  | construct rule => exact ⟨_, Cursor.needs_run (.start rule) hc⟩

/-- One call on a source that may fail. -/
theorem answer_under {p : Parser} (hp : p.cursor.source.faults = {}) (call : Call)
    (faults : Faults) :
    (p.answer call).2.cursor.source.faults = {}
      ∧ ((∃ left, (p.under faults).answer call = ((p.answer call).1, (p.answer call).2.under left))
        ∨ ∃ e, ((p.under faults).answer call).1 = .error (.source e)) := by
  obtain ⟨seeks, hneeds⟩ := needs_read hp p.requireEnd call
  refine ⟨?_, ?_⟩
  · rw [answer_snd]
    exact hneeds.sound_stateAfter hp
  rcases hneeds.answer_agrees faults with ⟨-, hanswer, hafter⟩ | ⟨e, hanswer, -⟩
  · refine .inl ⟨faults.spend seeks, Prod.ext ?_ ?_⟩
    · rw [answer_fst, answer_fst]
      exact hanswer
    · rw [answer_snd, answer_snd, under, under]
      exact congrArg (fun cursor => { p with cursor }) hafter
  · refine .inr ⟨e, ?_⟩
    rw [answer_fst]
    exact hanswer

/-- A run of calls goes on alike until the source fails. -/
theorem takeWhile_answerAll_under (calls : List Call) {p : Parser}
    (hp : p.cursor.source.faults = {}) (faults : Faults) :
    ((answerAll calls (p.under faults)).1.takeWhile fun x => Delivered x.1)
      <+: (answerAll calls p).1 := by
  induction calls generalizing p faults with
  | nil => exact List.prefix_rfl
  | cons call rest ih =>
      obtain ⟨hsound, ⟨left, hsame⟩ | ⟨e, hfail⟩⟩ := answer_under hp call faults
      · have hrest := ih hsound left
        simp only [answerAll, hsame]
        rw [List.takeWhile_cons]
        by_cases hdelivered : Delivered (p.answer call).1 = true
        · rw [if_pos hdelivered]
          exact List.cons_prefix_cons.2 ⟨rfl, hrest⟩
        · rw [if_neg hdelivered]
          exact List.nil_prefix
      · simp only [answerAll]
        rw [List.takeWhile_cons, hfail]
        exact List.nil_prefix

end Parser

/-! ## Sources that become unreadable -/

/-- Reads fail from this offset on, and nothing else does. -/
def Faults.unreadable (f : Nat) : Faults := { unreadableFrom := some f }

namespace Cursor

variable {text : List UInt8} {options : Options} {f : Nat}

theorem advance_of_readFails {c : Cursor} (hactive : c.state.isActive = true)
    (hfails : c.source.readFails = true) :
    advance c = .error (.read c.state.position .deviceLost) c := by
  rw [advance, if_pos hactive, Source.read, if_pos hfails]

/-- A step that can be read does what it does in memory. -/
theorem advance_of_not_readFails {c : Cursor} (hc : c.source.faults = {}) (faults : Faults)
    (hreadable : ¬ (c.under faults).source.readFails = true) :
    advance (c.under faults) = outcomeUnder faults (advance c) := by
  have hmemory : ¬ c.source.readFails = true := Source.not_readFails (by rw [hc])
  have hsame : (c.under faults).source.contents[(c.under faults).source.head]?
      = c.source.contents[c.source.head]? := rfl
  rw [advance, advance]
  by_cases hactive : c.state.isActive = true
  · rw [if_pos hactive, if_pos (show (c.under faults).state.isActive = true from hactive),
      Source.read, Source.read, if_neg hmemory, if_neg hreadable, hsame]
    cases c.source.contents[c.source.head]? with
    | some byte => rfl
    | none => rfl
  · rw [if_neg hactive, if_neg (show ¬ (c.under faults).state.isActive = true from hactive)]
    rfl

/-- The next byte cannot be read exactly if it is not before the offset. -/
theorem readFails_along {faults : Faults} {i : Nat} (hi : i < text.length)
    (hf : faults.unreadableFrom = some f) :
    ((along text options i).under faults).source.readFails = true ↔ f ≤ i + 1 := by
  have hposition : ((along text options i).under faults).source.head = i + 1 :=
    State.position_along_of_lt hi
  have hfails : ((along text options i).under faults).source.faults.unreadableFrom = some f := hf
  rw [Source.readFails, hfails, hposition]
  exact decide_eq_true_iff

end Cursor

namespace Reading

variable {text : List UInt8} {f : Nat}

/-- One move of a machine, where the byte that it comes to can be read. -/
theorem Move.run_readable {r r' : Reading} (h : Move text r r') (options : Cursor.Options)
    (hf : r'.offset < f) :
    Cursor.run r.machine ((Cursor.along text options r.offset).under (.unreadable f))
      = Cursor.run r'.machine ((Cursor.along text options r'.offset).under (.unreadable f)) := by
  cases h with
  | @take m next i hstep =>
      have hi : i < text.length := lt_of_take hstep
      have hreadable : ¬ ((Cursor.along text options i).under (.unreadable f)).source.readFails
          = true := by
        rw [Cursor.readFails_along hi rfl]
        exact Nat.not_le.2 hf
      obtain ⟨moved, hadvance⟩ := Cursor.advance_along options hi
      dsimp only
      rw [Cursor.run_eq, show m.step ((Cursor.along text options i).under (.unreadable f)).state
        = .take next from hstep]
      dsimp only
      rw [Cursor.advance_of_not_readFails rfl _ hreadable, hadvance]
      rfl
  | @turn m next i hstep =>
      dsimp only
      rw [Cursor.run_eq, show m.step ((Cursor.along text options i).under (.unreadable f)).state
        = .turn next from hstep]

/-- One move of a machine, where the byte that it comes to is the first that cannot be read. -/
theorem Move.run_unreadable {r r' : Reading} (h : Move text r r') (options : Cursor.Options)
    (hr : r.offset < f) (hf : f ≤ r'.offset) :
    Cursor.run r.machine ((Cursor.along text options r.offset).under (.unreadable f))
      = .error (.source (.read f .deviceLost))
          ((Cursor.along text options r.offset).under (.unreadable f)) := by
  cases h with
  | @take m next i hstep =>
      have hi : i < text.length := lt_of_take hstep
      obtain rfl : f = i + 1 := by
        dsimp only at hr hf
        omega
      have hposition : ((Cursor.along text options i).under (.unreadable (i + 1))).state.position
          = i + 1 := Cursor.State.position_along_of_lt hi
      have hadvance := Cursor.advance_of_readFails
        (c := (Cursor.along text options i).under (.unreadable (i + 1)))
        (Cursor.State.isActive_along_of_lt hi) ((Cursor.readFails_along hi rfl).2 (Nat.le_refl _))
      dsimp only
      rw [Cursor.run_eq, show m.step
        ((Cursor.along text options i).under (.unreadable (i + 1))).state = .take next from hstep]
      dsimp only
      rw [hadvance, hposition]
  | @turn m next i hstep => exact absurd hr (Nat.not_lt.2 hf)

/-- What a reading comes to where the text is unreadable: it gets to where it would get, or fails at
the first byte that cannot be read. -/
theorem Moves.run_unreadable {r r' : Reading} (h : Moves text r r') (options : Cursor.Options)
    (hr : r.offset < f) :
    (r'.offset < f
        ∧ Cursor.run r.machine ((Cursor.along text options r.offset).under (.unreadable f))
          = Cursor.run r'.machine ((Cursor.along text options r'.offset).under (.unreadable f)))
      ∨ (f ≤ r'.offset
        ∧ ∃ c, Cursor.run r.machine ((Cursor.along text options r.offset).under (.unreadable f))
          = .error (.source (.read f .deviceLost)) c) := by
  induction h with
  | refl => exact .inl ⟨hr, rfl⟩
  | @tail r₁ r₂ _ hmove ih =>
      rcases ih with ⟨hlt, hrun⟩ | ⟨hle, hfail⟩
      · rw [hrun]
        rcases Nat.lt_or_ge r₂.offset f with hlt₂ | hle₂
        · exact .inl ⟨hlt₂, hmove.run_readable options hlt₂⟩
        · exact .inr ⟨hle₂, _, hmove.run_unreadable options hlt hle₂⟩
      -- offsets only grow, so what has failed before is past the offset for good
      · exact .inr ⟨Nat.le_trans hle hmove.offset_le, hfail⟩

end Reading

namespace Cursor

variable {text : List UInt8} {options : Options} {f : Nat}

/-- Nothing is accepted by reporting it. -/
theorem fails_report (mismatch : Mismatch) : Fails (report mismatch : ParseM α) :=
  .bind fun _ => .throw _

theorem fails_reportAt (mismatch : Mismatch) (site : Option State) :
    Fails (reportAt mismatch site : ParseM α) := by
  cases site with
  | none => exact fails_report mismatch
  | some start => exact .bind fun _ => fails_report mismatch

/-- A construct that ends before the offset is read as ever, and no other is. -/
theorem parse_unreadable {rule : Rule} {i : Nat} {e : Expr} {c : Cursor} (hi : i ≤ text.length)
    (hf : i < f) (h : parse rule (along text options i) = .ok e c) :
    (c.state.offset < f
        ∧ parse rule ((along text options i).under (.unreadable f))
          = .ok e (c.under (.unreadable f)))
      ∨ (f ≤ c.state.offset
        ∧ ∃ d, parse rule ((along text options i).under (.unreadable f))
          = .error (.source (.read f .deviceLost)) d) := by
  obtain ⟨r, hstops⟩ := Reading.exists_stops text ⟨.start rule, i⟩
  rcases hstops.run_eq options with ⟨e', hstep, hrun⟩ | ⟨mismatch, site, hstep, hrun⟩
  · obtain ⟨rfl, rfl⟩ : e' = e ∧ along text options r.offset = c := by
      have hsame := hrun.symm.trans h
      cases hsame
      exact ⟨rfl, rfl⟩
    have hr : r.offset ≤ text.length :=
      ((spells_start rule hi).moves hstops.moves).offset_le_length
    have hoffset : (along text options r.offset).state.offset = r.offset := State.offset_along hr
    rw [hoffset]
    rcases hstops.moves.run_unreadable options hf with ⟨hlt, hrun'⟩ | ⟨hle, hfail⟩
    · refine .inl ⟨hlt, hrun'.trans ?_⟩
      rw [run_eq, show r.machine.step ((along text options r.offset).under (.unreadable f)).state
        = .accept e' from hstep]
    · exact .inr ⟨hle, hfail⟩
  · exact absurd (hrun.symm.trans h) (fails_reportAt mismatch site _ _ _)

/-- A source that is not readable at its start is not opened. -/
theorem opens_unreadable {source : Source} (options : Options)
    (hfaults : source.faults = .unreadable f) :
    (0 < f ∧ ofSource source options
        = .ok ((along source.bytes options 0).under (.unreadable f)))
      ∨ (f = 0 ∧ ofSource source options = .error (.read f .deviceLost)) := by
  have hrestore : restore .initial { source, options }
      = .ok () ((inMemory source.bytes options .initial).under (.unreadable f)) := by
    obtain ⟨contents, head, faults⟩ := source
    obtain rfl : faults = .unreadable f := hfaults
    have hseek : Source.seekTo 0 { contents, head, faults := .unreadable f }
        = .ok () { contents, head := 0, faults := .unreadable f } := by
      rw [Source.seekTo_eq, if_neg (fun h => by cases h)]
      exact if_pos rfl
    have hposition : State.initial.position = 0 := rfl
    rw [restore_eq, hposition, hseek]
    rfl
  obtain ⟨moved, hrewind⟩ := rewind_ofBytesAt source.bytes 0 options
  have hfails : ((inMemory source.bytes options .initial).under (.unreadable f)).source.readFails
      = true ↔ f ≤ 0 := decide_eq_true_iff
  rcases Nat.eq_zero_or_pos f with rfl | hpos
  · refine .inr ⟨rfl, ?_⟩
    have hadvance := advance_of_readFails
      (c := (inMemory source.bytes options .initial).under (.unreadable 0)) rfl
      (hfails.2 (Nat.le_refl 0))
    simp only [ofSource, rewind, bind, EStateM.bind, hrestore, hadvance]
    rfl
  · refine .inl ⟨hpos, ?_⟩
    have hadvance := advance_of_not_readFails (c := inMemory source.bytes options .initial)
      rfl (.unreadable f) (fun h => Nat.not_le.2 hpos (hfails.1 h))
    have hmove : advance (inMemory source.bytes options .initial)
        = .ok moved (along source.bytes options 0) := by
      simp only [rewind, bind, EStateM.bind, restore_ofBytesAt] at hrewind
      exact hrewind
    rw [hmove] at hadvance
    simp only [ofSource, rewind, bind, EStateM.bind, hrestore, hadvance]
    rfl

end Cursor

namespace Parser

/--
**A failing source is never mistaken for another input.**

A source that fails in whatever way, wherever its head is, is not opened, or opened as its bytes in
memory are. Whatever calls follow, until one is answered by a failure of the source, the answers and
the states are those in memory.

If all that is wrong with it is that it is unreadable from `f` on, a construct that is read in
memory is read alike if it ends before `f`. Otherwise the failure is that of reading at `f`, and
nowhere else.
-/
theorem same_until_source_fails (source : Source) (options : Options) :
    ∃ p₀, ofSource (.ofBytes source.bytes) options = .ok p₀
      ∧ ((∃ e, ofSource source options = .error (.source e))
        ∨ ∃ p, ofSource source options = .ok p ∧ p.cursor.state = p₀.cursor.state
          ∧ ∀ calls, ((answerAll calls p).1.takeWhile fun x => Delivered x.1)
            <+: (answerAll calls p₀).1)
      ∧ ∀ f rule e p₁, source.faults = .unreadable f →
          p₀.answer (.construct rule) = (.ok e, p₁) →
          (p₁.cursor.state.offset < f →
            ∃ p, ofSource source options = .ok p
              ∧ (p.answer (.construct rule)).1 = .ok e
              ∧ (p.answer (.construct rule)).2.cursor.state = p₁.cursor.state)
          ∧ (f ≤ p₁.cursor.state.offset →
            ofSource source options = .error (.source (.read f .deviceLost))
              ∨ ∃ p, ofSource source options = .ok p
                ∧ (p.answer (.construct rule)).1 = .error (.source (.read f .deviceLost))) := by
  refine ⟨along source.bytes options 0, ofSource_ofBytes _ _, ?_, ?_⟩
  · rcases Cursor.opens_under source options.toOptions with ⟨-, hopen⟩ | ⟨e, hopen, -⟩
    · refine .inr ⟨(along source.bytes options 0).under (source.faults.spend 1), ?_, rfl, ?_⟩
      · rw [ofSource, hopen]
        rfl
      · intro calls
        exact takeWhile_answerAll_under calls rfl _
    · refine .inl ⟨e, ?_⟩
      rw [ofSource, hopen]
  · intro f rule e p₁ hfaults hanswer
    have hparse : Cursor.parse rule (Cursor.along source.bytes options.toOptions 0)
        = .ok e p₁.cursor := read_of_answer hanswer
    rcases Cursor.opens_unreadable options.toOptions hfaults with ⟨hpos, hopen⟩ | ⟨rfl, hopen⟩
    · have hopened : ofSource source options
          = .ok ((along source.bytes options 0).under (.unreadable f)) := by
        rw [ofSource, hopen]
        rfl
      rcases Cursor.parse_unreadable (Nat.zero_le _) hpos hparse with
        ⟨hlt, hsame⟩ | ⟨hle, d, hfail⟩
      · refine ⟨fun _ => ⟨_, hopened, ?_⟩, fun hle => absurd hlt (Nat.not_lt.2 hle)⟩
        simp only [answer, under, along, Call.read, hsame]
        exact ⟨trivial, rfl⟩
      · refine ⟨fun hlt => absurd hlt (Nat.not_lt.2 hle), fun _ => .inr ⟨_, hopened, ?_⟩⟩
        rw [answer_fst]
        show answerOf (Cursor.parse rule ((Cursor.along _ _ 0).under _)) = _
        rw [hfail]
        rfl
    · refine ⟨fun hlt => absurd hlt (Nat.not_lt_zero _), fun _ => .inl ?_⟩
      rw [ofSource, hopen]

/-- The `1` of `1)` is read, although nothing after the parenthesis can be. -/
theorem same_until_source_fails_paren :
    ∃ p, ofSource { contents := #[0x31, 0x29], faults := .unreadable 2 } {} = .ok p
      ∧ (p.answer (.construct .expr)).1 = .ok (.number 1)
      ∧ (p.answer (.construct .expr)).2.cursor.state.offset = 1 := by
  have hstop : StopsAt .unary [0x31, 0x29] 1 :=
    stopsAt_of_next (by decide) rfl isDigit_closeParen
  have hone : Cursor.parse .expr (Cursor.along [0x31, 0x29] {} 0) =
      .ok (.number 1) (Cursor.along [0x31, 0x29] {} 1) :=
    parse_of_derives (by decide) (by decide) (.alone (.primary (@Derives.digit 0x31 rfl)))
      (hstop.expr (by decide))
  obtain ⟨p₀, hmemory, -, hunreadable⟩ :=
    same_until_source_fails { contents := #[0x31, 0x29], faults := .unreadable 2 } {}
  rw [ofSource_ofBytes] at hmemory
  cases hmemory
  obtain ⟨p, hopen, hanswer, hstate⟩ :=
    (hunreadable 2 .expr (.number 1) _ rfl (answer_of_ok {} (.construct .expr) hone)).1 (by decide)
  exact ⟨p, hopen, hanswer, by rw [hstate]; rfl⟩

end Parser

end SeekParse

import SeekParse.Proofs.Faults
import SeekParse.Proofs.Steady

/-!
# Taking a run

A cursor takes a run by stepping for as long as the byte it stands on suits. A byte is taken before
it is known what comes after it, because that is what the step has to read. So if a read fails in
the middle of a run, the bytes before it have been taken already; and nothing goes back, since a run
keeps no state to go back to. In this a run is unlike a text, which is taken as a whole or left.

* `takeWhileFrom_readable`, `takeWhileFrom_unreadable`: a run that can be read on, to the byte that
  ends it, is taken whole; any other is taken up to the first byte that cannot be read.
* `takeWhile_keeps_taken`: taking a run fails where the run is `Interrupted`, and that leaves the
  cursor where it was only if nothing after the current byte could be read.
-/

namespace SeekParse.Cursor

variable {text : List UInt8} {options : Options} {faults : Faults} {p : UInt8 → Bool} {c : Cursor}
  {f : Nat}

/-! ## One step on a source that becomes unreadable -/

/-- A step to a byte that can be read. -/
theorem advance_readable (options : Options) {i : Nat} (hi : i < text.length)
    (hread : ∀ f, faults.unreadableFrom = some f → i + 1 < f) :
    ∃ moved, advance ((along text options i).under faults)
      = .ok moved ((along text options (i + 1)).under faults) := by
  have hreadable : ¬ ((along text options i).under faults).source.readFails = true := by
    cases hf : faults.unreadableFrom with
    | none => exact Source.not_readFails hf
    | some f =>
        rw [readFails_along hi hf]
        exact Nat.not_le.2 (hread f hf)
  obtain ⟨moved, hadvance⟩ := advance_along options hi
  refine ⟨moved, ?_⟩
  rw [advance_of_not_readFails rfl faults hreadable, hadvance]
  rfl

/-- A step to a byte that cannot be read. -/
theorem advance_unreadable {i : Nat} (hi : i < text.length)
    (hf : faults.unreadableFrom = some f) (hle : f ≤ i + 1) :
    advance ((along text options i).under faults)
      = .error (.read (i + 1) .deviceLost) ((along text options i).under faults) := by
  have hposition : ((along text options i).under faults).state.position = i + 1 :=
    State.position_along_of_lt hi
  have hadvance := advance_of_readFails (c := (along text options i).under faults)
    (State.isActive_along_of_lt hi) ((readFails_along hi hf).2 hle)
  rwa [hposition] at hadvance

/-! ## Where a run ends -/

/-- The run that starts at the byte on which a state stands. Before the first byte there is none,
though the text may begin with bytes that suit. -/
def runAt (text : List UInt8) (p : UInt8 → Bool) (s : State) : List UInt8 :=
  if s.current.isSome then (text.drop s.offset).takeWhile p else []

theorem runAt_along (p : UInt8 → Bool) {i : Nat} (hi : i ≤ text.length) :
    runAt text p (.along text i) = (text.drop i).takeWhile p := by
  rw [runAt, State.current_along, State.offset_along hi]
  cases h : text[i]? with
  | some byte => rfl
  | none =>
      rw [List.drop_eq_nil_iff.2 (List.getElem?_eq_none_iff.1 h)]
      rfl

/-- The first byte of a run is the current one, if that suits. -/
theorem head?_run (text : List UInt8) (p : UInt8 → Bool) (i : Nat) :
    ((text.drop i).takeWhile p).head? = text[i]?.filter p := by
  rw [List.head?_takeWhile, List.head?_drop]

/-- After its first byte a run goes on as the run from the next one. -/
theorem run_tail {i : Nat} {byte : UInt8} {rest : List UInt8}
    (h : (text.drop i).takeWhile p = byte :: rest) :
    i < text.length ∧ (text.drop (i + 1)).takeWhile p = rest := by
  have hhead := head?_run text p i
  rw [h, List.head?_cons] at hhead
  obtain ⟨hbyte, hp⟩ := Option.filter_eq_some_iff.1 hhead.symm
  obtain ⟨hi, hget⟩ := List.getElem?_eq_some_iff.1 hbyte
  rw [List.drop_eq_getElem_cons hi, hget, List.takeWhile_cons_of_pos hp] at h
  exact ⟨hi, (List.cons.inj h).2⟩

/-- What is taken next is the first byte of the run. -/
theorem takeWhileFrom_along (p : UInt8 → Bool) (taken : List UInt8) (i : Nat) :
    takeWhileFrom p taken ((along text options i).under faults) =
      match ((text.drop i).takeWhile p).head? with
      | none => .ok taken.reverse ((along text options i).under faults)
      | some byte =>
        match advance ((along text options i).under faults) with
        | .ok _ next => takeWhileFrom p (byte :: taken) next
        | .error e next => .error e next := by
  rw [takeWhileFrom_eq, head?_run, ← State.current_along text i]
  rfl

/-- A run is taken whole, if it and the byte that ends it can be read. -/
theorem takeWhileFrom_readable (options : Options) {run : List UInt8} {i : Nat} (taken : List UInt8)
    (hrun : (text.drop i).takeWhile p = run)
    (hread : run ≠ [] → ∀ f, faults.unreadableFrom = some f → i + run.length < f) :
    takeWhileFrom p taken ((along text options i).under faults)
      = .ok (taken.reverse ++ run) ((along text options (i + run.length)).under faults) := by
  induction run generalizing i taken with
  | nil =>
      rw [takeWhileFrom_along, hrun, List.append_nil]
      rfl
  | cons byte rest ih =>
      obtain ⟨hi, htail⟩ := run_tail hrun
      have hread := hread (List.cons_ne_nil _ _)
      rw [List.length_cons] at hread ⊢
      have hnext : ∀ f, faults.unreadableFrom = some f → i + 1 < f := fun f hf => by
        have := hread f hf
        omega
      obtain ⟨moved, hadvance⟩ := advance_readable options hi hnext
      have hrest := ih (byte :: taken) htail fun _ f hf => by
        have := hread f hf
        omega
      rw [takeWhileFrom_along, hrun, List.head?_cons]
      dsimp only
      rw [hadvance]
      dsimp only
      rw [hrest, List.reverse_cons, List.append_assoc, Nat.add_assoc, Nat.add_comm 1]
      rfl

/-- A run that cannot be read on is taken up to the byte before the first that cannot be read. -/
theorem takeWhileFrom_unreadable (options : Options) {run : List UInt8} {i : Nat}
    (taken : List UInt8) (hf : faults.unreadableFrom = some f)
    (hrun : (text.drop i).takeWhile p = run) (hne : run ≠ []) (hle : f ≤ i + run.length) :
    takeWhileFrom p taken ((along text options i).under faults)
      = .error (.read (max f (i + 1)) .deviceLost)
          ((along text options (max f (i + 1) - 1)).under faults) := by
  induction run generalizing i taken with
  | nil => exact absurd rfl hne
  | cons byte rest ih =>
      obtain ⟨hi, htail⟩ := run_tail hrun
      rw [List.length_cons] at hle
      rw [takeWhileFrom_along, hrun, List.head?_cons]
      dsimp only
      rcases Nat.lt_or_ge (i + 1) f with hlt | hge
      · -- the next byte can be read, and belongs to the run, since the run is not read to its end
        have hnext : ∀ f', faults.unreadableFrom = some f' → i + 1 < f' := fun f' hf' => by
          rw [hf] at hf'
          cases hf'
          exact hlt
        obtain ⟨moved, hadvance⟩ := advance_readable options hi hnext
        have hrest : rest ≠ [] := by
          rintro rfl
          rw [List.length_nil] at hle
          omega
        have hmax : max f (i + 1 + 1) = max f (i + 1) := by omega
        rw [hadvance]
        dsimp only
        rw [ih (byte :: taken) htail hrest (by omega), hmax]
      · have hmax : max f (i + 1) = i + 1 := by omega
        rw [advance_unreadable hi hf hge, hmax]
        rfl

/-! ## Runs of any cursor -/

/-- A cursor that knows where it is, is its text, how far along it has come, and how its source
fails. -/
theorem eq_along_under {S : State → Prop} {i : Nat} (h : Steady text S c)
    (hs : c.state = .along text i) : c = (along text c.options i).under c.source.faults := by
  obtain ⟨⟨contents, head, faults⟩, state, options⟩ := c
  obtain rfl : state = .along text i := hs
  obtain rfl : head = (State.along text i).position := h.head
  obtain rfl : contents.toList = text := h.bytes
  rfl

/-- Before the first byte there is no run to take. -/
theorem takeWhile_initial (p : UInt8 → Bool) (hs : c.state = .initial) :
    takeWhile p c = .ok [] c := by
  rw [takeWhile, takeWhileFrom_eq, current, hs]
  rfl

/-- There is a run at a cursor, and its source is unreadable at a byte of the run, or at the one
that ends it. -/
def Interrupted (text : List UInt8) (p : UInt8 → Bool) (c : Cursor) : Prop :=
  runAt text p c.state ≠ [] ∧ ∃ f, c.source.faults.unreadableFrom = some f
    ∧ f ≤ c.state.offset + (runAt text p c.state).length

/-- The last byte that can be read of a run, when the run cannot be read on. -/
theorem last_readable {run : List UInt8} {i : Nat} (hi : i ≤ text.length)
    (hrun : (text.drop i).takeWhile p = run) (hne : run ≠ []) (hle : f ≤ i + run.length) :
    ∃ j, j + 1 = max f (i + 1) ∧ j < text.length ∧ text.extract i j <+: run := by
  have hpos := List.length_pos_iff.2 hne
  obtain ⟨hend, hwhole, -⟩ := extract_run hi hrun
  obtain ⟨j, hj⟩ : ∃ j, j + 1 = max f (i + 1) := ⟨max f (i + 1) - 1, by omega⟩
  have hsplit := extract_append text (show i ≤ j by omega) (show j ≤ i + run.length by omega)
  rw [hwhole] at hsplit
  exact ⟨j, hj, by omega, _, hsplit⟩

/-- To take a run comes to one of two things, and which of them is known beforehand. -/
theorem takeWhile_cases (hsteady : Steady text (OnText text) c) (p : UInt8 → Bool) :
    (¬ Interrupted text p c ∧ ∃ run c', takeWhile p c = .ok run c')
      ∨ Interrupted text p c ∧ ∃ i f j, c.state = .along text i
        ∧ c.source.faults.unreadableFrom = some f ∧ j + 1 = max f (i + 1)
        ∧ i < text.length ∧ j < text.length ∧ text.extract i j <+: runAt text p c.state
        ∧ takeWhile p c = .error (.read (j + 1) .deviceLost)
            ((along text c.options j).under c.source.faults) := by
  rcases hsteady.state with hs | ⟨i, hi, hs⟩
  · refine .inl ⟨fun hfails => hfails.1 ?_, _, _, takeWhile_initial p hs⟩
    rw [hs]
    rfl
  have hc := eq_along_under hsteady hs
  obtain ⟨run, hrun⟩ : ∃ run, runAt text p c.state = run := ⟨_, rfl⟩
  have hbytes : (text.drop i).takeWhile p = run := by
    rw [← hrun, hs, runAt_along p hi]
  have hoffset : c.state.offset = i := by rw [hs, State.offset_along hi]
  rw [Interrupted, hrun, hoffset]
  by_cases hfails : run ≠ [] ∧ ∃ f, c.source.faults.unreadableFrom = some f ∧ f ≤ i + run.length
  · obtain ⟨hne, f, hf, hle⟩ := hfails
    obtain ⟨j, hj, hjlt, hpassed⟩ := last_readable hi hbytes hne hle
    have htake := takeWhileFrom_unreadable c.options [] hf hbytes hne hle
    rw [← hc, ← hj, Nat.add_sub_cancel] at htake
    have hlt : i < text.length := by
      obtain ⟨byte, rest, rfl⟩ := List.exists_cons_of_ne_nil hne
      exact (run_tail hbytes).1
    exact .inr ⟨⟨hne, f, hf, hle⟩, i, f, j, hs, hf, hj, hlt, hjlt, hpassed, htake⟩
  · have hread : run ≠ [] → ∀ f, c.source.faults.unreadableFrom = some f → i + run.length < f := by
      intro hne f hf
      by_cases hlt : i + run.length < f
      · exact hlt
      · exact absurd ⟨hne, f, hf, Nat.not_lt.1 hlt⟩ hfails
    have htake := takeWhileFrom_readable c.options [] hbytes hread
    rw [← hc] at htake
    exact .inl ⟨hfails, _, _, htake⟩

/--
**A run that fails keeps what it has taken.**

Whatever has happened to a cursor, as long as no seek has failed: to take a run fails exactly if the
run is interrupted. The cursor has then gone on to the last byte that can be read, past bytes of the
run. It is where it was exactly if it could read nothing more, and so had taken nothing.
-/
theorem takeWhile_keeps_taken {states : List State} (h : History text states c)
    (p : UInt8 → Bool) :
    ((∃ e c', takeWhile p c = .error e c') ↔ Interrupted text p c)
      ∧ ∀ e c', takeWhile p c = .error e c' →
          ∃ f, c.source.faults.unreadableFrom = some f
            ∧ e = .read c'.state.position .deviceLost
            ∧ c'.source.head = c'.state.position
            ∧ c'.state = .along text (max f c.state.position - 1)
            ∧ text.extract c.state.offset c'.state.offset <+: runAt text p c.state
            ∧ (c'.state = c.state ↔ f ≤ c.state.position) := by
  obtain ⟨hsteady, -⟩ := steady_history h
  rcases takeWhile_cases hsteady p with
    ⟨hwhole, run, c', htake⟩ | ⟨hinterrupted, i, f, j, hs, hf, hj, hlt, hjlt, hpassed, htake⟩
  · have hno : ∀ e c'', takeWhile p c ≠ .error e c'' := by
      intro e c'' herror
      rw [htake] at herror
      cases herror
    refine ⟨iff_of_false ?_ hwhole, fun e c'' herror => absurd herror (hno e c'')⟩
    rintro ⟨e, c'', herror⟩
    exact hno e c'' herror
  refine ⟨iff_of_true ⟨_, _, htake⟩ hinterrupted, ?_⟩
  intro e c' herror
  rw [htake] at herror
  cases herror
  have hposition : c.state.position = i + 1 := by rw [hs, State.position_along_of_lt hlt]
  have hoffset : c.state.offset = i := by rw [hs, State.offset_along (Nat.le_of_lt hlt)]
  have hlast : ((along text c.options j).under c.source.faults).state.position = j + 1 :=
    State.position_along_of_lt hjlt
  have hlastOffset : ((along text c.options j).under c.source.faults).state.offset = j :=
    State.offset_along (Nat.le_of_lt hjlt)
  have hstate : ((along text c.options j).under c.source.faults).state
      = .along text (max f (i + 1) - 1) := by
    rw [← hj, Nat.add_sub_cancel]
    rfl
  rw [hoffset, hposition, hlast, hlastOffset]
  refine ⟨f, hf, rfl, hlast, hstate, hpassed, ?_⟩
  constructor
  · intro hsame
    have hread := congrArg State.position hsame
    rw [hlast, hposition] at hread
    omega
  · intro hle
    obtain rfl : j = i := by omega
    exact hs.symm

/-- Of `abc` the third byte cannot be read. The run is not delivered, and the cursor is on the
second byte. -/
theorem takeWhile_keeps_taken_second :
    ∃ states c c', History [0x61, 0x62, 0x63] states c
      ∧ c.source.faults.unreadableFrom = some 2
      ∧ takeWhile (fun _ => true) c = .error (.read 2 .deviceLost) c'
      ∧ c'.state = .along [0x61, 0x62, 0x63] 1
      ∧ c'.state ≠ c.state := by
  have hopened : History [0x61, 0x62, 0x63] []
      ((along [0x61, 0x62, 0x63] {} 0).under (.unreadable 2)) :=
    @History.opened _ { contents := #[0x61, 0x62, 0x63], faults := .unreadable 2 } {} _ rfl rfl
  obtain ⟨hfails, hleft⟩ := takeWhile_keeps_taken hopened (fun _ => true)
  obtain ⟨e, c', herror⟩ := hfails.2 ⟨by decide, 2, rfl, by decide⟩
  obtain ⟨f, hf, rfl, -, hstate, -, hsame⟩ := hleft e c' herror
  cases hf
  have hstate : c'.state = .along [0x61, 0x62, 0x63] 1 := hstate
  refine ⟨_, _, c', hopened, rfl, ?_, hstate, fun heq => absurd (hsame.1 heq) (by decide)⟩
  rw [herror, hstate]
  rfl

/-- A run is not taken as a whole or left: a read that fails in the middle of it leaves the cursor
further on, even where every seek would be granted. -/
theorem takeWhile_not_atomic :
    ¬ ∀ (text : List UInt8) (states : List State) (c c' : Cursor) (p : UInt8 → Bool)
      (e : SourceError), History text states c →
      c.source.faults.seeksLeft = none → c.source.faults.seekLimit = none →
      takeWhile p c = .error e c' → c'.state = c.state := by
  intro h
  have hopened : History [0x61, 0x62] [] ((along [0x61, 0x62] {} 0).under (.unreadable 2)) :=
    @History.opened _ { contents := #[0x61, 0x62], faults := .unreadable 2 } {} _ rfl rfl
  have htake : takeWhile (fun _ => true) ((along [0x61, 0x62] {} 0).under (.unreadable 2)) = _ :=
    @takeWhileFrom_unreadable [0x61, 0x62] (.unreadable 2) (fun _ => true) 2 {} [0x61, 0x62] 0 []
      rfl rfl nofun (by decide)
  exact absurd (h _ _ _ _ _ _ hopened rfl rfl htake) (by decide)

end SeekParse.Cursor

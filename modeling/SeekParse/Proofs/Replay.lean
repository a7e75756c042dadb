import SeekParse.Proofs.Steady

/-!
# Going back is starting over

A saved state is a record of what a cursor has read, not of the cursor. That it is enough to go back
by is a statement about two runs: one from the moment the state was saved, and one from wherever the
cursor had got to when it went back. The two agree because a cursor is its source, its state and its
options, and no request changes more of the source than its head. Going back sets the head and the
state, so it sets everything that any request can have changed.

In between, the cursor may have come to any harm: a seek that failed may have left the head
anywhere. If going back succeeds at all, the harm is undone. The source has to grant any number of
seeks, since one that counts them does remember the run.

* `restore_replays`: after going back, every run of requests has the answers and the states that it
  had, or would have had, when the state was saved.
-/

namespace SeekParse.Cursor

open Request

/-- A run of requests changes no more than one request does. -/
theorem alike_answerAll {source : Source} {options : Options} (requests : List Request)
    {c : Cursor} (h : source.Alike c.source ∧ c.options = options) :
    source.Alike (answerAll requests c).2.source ∧ (answerAll requests c).2.options = options := by
  induction requests generalizing c with
  | nil => exact h
  | cons r rest ih =>
      rcases (upkeep_alike source options).answer trivial (r := r) (fun _ _ => trivial) h with
        ⟨e, -, hlost⟩ | hkept
      · exact hlost.elim
      · exact ih hkept

/-- Any set of all states is closed under reading. -/
theorem closed_true (text : List UInt8) : Closed text (fun _ => True) :=
  ⟨fun _ _ _ => trivial, fun _ _ _ => trivial⟩

/-- The head is where the state has it, as long as no seek has failed in the run. -/
theorem steady_answerAll {text : List UInt8} (requests : List Request) {c : Cursor}
    (hc : Steady text (fun _ => True) c)
    (hseek : ∀ x ∈ (answerAll requests c).1, ∀ e, x.1 = .error (.source e) → ¬ e.IsSeek) :
    Steady text (fun _ => True) (answerAll requests c).2 := by
  induction requests generalizing c with
  | nil => exact hc
  | cons r rest ih =>
      have hsteady : Steady text (fun _ => True) (r.answer c).2 := by
        rcases (upkeep_steady (closed_true text)).answer trivial (r := r)
          (fun _ _ => trivial) hc with ⟨e, he, hlost⟩ | hkept
        · exact absurd hlost (hseek _ (List.mem_cons_self ..) e he)
        · exact hkept
      exact ih hsteady fun x hx => hseek x (List.mem_cons_of_mem _ hx)

/-- Going back to a state that a cursor is in, from any other with the same options on a source that
differs in its head alone, is getting that cursor back. -/
theorem restore_eq_self {c₁ c c' : Cursor} (hgrants : c₁.source.faults.seeksLeft = none)
    (hhead : c₁.source.head = c₁.state.position)
    (halike : c₁.source.Alike c.source ∧ c.options = c₁.options)
    (h : restore c₁.state c = .ok () c') : c' = c₁ := by
  have hkept := (upkeep_alike c₁.source c₁.options).restore (s := c₁.state) trivial c halike
  rw [h] at hkept
  -- the state is back by definition, and the head with it, since the seek has succeeded
  have hback := steady_restore (S := (· = c₁.state)) rfl rfl h
  have hsource : c'.source = c₁.source :=
    hkept.1.eq_of_head hgrants (by rw [hback.head, hback.state, hhead])
  obtain ⟨source, state, options⟩ := c'
  obtain ⟨source₁, state₁, options₁⟩ := c₁
  obtain rfl : source = source₁ := hsource
  obtain rfl : state = state₁ := hback.state
  obtain rfl : options = options₁ := hkept.2
  rfl

/--
Where a cursor may be when it goes back to a state that was saved in a run of requests `before`, by
a cursor with these options on this source: further on in that run, or anywhere in a run of another
cursor with the same options on a source with the same bytes that fails at the same places.
-/
inductive Elsewhere (source : Source) (options : Options) (saved : Cursor) : Cursor → Prop where
  | later (after : List Request) : Elsewhere source options saved (answerAll after saved).2
  | other {source' : Source} {c₀ : Cursor} (requests : List Request) :
      source'.contents = source.contents → source'.faults = source.faults →
      ofSource source' options = .ok c₀ →
      Elsewhere source options saved (answerAll requests c₀).2

theorem alike_ofSource {source : Source} {options : Options} {c : Cursor}
    (h : ofSource source options = .ok c) : source.Alike c.source ∧ c.options = options := by
  have hkept := (upkeep_alike source options).rewind trivial { source, options }
    ⟨.refl source, rfl⟩
  rw [ofSource] at h
  cases hrewind : rewind { source, options } with
  | error e c' =>
      rw [hrewind] at h
      cases h
  | ok moved c' =>
      rw [hrewind] at h hkept
      cases h
      exact hkept

/--
**Going back is starting over.**

A state is saved in a run in which no seek has failed yet. Whatever happens to the cursor after
that, seeks that fail included: if it then succeeds in going back to the state, it is in that state,
its head is where the state has it, and from there every run of requests is answered as it would
have been when the state was saved. A second cursor that goes back to the state, on a source like
the first, does no worse.
-/
theorem restore_replays {source : Source} {options : Options} {c₀ c c' : Cursor}
    {before : List Request} (hgrants : source.faults.seeksLeft = none)
    (hopen : ofSource source options = .ok c₀)
    (hseek : ∀ x ∈ (answerAll before c₀).1, ∀ e, x.1 = .error (.source e) → ¬ e.IsSeek)
    (hc : Elsewhere source options (answerAll before c₀).2 c)
    (hrestore : restore (answerAll before c₀).2.state c = .ok () c') :
    c'.state = (answerAll before c₀).2.state
      ∧ c'.source.head = (answerAll before c₀).2.state.position
      ∧ ∀ ops, (answerAll ops c').1 = (answerAll ops (answerAll before c₀).2).1 := by
  have hsteady := steady_answerAll before
    (steady_ofSource (closed_true source.bytes) trivial rfl hopen) hseek
  have hsaved := alike_answerAll before (alike_ofSource hopen)
  -- how `c₁` came about does not matter any more, only that its head is where its state has it
  generalize (answerAll before c₀).2 = c₁ at *
  have hgrants₁ : c₁.source.faults.seeksLeft = none := hsaved.1.seeksLeft hgrants
  have halike : c₁.source.Alike c.source ∧ c.options = c₁.options := by
    cases hc with
    | later after => exact alike_answerAll after ⟨.refl _, rfl⟩
    | @other source' c₀' requests hcontents hfaults hopen' =>
        obtain ⟨hother, hoptions⟩ := alike_answerAll requests (alike_ofSource hopen')
        refine ⟨⟨?_, ?_, ?_, fun _ => ?_⟩, hoptions.trans hsaved.2.symm⟩
        · rw [hother.contents, hcontents, hsaved.1.contents]
        · rw [hother.unreadableFrom, hfaults, hsaved.1.unreadableFrom]
        · rw [hother.seekLimit, hfaults, hsaved.1.seekLimit]
        · exact hother.seeksLeft (by rw [hfaults, hgrants])
  obtain rfl := restore_eq_self hgrants₁ hsteady.head halike hrestore
  exact ⟨rfl, hsteady.head, fun _ => rfl⟩

/-- Seeks that stop short have left the head two bytes behind. Going back to the first byte is
possible all the same, and starts over. -/
theorem restore_replays_behind :
    ∃ c₀ c c', ofSource { contents := #[0x61, 0x62, 0x63], faults := { seekLimit := some 1 } } {}
        = .ok c₀
      ∧ c = (answerAll [.advance, .advance, .slice 2 3] c₀).2
      ∧ c.state.position = 3 ∧ c.source.head = 1
      ∧ restore c₀.state c = .ok () c'
      ∧ c'.state = c₀.state ∧ c'.source.head = c₀.state.position
      ∧ ∀ ops, (answerAll ops c').1 = (answerAll ops c₀).1 := by
  refine ⟨_, _, _, rfl, rfl, rfl, rfl, rfl, ?_⟩
  exact @restore_replays
    { contents := #[0x61, 0x62, 0x63], faults := { seekLimit := some 1 } } {} _ _ _ [] rfl rfl nofun
    (.later [.advance, .advance, .slice 2 3]) rfl

end SeekParse.Cursor

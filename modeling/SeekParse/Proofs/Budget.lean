import SeekParse.Proofs.Recognition
import SeekParse.Proofs.Seeks

/-!
# What a run costs

A source may grant a number of seeks and no more. Then what is asked of a cursor decides, to the
request, how far it gets: the seeks that each request takes are known from its answer
(`Request.seeks`), and a run of requests takes the sum. While the sum is within the budget, nobody
can tell the budget is there. The first request that goes beyond it finds a seek refused, at a
moment when there is none left, also where it had begun with some.

* `seeks_accounted`: opening a source and running requests on it, with a budget of any size.
-/

namespace SeekParse

variable {c c' : Cursor} {rule : Rule} {b n : Nat}

namespace Faults

/-- No more seeks than this are granted, and nothing else fails. -/
def budget (b : Nat) : Faults := { seeksLeft := some b }

theorem onlySeeks_budget (b : Nat) : (budget b).OnlySeeks := ⟨rfl, rfl⟩

theorem spend_budget (b n : Nat) : (budget b).spend n = budget (b - n) := rfl

theorem affords_budget : (budget b).Affords n ↔ n ≤ b := by
  constructor
  · intro h
    exact h b rfl
  · intro h left hleft
    cases hleft
    exact h

end Faults

namespace Request

/-- The seeks that a request takes, by the answer that it has where no source fails. -/
def cost (r : Request) (c : Cursor) : Nat := r.seeks c.options.excerptWidth (r.answer c).1

/-- The seeks that a run of requests takes, where no source fails. -/
def costAll : List Request → Cursor → Nat
  | [], _ => 0
  | r :: rest, c => r.cost c + costAll rest (r.answer c).2

theorem answer_eq (r : Request) (c : Cursor) :
    r.answer c = (answerOf (r.perform c), stateAfter r.perform c) := by
  rw [answer, stateAfter]
  cases r.perform c <;> rfl

theorem answer_parse_of_ok {e : Expr} (h : Cursor.parse rule c = .ok e c') :
    (Request.parse rule).answer c = (.ok (.tree e), c') := by
  simp only [answer, perform, bind, EStateM.bind, h]
  rfl

theorem answer_parse_of_error {failure : Failure} (h : Cursor.parse rule c = .error failure c') :
    (Request.parse rule).answer c = (.error failure, c') := by
  simp only [answer, perform, bind, EStateM.bind, h]

/-- Where no source fails, none fails later. -/
theorem sound_answer (hc : c.source.faults = {}) (r : Request) :
    (r.answer c).2.source.faults = {} := by
  rw [answer_eq]
  exact (needs_perform hc r).sound_stateAfter hc

theorem sound_answerAll (requests : List Request) {c : Cursor} (hc : c.source.faults = {}) :
    (answerAll requests c).2.source.faults = {} := by
  induction requests generalizing c with
  | nil => exact hc
  | cons r rest ih => exact ih (sound_answer hc r)

/-- A run takes the seeks of its parts. -/
theorem costAll_concat (requests : List Request) (r : Request) (c : Cursor) :
    costAll (requests ++ [r]) c
      = costAll requests c + r.cost (answerAll requests c).2 := by
  induction requests generalizing c with
  | nil => exact Nat.add_comm _ _
  | cons first rest ih =>
      rw [List.cons_append, costAll, ih, costAll, Nat.add_assoc]
      rfl

/-- One request on a budget: it is within it, and answered as without one, or it is not, and is
refused a seek. -/
theorem answer_budget (hc : c.source.faults = {}) (b : Nat) (r : Request) :
    (r.cost c ≤ b ∧ r.answer (c.under (.budget b))
        = ((r.answer c).1, (r.answer c).2.under (.budget (b - r.cost c))))
      ∨ (b < r.cost c
        ∧ (∃ offset, (r.answer (c.under (.budget b))).1
            = .error (.source (.seek offset .notSeekable)))
        ∧ (r.answer (c.under (.budget b))).2.source.faults = .budget 0) := by
  have hneeds := needs_perform hc r
  have hcost : r.seeks c.options.excerptWidth (answerOf (r.perform c)) = r.cost c := by
    rw [cost, answer_eq]
  rw [hcost] at hneeds
  simp only [answer_eq]
  rcases hneeds.answer_agrees (.budget b) with ⟨hafford, hanswer, hafter⟩ | ⟨e, hanswer, hwhy⟩
  · refine .inl ⟨Faults.affords_budget.1 hafford, ?_⟩
    rw [hanswer, hafter, Faults.spend_budget]
  · obtain ⟨hnot, hrefused⟩ := hwhy (Faults.onlySeeks_budget b)
    obtain ⟨offset, rfl⟩ := hrefused.error
    rw [Faults.affords_budget, Nat.not_le] at hnot
    exact .inr ⟨hnot, ⟨offset, hanswer⟩, hrefused.faults⟩

/-- A run that is within a budget is not changed by it. -/
theorem answerAll_budget (requests : List Request) {c : Cursor} (hc : c.source.faults = {})
    {b : Nat} (hb : costAll requests c ≤ b) :
    answerAll requests (c.under (.budget b))
      = ((answerAll requests c).1,
          (answerAll requests c).2.under (.budget (b - costAll requests c))) := by
  induction requests generalizing c b with
  | nil => rfl
  | cons r rest ih =>
      rw [costAll] at hb
      rcases answer_budget hc b r with ⟨hle, hanswer⟩ | ⟨hlt, -⟩
      · have hrest := ih (sound_answer hc r) (Nat.le_sub_of_add_le' hb)
        simp only [answerAll, hanswer, hrest, costAll, Nat.sub_sub]
        rfl
      · omega

end Request

namespace Cursor

open Request

/--
**A run of requests takes exactly the seeks of its table.**

Opening a source takes one seek, and every request the seeks of `Request.seeks`, by the answer that
it has in memory. As long as the budget covers them, answers and states are those in memory, and
what is left of the budget is what has not been taken. The first request that it does not cover
fails, because a seek is refused, and uses up what is left.
-/
theorem seeks_accounted {source : Source} (options : Options)
    (hbudget : source.faults = .budget b) :
    ∃ c₀, ofSource (.ofBytes source.bytes) options = .ok c₀
      ∧ (b = 0 → ofSource source options = .error (.unusable .notSeekable))
      ∧ (0 < b → ∃ c, ofSource source options = .ok c ∧ c.state = c₀.state
          ∧ c.source.faults = .budget (b - 1)
          ∧ ∀ requests, 1 + costAll requests c₀ ≤ b →
              (answerAll requests c).1 = (answerAll requests c₀).1
              ∧ (answerAll requests c).2.source.faults = .budget (b - (1 + costAll requests c₀))
              ∧ ∀ r, b < 1 + costAll (requests ++ [r]) c₀ →
                  (∃ offset, (r.answer (answerAll requests c).2).1
                    = .error (.source (.seek offset .notSeekable)))
                  ∧ (r.answer (answerAll requests c).2).2.source.faults = .budget 0) := by
  refine ⟨along source.bytes options 0, ofSource_ofBytes _ _, fun hb => ?_, fun hb => ?_⟩
  · subst hb
    rcases opens_under source options with ⟨hafford, -⟩ | ⟨e, hopen, hwhy⟩
    · rw [hbudget, Faults.affords_budget] at hafford
      cases hafford
    · rw [hbudget] at hwhy
      obtain ⟨-, rfl⟩ := hwhy (Faults.onlySeeks_budget 0)
      exact hopen
  rcases opens_under source options with ⟨-, hopen⟩ | ⟨e, -, hwhy⟩
  · rw [hbudget, Faults.spend_budget] at hopen
    refine ⟨_, hopen, rfl, rfl, fun requests hwithin => ?_⟩
    have hsound : (along source.bytes options 0).source.faults = {} := rfl
    have hrun := answerAll_budget requests hsound (Nat.le_sub_of_add_le' hwithin)
    rw [Nat.sub_sub] at hrun
    rw [hrun]
    refine ⟨rfl, rfl, fun r hbeyond => ?_⟩
    rw [costAll_concat] at hbeyond
    rcases answer_budget (sound_answerAll requests hsound)
        (b - (1 + costAll requests (along source.bytes options 0))) r with
      ⟨hle, -⟩ | ⟨-, hrefused⟩
    · omega
    · exact hrefused
  · rw [hbudget, Faults.affords_budget] at hwhy
    exact absurd hb (hwhy (Faults.onlySeeks_budget b)).1

/-- A literal, an operator, and a literal that is too large. -/
def sumTooLarge : List UInt8 := [0x31, 0x2B] ++ List.replicate 20 0x39

/-- Of its primaries, the first is read, the second is missing, and the third is blamed. -/
theorem parse_sumTooLarge :
    parse .primary (along sumTooLarge {} 0) = .ok (.number 1) (along sumTooLarge {} 1)
      ∧ parse .primary (along sumTooLarge {} 1)
        = .error (.mismatch ((Mismatch.noOperand (some 0x2B)).diagnosticAt sumTooLarge {} 1))
            (along sumTooLarge {} 1)
      ∧ parse .primary (along sumTooLarge {} 2)
        = .error (.mismatch
              ((Mismatch.tooLarge (List.replicate 20 0x39)).diagnosticAt sumTooLarge {} 2))
            (along sumTooLarge {} 2) := by
  have hlen : sumTooLarge.length = 22 := rfl
  have hnines : sumTooLarge.extract 2 22 = List.replicate 20 0x39 := rfl
  refine ⟨?_, ?_, ?_⟩
  · have hstop : StopsAt .primary sumTooLarge 1 :=
      stopsAt_of_next (by decide) rfl (isDigit_binaryOp .add)
    exact parse_of_derives (Nat.zero_le 1) (by decide) (@Derives.digit 0x31 rfl) hstop
  · exact parse_of_rejects {} .refl (by decide) (Reading.step_primary [] 1) (.inl ⟨rfl, rfl⟩)
  · have hdigits : ∀ digit ∈ sumTooLarge.extract 2 22, Literal.isDigit digit = true := by
      rw [hnines]
      exact List.forall_mem_replicate.2 (.inr rfl)
    have hlarge : Literal.largest < Literal.value (sumTooLarge.extract 2 22) := by
      rw [hnines]
      decide
    exact parse_of_rejects {} (Reading.moves_run (by decide) (Nat.le_of_eq hlen.symm) hdigits)
      (by decide) (Reading.step_tooLarge rfl hlarge) (.inr rfl)

/-- They are asked for one after the other, and other requests in between. -/
def sumTooLargeRun : List Request :=
  [.parse .primary, .parse .primary, .acceptText "x", .advance, .excerpt 1, .parse .primary]

/-- Of eleven seeks, one opens the source. The primary that is read takes none, the one that is
missing two for its report, and the one that is too large three. With those of a text that is not
there and of an excerpt, there are two left, which are too few to blame the literal once more. -/
theorem seeks_accounted_sumTooLarge :
    ∃ c₀ c, ofSource (.ofBytes sumTooLarge) {} = .ok c₀
      ∧ ofSource { contents := sumTooLarge.toArray, faults := .budget 11 } {} = .ok c
      ∧ costAll sumTooLargeRun c₀ = 8
      ∧ (answerAll sumTooLargeRun c).1 = (answerAll sumTooLargeRun c₀).1
      ∧ (answerAll sumTooLargeRun c).2.source.faults = .budget 2
      ∧ ∃ offset, ((Request.parse .primary).answer (answerAll sumTooLargeRun c).2).1
          = .error (.source (.seek offset .notSeekable)) := by
  obtain ⟨c₀, hmemory, -, hopens⟩ := @seeks_accounted 11
    { contents := sumTooLarge.toArray, faults := .budget 11 } {} rfl
  obtain ⟨c, hopen, -, -, hrun⟩ := hopens (by decide)
  obtain rfl : along sumTooLarge {} 0 = c₀ := by
    have hsame := (ofSource_ofBytes sumTooLarge {}).symm.trans hmemory
    cases hsame
    rfl
  obtain ⟨hread, hmissing, hblamed⟩ := parse_sumTooLarge
  have htext : (Request.acceptText "x").answer (along sumTooLarge {} 1)
      = (.ok (.flag false), along sumTooLarge {} 1) := rfl
  have hadvance : Request.advance.answer (along sumTooLarge {} 1)
      = (.ok (.flag true), along sumTooLarge {} 2) := rfl
  have hexcerpt : (Request.excerpt 1).answer (along sumTooLarge {} 2)
      = (.ok (.text "9"), along sumTooLarge {} 2) := rfl
  have hcost : ∀ more, costAll (sumTooLargeRun ++ more) (along sumTooLarge {} 0)
      = 8 + costAll more (along sumTooLarge {} 2) := by
    intro more
    simp only [sumTooLargeRun, List.cons_append, List.nil_append, costAll, cost,
      answer_parse_of_ok hread, answer_parse_of_error hmissing, htext, hadvance, hexcerpt,
      answer_parse_of_error hblamed]
    show 0 + (2 + (1 + (0 + (2 + (3 + _))))) = _
    omega
  have hall := hcost []
  have hbeyond := hcost [.parse .primary]
  rw [List.append_nil] at hall
  obtain ⟨hsame, hleft, hrefused⟩ := hrun sumTooLargeRun (by rw [hall]; decide)
  rw [hall] at hleft
  refine ⟨_, c, hmemory, hopen, hall, hsame, hleft, (hrefused (.parse .primary) ?_).1⟩
  rw [hbeyond]
  simp only [costAll, cost, answer_parse_of_error hblamed]
  decide

end Cursor

end SeekParse

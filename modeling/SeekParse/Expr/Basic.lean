import SeekParse.Expr.Operator

/-!
# Expression trees

A chain is a run of operands with operators between them, read from left to right: as all operators
bind alike, nothing inside a run is nested further. A run of one operand is that operand, so a chain
has two at least. The type says so, and every tree is a well-formed one.

Trees are as deep as their input is long, far deeper than a call stack. Whatever runs on a tree
therefore keeps its own list of what is left to do. Equality is the first such function: it works
on a list of pairs, and `allEqual_iff` says that it decides equality.
-/

namespace SeekParse

/-- An expression. -/
inductive Expr where
  /-- An integer literal. -/
  | number (value : UInt64)
  /-- A prefix operator and its operand. -/
  | unary (op : UnaryOp) (operand : Expr)
  /-- Two operands with an operator between them, and any number of further operands, each with the
  operator before it. -/
  | chain (first : Expr) (op : BinaryOp) (second : Expr) (rest : List (BinaryOp × Expr))
  deriving Inhabited

namespace Expr

/-- An operand and any number of further ones; without any, just the operand. -/
def ofChain (first : Expr) : List (BinaryOp × Expr) → Expr
  | [] => first
  | (op, second) :: rest => .chain first op second rest

/-- The value of a literal. -/
def asNumber : Expr → Option UInt64
  | .number value => some value
  | _ => none

/-- Whether a tree is a chain, which has to be grouped to be an operand. -/
def isChain : Expr → Bool
  | .chain .. => true
  | _ => false

/-! ## Size -/

mutual

/-- How much work is left in a tree. Each node weighs more than its parts and the marks that a
printer puts around and between them. -/
def weight : Expr → Nat
  | .number _ => 2
  | .unary _ operand => operand.weight + 6
  | .chain first _ second rest => first.weight + second.weight + linksWeight rest + 10

/-- How much work is left in the links of a chain. -/
def linksWeight : List (BinaryOp × Expr) → Nat
  | [] => 0
  | (_, operand) :: rest => operand.weight + linksWeight rest + 4

end

/-- How much work is left in the first trees of some pairs. -/
def pairsWeight : List (Expr × Expr) → Nat
  | [] => 0
  | (e, _) :: rest => e.weight + pairsWeight rest

theorem pairsWeight_append (pairs more : List (Expr × Expr)) :
    pairsWeight (pairs ++ more) = pairsWeight pairs + pairsWeight more := by
  induction pairs with
  | nil => simp [pairsWeight]
  | cons p pairs ih =>
    rw [List.cons_append, pairsWeight, pairsWeight, ih]
    omega

/-- Pairing the operands of two chains leaves no more to do than the links of the first. -/
theorem pairsWeight_zipWith_le (r s : List (BinaryOp × Expr)) :
    pairsWeight (r.zipWith (fun x y => (x.2, y.2)) s) ≤ linksWeight r := by
  induction r generalizing s with
  | nil => simp [pairsWeight]
  | cons x r ih =>
    cases s with
    | nil => simp [pairsWeight]
    | cons y s =>
      have := ih s
      simp only [List.zipWith_cons_cons, pairsWeight, linksWeight]
      omega

/-! ## Equality -/

/-- Whether the two trees of each pair are equal. -/
def allEqual : List (Expr × Expr) → Bool
  | [] => true
  | (.number m, .number n) :: rest => m == n && allEqual rest
  | (.unary op a, .unary op' b) :: rest => op == op' && allEqual ((a, b) :: rest)
  | (.chain a op b r, .chain a' op' b' r') :: rest =>
    op == op' && r.map Prod.fst == r'.map Prod.fst &&
      allEqual ((a, a') :: (b, b') :: (r.zipWith (fun x y => (x.2, y.2)) r' ++ rest))
  | _ :: _ => false
termination_by pairs => pairsWeight pairs
decreasing_by
  · simp [pairsWeight, weight]
  · simp [pairsWeight, weight]
  · have := pairsWeight_zipWith_le r r'
    simp only [pairsWeight, pairsWeight_append, weight]
    omega

/-- Links are equal if their operators are and their operands are. -/
theorem links_eq_iff (r s : List (BinaryOp × Expr)) :
    r = s ↔ r.map Prod.fst = s.map Prod.fst ∧
      ∀ p ∈ r.zipWith (fun x y => (x.2, y.2)) s, p.1 = p.2 := by
  induction r generalizing s with
  | nil => cases s <;> simp
  | cons x r ih =>
    cases s with
    | nil => simp
    | cons y s =>
      obtain ⟨op, a⟩ := x
      obtain ⟨op', b⟩ := y
      simp only [List.cons.injEq, Prod.mk.injEq, List.map_cons, List.zipWith_cons_cons,
        List.forall_mem_cons, ih s]
      grind

theorem allEqual_iff (pairs : List (Expr × Expr)) :
    allEqual pairs = true ↔ ∀ p ∈ pairs, p.1 = p.2 := by
  fun_induction allEqual pairs with
  | case1 => simp
  | case2 m n rest ih => simp [ih]
  | case3 op a op' b rest ih =>
    rw [Bool.and_eq_true, ih]
    simp [and_assoc]
  | case4 a op b r a' op' b' r' rest ih =>
    rw [Bool.and_eq_true, Bool.and_eq_true, ih]
    simp only [beq_iff_eq, List.forall_mem_cons, List.forall_mem_append, Expr.chain.injEq,
      links_eq_iff r r']
    grind
  | case5 p rest h1 h2 h3 =>
    refine ⟨nofun, fun h => ?_⟩
    obtain ⟨a, b⟩ := p
    have hab : a = b := h (a, b) (by simp)
    subst hab
    cases a with
    | number m => exact (h1 m m rfl).elim
    | unary op a => exact (h2 op a op a rfl).elim
    | chain a op b r => exact (h3 a op b r a op b r rfl).elim

instance : DecidableEq Expr := fun a b =>
  decidable_of_iff (allEqual [(a, b)] = true) (by simp [allEqual_iff])

end Expr

end SeekParse

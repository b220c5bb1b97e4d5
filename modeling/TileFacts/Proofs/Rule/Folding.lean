import TileFacts.Proofs.Constants

/-! Constants that the rules of binary operators fold.

Every rule folds two constants by evaluating the operator on them. Quotients and remainders first
look for a divisor of one and a dividend of zero, and then answer without evaluating anything
(`BinaryOp.settles`). Main statement: given two constants, the standard rules find the constant that
the operator evaluates to, and none where it has no value, with one exception. Zero divided by zero
has no value, but a dividend of zero is answered before the divisor is looked at. -/
namespace TileFacts

namespace BinaryOp

/-- Quotients and remainders. -/
def isDivision : BinaryOp → Bool
  | divS | divU | remS | remU => true
  | _ => false

/-- The constant that the rule of an operator settles on, given the facts of the operands. -/
def settles (op : BinaryOp) (a b : Fact) : Option Int64 :=
  match op with
  | divS | divU =>
    if Rule.keepsDividend a b then a.constant else op.fold a.constant b.constant
  | remS | remU => if Rule.keepsDividend a b then some 0 else op.fold a.constant b.constant
  | _ => op.fold a.constant b.constant

end BinaryOp

/-! ### Constants of each rule -/

namespace Rule

variable {ctx : Context} {op : BinaryOp} {a b : Fact}

theorem quotient_settles (h : ctx.Binary op a b) : ∃ f, quotient ctx [a, b] = .ok f ∧
    f.rank = ctx.rank ∧ f.constant =
      if keepsDividend a b then a.constant else op.fold a.constant b.constant := by
  rcases quotient_cases h with ⟨hkeeps, hrule⟩ | ⟨hkeeps, axes, hrule, hlen, _⟩
  · exact ⟨a, hrule, h.left, by simp [hkeeps]⟩
  · exact ⟨_, hrule, hlen, by simp [hkeeps]⟩

theorem remainder_settles (h : ctx.Binary op a b) : ∃ f, remainder ctx [a, b] = .ok f ∧
    f.rank = ctx.rank ∧ f.constant =
      if keepsDividend a b then some 0 else op.fold a.constant b.constant := by
  rcases remainder_cases h with ⟨hkeeps, hrule⟩ | ⟨hkeeps, axes, hrule, hlen, _⟩
  · refine ⟨_, hrule, ?_, by simp [hkeeps, Fact.zero, Fact.ofConstant]⟩
    rw [Fact.zero, Fact.rank_ofConstant, ctx.length_shape]
  · exact ⟨_, hrule, hlen, by simp [hkeeps]⟩

theorem policy_settles {policy : Policy} (hpolicy : policy.Serves op) (h : ctx.Binary op a b) :
    ∃ f, policy.rule ctx [a, b] = .ok f ∧ f.rank = ctx.rank ∧
      f.constant = op.fold a.constant b.constant := by
  obtain ⟨axes, hrule, hlen, _⟩ := policy.rule_eq_ok hpolicy.total h
  rw [hpolicy.constant] at hrule
  exact ⟨_, hrule, hlen, rfl⟩

/-- Where nothing folds nothing is known, and an extremum is the operand with the folded value. -/
theorem logic_settles (h : ctx.Binary op a b) : ∃ f, logic ctx [a, b] = .ok f ∧
    f.rank = ctx.rank ∧ f.constant = op.fold a.constant b.constant := by
  obtain ⟨f, hrule, hrank, _⟩ := logic_eq_ok h
  refine ⟨f, hrule, hrank, ?_⟩
  obtain ⟨_, hoperands, hrule⟩ := bind_eq_ok.mp hrule
  cases h.operands.symm.trans hoperands
  obtain ⟨_, hop, hrule⟩ := bind_eq_ok.mp hrule
  cases h.op.symm.trans hop
  cases hfold : op.fold a.constant b.constant with
  | none =>
    simp only [hfold] at hrule
    cases hrule
    rfl
  | some value =>
    simp only [hfold] at hrule
    split at hrule
    · next hext =>
      cases hrule
      obtain ⟨l, r, hl, hr, heval⟩ := BinaryOp.fold_eq_some hfold
      rcases evaluate_extremum hext heval with rfl | rfl
      · simp [hl]
      · by_cases hsame : a.constant = some r
        · simp [hsame]
        · simp [hsame, hr]
    · cases hrule
      rfl

theorem binaryRule_settles (h : ctx.Binary op a b) :
    ∃ f, Rulebook.binaryRule op ctx [a, b] = .ok f ∧ f.rank = ctx.rank ∧
      f.constant = op.settles a b := by
  cases op with
  | add => exact policy_settles .add h
  | sub => exact policy_settles .sub h
  | mul => exact policy_settles .mul h
  | shl => exact policy_settles .shl h
  | shrS => exact policy_settles .shrS h
  | shrU => exact policy_settles .shrU h
  | divS | divU => exact quotient_settles h
  | remS | remU => exact remainder_settles h
  | _ => exact logic_settles h

end Rule

/-! ### Two constants -/

namespace BinaryOp

variable {op : BinaryOp} {l r : Int64} {shape : List Int64}

theorem isDivision_iff :
    op.isDivision = true ↔ op = .divS ∨ op = .divU ∨ op = .remS ∨ op = .remU := by
  cases op <;> simp [isDivision]

theorem settles_of_not_isDivision (h : op.isDivision = false) (a b : Fact) :
    op.settles a b = op.fold a.constant b.constant := by
  cases op <;> first | rfl | cases h

/-- A divisor of one and a dividend of zero leave what the operator evaluates to, if it does. -/
theorem settles_of_isDivision (h : op.isDivision = true) (hne : ¬ (l = 0 ∧ r = 0)) :
    op.settles (.ofConstant l shape) (.ofConstant r shape) = op.evaluate l r := by
  have hop := isDivision_iff.mp h
  by_cases hone : r = 1
  · subst hone
    rcases hop with rfl | rfl | hrem
    · exact (evaluate_div_one (.inl rfl) l).symm
    · exact (evaluate_div_one (.inr rfl) l).symm
    · rw [evaluate_rem_one hrem]
      rcases hrem with rfl | rfl <;> rfl
  · by_cases hzero : l = 0
    · subst hzero
      rw [evaluate_zero hop fun hr => hne ⟨rfl, hr⟩]
      rcases hop with rfl | rfl | rfl | rfl <;>
        simp [settles, Rule.keepsDividend, Fact.ofConstant]
    · have hkeeps : Rule.keepsDividend (.ofConstant l shape) (.ofConstant r shape) = false := by
        simp [Rule.keepsDividend, Fact.ofConstant, hone, hzero]
      rcases hop with rfl | rfl | rfl | rfl <;> simp only [settles, hkeeps] <;> rfl

theorem settles_ofConstant (op : BinaryOp) (l r : Int64) (shape : List Int64) :
    op.settles (.ofConstant l shape) (.ofConstant r shape) =
      if op.isDivision = true ∧ l = 0 ∧ r = 0 then some 0 else op.evaluate l r := by
  split
  · next h =>
    obtain ⟨hdivision, rfl, rfl⟩ := h
    rcases isDivision_iff.mp hdivision with rfl | rfl | rfl | rfl <;> rfl
  · next h =>
    cases hdivision : op.isDivision with
    | false => exact settles_of_not_isDivision hdivision _ _
    | true => exact settles_of_isDivision hdivision fun hzero => h ⟨hdivision, hzero⟩

end BinaryOp

/-- The context of an operator on two values of the type of the result. -/
def Context.combining (v : ValueId) (op : BinaryOp) (u w : ValueId) (t : ValueType) : Context :=
  ⟨v, .binary op u w, t, [t, t]⟩

/-- What the standard rules make of two constants. For every binary operator, results of every type
and all words, there is an answer, and its constant is what the operator evaluates to, or none where
the operator has no value; zero divided by zero apart, which is answered with zero. -/
theorem Rulebook.constant_of_constants (op : BinaryOp) (v u w : ValueId) (t : ValueType)
    (l r : Int64) :
    ∃ f, standard.transfer (.combining v op u w t)
        [.ofConstant l t.factShape, .ofConstant r t.factShape] = .ok f ∧
      f.constant = if op.isDivision = true ∧ l = 0 ∧ r = 0 then some 0 else op.evaluate l r := by
  have hrank (c : Int64) : (Fact.ofConstant c t.factShape).rank = t.factRank := by
    rw [Fact.rank_ofConstant, t.length_factShape]
  have hbinary : (Context.combining v op u w t).Binary op (.ofConstant l t.factShape)
      (.ofConstant r t.factShape) :=
    ⟨Context.twoOperands_eq_ok rfl (hrank l) (hrank r), rfl, hrank l, hrank r⟩
  obtain ⟨f, hf, hfrank, hconstant⟩ := Rule.binaryRule_settles hbinary
  refine ⟨f, transfer_eq_ok (standard_rule_of_binaryOp hbinary.op) hf hfrank, ?_⟩
  rw [hconstant, BinaryOp.settles_ofConstant]

/-- Zero divided by zero has no value, and is answered with zero all the same. -/
theorem Rulebook.constant_of_zero_by_zero :
    ∃ f, standard.transfer (.combining 2 .divS 0 1 ⟨.i32, [8]⟩)
        [.ofConstant 0 [8], .ofConstant 0 [8]] = .ok f ∧
      f.constant = some 0 ∧ BinaryOp.divS.evaluate 0 0 = none :=
  ⟨.ofConstant 0 [8], by decide +kernel, rfl, by decide⟩

end TileFacts

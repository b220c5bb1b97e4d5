import TileFacts.Proofs.Rule.Stretch

/-! What the standard rules answer.

`Answer` lists, operation by operation, what the fact of a result can be, given the facts of the
operands: its constant, and each axis from axes of the operands. In a typed context no standard
rule faults, and what it answers is listed (`Rulebook.standard_answers`). Policies divide and shift
by what their guards have let through (`Policy.Serves.total`), and so does the rule of quotients,
which divides only where it cuts runs to buckets (`Rule.Buckets`). -/
namespace TileFacts

/-- Which policy serves which operator. -/
inductive Policy.Serves : Policy → BinaryOp → Prop
  | add : Serves sum .add
  | sub : Serves sum .sub
  | mul : Serves product .mul
  | shl : Serves shiftLeft .shl
  | shrS : Serves shiftRight .shrS
  | shrU : Serves shiftRight .shrU

theorem Policy.Serves.total {policy : Policy} {op : BinaryOp} (h : policy.Serves op) :
    policy.Total op := by
  cases h with
  | add | sub => exact sum_total _
  | mul => exact product_total _
  | shl => exact shiftLeft_total _
  | shrS | shrU => exact shiftRight_total _

theorem Policy.Serves.constant {policy : Policy} {op : BinaryOp} (h : policy.Serves op) :
    policy.constant = BinaryOp.fold := by
  cases h <;> rfl

theorem Policy.Serves.sound {policy : Policy} {op : BinaryOp} (h : policy.Serves op) :
    policy.Sound op := by
  cases h with
  | add => exact sum_sound (.inl rfl)
  | sub => exact sum_sound (.inr rfl)
  | mul => exact product_sound
  | shl => exact shiftLeft_sound
  | shrS => exact shiftRight_sound (.inl rfl)
  | shrU => exact shiftRight_sound (.inr rfl)

/-- The axes of quotients and of remainders: constants that combine come first, and have the runs
of the dividend. -/
def Rule.FoldsTo (ctx : Context) (op : BinaryOp) (a b : Fact)
    (axis : Lane → Lane → Int64 → Checked Axis) (axes : List Axis) : Prop :=
  ∀ d x, axes[d]? = some x → ∃ l r extent, a.lane d = .ok l ∧ b.lane d = .ok r ∧
    ctx.shape[d]? = some extent ∧ match op.fold a.constant b.constant with
      | some q => x = ⟨Word.powerDivisor q, l.constancy, 0⟩
      | none => axis l r extent = .ok x

/-- The fact of a result, given the facts of its operands. -/
inductive Answer (ctx : Context) : List Fact → Fact → Prop
  | unknown {facts : List Fact} : Answer ctx facts (.top ctx.rank)
  | constant {value : Int64} (hop : ctx.op = .const value) :
    Answer ctx [] (.ofConstant value ctx.shape)
  | identity {op : CastOp} {u : ValueId} {a : Fact} (hop : ctx.op = .cast op u) : Answer ctx [a] a
  | policy {op : BinaryOp} {policy : Policy} {a b : Fact} {axes : List Axis}
    (hop : ctx.binaryOp = .ok op) (hpolicy : policy.Serves op)
    (haxes : ∀ d axis, axes[d]? = some axis → ∃ l r, a.lane d = .ok l ∧ b.lane d = .ok r ∧
      policy.axis op l r (op.fold a.constant b.constant) = .ok axis) :
    Answer ctx [a, b] ⟨axes, op.fold a.constant b.constant⟩
  | dividend {op : BinaryOp} {a b : Fact} (hop : ctx.binaryOp = .ok op)
    (hdiv : op = .divS ∨ op = .divU) (hkeeps : Rule.keepsDividend a b = true) : Answer ctx [a, b] a
  | quotient {op : BinaryOp} {a b : Fact} {axes : List Axis} (hop : ctx.binaryOp = .ok op)
    (hdiv : op = .divS ∨ op = .divU)
    (haxes : Rule.FoldsTo ctx op a b Rule.quotientAxis axes) :
    Answer ctx [a, b] ⟨axes, op.fold a.constant b.constant⟩
  | noRemainder {op : BinaryOp} {a b : Fact} (hop : ctx.binaryOp = .ok op)
    (hrem : op = .remS ∨ op = .remU) (hkeeps : Rule.keepsDividend a b = true) :
    Answer ctx [a, b] (.zero ctx.shape)
  | remainder {op : BinaryOp} {a b : Fact} {axes : List Axis} (hop : ctx.binaryOp = .ok op)
    (hrem : op = .remS ∨ op = .remU)
    (haxes : Rule.FoldsTo ctx op a b (fun l r extent => .ok (Rule.remainderAxis l r extent)) axes) :
    Answer ctx [a, b] ⟨axes, op.fold a.constant b.constant⟩
  | folded {op : BinaryOp} {a b : Fact} {value : Int64} (hop : ctx.binaryOp = .ok op)
    (hfold : op.fold a.constant b.constant = some value) :
    Answer ctx [a, b] ⟨(Fact.top ctx.rank).axes, some value⟩
  | extremumLeft {op : BinaryOp} {a b : Fact} {value : Int64} (hop : ctx.binaryOp = .ok op)
    (hfold : op.fold a.constant b.constant = some value) (hvalue : a.constant = some value) :
    Answer ctx [a, b] a
  | extremumRight {op : BinaryOp} {a b : Fact} {value : Int64} (hop : ctx.binaryOp = .ok op)
    (hfold : op.fold a.constant b.constant = some value) (hvalue : b.constant = some value) :
    Answer ctx [a, b] b
  | compared {predicate : Comparison} {u v : ValueId} {a b : Fact} {l r : Int64}
    (hop : ctx.op = .cmp predicate u v) (hl : a.constant = some l) (hr : b.constant = some r) :
    Answer ctx [a, b] (.ofConstant (if predicate.evaluate l r then 1 else 0) ctx.shape)
  | comparison {predicate : Comparison} {u v : ValueId} {a b : Fact} {axes : List Axis}
    (hop : ctx.op = .cmp predicate u v)
    (haxes : ∀ (d : Nat) (axis : Axis), axes[d]? = some axis → ∃ (l r : Axis) (extent : Int64),
      a.axes[d]? = some l ∧ b.axes[d]? = some r ∧ ctx.shape[d]? = some extent ∧
        axis = ⟨1, if predicate.isStrict then Rule.strictRun l r extent else 1, 0⟩) :
    Answer ctx [a, b] ⟨axes, none⟩
  | decided {u v w : ValueId} {c a b : Fact} {value : Int64} (hop : ctx.op = .select u v w)
    (hvalue : c.constant = some value) : Answer ctx [c, a, b] (if value ≠ 0 then a else b)
  | choice {u v w : ValueId} {c a b joined : Fact} {axes : List Axis} {condType : ValueType}
    (hop : ctx.op = .select u v w) (hjoin : a.join b = .ok joined)
    (hcond : ctx.operandTypes[0]? = some condType)
    (haxes : ∀ (d : Nat) (axis : Axis), axes[d]? = some axis → ∃ (both : Axis) (run : Int64),
      joined.axes[d]? = some both ∧ axis = { both with run := Word.gcd both.run run } ∧
        (condType.shape = [] ∨ condType.shape = ctx.type.shape ∧
          ∃ ca : Axis, c.axes[d]? = some ca ∧ run = ca.constancy)) :
    Answer ctx [c, a, b] ⟨axes, joined.constant⟩
  | range {start stop count : Int64} (hop : ctx.op = .range start stop)
    (hcount : Word.checkedSub stop start = .ok count) :
    Answer ctx [] ⟨[⟨Word.powerDivisor start, count, 1⟩], none⟩
  | splat {u : ValueId} {a : Fact} {axes : List Axis} (hop : ctx.op = .splat u)
    (haxes : ∀ (d : Nat) (axis : Axis), axes[d]? = some axis → ∃ (extent : Int64) (source : Axis),
      ctx.shape[d]? = some extent ∧ a.axes[0]? = some source ∧
        axis = ⟨source.divisibility, extent, 0⟩) :
    Answer ctx [a] ⟨axes, a.constant⟩
  | broadcastScalar {u : ValueId} {a : Fact} {axes : List Axis} {s : ValueType}
    (hop : ctx.op = .broadcast u) (hs : ctx.operandTypes[0]? = some s) (hscalar : s.shape = [])
    (haxes : ∀ (d : Nat) (axis : Axis), axes[d]? = some axis → ∃ (extent : Int64) (source : Axis),
      ctx.shape[d]? = some extent ∧ a.axes[0]? = some source ∧
        axis = ⟨source.divisibility, extent, 0⟩) :
    Answer ctx [a] ⟨axes, a.constant⟩
  | broadcast {u : ValueId} {a : Fact} {axes : List Axis} {s : ValueType}
    (hop : ctx.op = .broadcast u) (hs : ctx.operandTypes[0]? = some s) (htensor : s.shape ≠ [])
    (haxes : ∀ (d : Nat) (axis : Axis), axes[d]? = some axis →
      ∃ (extent : Int64) (e : Nat) (source : Axis), ctx.shape[d]? = some extent ∧
        s.shape[d]? = some e ∧ a.axes[d]? = some source ∧
        axis = if Int64.ofNat e = 1 then ⟨source.divisibility, extent, 0⟩ else source) :
    Answer ctx [a] ⟨axes, a.constant⟩
  | expandScalar {u : ValueId} {n : Nat} {a : Fact} {s : ValueType} (hop : ctx.op = .expandDims u n)
    (hs : ctx.operandTypes[0]? = some s) (hscalar : s.shape = []) : Answer ctx [a] a
  | expandDims {u : ValueId} {n : Nat} {a : Fact} {s : ValueType} (hop : ctx.op = .expandDims u n)
    (hs : ctx.operandTypes[0]? = some s) (htensor : s.shape ≠ []) :
    Answer ctx [a] ⟨a.axes.insertIdx n ⟨1, 1, 0⟩, a.constant⟩

/-! ### Answers of each rule -/

namespace Rule

section Buckets

variable {l r : Lane} {extent divisor : Int64}

/-- When the rule cuts runs to buckets: a strided dividend that is not constant meets a power of
two. -/
structure Buckets (l r : Lane) (extent divisor : Int64) : Prop where
  constant : r.constant = some divisor
  divisor : Word.isPowerOfTwo divisor = true
  varies : l.isConstantOver extent = false
  strided : l.isStridedWithin extent = true
  steady : r.isConstantOver extent = true
  step : Word.isPowerOfTwo l.step = true

/-- How long buckets are. -/
def bucketRun (l r : Lane) : Int64 :=
  Word.gcd l.run (max (Word.gcd l.divisibility r.divisibility / l.step) 1)

/-- Buckets are cut by dividing by powers of two: no quotient is missing. -/
theorem Buckets.quotientAxis_eq (h : Buckets l r extent divisor) : quotientAxis l r extent =
    .ok ⟨if bucketRun l r == l.run then Word.scaleDown l.divisibility divisor else 1,
      bucketRun l r, l.step / divisor⟩ := by
  -- The guards of the rule are what its divisions need: `h.step` for the run, `h.divisor` for the
  -- step and for what is left of the divisor.
  have hstep := Word.checkedDiv_of_isPowerOfTwo l.step h.divisor
  simp only [quotientAxis, h.constant, h.divisor, h.varies, h.strided, h.steady, h.step,
    Bool.not_false, Bool.and_self, if_true]
  refine bind_eq_ok.mpr ⟨_, Word.checkedDiv_of_isPowerOfTwo _ h.step, ?_⟩
  by_cases hrun : (bucketRun l r == l.run) = true
  · rw [if_pos hrun]
    refine (if_pos hrun).trans (bind_eq_ok.mpr ⟨_, Word.checkedScaleDown_eq _ divisor, ?_⟩)
    exact bind_eq_ok.mpr ⟨_, hstep, rfl⟩
  · rw [if_neg hrun]
    exact (if_neg hrun).trans (bind_eq_ok.mpr ⟨_, rfl, bind_eq_ok.mpr ⟨_, hstep, rfl⟩⟩)

theorem quotientAxis_cases (l r : Lane) (extent : Int64) :
    (∃ divisor, Buckets l r extent divisor) ∨ quotientAxis l r extent = .ok .top := by
  cases hc : r.constant with
  | none =>
    right
    simp only [quotientAxis, hc]
  | some divisor =>
    by_cases hcond : (Word.isPowerOfTwo divisor && !l.isConstantOver extent &&
        l.isStridedWithin extent && r.isConstantOver extent && Word.isPowerOfTwo l.step) = true
    · left
      simp only [Bool.and_eq_true, Bool.not_eq_true'] at hcond
      obtain ⟨⟨⟨⟨hdivisor, hvaries⟩, hstrided⟩, hsteady⟩, hstep⟩ := hcond
      exact ⟨divisor, hc, hdivisor, hvaries, hstrided, hsteady, hstep⟩
    · right
      simp only [quotientAxis, hc]
      exact if_neg hcond

theorem exists_quotientAxis (l r : Lane) (extent : Int64) :
    ∃ axis, quotientAxis l r extent = .ok axis := by
  rcases quotientAxis_cases l r extent with ⟨divisor, h⟩ | htop
  · exact ⟨_, h.quotientAxis_eq⟩
  · exact ⟨_, htop⟩

/-- What one dimension of a quotient can be: cut to buckets, or unknown. -/
theorem eq_of_quotientAxis {axis : Axis} (haxis : quotientAxis l r extent = .ok axis) :
    (∃ divisor, Buckets l r extent divisor ∧
      axis = ⟨if bucketRun l r == l.run then Word.scaleDown l.divisibility divisor else 1,
        bucketRun l r, l.step / divisor⟩) ∨ axis = .top := by
  rcases quotientAxis_cases l r extent with ⟨divisor, h⟩ | htop
  · exact .inl ⟨divisor, h, Except.ok.inj (haxis.symm.trans h.quotientAxis_eq)⟩
  · exact .inr (Except.ok.inj (haxis.symm.trans htop))

/-- The divisor of a quotient is a power of two if that of the dividend is. -/
theorem quotientAxis_power {axis : Axis} (hl : Word.IsPower l.divisibility)
    (haxis : quotientAxis l r extent = .ok axis) : Word.IsPower axis.divisibility := by
  rcases eq_of_quotientAxis haxis with ⟨divisor, _, rfl⟩ | rfl
  · show Word.IsPower (if _ then Word.scaleDown l.divisibility divisor else 1)
    split
    · exact hl.scaleDown divisor
    · exact Word.isPower_one
  · exact Word.isPower_one

end Buckets

variable {ctx : Context} {types : ValueId → Option ValueType} {op : BinaryOp} {a b c : Fact}

/-- Axes that any two lanes allow are worked out for quotients and remainders, too. -/
theorem axes_foldsTo (h : ctx.Binary op a b) (axis : Lane → Lane → Int64 → Checked Axis)
    (htotal : ∀ l r extent, ∃ x, axis l r extent = .ok x) :
    ∃ axes, (ctx.axes fun d extent => do
        let l ← a.lane d
        let r ← b.lane d
        match op.fold a.constant b.constant with
        | some q => return ⟨Word.powerDivisor q, l.constancy, 0⟩
        | none => axis l r extent) = .ok axes ∧ axes.length = ctx.rank ∧
      FoldsTo ctx op a b axis axes := by
  unfold FoldsTo
  cases op.fold a.constant b.constant with
  | none => exact h.axes_eq_ok axis htotal
  | some q =>
    obtain ⟨axes, haxes, hlen, hall⟩ := h.axes_eq_ok
      (fun l _ _ => .ok ⟨Word.powerDivisor q, l.constancy, 0⟩) fun _ _ _ => ⟨_, rfl⟩
    refine ⟨axes, haxes, hlen, fun d x hd => ?_⟩
    obtain ⟨l, r, extent, hl, hr, hextent, hx⟩ := hall d x hd
    exact ⟨l, r, extent, hl, hr, hextent, (Except.ok.inj hx).symm⟩

/-- The two ways in which a quotient is answered. -/
theorem quotient_cases (h : ctx.Binary op a b) :
    keepsDividend a b = true ∧ quotient ctx [a, b] = .ok a ∨
    keepsDividend a b = false ∧ ∃ axes,
      quotient ctx [a, b] = .ok ⟨axes, op.fold a.constant b.constant⟩ ∧ axes.length = ctx.rank ∧
      FoldsTo ctx op a b quotientAxis axes := by
  cases hkeeps : keepsDividend a b with
  | true =>
    refine .inl ⟨rfl, bind_eq_ok.mpr ⟨_, h.operands, bind_eq_ok.mpr ⟨_, h.op, ?_⟩⟩⟩
    rw [if_pos hkeeps]
    rfl
  | false =>
    obtain ⟨axes, haxes, hlen, hall⟩ := axes_foldsTo h quotientAxis exists_quotientAxis
    refine .inr ⟨rfl, axes, ?_, hlen, hall⟩
    refine bind_eq_ok.mpr ⟨_, h.operands, bind_eq_ok.mpr ⟨_, h.op, ?_⟩⟩
    rw [if_neg (by simp [hkeeps])]
    exact bind_eq_ok.mpr ⟨axes, haxes, rfl⟩

theorem quotient_eq_ok (h : ctx.Binary op a b) (hdiv : op = .divS ∨ op = .divU) :
    ∃ f, quotient ctx [a, b] = .ok f ∧ f.rank = ctx.rank ∧ Answer ctx [a, b] f := by
  rcases quotient_cases h with ⟨hkeeps, hrule⟩ | ⟨_, axes, hrule, hlen, hall⟩
  · exact ⟨a, hrule, h.left, .dividend h.op hdiv hkeeps⟩
  · exact ⟨_, hrule, hlen, .quotient h.op hdiv hall⟩

/-- The two ways in which a remainder is answered. -/
theorem remainder_cases (h : ctx.Binary op a b) :
    keepsDividend a b = true ∧ remainder ctx [a, b] = .ok (.zero ctx.shape) ∨
    keepsDividend a b = false ∧ ∃ axes,
      remainder ctx [a, b] = .ok ⟨axes, op.fold a.constant b.constant⟩ ∧ axes.length = ctx.rank ∧
      FoldsTo ctx op a b (fun l r extent => .ok (remainderAxis l r extent)) axes := by
  cases hkeeps : keepsDividend a b with
  | true =>
    refine .inl ⟨rfl, bind_eq_ok.mpr ⟨_, h.operands, bind_eq_ok.mpr ⟨_, h.op, ?_⟩⟩⟩
    rw [if_pos hkeeps]
    rfl
  | false =>
    obtain ⟨axes, haxes, hlen, hall⟩ := axes_foldsTo h
      (fun l r extent => .ok (remainderAxis l r extent)) fun _ _ _ => ⟨_, rfl⟩
    refine .inr ⟨rfl, axes, ?_, hlen, hall⟩
    refine bind_eq_ok.mpr ⟨_, h.operands, bind_eq_ok.mpr ⟨_, h.op, ?_⟩⟩
    rw [if_neg (by simp [hkeeps])]
    exact bind_eq_ok.mpr ⟨axes, haxes, rfl⟩

theorem remainder_eq_ok (h : ctx.Binary op a b) (hrem : op = .remS ∨ op = .remU) :
    ∃ f, remainder ctx [a, b] = .ok f ∧ f.rank = ctx.rank ∧ Answer ctx [a, b] f := by
  rcases remainder_cases h with ⟨hkeeps, hrule⟩ | ⟨_, axes, hrule, hlen, hall⟩
  · refine ⟨_, hrule, ?_, .noRemainder h.op hrem hkeeps⟩
    rw [Fact.zero, Fact.rank_ofConstant, ctx.length_shape]
  · exact ⟨_, hrule, hlen, .remainder h.op hrem hall⟩

/-- An extremum is one of its operands. -/
theorem evaluate_extremum {l r value : Int64} (hext : isExtremum op = true)
    (h : op.evaluate l r = some value) : l = value ∨ r = value := by
  cases op <;> simp only [isExtremum, Bool.false_eq_true] at hext <;>
    simp only [BinaryOp.evaluate, Option.some.injEq] at h <;> split at h <;> simp [h]

theorem logic_eq_ok (h : ctx.Binary op a b) :
    ∃ f, logic ctx [a, b] = .ok f ∧ f.rank = ctx.rank ∧ Answer ctx [a, b] f := by
  cases hfold : op.fold a.constant b.constant with
  | none =>
    have hrule : logic ctx [a, b] = .ok (.top ctx.rank) := by
      refine bind_eq_ok.mpr ⟨_, h.operands, bind_eq_ok.mpr ⟨_, h.op, ?_⟩⟩
      simp only [hfold]
      rfl
    exact ⟨_, hrule, Fact.rank_top _, .unknown⟩
  | some value =>
    have hrule : logic ctx [a, b] = .ok (if isExtremum op then
        if a.constant == some value then a else b
        else ⟨(Fact.top ctx.rank).axes, some value⟩) := by
      refine bind_eq_ok.mpr ⟨_, h.operands, bind_eq_ok.mpr ⟨_, h.op, ?_⟩⟩
      simp only [hfold]
      split <;> rfl
    cases hext : isExtremum op with
    | false =>
      rw [hext] at hrule
      exact ⟨_, hrule, Fact.rank_top ctx.rank, .folded h.op hfold⟩
    | true =>
      rw [hext] at hrule
      by_cases ha : a.constant = some value
      · exact ⟨a, by simpa [ha] using hrule, h.left, .extremumLeft h.op hfold ha⟩
      · refine ⟨b, by simpa [ha] using hrule, h.right, .extremumRight h.op hfold ?_⟩
        obtain ⟨l, r, hl, hr, heval⟩ := BinaryOp.fold_eq_some hfold
        rcases evaluate_extremum hext heval with rfl | rfl
        · exact absurd hl ha
        · exact hr

/-- The two ways in which a comparison is answered. -/
theorem comparison_cases {predicate : Comparison} {u v : ValueId}
    (hop : ctx.op = .cmp predicate u v) (hoperands : ctx.twoOperands [a, b] = .ok (a, b))
    (ha : a.rank = ctx.rank) (hb : b.rank = ctx.rank) :
    (∃ l r, a.constant = some l ∧ b.constant = some r ∧
      comparison ctx [a, b] =
        .ok (.ofConstant (if predicate.evaluate l r then 1 else 0) ctx.shape)) ∨
    ∃ axes, comparison ctx [a, b] = .ok ⟨axes, none⟩ ∧ axes.length = ctx.rank ∧
      ∀ (d : Nat) (axis : Axis), axes[d]? = some axis → ∃ (l r : Axis) (extent : Int64),
        a.axes[d]? = some l ∧ b.axes[d]? = some r ∧ ctx.shape[d]? = some extent ∧
          axis = ⟨1, if predicate.isStrict then strictRun l r extent else 1, 0⟩ := by
  obtain ⟨axes, haxes, hlen, hall⟩ := ctx.axes_eq_ok (fun d extent => do
      let l ← a.axis d
      let r ← b.axis d
      return ⟨1, if predicate.isStrict then strictRun l r extent else 1, 0⟩) <| by
    intro d extent hd
    have hlt := Context.lt_rank_of_shape hd
    obtain ⟨l, hl⟩ := Fact.exists_axis (ha.symm ▸ hlt)
    obtain ⟨r, hr⟩ := Fact.exists_axis (hb.symm ▸ hlt)
    exact ⟨_, bind_eq_ok.mpr ⟨l, Fact.axis_eq_ok.mpr hl,
      bind_eq_ok.mpr ⟨r, Fact.axis_eq_ok.mpr hr, rfl⟩⟩⟩
  simp only [comparison, hoperands, hop, ok_bind]
  split
  · next l r hl hr => exact .inl ⟨l, r, hl, hr, rfl⟩
  · rw [haxes]
    refine .inr ⟨axes, rfl, hlen, fun d axis hd => ?_⟩
    obtain ⟨extent, hextent, haxis⟩ := hall d axis hd
    obtain ⟨l, hl, haxis⟩ := bind_eq_ok.mp haxis
    obtain ⟨r, hr, haxis⟩ := bind_eq_ok.mp haxis
    cases haxis
    exact ⟨l, r, extent, Fact.axis_eq_ok.mp hl, Fact.axis_eq_ok.mp hr, hextent, rfl⟩

theorem comparison_eq_ok {predicate : Comparison} {u v : ValueId}
    (hop : ctx.op = .cmp predicate u v) (hoperands : ctx.twoOperands [a, b] = .ok (a, b))
    (ha : a.rank = ctx.rank) (hb : b.rank = ctx.rank) :
    ∃ f, comparison ctx [a, b] = .ok f ∧ f.rank = ctx.rank ∧ Answer ctx [a, b] f := by
  rcases comparison_cases hop hoperands ha hb with
    ⟨l, r, hl, hr, hrule⟩ | ⟨axes, hrule, hlen, hall⟩
  · refine ⟨_, hrule, ?_, .compared hop hl hr⟩
    rw [Fact.rank_ofConstant, ctx.length_shape]
  · exact ⟨_, hrule, hlen, .comparison hop hall⟩

theorem choice_eq_ok {u v w : ValueId} {s t : ValueType} (hop : ctx.op = .select u v w)
    (htypes : ctx.operandTypes = [s, t, t]) (hshape : s.shape = [] ∨ s.shape = t.shape)
    (htype : ctx.type = t) (hc : c.rank = s.factRank) (ha : a.rank = t.factRank)
    (hb : b.rank = t.factRank) :
    ∃ f, choice ctx [c, a, b] = .ok f ∧ f.rank = ctx.rank ∧ Answer ctx [c, a, b] f := by
  have hoperands := Context.threeOperands_eq_ok htypes hc ha hb
  subst htype
  cases hcond : c.constant with
  | some value =>
    refine ⟨if value ≠ 0 then a else b, ?_, ?_, .decided hop hcond⟩
    · refine bind_eq_ok.mpr ⟨_, hoperands, ?_⟩
      simp [hcond, pure, Except.pure]
    · split
      · exact ha
      · exact hb
  | none =>
    have hs : ctx.operandTypes[0]? = some s := by rw [htypes]; rfl
    have hjoin : a.join b = .ok ⟨List.zipWith Axis.join a.axes b.axes,
        Fact.commonConstant a.constant b.constant⟩ := if_pos (ha.trans hb.symm)
    generalize hj : (⟨List.zipWith Axis.join a.axes b.axes,
      Fact.commonConstant a.constant b.constant⟩ : Fact) = joined at hjoin
    have hjrank : joined.rank = ctx.rank := (Fact.rank_of_join hjoin).1.symm.trans ha
    generalize hall : (s.isScalar && !ctx.type.isScalar) = decidesAll
    have hcshape : decidesAll = false → s.shape = ctx.type.shape := by
      intro hno
      rcases hshape with h | h
      · simp only [← hall, ValueType.isScalar, h, List.isEmpty_nil, Bool.true_and,
          Bool.not_eq_false', List.isEmpty_iff] at hno
        rw [h, hno]
      · exact h
    -- One axis, whichever way the condition decides.
    have hvalue : ∀ d extent, d < ctx.rank → ∃ (both : Axis) (run : Int64),
        joined.axes[d]? = some both ∧ (s.shape = [] ∨ s.shape = ctx.type.shape ∧
          ∃ ca : Axis, c.axes[d]? = some ca ∧ run = ca.constancy) ∧
        (do
          let condRun ← if decidesAll then pure extent else Axis.constancy <$> c.axis d
          let both ← joined.axis d
          return { both with run := Word.gcd both.run condRun }) =
            Except.ok { both with run := Word.gcd both.run run } := by
      intro d extent hlt
      obtain ⟨both, hboth⟩ := Fact.exists_axis (hjrank.symm ▸ hlt)
      have helem : joined.axis d = .ok both := Fact.axis_eq_ok.mpr hboth
      cases hdec : decidesAll with
      | true =>
        simp only [hdec, Bool.and_eq_true, ValueType.isScalar, List.isEmpty_iff] at hall
        exact ⟨both, extent, hboth, .inl hall.1,
          bind_eq_ok.mpr ⟨extent, rfl, bind_eq_ok.mpr ⟨both, helem, rfl⟩⟩⟩
      | false =>
        have hcrank : c.rank = ctx.rank := by
          rw [hc, ValueType.factRank, ValueType.rank, hcshape hdec]
          rfl
        obtain ⟨ca, hca⟩ := Fact.exists_axis (hcrank.symm ▸ hlt)
        refine ⟨both, ca.constancy, hboth, .inr ⟨hcshape hdec, ca, hca, rfl⟩, ?_⟩
        exact bind_eq_ok.mpr ⟨_, map_eq_ok.mpr ⟨ca, Fact.axis_eq_ok.mpr hca, rfl⟩,
          bind_eq_ok.mpr ⟨both, helem, rfl⟩⟩
    obtain ⟨axes, haxes, hlen, haxis⟩ := ctx.axes_eq_ok _ fun d extent hd => by
      obtain ⟨_, _, _, _, h⟩ := hvalue d extent (Context.lt_rank_of_shape hd)
      exact ⟨_, h⟩
    refine ⟨⟨axes, joined.constant⟩, ?_, hlen, .choice hop hjoin hs ?_⟩
    · refine bind_eq_ok.mpr ⟨_, hoperands, ?_⟩
      simp only [hcond]
      refine bind_eq_ok.mpr ⟨s, element_eq_ok.mpr hs, bind_eq_ok.mpr ⟨joined, hjoin, ?_⟩⟩
      rw [hall]
      exact bind_eq_ok.mpr ⟨axes, haxes, rfl⟩
    · intro d axis hd
      obtain ⟨extent, hextent, h⟩ := haxis d axis hd
      obtain ⟨both, run, hboth, hrun, h'⟩ := hvalue d extent (Context.lt_rank_of_shape hextent)
      exact ⟨both, run, hboth, Except.ok.inj (h.symm.trans h'), hrun⟩

/-- A scalar's axis, made constant over every extent of the result. -/
theorem axis_of_spread {s : ValueType} (hscalar : s.shape = []) (ha : a.rank = s.factRank) {d : Nat}
    {axis : Axis} (h : (a.stretch [] ctx.type.shape).axes[d]? = some axis) :
    ∃ (extent : Int64) (source : Axis), ctx.shape[d]? = some extent ∧ a.axes[0]? = some source ∧
      axis = ⟨source.divisibility, extent, 0⟩ := by
  obtain ⟨extent, hextent, rfl⟩ := Fact.axis_of_stretch h
  have hsource := Fact.axis_source (d := d) (.inl hscalar) ha
  simp only [ValueType.isScalar, hscalar, List.isEmpty_nil, if_true] at hsource
  exact ⟨extent, _, hextent, Fact.axis_eq_ok.mp hsource, rfl⟩

theorem splat_eq_ok {u : ValueId} {s : ValueType} (hop : ctx.op = .splat u)
    (htypes : ctx.operandTypes = [s]) (hscalar : s.shape = []) (ha : a.rank = s.factRank) :
    ∃ f, splat ctx [a] = .ok f ∧ f.rank = ctx.rank ∧ Answer ctx [a] f :=
  ⟨_, splat_eq_stretch htypes hscalar ha, Fact.rank_stretch ..,
    .splat hop fun _ _ => axis_of_spread hscalar ha⟩

theorem broadcast_eq_ok {u : ValueId} {s : ValueType} (hop : ctx.op = .broadcast u)
    (htypes : ctx.operandTypes = [s]) (hshape : s.shape = [] ∨ s.rank = ctx.type.rank)
    (ha : a.rank = s.factRank) :
    ∃ f, broadcast ctx [a] = .ok f ∧ f.rank = ctx.rank ∧ Answer ctx [a] f := by
  have hs : ctx.operandTypes[0]? = some s := by rw [htypes]; rfl
  refine ⟨_, broadcast_eq_stretch htypes hshape ha, Fact.rank_stretch .., ?_⟩
  by_cases hscalar : s.shape = []
  · rw [hscalar]
    exact .broadcastScalar hop hs hscalar fun _ _ => axis_of_spread hscalar ha
  · refine .broadcast hop hs hscalar fun d axis hd => ?_
    obtain ⟨extent, hextent, rfl⟩ := Fact.axis_of_stretch hd
    have hdim := ValueType.lt_rank_of_context hshape (Context.lt_rank_of_shape hextent)
    have hlt : d < s.shape.length := hdim.resolve_left hscalar
    have hsource := Fact.axis_source hdim ha
    simp only [ValueType.isScalar, List.isEmpty_iff, hscalar, if_false] at hsource
    refine ⟨extent, s.shape.getD d 1, _, hextent, ?_, Fact.axis_eq_ok.mp hsource, rfl⟩
    simp [hlt]

theorem expandDims_eq_ok {u : ValueId} {n : Nat} {s : ValueType} (hop : ctx.op = .expandDims u n)
    (htypes : ctx.operandTypes = [s]) (hn : n ≤ s.rank)
    (htype : ctx.type = s.withShape (s.shape.insertIdx n 1)) (ha : a.rank = s.factRank) :
    ∃ f, expandDims ctx [a] = .ok f ∧ f.rank = ctx.rank ∧ Answer ctx [a] f := by
  have hs : ctx.operandTypes[0]? = some s := by rw [htypes]; rfl
  have hsome : ctx.operandType 0 = .ok s := element_eq_ok.mpr hs
  have hrank : ctx.rank = s.rank + 1 := by
    rw [Context.rank, htype, ValueType.factRank]
    show max (s.shape.insertIdx n 1).length 1 = s.shape.length + 1
    rw [List.length_insertIdx_of_le_length hn]
    omega
  by_cases hscalar : s.shape = []
  · refine ⟨a, ?_, ?_, .expandScalar hop hs hscalar⟩
    · refine bind_eq_ok.mpr ⟨a, Context.oneOperand_eq_ok htypes ha, ?_⟩
      rw [hop]
      refine bind_eq_ok.mpr ⟨s, hsome, ?_⟩
      rw [if_pos (by simp [ValueType.isScalar, hscalar])]
      rfl
    · rw [ha, hrank]
      simp [ValueType.factRank, ValueType.rank, hscalar]
  · have hpos : 0 < s.rank := List.length_pos_iff.mpr hscalar
    have harank : a.axes.length = s.rank := by
      have : a.axes.length = max s.rank 1 := ha
      omega
    refine ⟨⟨a.axes.insertIdx n ⟨1, 1, 0⟩, a.constant⟩, ?_, ?_, .expandDims hop hs hscalar⟩
    · refine bind_eq_ok.mpr ⟨a, Context.oneOperand_eq_ok htypes ha, ?_⟩
      rw [hop]
      refine bind_eq_ok.mpr ⟨s, hsome, ?_⟩
      rw [if_neg (by simp [ValueType.isScalar, hscalar])]
      exact bind_eq_ok.mpr ⟨_, insertAt_eq_ok.mpr ⟨harank ▸ hn, rfl⟩, rfl⟩
    · show (a.axes.insertIdx n ⟨1, 1, 0⟩).length = ctx.rank
      rw [List.length_insertIdx_of_le_length (harank ▸ hn), harank, hrank]

end Rule

/-! ### The standard rulebook -/

section Standard

variable {ctx : Context} {types : ValueId → Option ValueType} {facts : List Fact}

/-- The operands of an operation on two values of the result's rank. -/
theorem Context.Ranked.binary (hfacts : ctx.Ranked facts) {s t : ValueType}
    (htypes : ctx.operandTypes = [s, t]) (hs : s.shape = ctx.type.shape)
    (ht : t.shape = ctx.type.shape) {op : BinaryOp} (hop : ctx.binaryOp = .ok op) :
    ∃ a b, facts = [a, b] ∧ ctx.Binary op a b := by
  obtain ⟨a, b, rfl, ha, hb⟩ := Context.ranked_two hfacts htypes
  refine ⟨a, b, rfl, Context.twoOperands_eq_ok htypes ha hb, hop, ?_, ?_⟩
  · rw [ha, ValueType.factRank, ValueType.rank, hs]
    rfl
  · rw [hb, ValueType.factRank, ValueType.rank, ht]
    rfl

theorem Rule.policy_eq_ok {policy : Policy} {op : BinaryOp} {a b : Fact}
    (hpolicy : policy.Serves op) (h : ctx.Binary op a b) :
    ∃ f, policy.rule ctx [a, b] = .ok f ∧ f.rank = ctx.rank ∧ Answer ctx [a, b] f := by
  obtain ⟨axes, hrule, hlen, haxes⟩ := policy.rule_eq_ok hpolicy.total h
  rw [hpolicy.constant] at hrule haxes
  exact ⟨_, hrule, hlen, .policy h.op hpolicy haxes⟩

theorem Rule.binary_eq_ok {op : BinaryOp} {a b : Fact} (h : ctx.Binary op a b) :
    ∃ f, Rulebook.binaryRule op ctx [a, b] = .ok f ∧ f.rank = ctx.rank ∧ Answer ctx [a, b] f := by
  cases op with
  | add => exact policy_eq_ok .add h
  | sub => exact policy_eq_ok .sub h
  | mul => exact policy_eq_ok .mul h
  | shl => exact policy_eq_ok .shl h
  | shrS => exact policy_eq_ok .shrS h
  | shrU => exact policy_eq_ok .shrU h
  | divS => exact quotient_eq_ok h (.inl rfl)
  | divU => exact quotient_eq_ok h (.inr rfl)
  | remS => exact remainder_eq_ok h (.inl rfl)
  | remU => exact remainder_eq_ok h (.inr rfl)
  | _ => exact logic_eq_ok h

namespace Rulebook

theorem transfer_eq_ok {book : Rulebook} {rule : Rule} (hrule : book.rule ctx.kind = some rule)
    {f : Fact} (hf : rule ctx facts = .ok f) (hrank : f.rank = ctx.rank) :
    book.transfer ctx facts = .ok f := by
  unfold transfer
  rw [hrule]
  exact bind_eq_ok.mpr ⟨f, hf, if_pos hrank⟩

theorem rule_of_transfer {book : Rulebook} {rule : Rule} (hrule : book.rule ctx.kind = some rule)
    {f : Fact} (hf : book.transfer ctx facts = .ok f) : rule ctx facts = .ok f := by
  simp only [transfer, hrule] at hf
  obtain ⟨f', hf', hrank⟩ := bind_eq_ok.mp hf
  split at hrank
  · cases hrank
    exact hf'
  · cases hrank

theorem transfer_of_rule {book : Rulebook} {rule : Rule} (hrule : book.rule ctx.kind = some rule)
    (h : ∃ f, rule ctx facts = .ok f ∧ f.rank = ctx.rank ∧ Answer ctx facts f) :
    ∃ f, book.transfer ctx facts = .ok f ∧ Answer ctx facts f := by
  obtain ⟨f, hf, hrank, hanswer⟩ := h
  exact ⟨f, transfer_eq_ok hrule hf hrank, hanswer⟩

theorem transfer_of_none {book : Rulebook} (hrule : book.rule ctx.kind = none) :
    book.transfer ctx facts = .ok (.top ctx.rank) := by
  unfold transfer
  rw [hrule]

theorem standard_rule_of_binaryOp {op : BinaryOp} (hop : ctx.binaryOp = .ok op) :
    standard.rule ctx.kind = some (binaryRule op) := by
  obtain ⟨value, ctxop, type, operandTypes⟩ := ctx
  cases ctxop with
  | binary | addPtr =>
    cases hop
    rfl
  | _ => cases hop

theorem standard_answers (h : ctx.Typed types) (hfacts : ctx.Ranked facts) :
    ∃ f, standard.transfer ctx facts = .ok f ∧ Answer ctx facts f := by
  obtain ⟨value, op, type, operandTypes⟩ := ctx
  have hop := h.op
  cases hop with
  | arg | constFloat | reshape | merge | atomicRmw | gatherAtomicRmw =>
    exact ⟨_, transfer_of_none rfl, .unknown⟩
  | const hint =>
    cases h.operandTypes_eq [] rfl
    cases Context.ranked_nil hfacts rfl
    refine transfer_of_rule rfl ⟨_, rfl, ?_, .constant rfl⟩
    rw [Fact.rank_ofConstant, Context.length_shape]
  | range horder hcount =>
    cases h.operandTypes_eq [] rfl
    cases Context.ranked_nil hfacts rfl
    refine transfer_of_rule rfl ⟨_, ?_, rfl, .range rfl hcount⟩
    exact bind_eq_ok.mpr ⟨(), rfl, bind_eq_ok.mpr ⟨_, hcount, rfl⟩⟩
  | @cast _ _ s _ hsource _ =>
    cases h.operandTypes_eq [s] (by simp [Op.operands, hsource])
    obtain ⟨a, rfl, ha⟩ := Context.ranked_one hfacts rfl
    exact transfer_of_rule rfl ⟨a, Context.oneOperand_eq_ok rfl ha, ha, .identity rfl⟩
  | binary hlhs hrhs _ =>
    cases h.operandTypes_eq [type, type] (by simp [Op.operands, hlhs, hrhs])
    obtain ⟨a, b, rfl, hab⟩ := hfacts.binary rfl rfl rfl rfl
    exact transfer_of_rule rfl (Rule.binary_eq_ok hab)
  | @addPtr _ _ _ o hptr hoffset _ _ hshape =>
    cases h.operandTypes_eq [type, o] (by simp [Op.operands, hptr, hoffset])
    obtain ⟨a, b, rfl, hab⟩ := hfacts.binary rfl rfl hshape.symm rfl
    exact transfer_of_rule rfl (Rule.policy_eq_ok .add hab)
  | @cmp _ _ _ t hlhs hrhs =>
    cases h.operandTypes_eq [t, t] (by simp [Op.operands, hlhs, hrhs])
    obtain ⟨a, b, rfl, ha, hb⟩ := Context.ranked_two hfacts rfl
    exact transfer_of_rule rfl
      (Rule.comparison_eq_ok rfl (Context.twoOperands_eq_ok rfl ha hb) ha hb)
  | @select _ _ _ c _ hcond hTrue hFalse _ hshape =>
    cases h.operandTypes_eq [c, type, type] (by simp [Op.operands, hcond, hTrue, hFalse])
    obtain ⟨c, a, b, rfl, hc, ha, hb⟩ := Context.ranked_three hfacts rfl
    exact transfer_of_rule rfl (Rule.choice_eq_ok rfl rfl hshape rfl hc ha hb)
  | @splat _ s _ hsource hscalar =>
    cases h.operandTypes_eq [s] (by simp [Op.operands, hsource])
    obtain ⟨a, rfl, ha⟩ := Context.ranked_one hfacts rfl
    exact transfer_of_rule rfl (Rule.splat_eq_ok rfl rfl hscalar ha)
  | @broadcast _ s shape hsource hstretch =>
    cases h.operandTypes_eq [s] (by simp [Op.operands, hsource])
    obtain ⟨a, rfl, ha⟩ := Context.ranked_one hfacts rfl
    exact transfer_of_rule rfl
      (Rule.broadcast_eq_ok rfl rfl ((Shape.stretchesTo_iff.mp hstretch).imp_right And.left) ha)
  | @expandDims _ _ s hsource haxis =>
    cases h.operandTypes_eq [s] (by simp [Op.operands, hsource])
    obtain ⟨a, rfl, ha⟩ := Context.ranked_one hfacts rfl
    exact transfer_of_rule rfl (Rule.expandDims_eq_ok rfl rfl haxis rfl ha)

end Rulebook

end Standard

end TileFacts

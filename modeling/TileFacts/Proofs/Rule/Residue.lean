import TileFacts.Proofs.Describes
import TileFacts.Proofs.Rule.Quotient

/-! Remainders, run by run.

Where a dividend counts up along the whole of a line and the divisor stands still, the remainder at
position `p` is `p` above a multiple of what the divisors of both operands have in common. The
remainder rule answers with that common divisor, and with runs that divide both it and the extent,
along which remainders count up.

This can go wrong in two ways. If neither of the common divisor and the extent divides the other,
runs are shorter than the common divisor, and the second run starts below it. And signed remainders
of negative dividends are negative: they count up to zero and then start again, so the element after
a negative multiple of the divisor is not the next number.

Main statement: what the rule answers holds of the remainders, run by run, exactly if neither
happens. -/
namespace TileFacts

/-! ### Remainders of neighbours -/

theorem natCast_tmod (v : Nat) (c : Int) : (v : Int).tmod c = (v % c.natAbs : Nat) := by
  rw [Int.ofNat_tmod]
  rcases Int.natAbs_eq c with hc | hc
  · rw [← hc]
  · rw [hc, Int.tmod_neg, Int.natAbs_neg, Int.natAbs_natCast]

/-- Rounded towards zero, the remainder counts up with the dividend as long as the divisor does not
divide it, except after a negative multiple. -/
theorem tmod_add_one_iff {u c : Int} (h : ¬ c ∣ u + 1) :
    (u + 1).tmod c = u.tmod c + 1 ↔ ¬ (u < 0 ∧ c ∣ u) := by
  rcases lt_or_ge u 0 with hneg | hnonneg
  · obtain ⟨v, rfl⟩ : ∃ v : Nat, u = -((v + 1 : Nat) : Int) := ⟨(-u - 1).toNat, by omega⟩
    have hsucc : -((v + 1 : Nat) : Int) + 1 = -(v : Int) := by omega
    rw [hsucc, Int.neg_tmod, Int.neg_tmod, natCast_tmod, natCast_tmod, Int.dvd_neg,
      ← Int.natAbs_dvd, Int.natCast_dvd_natCast]
    by_cases hdvd : c.natAbs ∣ v + 1
    · rw [Nat.mod_eq_zero_of_dvd hdvd]
      exact iff_of_false (by omega) fun hnone => hnone ⟨hneg, hdvd⟩
    · rw [succ_mod_of_not_dvd hdvd]
      exact iff_of_true (by omega) fun hbad => hdvd hbad.2
  · obtain ⟨v, rfl⟩ := Int.eq_ofNat_of_zero_le hnonneg
    have hdvd : ¬ c.natAbs ∣ v + 1 := by
      rwa [← Int.natCast_dvd_natCast, Int.natAbs_dvd]
    rw [← Int.natCast_succ, natCast_tmod, natCast_tmod, succ_mod_of_not_dvd hdvd]
    exact iff_of_true (Int.natCast_succ _) fun hbad => hnonneg.not_gt hbad.1

section Words

variable {op : BinaryOp} {m a b c d : Int64}

theorem evaluate_remS (h : BinaryOp.remS.evaluate a b = some c) :
    b.toInt ≠ 0 ∧ c.toInt = a.toInt.tmod b.toInt := by
  simp only [BinaryOp.evaluate] at h
  split at h
  · cases h
  · next hdefined =>
    cases h
    refine ⟨fun hb => hdefined ?_, Int64.toInt_mod a b⟩
    have hzero : b = 0 := Int64.toInt_inj.mp (hb.trans Int64.toInt_zero.symm)
    simp [undividable, hzero]

/-- A remainder keeps the residue modulo every tracked divisor of the divisor. -/
theorem evaluate_remainder_modEq (hrem : op = .remS ∨ op = .remU) (hm : Word.IsPower m)
    (h : op.evaluate a b = some c) (hb : m.toInt ∣ b.toInt) : c.toInt ≡ a.toInt [ZMOD m.toInt] := by
  rcases hrem with rfl | rfl
  · have hsplit := Int.tmod_add_mul_tdiv a.toInt b.toInt
    rw [(evaluate_remS h).2]
    apply Int.modEq_iff_dvd.mpr
    exact hb.trans ⟨a.toInt.tdiv b.toInt, by omega⟩
  · exact evaluate_remU_modEq hm h hb

theorem evaluate_remS_succ_iff (hm : Word.IsPower m) (hc : BinaryOp.remS.evaluate a b = some c)
    (hd : BinaryOp.remS.evaluate (a + 1) b = some d) (hb : m.toInt ∣ b.toInt)
    (ha : ¬ m.toInt ∣ (a + 1).toInt) : d = c + 1 ↔ ¬ (a.toInt < 0 ∧ b.toInt ∣ a.toInt) := by
  have hnext := hm.toInt_succ ha
  obtain ⟨hb0, hc⟩ := evaluate_remS hc
  obtain ⟨_, hd⟩ := evaluate_remS hd
  rw [hnext] at hd ha
  rw [← tmod_add_one_iff fun hdvd => ha (hb.trans hdvd), ← hd, ← hc]
  have hcabs : c.toInt.natAbs < b.toInt.natAbs := by
    rw [hc, Int.natAbs_tmod]
    exact Nat.mod_lt _ (by omega)
  have hdabs : d.toInt.natAbs < b.toInt.natAbs := by
    rw [hd, Int.natAbs_tmod]
    exact Nat.mod_lt _ (by omega)
  have hmod : (c + 1).toInt ≡ c.toInt + 1 [ZMOD 2 ^ 64] := Word.toInt_add_modEq c 1
  constructor
  · rintro rfl
    obtain ⟨k, hk⟩ := Int.modEq_iff_dvd.mp hmod
    have := b.le_toInt
    have := b.toInt_lt
    omega
  · intro heq
    exact Word.eq_of_modEq (heq ▸ hmod.symm)

/-- Between multiples of a divisor of the divisor, unsigned remainders count up with the dividend,
and signed ones do so except after a negative multiple of the divisor. -/
theorem evaluate_remainder_succ_iff (hrem : op = .remS ∨ op = .remU) (hm : Word.IsPower m)
    (hc : op.evaluate a b = some c) (hd : op.evaluate (a + 1) b = some d)
    (hb : m.toInt ∣ b.toInt) (ha : ¬ m.toInt ∣ (a + 1).toInt) :
    d = c + 1 ↔ (op = .remS → ¬ (a.toInt < 0 ∧ b.toInt ∣ a.toInt)) := by
  rcases hrem with rfl | rfl
  · rw [evaluate_remS_succ_iff hm hc hd hb ha]
    exact ⟨fun h _ => h, fun h => h rfl⟩
  · exact iff_of_true (evaluate_remU_succ hm hc hd hb ha) (by rintro ⟨⟩)

end Words

/-! ### Remainders along a line -/

namespace Rule

variable {l r : Lane} {extent : Int64} {op : BinaryOp} {n : Nat} {x y z : Nat → Int64}

theorem CountsUp.extent_pos (h : CountsUp l r extent) (hl : 0 < l.run.toInt) : 0 < extent.toInt :=
  beq_iff_eq.mp h.1 ▸ Axis.contiguity_pos hl

namespace CountsUp

variable (h : CountsUp l r extent) (hn : extent.toInt = n) (hl : l.toAxis.Tracked)
  (hx : l.Holds n x) (hy : r.Holds n y) (hrem : op = .remS ∨ op = .remU)
  (hz : ∀ p < n, op.evaluate (x p) (y p) = some (z p))
include h hn hl hx hy hrem hz

/-- Position by position, remainders count up from zero modulo the common divisor. -/
theorem remainder_modEq {p : Nat} (hp : p < n) :
    (z p).toInt ≡ p [ZMOD (Word.gcd l.divisibility r.divisibility).toInt] := by
  have hcommon := hl.power.gcd r.divisibility
  have hdivisor := (Word.gcd_dvd_right hl.power.pos).trans (hy.axis.stands_dvd hn h.2 hp)
  exact (evaluate_remainder_modEq hrem hcommon (hz p hp) hdivisor).trans
    (hx.axis.counts hn h.1 hcommon (Word.gcd_dvd_left hl.power.pos) p hp)

/-- Runs start at multiples of the common divisor if they are as long as it, or if there is one. -/
theorem heads_iff {run : Int64} (hrun : 0 < run.toInt) :
    (∀ p < n, run.toInt ∣ p →
      (Word.gcd l.divisibility r.divisibility).toInt ∣ (z p).toInt) ↔
    (Word.gcd l.divisibility r.divisibility).toInt ∣ run.toInt ∨ n ≤ run.toInt := by
  have hmod {p : Nat} (hp : p < n) := (h.remainder_modEq hn hl hx hy hrem hz hp).dvd_iff
  constructor
  · intro hheads
    rcases lt_or_ge run.toInt n with hlt | hle
    · -- The second run starts at position `run`.
      have hcast : (run.toInt.toNat : Int) = run.toInt := Int.toNat_of_nonneg hrun.le
      have hp : run.toInt.toNat < n := by omega
      have hsecond := (hmod hp).mp (hheads _ hp (hcast ▸ dvd_rfl))
      exact .inl (hcast ▸ hsecond)
    · exact .inr hle
  · intro hcond p hp hdvd
    apply (hmod hp).mpr
    rcases hcond with hcommon | hle
    · exact hcommon.trans hdvd
    · have hzero : p = 0 := by
        by_contra hne
        have := Int.le_of_dvd (by omega) hdvd
        omega
      rw [hzero]
      exact dvd_zero _

/-- Inside a run remainders count up, unless they are signed and start again after a negative
multiple of the divisor. -/
theorem step_iff {p : Nat} (hp : p + 1 < n)
    (hrun : ¬ (Word.gcd l.contiguity (Word.gcd l.divisibility r.divisibility)).toInt ∣
      (p + 1 : Nat)) :
    z (p + 1) = z p + 1 ↔
      (op = .remS → ¬ ((x p).toInt < 0 ∧ (y 0).toInt ∣ (x p).toInt)) := by
  have hcommon := hl.power.gcd r.divisibility
  have hnext := (Axis.Steps.contiguous hx.axis.steps hn h.1 hp).2
  have hinside : ¬ (Word.gcd l.divisibility r.divisibility).toInt ∣ (x p + 1).toInt := by
    intro hdvd
    rw [← hnext] at hdvd
    have hcount := hx.axis.counts hn h.1 hcommon (Word.gcd_dvd_left hl.power.pos) (p + 1) hp
    exact hrun ((Word.gcd_dvd_right (Axis.contiguity_pos hl.run_pos)).trans
      (hcount.dvd_iff.mp hdvd))
  have heval := hz p (by omega)
  have heval' := hz (p + 1) hp
  rw [hy.axis.stands hn h.2 p (by omega)] at heval
  rw [hnext, hy.axis.stands hn h.2 (p + 1) hp] at heval'
  exact evaluate_remainder_succ_iff hrem hcommon heval heval'
    ((Word.gcd_dvd_right hl.power.pos).trans (hy.axis.stands_dvd hn h.2 (by omega))) hinside

end CountsUp

/-- One dimension of the answer holds of a line of remainders exactly if no run but the first starts
between multiples of the divisor, and no signed remainder starts again inside a run. -/
theorem remainderAxis_holds_iff (hrem : op = .remS ∨ op = .remU)
    (hfits : 0 < extent.toInt → extent.toInt = n) (hl : l.toAxis.Tracked) (hx : l.Holds n x)
    (hy : r.Holds n y) (hz : ∀ p < n, op.evaluate (x p) (y p) = some (z p)) :
    (remainderAxis l r extent).Holds n z ↔
      ((remainderAxis l r extent).divisibility.toInt ∣ (remainderAxis l r extent).run.toInt ∨
        n ≤ (remainderAxis l r extent).run.toInt) ∧
      (op = .remS →
        ¬ (remainderAxis l r extent).Splits n (fun p => (x p).toInt) (y 0).toInt) := by
  by_cases h : CountsUp l r extent
  · have hn := hfits (h.extent_pos hl.run_pos)
    have hheads := h.heads_iff hn hl hx hy hrem hz
      (Word.gcd_pos (b := Word.gcd l.divisibility r.divisibility) (Axis.contiguity_pos hl.run_pos))
    rw [h.remainderAxis_eq, ← hheads]
    constructor
    · intro hholds
      refine ⟨hholds.heads, fun hop hsplits => ?_⟩
      obtain ⟨p, hp, hrun, hbad⟩ := hsplits
      have hcounts := hholds.steps (by decide : (1 : Int64) ≠ unknownStep) p hp hrun
      exact (h.step_iff hn hl hx hy hrem hz hp hrun).mp hcounts hop hbad
    · rintro ⟨hheads, hnone⟩
      refine ⟨hheads, fun _ p hp hrun => ?_⟩
      apply (h.step_iff hn hl hx hy hrem hz hp hrun).mpr
      intro hop hbad
      exact hnone hop ⟨p, hp, hrun, hbad⟩
  · rw [remainderAxis_of_not h]
    exact iff_of_true Axis.holds_top ⟨.inl (one_dvd _), fun _ => Axis.not_splits_top⟩

end Rule

/-! ### Remainders of tensors -/

section Tensors

variable {ctx : Context} {op : BinaryOp} {a b : Fact} {x y z : Tensor}

theorem Rule.remainder_answer_iff (h : ctx.Binary op a b) (hrem : op = .remS ∨ op = .remU)
    (hfits : ∀ n ∈ ctx.type.shape, n < UInt64.size) (hzero : 0 ∉ z.shape) (ha : a.Tracked)
    (hx : a.Holds x) (hy : b.Holds y) (hz : Tensor.Combines op x y z)
    (hshape : z.shape = ctx.type.shape) :
    ∃ f, remainder ctx [a, b] = .ok f ∧ f.rank = ctx.rank ∧
      (f.Holds z ↔ (f.constant = none → ∀ (d : Nat) (axis : Axis), f.axes[d]? = some axis →
        (axis.divisibility.toInt ∣ axis.run.toInt ∨ z.shape.getD d 1 ≤ axis.run.toInt) ∧
        (op = .remS → ∀ i, z.shape.Contains i → ¬ axis.Splits (z.shape.getD d 1)
          (fun p => (x.line d i p).toInt) (y.line d i 0).toInt))) := by
  have hrank : ctx.rank = max z.shape.length 1 := by rw [← h.left, hx.rank, hz.left]
  rcases remainder_cases h with ⟨hkeeps, hrule⟩ | ⟨_, axes, hrule, hlen, haxes⟩
  · have hlength : ctx.shape.length = ctx.rank := ctx.length_shape
    refine ⟨_, hrule, (Fact.rank_ofConstant 0 ctx.shape).trans hlength, iff_of_true ?_ ?_⟩
    · have hconstant := hz.remainder hrem hx.constant hy.constant hkeeps
      exact Fact.holds_ofConstant hconstant (hlength.trans hrank)
    · rintro ⟨⟩
  refine ⟨_, hrule, hlen, ?_⟩
  cases hfold : op.fold a.constant b.constant with
  | some q =>
    have hconstant := hz.fold hx.constant hy.constant hfold
    refine iff_of_true (Fact.holds_of_isConstant hconstant (hlen.trans hrank) ?_) (by rintro ⟨⟩)
    intro d axis haxis
    obtain ⟨l, r, extent, _, _, _, hok⟩ := haxes d axis haxis
    rw [hfold] at hok
    exact ⟨_, hok⟩
  | none =>
    have hline : ∀ (d : Nat) (axis : Axis), axes[d]? = some axis → ∀ i, z.shape.Contains i →
        (axis.Holds (z.shape.getD d 1) (z.line d i) ↔
          (axis.divisibility.toInt ∣ axis.run.toInt ∨ z.shape.getD d 1 ≤ axis.run.toInt) ∧
          (op = .remS → ¬ axis.Splits (z.shape.getD d 1) (fun p => (x.line d i p).toInt)
            (y.line d i 0).toInt)) := by
      intro d axis haxis i hi
      obtain ⟨l, r, extent, hl, hr, hextent, hok⟩ := haxes d axis haxis
      obtain ⟨hxl, hyr⟩ := hz.lanes_hold hx hy hl hr hi
      rw [hfold] at hok
      cases hok
      refine remainderAxis_holds_iff hrem (fun hpos => ?_) (ha.lane hl) hxl hyr
        fun p hp => hz.elements _ (hi.set hp)
      rw [hshape]
      exact ValueType.extent_of_pos hfits hextent hpos
    rw [Fact.holds_none_iff (hlen.trans hrank)]
    constructor
    · intro hholds _ d axis haxis
      have hall (i : Position) (hi : z.shape.Contains i) :=
        (hline d axis haxis i hi).mp (hholds d axis haxis i hi)
      obtain ⟨i, hi⟩ := Shape.exists_contains hzero
      exact ⟨(hall i hi).1, fun hop i hi => (hall i hi).2 hop⟩
    · intro hcond d axis haxis i hi
      obtain ⟨hheads, hnone⟩ := hcond rfl d axis haxis
      exact (hline d axis haxis i hi).mpr ⟨hheads, fun hop => hnone hop i hi⟩

end Tensors

/-! ### The standard rulebook -/

section Standard

variable {g : Graph} {v u w : ValueId} {ctx : Context} {a b : Fact} {x y z : Tensor}

/-- What is answered for a remainder holds of it exactly if, constants apart, the divisor of every
dimension divides the run or there is only one run, and no signed remainder starts again inside a
run of the answer: no element of the dividend before the last one of a run is a negative multiple of
the divisor. -/
theorem Rulebook.remainder_holds_iff (hg : g.WellTyped) (hctx : g.context v = .ok ctx)
    {op : BinaryOp} (hop : ctx.op = .binary op u w) (hrem : op = .remS ∨ op = .remU)
    (hfits : ∀ n ∈ ctx.type.shape, n < UInt64.size) (ha : a.Tracked) (hx : a.Holds x)
    (hy : b.Holds y) (hz : Tensor.Combines op x y z) (hshape : z.shape = ctx.type.shape) :
    ∃ f, Rule.remainder ctx [a, b] = .ok f ∧ standard.transfer ctx [a, b] = .ok f ∧
      (f.Holds z ↔ (f.constant = none → ∀ (d : Nat) (axis : Axis), f.axes[d]? = some axis →
        (axis.divisibility.toInt ∣ axis.run.toInt ∨ z.shape.getD d 1 ≤ axis.run.toInt) ∧
        (op = .remS → ∀ i, z.shape.Contains i → ¬ axis.Splits (z.shape.getD d 1)
          (fun p => (x.line d i p).toInt) (y.line d i 0).toInt))) := by
  have hbinaryOp : ctx.binaryOp = .ok op := by rw [Context.binaryOp, hop]
  have htyped := hg.typed_of_context hctx
  have hbinary := htyped.binary_of_holds hbinaryOp hz hshape hx hy
  have hrule : standard.rule ctx.kind = some Rule.remainder := by
    rw [Context.kind, hop]
    rcases hrem with rfl | rfl <;> rfl
  have hzero : 0 ∉ z.shape := hshape ▸ htyped.extents
  obtain ⟨f, hf, hrank, hiff⟩ :=
    Rule.remainder_answer_iff hbinary hrem hfits hzero ha hx hy hz hshape
  exact ⟨f, hf, transfer_eq_ok hrule hf hrank, hiff⟩

/-- Signed remainders by sixteen of minus eight to minus one: one run of eight, and no multiple. -/
theorem Rulebook.remainder_holds_iff_negative : (Graph.divided .remS 16).WellTyped ∧
    (Graph.divided .remS 16).context 2 = .ok (.divided .remS) ∧
    Fact.Tracked ⟨[⟨8, 8, 1⟩], none⟩ ∧
    Fact.Holds ⟨[⟨8, 8, 1⟩], none⟩ (.along 8 fun p => .ofNat p - 8) ∧
    Fact.Holds (.ofConstant 16 [8]) (.along 8 fun _ => 16) ∧
    Tensor.Combines .remS (.along 8 fun p => .ofNat p - 8) (.along 8 fun _ => 16)
      (.along 8 fun p => (.ofNat p - 8) % 16) ∧
    ∃ f, standard.transfer (.divided .remS) [⟨[⟨8, 8, 1⟩], none⟩, .ofConstant 16 [8]] = .ok f ∧
      f = ⟨[⟨8, 8, 1⟩], none⟩ ∧ f.Holds (.along 8 fun p => (.ofNat p - 8) % 16) := by
  have hg := (Graph.divided_built .remS 16).wellTyped
  have ha : Fact.Tracked ⟨[⟨8, 8, 1⟩], none⟩ := by decide +kernel
  have hx : Fact.Holds ⟨[⟨8, 8, 1⟩], none⟩ (.along 8 fun p => .ofNat p - 8) :=
    Fact.holds_along.mpr (by decide +kernel)
  have hz : Tensor.Combines .remS (.along 8 fun p => .ofNat p - 8) (.along 8 fun _ => 16)
      (.along 8 fun p => (.ofNat p - 8) % 16) :=
    ⟨rfl, rfl, Shape.forall_contains_singleton (by decide +kernel)⟩
  obtain ⟨f, _, htransfer, hiff⟩ := remainder_holds_iff hg (Graph.context_divided .remS 16) rfl
    (.inl rfl) (by decide) ha hx (Fact.holds_eight 16) hz rfl
  have heq : f = ⟨[⟨8, 8, 1⟩], none⟩ := Except.ok.inj (htransfer.symm.trans (by decide +kernel))
  subst heq
  refine ⟨hg, rfl, ha, hx, Fact.holds_eight 16, hz, _, htransfer, rfl, hiff.mpr ?_⟩
  intro _ d axis haxis
  cases d with
  | zero =>
    cases haxis
    refine ⟨.inl dvd_rfl, fun _ i hi => ?_⟩
    obtain ⟨q, j, rfl, _, _⟩ := Shape.contains_cons.mp hi
    have hwhole : ¬ Axis.Splits ⟨8, 8, 1⟩ 8 (fun p => (Int64.ofNat p - 8).toInt) 16 := by
      decide +kernel
    exact hwhole
  | succ d => cases haxis

/-- The numbers below six, and their unsigned remainders by four. -/
def Graph.sixRemainders : Graph :=
  ⟨[⟨.range 0 6, ⟨.i32, [6]⟩⟩, ⟨.const 4, ⟨.i32, [6]⟩⟩, ⟨.binary .remU 0 1, ⟨.i32, [6]⟩⟩]⟩

/-- The context of the remainders. -/
def Context.sixRemainders : Context :=
  ⟨2, .binary .remU 0 1, ⟨.i32, [6]⟩, [⟨.i32, [6]⟩, ⟨.i32, [6]⟩]⟩

/-- Both ways to go wrong. Signed remainders by four of minus four to three start with zero and go
on with minus three. Of the numbers below six, the unsigned remainders by four are said to start
with multiples of four in runs of two, and the second run starts with two. -/
theorem Rulebook.remainder_not_holds :
    ((Graph.divided .remS 4).WellTyped ∧
      (Graph.divided .remS 4).context 2 = .ok (.divided .remS) ∧
      Fact.Tracked ⟨[⟨4, 8, 1⟩], none⟩ ∧
      Fact.Holds ⟨[⟨4, 8, 1⟩], none⟩ (.along 8 fun p => .ofNat p - 4) ∧
      Fact.Holds (.ofConstant 4 [8]) (.along 8 fun _ => 4) ∧
      standard.transfer (.divided .remS) [⟨[⟨4, 8, 1⟩], none⟩, .ofConstant 4 [8]] =
        .ok ⟨[⟨4, 4, 1⟩], none⟩ ∧
      ¬ Fact.Holds ⟨[⟨4, 4, 1⟩], none⟩ (.along 8 fun p => (.ofNat p - 4) % 4)) ∧
    (Graph.sixRemainders.WellTyped ∧ Graph.sixRemainders.context 2 = .ok .sixRemainders ∧
      Fact.Tracked ⟨[⟨Word.maxPower, 6, 1⟩], none⟩ ∧
      Fact.Holds ⟨[⟨Word.maxPower, 6, 1⟩], none⟩ (.along 6 fun p => .ofNat p) ∧
      Fact.Holds (.ofConstant 4 [6]) (.along 6 fun _ => 4) ∧
      standard.transfer .sixRemainders [⟨[⟨Word.maxPower, 6, 1⟩], none⟩, .ofConstant 4 [6]] =
        .ok ⟨[⟨4, 2, 1⟩], none⟩ ∧
      ¬ Fact.Holds ⟨[⟨4, 2, 1⟩], none⟩
        (.along 6 fun p => ((Int64.ofNat p).toUInt64 % Int64.toUInt64 4).toInt64)) := by
  refine ⟨⟨(Graph.divided_built .remS 4).wellTyped, rfl, by decide +kernel,
    Fact.holds_along.mpr (by decide +kernel), Fact.holds_eight 4, by decide +kernel, ?_⟩, ?_⟩
  · intro h
    exact absurd (Fact.holds_along.mp h) (by decide +kernel)
  · have hbuilt : Graph.sixRemainders.Built :=
      .of_requests [.define (.range 0 6), .define (.const 4 ⟨.i32, [6]⟩),
        .define (.binary .remU 0 1)] .empty rfl
    refine ⟨hbuilt.wellTyped, rfl, by decide +kernel, Fact.holds_along.mpr (by decide +kernel),
      Fact.holds_ofConstant (fun _ _ => rfl) rfl, by decide +kernel, ?_⟩
    intro h
    exact absurd (Fact.holds_along.mp h) (by decide +kernel)

end Standard

end TileFacts

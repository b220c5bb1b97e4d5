import TileFacts.Proofs.Runs
import Mathlib.Tactic.Linarith

/-! Quotients, run by run.

Where a strided dividend meets a power of two, the quotient rule cuts runs to *buckets*: stretches
of the dividend that do not cross a multiple of what the divisors of both operands have in common,
and so of the divisor. A bucket has one rounded-down quotient. Unsigned division rounds down.
Signed division rounds towards zero, and a bucket that starts at a negative multiple of the divisor
has its exact quotient there and a quotient that is greater by one on the rest.

Main statements: what the rule answers for unsigned quotients holds of them, run by run; and what it
answers for signed ones does exactly if no run of the answer starts at a negative multiple of the
divisor. -/
namespace TileFacts

/-! ### Blocks of integers -/

section Block

variable {u s c block : Int}

theorem ediv_add_of_block (hblock : 0 < block) (hs : 0 ≤ s) (h : u % block + s < block) :
    (u + s) / block = u / block := by
  have hsplit : u + s = u % block + s + block * (u / block) := by
    have := Int.emod_add_mul_ediv u block
    omega
  have hlow := Int.emod_nonneg u hblock.ne'
  rw [hsplit, Int.add_mul_ediv_left _ _ hblock.ne', Int.ediv_eq_zero_of_lt (by omega) h, zero_add]

/-- Rounded down, quotients by a multiple of a block do not change inside the block. -/
theorem ediv_add_of_block_dvd (hblock : 0 < block) (hs : 0 ≤ s) (h : u % block + s < block)
    (hc : block ∣ c) : (u + s) / c = u / c := by
  obtain ⟨k, rfl⟩ := hc
  rw [← Int.ediv_ediv_of_nonneg hblock.le, ← Int.ediv_ediv_of_nonneg hblock.le,
    ediv_add_of_block hblock hs h]

theorem not_dvd_add_of_block (hblock : 0 < block) (hs : 0 < s) (h : u % block + s < block) :
    ¬ block ∣ u + s := by
  intro hdvd
  have hlow := Int.emod_nonneg u hblock.ne'
  have hrem : (u % block + s) % block = 0 := by
    rw [Int.emod_add_emod]
    exact Int.emod_eq_zero_of_dvd hdvd
  rw [Int.emod_eq_of_lt (by omega) h] at hrem
  omega

/-- A step that stays in its block passes no multiple of the length of blocks. -/
theorem add_lt_of_block (hblock : 0 < block) (h : u % block + s < block) {limit : Int}
    (hlimit : block ∣ limit) (hu : u < limit) : u + s < limit := by
  obtain ⟨k, rfl⟩ := hlimit
  have hsplit := Int.emod_add_mul_ediv u block
  have hlow := Int.emod_nonneg u hblock.ne'
  have hlt : u / block < k := Int.ediv_lt_of_lt_mul hblock (by rwa [mul_comm])
  have hle : block * (u / block + 1) ≤ block * k :=
    Int.mul_le_mul_of_nonneg_left (by omega) hblock.le
  rw [mul_add, mul_one] at hle
  omega

/-- Rounded towards zero, the quotient changes inside a block exactly after a negative multiple of
the divisor. -/
theorem tdiv_add_of_block (hblock : 0 < block) (hs : 0 < s) (h : u % block + s < block)
    (hc : block ∣ c) (hpos : 0 < c) : (u + s).tdiv c = u.tdiv c ↔ ¬ (u < 0 ∧ c ∣ u) := by
  have hfloor := ediv_add_of_block_dvd hblock hs.le h hc
  rcases lt_or_ge u 0 with hneg | hnonneg
  · have hneg' : u + s < 0 := add_lt_of_block hblock h (dvd_zero _) hneg
    have hlast : ¬ c ∣ u + s := fun hd => not_dvd_add_of_block hblock hs h (hc.trans hd)
    rw [Int.tdiv_eq_ediv, Int.tdiv_eq_ediv, hfloor, if_neg (by omega), Int.sign_eq_one_of_pos hpos]
    by_cases hd : c ∣ u
    · simp [hneg, hd]
    · simp [hneg.not_ge, hd]
  · rw [Int.tdiv_eq_ediv_of_nonneg (by omega), Int.tdiv_eq_ediv_of_nonneg hnonneg]
    simp [hfloor, hnonneg.not_gt]

/-- Counting by `s`, the position tells where in its block an element is. -/
theorem emod_add_lt {p run : Int} (hrun : 0 < run) (hs : 0 < s) (hu : u ≡ p * s [ZMOD run * s])
    (hp : ¬ run ∣ p + 1) : u % (run * s) + s < run * s := by
  have hrem : u % (run * s) = p % run * s := by
    rw [hu, mul_comm p, mul_comm run, Int.mul_emod_mul_of_pos _ _ hs, mul_comm]
  have hlt := Int.emod_lt_of_pos p hrun
  have hne : p % run + 1 ≠ run := by
    intro heq
    refine hp ⟨p / run + 1, ?_⟩
    have := Int.emod_add_mul_ediv p run
    rw [mul_add]
    omega
  have hinside : (p % run + 1) * s < run * s := Int.mul_lt_mul_of_pos_right (by omega) hs
  rw [hrem]
  rw [add_mul, one_mul] at hinside
  exact hinside

end Block

/-! ### Readings of words -/

namespace BinaryOp

variable {op : BinaryOp} {a b q : Int64}

/-- The integer that a word stands for in a quotient. -/
def reading (op : BinaryOp) (a : Int64) : Int := if op = .divU then a.toUInt64.toNat else a.toInt

theorem reading_modEq (op : BinaryOp) (a : Int64) : op.reading a ≡ a.toInt [ZMOD 2 ^ 64] := by
  unfold reading
  split
  · exact Word.toNat_modEq a
  · rfl

/-- The readings of all words are `2 ^ 64` neighbours. -/
theorem reading_bounds (op : BinaryOp) :
    ∃ limit : Int, 2 ^ 63 ∣ limit ∧ ∀ a, limit - 2 ^ 64 ≤ op.reading a ∧ op.reading a < limit := by
  unfold reading
  split
  · refine ⟨2 ^ 64, by decide, fun a => ?_⟩
    have := a.toUInt64.toNat_lt
    omega
  · refine ⟨2 ^ 63, dvd_rfl, fun a => ?_⟩
    have := a.le_toInt
    have := a.toInt_lt
    omega

theorem reading_inj (h : op.reading a = op.reading b) : a = b :=
  Word.eq_of_modEq ((reading_modEq op a).symm.trans (h ▸ reading_modEq op b))

theorem reading_of_nonneg (h : 0 ≤ b.toInt) : op.reading b = b.toInt := by
  unfold reading
  split
  · have hmod := Word.toNat_modEq b
    have := b.toUInt64.toNat_lt
    have := b.toInt_lt
    obtain ⟨k, hk⟩ := Int.modEq_iff_dvd.mp hmod
    omega
  · rfl

/-- Inside a block nothing wraps. -/
theorem reading_add {s : Int64} {block : Int} (hblock : 0 < block) (hsize : block ∣ 2 ^ 63)
    (hs : 0 ≤ s.toInt) (h : op.reading a % block + s.toInt < block) :
    op.reading (a + s) = op.reading a + s.toInt := by
  obtain ⟨limit, hlimit, hbounds⟩ := reading_bounds op
  have hlt := add_lt_of_block hblock h (hsize.trans hlimit) (hbounds a).2
  have hmod : op.reading (a + s) ≡ op.reading a + s.toInt [ZMOD 2 ^ 64] :=
    (reading_modEq op (a + s)).trans
      ((Word.toInt_add_modEq a s).trans ((reading_modEq op a).symm.add_right _))
  have ha := hbounds a
  have has := hbounds (a + s)
  obtain ⟨k, hk⟩ := Int.modEq_iff_dvd.mp hmod
  omega

/-- A quotient by a positive word is rounded towards zero, in the reading of its operator. -/
theorem reading_quotient (hdiv : op = .divS ∨ op = .divU) (hb : 0 < b.toInt)
    (h : op.evaluate a b = some q) : op.reading q = (op.reading a).tdiv b.toInt := by
  rcases hdiv with rfl | rfl
  · simp only [evaluate] at h
    split at h
    · cases h
    · have hne : b ≠ -1 := by
        rintro rfl
        exact absurd hb (by decide)
      cases h
      exact Int64.toInt_div_of_ne_right _ _ hne
  · simp only [evaluate] at h
    split at h
    · cases h
    · cases h
      show ((a.toUInt64 / b.toUInt64).toNat : Int) = _
      have hreading : divU.reading b = b.toInt := reading_of_nonneg hb.le
      rw [UInt64.toNat_div, ← hreading]
      rfl

end BinaryOp

/-! ### Buckets -/

/-- An element that is not the last one of its run is a negative multiple of `c`. Elements are read
as integers. -/
def Axis.Splits (a : Axis) (n : Nat) (x : Nat → Int) (c : Int) : Prop :=
  ∃ p, p + 1 < n ∧ ¬ a.run.toInt ∣ (p + 1 : Nat) ∧ x p < 0 ∧ c ∣ x p

instance (a : Axis) (n : Nat) (x : Nat → Int) (c : Int) : Decidable (a.Splits n x c) :=
  decidable_of_iff
    (∃ p < n, p + 1 < n ∧ ¬ a.run.toInt ∣ (p + 1 : Nat) ∧ x p < 0 ∧ c ∣ x p)
    ⟨fun h => h.imp fun _ hp => hp.2, fun h => h.imp fun _ hp => ⟨by omega, hp⟩⟩

theorem Axis.not_splits_top {n : Nat} {x : Nat → Int} {c : Int} : ¬ Axis.top.Splits n x c := by
  intro h
  obtain ⟨_, _, hrun, _⟩ := h
  exact hrun (one_dvd _)

namespace Rule

variable {l r : Lane} {extent divisor : Int64}

namespace Buckets

variable (h : Buckets l r extent divisor)
include h

theorem divisor_pos : 0 < divisor.toInt := Word.pos_of_isPowerOfTwo h.divisor

theorem step_pos : 0 < l.step.toInt := Word.pos_of_isPowerOfTwo h.step

theorem step_ne_unknown : l.step ≠ unknownStep := by
  intro hs
  have := h.step_pos
  rw [hs] at this
  exact absurd this (by decide)

theorem toInt_step_div : (l.step / divisor).toInt = l.step.toInt / divisor.toInt := by
  have hstep := Word.toInt_of_isPowerOfTwo h.step
  have hdivisor := Word.toInt_of_isPowerOfTwo h.divisor
  rw [hstep, hdivisor]
  exact Word.toInt_div_of_power hstep hdivisor

theorem step_div_ne_unknown : l.step / divisor ≠ unknownStep := by
  intro hs
  have hnonneg : 0 ≤ (l.step / divisor).toInt := by
    rw [h.toInt_step_div]
    exact Int.ediv_nonneg h.step_pos.le h.divisor_pos.le
  rw [hs] at hnonneg
  exact absurd hnonneg (by decide)

/-- A bucket that is longer than one covers, in steps, a part of what the divisors share. -/
theorem run_eq_one_or_dvd (hl : l.toAxis.Tracked) : bucketRun l r = 1 ∨
    (bucketRun l r).toInt * l.step.toInt ∣ (Word.gcd l.divisibility r.divisibility).toInt := by
  obtain ⟨m, _, hm⟩ := hl.power.gcd r.divisibility
  have hstep := Word.toInt_of_isPowerOfTwo h.step
  have hdvd : (bucketRun l r).toInt ∣ _ := Word.gcd_dvd_right hl.run_pos
  rcases Word.max_one_of_quotient (Word.toInt_div_of_power hm hstep) with hone | ⟨hle, hquot⟩
  · rw [hone] at hdvd
    exact .inl (Int64.toInt_inj.mp (Int.eq_one_of_dvd_one (Word.gcd_pos hl.run_pos).le hdvd))
  · rw [hquot] at hdvd
    have hsplit : (2 : Int) ^ m = 2 ^ (m - Word.log2 l.step) * 2 ^ Word.log2 l.step := by
      rw [← pow_add]
      congr 1
      omega
    rw [hm, hstep, hsplit]
    exact .inr (mul_dvd_mul_right hdvd _)

end Buckets

/-! ### Quotients along a line -/

variable {op : BinaryOp} {n : Nat} {x y z : Nat → Int64}

namespace Buckets

variable (h : Buckets l r extent divisor) (hl : l.toAxis.Tracked) (hx : l.Holds n x)
  (hy : r.Holds n y)
include h hl hx hy

/-- Inside a bucket, an element and the next are in one block, and the divisor is a multiple of
blocks. -/
theorem exists_block (op : BinaryOp) {p : Nat} (hp : p + 1 < n)
    (hrun : ¬ (bucketRun l r).toInt ∣ (p + 1 : Nat)) :
    ∃ block : Int, 0 < block ∧ block ∣ 2 ^ 63 ∧ block ∣ divisor.toInt ∧
      l.step.toInt < block ∧ op.reading (x p) % block + l.step.toInt < block := by
  have hpos : 0 < (bucketRun l r).toInt := Word.gcd_pos hl.run_pos
  have hs := h.step_pos
  have hone : (bucketRun l r).toInt ≠ 1 := by
    intro heq
    rw [heq] at hrun
    exact hrun (one_dvd _)
  have hcommon := (h.run_eq_one_or_dvd hl).resolve_left fun heq => hone (by rw [heq]; rfl)
  have hleft := hcommon.trans (Word.gcd_dvd_left hl.power.pos)
  have hright := hcommon.trans (Word.gcd_dvd_right hl.power.pos)
  have hsize : (bucketRun l r).toInt * l.step.toInt ∣ 2 ^ 62 := by
    obtain ⟨k, hk, hlk⟩ := hl.power
    exact hleft.trans (hlk ▸ pow_dvd_pow 2 hk)
  have hdivisor : r.divisibility.toInt ∣ divisor.toInt := by
    rw [← hy.constant divisor h.constant 0 (by omega)]
    exact hy.axis.heads 0 (by omega) (dvd_zero _)
  have hcount : (x p).toInt ≡ p * l.step.toInt [ZMOD (bucketRun l r).toInt * l.step.toInt] :=
    hx.axis.congruent h.step_ne_unknown hleft
      (mul_dvd_mul_right (Word.gcd_dvd_left hl.run_pos) _) (hsize.trans (by decide)) p (by omega)
  refine ⟨(bucketRun l r).toInt * l.step.toInt, mul_pos hpos hs, hsize.trans (by decide),
    hright.trans hdivisor, ?_, ?_⟩
  · have : 1 * l.step.toInt < (bucketRun l r).toInt * l.step.toInt :=
      Int.mul_lt_mul_of_pos_right (by omega) hs
    omega
  · refine emod_add_lt (p := p) hpos hs ?_ (by exact_mod_cast hrun)
    exact ((BinaryOp.reading_modEq op (x p)).of_dvd (hsize.trans (by decide))).trans hcount

/-- Inside a bucket the quotient stays, unless it starts at a negative multiple of the divisor. -/
theorem step_iff (hdiv : op = .divS ∨ op = .divU)
    (hz : ∀ p < n, op.evaluate (x p) (y p) = some (z p)) {p : Nat} (hp : p + 1 < n)
    (hrun : ¬ (bucketRun l r).toInt ∣ (p + 1 : Nat)) :
    z (p + 1) = z p + l.step / divisor ↔
      ¬ (op.reading (x p) < 0 ∧ divisor.toInt ∣ op.reading (x p)) := by
  obtain ⟨block, hblock, hsize, hdivisor, hshort, hin⟩ := h.exists_block hl hx hy op hp hrun
  have hs := h.step_pos
  have hpos := h.divisor_pos
  have hlt : l.step.toInt < divisor.toInt := hshort.trans_le (Int.le_of_dvd hpos hdivisor)
  have hstep : l.step / divisor = 0 := by
    apply Int64.toInt_inj.mp
    rw [h.toInt_step_div]
    exact Int.ediv_eq_zero_of_lt hs.le hlt
  have hread : ∀ q < n, op.reading (z q) = (op.reading (x q)).tdiv divisor.toInt := by
    intro q hq
    have heval := hz q hq
    rw [hy.constant divisor h.constant q hq] at heval
    exact BinaryOp.reading_quotient hdiv hpos heval
  have hnext : op.reading (x (p + 1)) = op.reading (x p) + l.step.toInt := by
    rw [hx.axis.steps h.step_ne_unknown p hp fun hd =>
      hrun ((Word.gcd_dvd_left hl.run_pos).trans hd)]
    exact BinaryOp.reading_add hblock hsize hs.le hin
  rw [← tdiv_add_of_block hblock hs hin hdivisor hpos, ← hnext, ← hread p (by omega),
    ← hread (p + 1) hp, hstep, Int64.add_zero]
  exact ⟨congrArg _, BinaryOp.reading_inj⟩

/-- Where runs are kept whole, so is what is left of the divisor of their first elements. -/
theorem heads (hdiv : op = .divS ∨ op = .divU)
    (hz : ∀ p < n, op.evaluate (x p) (y p) = some (z p)) {p : Nat} (hp : p < n)
    (hrun : (bucketRun l r).toInt ∣ p) :
    (if bucketRun l r == l.run then Word.scaleDown l.divisibility divisor else 1).toInt ∣
      (z p).toInt := by
  split
  · next hwhole =>
    have hhead := hx.axis.heads p hp (beq_iff_eq.mp hwhole ▸ hrun)
    have heval := hz p hp
    rw [hy.constant divisor h.constant p hp] at heval
    have hread := BinaryOp.reading_quotient hdiv h.divisor_pos heval
    have hscaled := hl.power.scaleDown divisor
    apply (hscaled.of_modEq (BinaryOp.reading_modEq op (z p))).dvd_iff.mp
    rw [hread]
    apply hl.power.scaleDown_dvd h.divisor
    exact (hl.power.of_modEq (BinaryOp.reading_modEq op (x p))).dvd_iff.mpr hhead
  · exact one_dvd _

end Buckets

theorem quotientAxis_holds_iff {axis : Axis} (haxis : quotientAxis l r extent = .ok axis)
    (hdiv : op = .divS ∨ op = .divU) (hl : l.toAxis.Tracked) (hx : l.Holds n x) (hy : r.Holds n y)
    (hz : ∀ p < n, op.evaluate (x p) (y p) = some (z p)) : axis.Holds n z ↔
      ∀ c, r.constant = some c → ¬ axis.Splits n (fun p => op.reading (x p)) c.toInt := by
  rcases eq_of_quotientAxis haxis with ⟨divisor, h, rfl⟩ | rfl
  · constructor
    · intro hholds c hc hsplits
      cases h.constant.symm.trans hc
      obtain ⟨p, hp, hrun, hneg, hdvd⟩ := hsplits
      have hstays := hholds.steps h.step_div_ne_unknown p hp hrun
      exact (h.step_iff hl hx hy hdiv hz hp hrun).mp hstays ⟨hneg, hdvd⟩
    · intro hnone
      refine ⟨fun p hp hrun => h.heads hl hx hy hdiv hz hp hrun, fun _ p hp hrun => ?_⟩
      apply (h.step_iff hl hx hy hdiv hz hp hrun).mpr
      intro hbad
      exact hnone divisor h.constant ⟨p, hp, hrun, hbad⟩
  · exact iff_of_true Axis.holds_top fun _ _ => Axis.not_splits_top

end Rule

/-! ### Quotients of tensors -/

section Tensors

variable {ctx : Context} {op : BinaryOp} {a b : Fact} {x y z : Tensor}

theorem Tensor.Combines.lanes_hold (h : Combines op x y z) (hx : a.Holds x) (hy : b.Holds y)
    {d : Nat} {l r : Lane} (hl : a.lane d = .ok l) (hr : b.lane d = .ok r) {i : Position}
    (hi : z.shape.Contains i) : l.Holds (z.shape.getD d 1) (x.line d i) ∧
      r.Holds (z.shape.getD d 1) (y.line d i) := by
  have hxl := hx.lane hl (h.left ▸ hi)
  have hyr := hy.lane hr (h.right ▸ hi)
  rw [h.left] at hxl
  rw [h.right] at hyr
  exact ⟨hxl, hyr⟩

/-- Facts that hold of the operands have the ranks that a binary rule asks for. -/
theorem Context.Typed.binary_of_holds {types : ValueId → Option ValueType} (h : ctx.Typed types)
    (hop : ctx.binaryOp = .ok op) (hz : Tensor.Combines op x y z)
    (hshape : z.shape = ctx.type.shape) (hx : a.Holds x) (hy : b.Holds y) : ctx.Binary op a b := by
  obtain ⟨s, t, htypes, hs, ht⟩ := h.binary hop
  have ha : a.rank = max ctx.type.shape.length 1 := by rw [hx.rank, hz.left, hshape]
  have hb : b.rank = max ctx.type.shape.length 1 := by rw [hy.rank, hz.right, hshape]
  refine ⟨twoOperands_eq_ok htypes ?_ ?_, hop, ha, hb⟩
  · rw [ha, ← hs]
    rfl
  · rw [hb, ← ht]
    rfl

/-- The answer of the quotient rule holds of the quotients exactly if none of its runs starts at a
negative multiple of the divisor. -/
theorem Rule.quotient_holds_iff (h : ctx.Binary op a b) (hdiv : op = .divS ∨ op = .divU)
    (ha : a.Tracked) (hx : a.Holds x) (hy : b.Holds y) (hz : Tensor.Combines op x y z) :
    ∃ f, quotient ctx [a, b] = .ok f ∧ f.rank = ctx.rank ∧
      (f.Holds z ↔ (a.constant = none → ∀ c, b.constant = some c → c ≠ 1 →
        ∀ (d : Nat) (axis : Axis), f.axes[d]? = some axis → ∀ i, z.shape.Contains i →
          ¬ axis.Splits (z.shape.getD d 1) (fun p => op.reading (x.line d i p)) c.toInt)) := by
  rcases quotient_cases h with ⟨hkeeps, hrule⟩ | ⟨hkeeps, axes, hrule, hlen, haxes⟩
  · refine ⟨a, hrule, h.left, iff_of_true ?_ ?_⟩
    · exact hx.congr hz.left fun i hi => hz.quotient hdiv hx.constant hy.constant hkeeps hi
    · intro hnone c hc hone
      simp only [keepsDividend, hnone, hc, Bool.or_eq_true, beq_iff_eq, Option.some.injEq] at hkeeps
      exact absurd (hkeeps.resolve_right (by rintro ⟨⟩)) hone
  refine ⟨_, hrule, hlen, ?_⟩
  have hrank : axes.length = max z.shape.length 1 := by
    rw [hlen, ← h.left, hx.rank, hz.left]
  cases hfold : op.fold a.constant b.constant with
  | some q =>
    have hconstant := hz.fold hx.constant hy.constant hfold
    refine iff_of_true ⟨hrank, fun d axis haxis i hi => ?_, hconstant.fixes rfl⟩ fun hnone => ?_
    · obtain ⟨l, r, extent, _, _, _, hok⟩ := haxes d axis haxis
      rw [hfold] at hok
      subst hok
      exact Axis.holds_uniform (Word.powerDivisor_dvd q) fun p hp => hconstant _ (hi.set hp)
    · rw [hnone] at hfold
      cases hfold
  | none =>
    have hline : ∀ (d : Nat) (axis : Axis), axes[d]? = some axis → ∀ i, z.shape.Contains i →
        (axis.Holds (z.shape.getD d 1) (z.line d i) ↔ ∀ c, b.constant = some c →
          ¬ axis.Splits (z.shape.getD d 1) (fun p => op.reading (x.line d i p)) c.toInt) := by
      intro d axis haxis i hi
      obtain ⟨l, r, extent, hl, hr, _, hok⟩ := haxes d axis haxis
      obtain ⟨hxl, hyr⟩ := hz.lanes_hold hx hy hl hr hi
      rw [hfold] at hok
      rw [← (Fact.lane_eq_ok.mp hr).2]
      exact quotientAxis_holds_iff hok hdiv (ha.lane hl) hxl hyr fun p hp =>
        hz.elements _ (hi.set hp)
    constructor
    · intro hholds _ c hc _ d axis haxis i hi
      exact (hline d axis haxis i hi).mp (hholds.axes d axis haxis i hi) c hc
    · intro hnone
      refine ⟨hrank, fun d axis haxis i hi => ?_, by rintro _ ⟨⟩⟩
      apply (hline d axis haxis i hi).mpr
      intro c hc hsplits
      cases hconstant : a.constant with
      | none =>
        refine hnone hconstant c hc ?_ d axis haxis i hi hsplits
        rintro rfl
        simp [keepsDividend, hc] at hkeeps
      | some value =>
        -- Two constants without a quotient are not divided anywhere.
        obtain ⟨p, hp, _⟩ := hsplits
        have hin := hi.set (d := d) (p := p) (by omega)
        have heval := hz.elements _ hin
        rw [hx.constant value hconstant _ (hz.left ▸ hin), hy.constant c hc _ (hz.right ▸ hin)]
          at heval
        rw [hconstant, hc] at hfold
        exact absurd (hfold.symm.trans heval) (by rintro ⟨⟩)

end Tensors

/-! ### The standard rulebook -/

section Standard

variable {g : Graph} {v u w : ValueId} {ctx : Context} {a b : Fact} {x y z : Tensor}

theorem Rulebook.quotient_holds_iff (hg : g.WellTyped) (hctx : g.context v = .ok ctx) {op : BinaryOp}
    (hop : ctx.op = .binary op u w) (hdiv : op = .divS ∨ op = .divU) (ha : a.Tracked)
    (hx : a.Holds x) (hy : b.Holds y) (hz : Tensor.Combines op x y z)
    (hshape : z.shape = ctx.type.shape) :
    ∃ f, Rule.quotient ctx [a, b] = .ok f ∧ standard.transfer ctx [a, b] = .ok f ∧
      (f.Holds z ↔ (a.constant = none → ∀ c, b.constant = some c → c ≠ 1 →
        ∀ (d : Nat) (axis : Axis), f.axes[d]? = some axis → ∀ i, z.shape.Contains i →
          ¬ axis.Splits (z.shape.getD d 1) (fun p => op.reading (x.line d i p)) c.toInt)) := by
  have hbinaryOp : ctx.binaryOp = .ok op := by rw [Context.binaryOp, hop]
  have hbinary := (hg.typed_of_context hctx).binary_of_holds hbinaryOp hz hshape hx hy
  have hrule : standard.rule ctx.kind = some Rule.quotient := by
    rw [Context.kind, hop]
    rcases hdiv with rfl | rfl <;> rfl
  obtain ⟨f, hf, hrank, hiff⟩ := Rule.quotient_holds_iff hbinary hdiv ha hx hy hz
  exact ⟨f, hf, transfer_eq_ok hrule hf hrank, hiff⟩

/-- What is answered for an unsigned quotient holds of it. Whatever facts hold of the operands, with
tracked powers of two for divisors and runs that have a length, and whatever the operands are, as
long as nothing is divided by zero: there is an answer, and it holds of the unsigned quotients. -/
theorem Rulebook.divU_holds (hg : g.WellTyped) (hctx : g.context v = .ok ctx)
    (hop : ctx.op = .binary .divU u w) (ha : a.Tracked) (hxs : x.shape = ctx.type.shape)
    (hys : y.shape = ctx.type.shape) (hx : a.Holds x) (hy : b.Holds y)
    (hzero : ∀ i, y.shape.Contains i → y i ≠ 0) :
    ∃ f, Rule.quotient ctx [a, b] = .ok f ∧ standard.transfer ctx [a, b] = .ok f ∧
      f.Holds ⟨ctx.type.shape, fun i => ((x i).toUInt64 / (y i).toUInt64).toInt64⟩ := by
  have hz : Tensor.Combines .divU x y
      ⟨ctx.type.shape, fun i => ((x i).toUInt64 / (y i).toUInt64).toInt64⟩ := by
    refine ⟨hxs, hys, fun i hi => ?_⟩
    simp only [BinaryOp.evaluate, beq_iff_eq, hzero i (hys ▸ hi), if_false]
  obtain ⟨f, hf, htransfer, hiff⟩ :=
    quotient_holds_iff hg hctx hop (.inr rfl) ha hx hy hz rfl
  refine ⟨f, hf, htransfer, hiff.mpr ?_⟩
  intro _ c _ _ d axis _ i _ hsplits
  obtain ⟨p, _, _, hneg, _⟩ := hsplits
  -- An unsigned reading is never negative.
  have hnonneg : (0 : Int) ≤ BinaryOp.divU.reading (x.line d i p) := Int.natCast_nonneg _
  exact absurd hneg hnonneg.not_gt

/-- A tensor of eight numbers, divided by a constant. -/
def Graph.divided (op : BinaryOp) (c : Int64) : Graph :=
  ⟨[⟨.arg 0, ⟨.i32, [8]⟩⟩, ⟨.const c, ⟨.i32, [8]⟩⟩, ⟨.binary op 0 1, ⟨.i32, [8]⟩⟩]⟩

theorem Graph.divided_built (op : BinaryOp) (c : Int64) : (Graph.divided op c).Built :=
  .of_requests [.define (.arg 0 ⟨.i32, [8]⟩), .define (.const c ⟨.i32, [8]⟩),
    .define (.binary op 0 1)] .empty rfl

/-- The context of the quotient. -/
def Context.divided (op : BinaryOp) : Context :=
  ⟨2, .binary op 0 1, ⟨.i32, [8]⟩, [⟨.i32, [8]⟩, ⟨.i32, [8]⟩]⟩

theorem Graph.context_divided (op : BinaryOp) (c : Int64) :
    (Graph.divided op c).context 2 = .ok (.divided op) := rfl

theorem Fact.holds_eight (c : Int64) : (ofConstant c [8]).Holds (.along 8 fun _ => c) :=
  holds_ofConstant (fun _ _ => rfl) rfl

/-- Runs of four steps of two start at zero and at minus sixteen, which is a large number if it has
no sign. -/
theorem Rulebook.divU_holds_large : (Graph.divided .divU 8).WellTyped ∧
    (Graph.divided .divU 8).context 2 = .ok (.divided .divU) ∧
    Fact.Tracked ⟨[⟨16, 4, 2⟩], none⟩ ∧
    Fact.Holds ⟨[⟨16, 4, 2⟩], none⟩ (.along 8 fun p => .ofNat (2 * p) - if p < 4 then 0 else 24) ∧
    Fact.Holds (.ofConstant 8 [8]) (.along 8 fun _ => 8) ∧
    ∃ f, standard.transfer (.divided .divU) [⟨[⟨16, 4, 2⟩], none⟩, .ofConstant 8 [8]] = .ok f ∧
      f = ⟨[⟨2, 4, 0⟩], none⟩ ∧ f.Holds ⟨[8], fun i =>
        ((Int64.ofNat (2 * i.headD 0) - if i.headD 0 < 4 then 0 else 24).toUInt64 /
          Int64.toUInt64 8).toInt64⟩ := by
  have hg := (Graph.divided_built .divU 8).wellTyped
  have ha : Fact.Tracked ⟨[⟨16, 4, 2⟩], none⟩ := by decide +kernel
  have hx : Fact.Holds ⟨[⟨16, 4, 2⟩], none⟩
      (.along 8 fun p => .ofNat (2 * p) - if p < 4 then 0 else 24) :=
    Fact.holds_along.mpr (by decide +kernel)
  obtain ⟨f, _, htransfer, hf⟩ := divU_holds hg (Graph.context_divided .divU 8) rfl ha rfl rfl hx
    (Fact.holds_eight 8) fun _ _ => (by decide : (8 : Int64) ≠ 0)
  have heq : f = ⟨[⟨2, 4, 0⟩], none⟩ := Except.ok.inj (htransfer.symm.trans (by decide +kernel))
  exact ⟨hg, rfl, ha, hx, Fact.holds_eight 8, f, htransfer, heq, hf⟩

/-- What is answered for a signed quotient holds of it exactly if no run of the answer that is
longer than one starts at a negative multiple of the divisor, constant dividends and a divisor of
one apart. -/
theorem Rulebook.divS_holds_iff (hg : g.WellTyped) (hctx : g.context v = .ok ctx)
    (hop : ctx.op = .binary .divS u w) (ha : a.Tracked) (hxs : x.shape = ctx.type.shape)
    (hys : y.shape = ctx.type.shape) (hx : a.Holds x) (hy : b.Holds y)
    (hdefined : ∀ i, ctx.type.shape.Contains i →
      (BinaryOp.divS.evaluate (x i) (y i)).isSome = true) :
    ∃ f, Rule.quotient ctx [a, b] = .ok f ∧ standard.transfer ctx [a, b] = .ok f ∧
      (f.Holds ⟨ctx.type.shape, fun i => x i / y i⟩ ↔
        (a.constant = none → ∀ c, b.constant = some c → c ≠ 1 →
          ∀ (d : Nat) (axis : Axis), f.axes[d]? = some axis → ∀ i, ctx.type.shape.Contains i →
            ¬ axis.Splits (ctx.type.shape.getD d 1) (fun p => (x.line d i p).toInt) c.toInt)) := by
  have hz : Tensor.Combines .divS x y ⟨ctx.type.shape, fun i => x i / y i⟩ := by
    refine ⟨hxs, hys, fun i hi => ?_⟩
    have hsome := hdefined i hi
    simp only [BinaryOp.evaluate] at hsome ⊢
    split at hsome
    · cases hsome
    · next hd => rw [if_neg hd]
  exact quotient_holds_iff hg hctx hop (.inl rfl) ha hx hy hz rfl

/-- Divided by sixteen, neither of two runs of four starts at a multiple. -/
theorem Rulebook.divS_holds_iff_short : (Graph.divided .divS 16).WellTyped ∧
    (Graph.divided .divS 16).context 2 = .ok (.divided .divS) ∧
    Fact.Tracked ⟨[⟨4, 4, 1⟩], none⟩ ∧
    Fact.Holds ⟨[⟨4, 4, 1⟩], none⟩ (.along 8 fun p => .ofNat p - 12) ∧
    Fact.Holds (.ofConstant 16 [8]) (.along 8 fun _ => 16) ∧
    ∃ f, standard.transfer (.divided .divS) [⟨[⟨4, 4, 1⟩], none⟩, .ofConstant 16 [8]] = .ok f ∧
      f = ⟨[⟨1, 4, 0⟩], none⟩ ∧
      f.Holds ⟨[8], fun i => (Int64.ofNat (i.headD 0) - 12) / 16⟩ := by
  have hg := (Graph.divided_built .divS 16).wellTyped
  have ha : Fact.Tracked ⟨[⟨4, 4, 1⟩], none⟩ := by decide +kernel
  have hx : Fact.Holds ⟨[⟨4, 4, 1⟩], none⟩ (.along 8 fun p => .ofNat p - 12) :=
    Fact.holds_along.mpr (by decide +kernel)
  have hdefined : ∀ i, Shape.Contains [8] i →
      (BinaryOp.divS.evaluate (.ofNat (i.headD 0) - 12) 16).isSome = true :=
    Shape.forall_contains_singleton (by decide +kernel)
  obtain ⟨f, _, htransfer, hf⟩ := divS_holds_iff hg (Graph.context_divided .divS 16) rfl ha rfl rfl
    hx (Fact.holds_eight 16) hdefined
  have heq : f = ⟨[⟨1, 4, 0⟩], none⟩ := Except.ok.inj (htransfer.symm.trans (by decide +kernel))
  subst heq
  refine ⟨hg, rfl, ha, hx, Fact.holds_eight 16, _, htransfer, rfl, hf.mpr ?_⟩
  intro _ c hc _ d axis haxis i hi
  cases hc
  cases d with
  | zero =>
    cases haxis
    obtain ⟨q, j, rfl, _, _⟩ := Shape.contains_cons.mp hi
    have hwhole : ¬ Axis.Splits ⟨1, 4, 0⟩ 8 (fun p => (Int64.ofNat p - 12).toInt) 16 := by
      decide +kernel
    exact hwhole
  | succ d => cases haxis

/-- Eight numbers that count up from minus eight are said to have one quotient by four in each run
of four. The quotients are minus two, minus one four times, and zero three times. -/
theorem Rulebook.divS_not_holds : (Graph.divided .divS 4).WellTyped ∧
    (Graph.divided .divS 4).context 2 = .ok (.divided .divS) ∧
    Fact.Tracked ⟨[⟨8, 8, 1⟩], none⟩ ∧
    Fact.Holds ⟨[⟨8, 8, 1⟩], none⟩ (.along 8 fun p => .ofNat p - 8) ∧
    Fact.Holds (.ofConstant 4 [8]) (.along 8 fun _ => 4) ∧
    standard.transfer (.divided .divS) [⟨[⟨8, 8, 1⟩], none⟩, .ofConstant 4 [8]] =
      .ok ⟨[⟨1, 4, 0⟩], none⟩ ∧
    ¬ Fact.Holds ⟨[⟨1, 4, 0⟩], none⟩ (.along 8 fun p => (.ofNat p - 8) / 4) := by
  refine ⟨(Graph.divided_built .divS 4).wellTyped, rfl, by decide +kernel,
    Fact.holds_along.mpr (by decide +kernel), Fact.holds_eight 4, by decide +kernel, ?_⟩
  intro h
  exact absurd (Fact.holds_along.mp h) (by decide +kernel)

end Standard

end TileFacts

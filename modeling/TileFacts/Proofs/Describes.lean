import TileFacts.Proofs.Constants
import TileFacts.Proofs.Rule.Remainder

/-! What facts say of tensors, and that the inference says nothing wrong.

A fact describes a tensor if each of its axes describes every line along that dimension, and if its
constant is every element (`Fact.Describes`). Rules answer quotients, signed remainders and strict
comparisons by other means than the rest; of every other operation the answer describes the result
whenever the facts of the operands describe the operands (`Answer.follows`). Main statement: on
every graph that can be built without those operations, facts describe every tensor that their
value can be. -/
namespace TileFacts

/-- Every axis describes the lines along its dimension. A scalar has one line, of one element. -/
def Tensor.Follows (x : Tensor) (axes : List Axis) : Prop :=
  ∀ (d : Nat) (a : Axis), axes[d]? = some a → ∀ i, x.shape.Contains i →
    a.Describes (x.shape.getD d 1) (x.line d i)

/-- A fact is true of a tensor: it has one axis per dimension, every axis is true of the lines along
its dimension, and the constant of every element. -/
structure Fact.Describes (f : Fact) (x : Tensor) : Prop where
  rank : f.rank = max x.shape.length 1
  axes : x.Follows f.axes
  constant : f.Fixes x

/-- A tensor of the shape of the result, with extents that fit a word. -/
structure Context.Sizes (ctx : Context) (z : Tensor) : Prop where
  shape : z.shape = ctx.type.shape
  fit : ∀ extent ∈ z.shape, extent < 2 ^ 63
  extents : 0 ∉ z.shape

/-- Extents in fact space are the lengths of lines as words. -/
theorem ValueType.getElem?_factShape {t : ValueType} {d : Nat} {extent : Int64}
    (h : t.factShape[d]? = some extent) : extent = Int64.ofNat (t.shape.getD d 1) ∧
      (t.shape.getD d 1 = 1 ∨ t.shape.getD d 1 ∈ t.shape) := by
  unfold factShape at h
  split at h
  · next hscalar =>
    have hnil : t.shape = [] := by simpa [isScalar] using hscalar
    cases d with
    | zero =>
      cases h
      simp [hnil]
    | succ d => simp at h
  · obtain ⟨e, he, rfl⟩ := Option.map_eq_some_iff.mp (List.getElem?_map .. ▸ h)
    rw [List.getD_eq_getElem?_getD, he]
    exact ⟨rfl, .inr (List.mem_of_getElem? he)⟩

/-- An extent in fact space is what a line is long. -/
theorem ValueType.extent_of_factShape {t : ValueType} (hfit : ∀ extent ∈ t.shape, extent < 2 ^ 63)
    (hzero : 0 ∉ t.shape) {d : Nat} {extent : Int64} (h : t.factShape[d]? = some extent) :
    extent.toInt = t.shape.getD d 1 ∧ 0 < extent.toInt := by
  obtain ⟨rfl, hone | hmem⟩ := getElem?_factShape h
  · rw [hone]
    decide
  · have hpos : t.shape.getD d 1 ≠ 0 := fun h0 => hzero (h0 ▸ hmem)
    rw [Word.toInt_ofNat_of_small (hfit _ hmem)]
    exact ⟨rfl, by omega⟩

/-- An extent of 64 bits that is positive as a word is what a line is long. -/
theorem ValueType.extent_of_pos {t : ValueType}
    (hfits : ∀ extent ∈ t.shape, extent < UInt64.size) {d : Nat} {extent : Int64}
    (h : t.factShape[d]? = some extent) (hpos : 0 < extent.toInt) :
    extent.toInt = t.shape.getD d 1 := by
  obtain ⟨rfl, hone | hmem⟩ := getElem?_factShape h
  · rw [hone]
    decide
  · have hsize : t.shape.getD d 1 < 2 ^ 64 := hfits _ hmem
    have := (Int64.ofNat (t.shape.getD d 1)).toInt_lt
    obtain ⟨k, hk⟩ := Int.modEq_iff_dvd.mp (Word.toInt_ofNat_modEq (t.shape.getD d 1))
    omega

/-- No extent that fits 64 bits is zero as a word. -/
theorem ValueType.ne_zero_of_mem_factShape {t : ValueType} (hzero : 0 ∉ t.shape)
    (hfits : ∀ extent ∈ t.shape, extent < UInt64.size) {extent : Int64}
    (hextent : extent ∈ t.factShape) : extent ≠ 0 := by
  unfold factShape at hextent
  split at hextent
  · rw [List.mem_singleton.mp hextent]
    decide
  · obtain ⟨n, hn, rfl⟩ := List.mem_map.mp hextent
    have hsize : n < 2 ^ 64 := hfits n hn
    intro hword
    have hmod : n % 2 ^ 64 = 0 := by
      simpa using congrArg (fun w : Int64 => w.toBitVec.toNat) hword
    rw [Nat.mod_eq_of_lt hsize] at hmod
    exact hzero (hmod ▸ hn)

theorem Context.Sizes.extent {ctx : Context} {z : Tensor} (hz : ctx.Sizes z) {d : Nat}
    {extent : Int64} (h : ctx.shape[d]? = some extent) :
    extent.toInt = z.shape.getD d 1 ∧ 0 < extent.toInt := by
  obtain ⟨hshape, hfit, hzero⟩ := hz
  rw [hshape] at hfit hzero ⊢
  exact ValueType.extent_of_factShape hfit hzero h

/-! ### Tensors that follow axes -/

namespace Tensor

variable {a b c : Fact} {x y z : Tensor} {ctx : Context} {axes : List Axis}

theorem Follows.congr (h : x.Follows axes) (hshape : x.shape = z.shape)
    (hz : ∀ i, z.shape.Contains i → z i = x i) : z.Follows axes := by
  intro d a ha i hi
  rw [← hshape] at hi ⊢
  refine (h d a ha i hi).congr fun p hp => ?_
  exact (hz _ (hshape ▸ hi.set hp)).symm

theorem follows_top (n : Nat) : x.Follows (Fact.top n).axes := by
  intro d a ha i _
  simp only [Fact.top, List.getElem?_replicate] at ha
  split at ha
  · cases ha
    exact Axis.describes_top
  · cases ha

theorem Follows.join_left (h : x.Follows a.axes) (hc : a.join b = .ok c) : x.Follows c.axes := by
  intro d ax hax i hi
  obtain ⟨l, r, hl, _, rfl⟩ := Fact.axis_of_join hc hax
  exact (h d l hl i hi).join_left r

theorem Follows.join_right (h : x.Follows b.axes) (hc : a.join b = .ok c) : x.Follows c.axes := by
  intro d ax hax i hi
  obtain ⟨l, r, _, hr, rfl⟩ := Fact.axis_of_join hc hax
  exact (h d r hr i hi).join_right l

/-- A tensor of one number, cut into runs that cover it. -/
theorem IsConstant.follows {value : Int64} (h : z.IsConstant value) (hsizes : ctx.Sizes z) :
    z.Follows (Fact.ofConstant value ctx.shape).axes := by
  intro d a ha i hi
  obtain ⟨extent, hextent, rfl⟩ := Option.map_eq_some_iff.mp (List.getElem?_map .. ▸ ha)
  exact Axis.describes_constant (hsizes.extent hextent).2 fun p hp => h _ (hi.set hp)

/-- A range counts up from its start. -/
theorem follows_range {start stop count : Int64} (hshape : z.shape = [count.toInt.toNat])
    (hcount : Word.checkedSub stop start = .ok count) (horder : start < stop)
    (hz : ∀ i, z.shape.Contains i → z i = start + Int64.ofNat (i.headD 0)) :
    z.Follows [⟨Word.powerDivisor start, count, 1⟩] := by
  intro d axis haxis i hi
  cases d with
  | succ d => simp at haxis
  | zero =>
    cases haxis
    have hpos : 0 < count.toInt := by
      have := Word.toInt_of_checkedSub hcount
      have := Int64.lt_iff_toInt_lt.mp horder
      omega
    have hline : ∀ p < z.shape.getD 0 1, z.line 0 i p = start + Int64.ofNat p := by
      intro p hp
      rw [Tensor.line, hz _ (hi.set hp)]
      rw [hshape] at hi
      obtain ⟨q, _, rfl, _, _⟩ := Shape.contains_cons.mp hi
      rfl
    have hpower := Word.isPower_powerDivisor start
    refine .of_congruent hpower hpos ?_ ?_
    · intro p hp _
      rw [hline p hp]
      have hsum := hpower.of_modEq (Word.toInt_add_modEq start (Int64.ofNat p))
      have hstart := Int.modEq_zero_iff_dvd.mpr (Word.powerDivisor_dvd start)
      have hp := hpower.of_modEq (Word.toInt_ofNat_modEq p)
      simpa using hsum.trans (hstart.add hp)
    · intro _ p hp _
      rw [hline p (by omega), hline (p + 1) hp, Int64.ofNat_add, ← Int64.add_assoc]
      rfl

end Tensor

/-! ### Answers -/

/-- The lane of a fact describes the lines of its dimension. -/
theorem Fact.Describes.lane {a : Fact} {x : Tensor} (h : a.Describes x) {d : Nat} {l : Lane}
    (hl : a.lane d = .ok l) {i : Position} (hi : x.shape.Contains i) :
    l.Describes (x.shape.getD d 1) (x.line d i) := by
  obtain ⟨haxis, hconstant⟩ := Fact.lane_eq_ok.mp hl
  refine ⟨h.axes d _ haxis i hi, fun c hc p hp => ?_⟩
  exact h.constant c (hconstant ▸ hc) _ (hi.set hp)

namespace Tensor.Combines

variable {op : BinaryOp} {a b : Fact} {x y z : Tensor} {ctx : Context} {axes : List Axis}

theorem lanes (h : Combines op x y z) (ha : a.Describes x) (hb : b.Describes y) {d : Nat}
    {l r : Lane} (hl : a.lane d = .ok l) (hr : b.lane d = .ok r) {i : Position}
    (hi : z.shape.Contains i) : l.Describes (z.shape.getD d 1) (x.line d i) ∧
      r.Describes (z.shape.getD d 1) (y.line d i) := by
  have hx := ha.lane hl (h.left ▸ hi)
  have hy := hb.lane hr (h.right ▸ hi)
  rw [h.left] at hx
  rw [h.right] at hy
  exact ⟨hx, hy⟩

theorem follows_policy (h : Combines op x y z) (ha : a.Describes x) (hb : b.Describes y)
    {policy : Policy} (hpolicy : policy.Serves op)
    (haxes : ∀ d axis, axes[d]? = some axis → ∃ l r, a.lane d = .ok l ∧ b.lane d = .ok r ∧
      policy.axis op l r (op.fold a.constant b.constant) = .ok axis) : z.Follows axes := by
  intro d axis haxis i hi
  obtain ⟨l, r, hl, hr, hlr⟩ := haxes d axis haxis
  obtain ⟨hx, hy⟩ := h.lanes ha hb hl hr hi
  refine hpolicy.sound hx hy (fun p hp => h.elements _ (hi.set hp)) ?_
  rw [hpolicy.constant, (Fact.lane_eq_ok.mp hl).2, (Fact.lane_eq_ok.mp hr).2]
  exact hlr

theorem follows_remainder (h : Combines .remU x y z) (hsizes : ctx.Sizes z) (ha : a.Describes x)
    (hb : b.Describes y)
    (haxes : Rule.FoldsTo ctx .remU a b (fun l r extent => .ok (Rule.remainderAxis l r extent))
      axes) : z.Follows axes := by
  intro d axis haxis i hi
  obtain ⟨l, r, extent, hl, hr, hextent, hok⟩ := haxes d axis haxis
  obtain ⟨hx, hy⟩ := h.lanes ha hb hl hr hi
  cases hfold : BinaryOp.remU.fold a.constant b.constant with
  | some q =>
    rw [hfold] at hok
    subst hok
    exact Axis.describes_constant hx.axis.constancy_pos fun p hp =>
      h.fold ha.constant hb.constant hfold _ (hi.set hp)
  | none =>
    rw [hfold] at hok
    cases hok
    exact Rule.remainderAxis_describes hx hy (hsizes.extent hextent).1 fun p hp =>
      h.elements _ (hi.set hp)

end Tensor.Combines

/-- A choice keeps what both branches have in common, inside runs of the condition. -/
theorem Tensor.Chooses.follows {a b c joined : Fact} {x y z cond : Tensor} {axes : List Axis}
    (h : Tensor.Chooses cond x y z) (hc : c.Describes cond) (ha : a.Describes x)
    (hb : b.Describes y) (hjoin : a.join b = .ok joined)
    (haxes : ∀ (d : Nat) (axis : Axis), axes[d]? = some axis → ∃ (both : Axis) (run : Int64),
      joined.axes[d]? = some both ∧ axis = { both with run := Word.gcd both.run run } ∧
        (cond.shape = [] ∨ cond.shape = z.shape ∧
          ∃ ca : Axis, c.axes[d]? = some ca ∧ run = ca.constancy)) : z.Follows axes := by
  intro d axis haxis i hi
  obtain ⟨both, run, hboth, rfl, hcond⟩ := haxes d axis haxis
  have hbx := ha.axes.join_left hjoin d both hboth i (h.left ▸ hi)
  have hby := hb.axes.join_right hjoin d both hboth i (h.right ▸ hi)
  rw [h.left] at hbx
  rw [h.right] at hby
  refine (hbx.choice hby ?_).congr fun p hp => (h.elements _ (hi.set hp)).symm
  intro p hp hrun
  rcases hcond with hnil | ⟨hshape, ca, hca, rfl⟩
  · simp [hnil]
  · by_cases hnil : cond.shape = []
    · simp [hnil]
    · have hline := hc.axes d ca hca i (hshape ▸ hi)
      rw [hshape] at hline
      have hsame : cond (i.set d (p + 1)) = cond (i.set d p) := hline.constancy_steps hp hrun
      simp only [hnil, if_false, hsame]

namespace Fact.Describes

variable {a : Fact} {x z : Tensor} {ctx : Context} {axes : List Axis}

/-- A scalar spread over a shape. -/
theorem spread (ha : a.Describes x) (hsizes : ctx.Sizes z) (hx : x.shape = [])
    (hz : ∀ i, z.shape.Contains i → z i = x [])
    (haxes : ∀ (d : Nat) (axis : Axis), axes[d]? = some axis → ∃ (extent : Int64) (source : Axis),
      ctx.shape[d]? = some extent ∧ a.axes[0]? = some source ∧
        axis = ⟨source.divisibility, extent, 0⟩) : z.Follows axes := by
  intro d axis haxis i hi
  obtain ⟨extent, source, hextent, hsource, rfl⟩ := haxes d axis haxis
  have hscalar := ha.axes 0 source hsource [] (by simp [hx])
  exact Axis.describes_uniform hscalar.power (hsizes.extent hextent).2
    (hscalar.head (by simp [hx])) fun p hp => hz _ (hi.set hp)

theorem broadcast (ha : a.Describes x) (hsizes : ctx.Sizes z)
    (hlen : x.shape.length = z.shape.length)
    (hstretch : ∀ d, x.shape.getD d 1 = z.shape.getD d 1 ∨ x.shape.getD d 1 = 1)
    (hz : ∀ i, z.shape.Contains i → z i = x (x.shape.stretched i))
    (haxes : ∀ (d : Nat) (axis : Axis), axes[d]? = some axis →
      ∃ (extent : Int64) (e : Nat) (source : Axis), ctx.shape[d]? = some extent ∧
        x.shape[d]? = some e ∧ a.axes[d]? = some source ∧
        axis = if Int64.ofNat e = 1 then ⟨source.divisibility, extent, 0⟩ else source) :
    z.Follows axes := by
  intro d axis haxis i hi
  obtain ⟨extent, e, source, hextent, he, hsource, rfl⟩ := haxes d axis haxis
  have hin := Shape.contains_stretched hi hlen hstretch
  have hgetD : x.shape.getD d 1 = e := by rw [List.getD_eq_getElem?_getD, he]; rfl
  have hline := ha.axes d source hsource _ hin
  have hfit : e < 2 ^ 63 := by
    rcases hgetD ▸ hstretch d with h | h
    · have := (hsizes.extent hextent).1
      have := extent.toInt_lt
      omega
    · omega
  have hword : (Int64.ofNat e).toInt = e := Word.toInt_ofNat_of_small hfit
  split
  · next h1 =>
    -- The line stands at the one element that the source has along this dimension.
    have he1 : e = 1 := by
      rw [h1] at hword
      have : (1 : Int) = e := hword
      omega
    refine Axis.describes_uniform hline.power (hsizes.extent hextent).2
      (hline.head (by omega)) fun p hp => ?_
    rw [Tensor.line, hz _ (hi.set hp), Shape.stretched_set_of_eq (hgetD.trans he1)]
    rfl
  · next h1 =>
    have hne : x.shape.getD d 1 ≠ 1 := by
      rw [hgetD]
      rintro rfl
      exact h1 rfl
    rw [(hstretch d).resolve_right hne] at hline
    refine hline.congr fun p hp => ?_
    rw [Tensor.line, Tensor.line, hz _ (hi.set hp), Shape.stretched_set_of_ne hne]

/-- A scalar seen as a tensor of one element. -/
theorem expandScalar (ha : a.Describes x) (hx : x.shape = []) {n : Nat} (hn : n ≤ x.shape.length)
    (hshape : z.shape = x.shape.insertIdx n 1)
    (hz : ∀ i, z.shape.Contains i → x.shape.Contains (i.eraseIdx n) ∧ z i = x (i.eraseIdx n)) :
    z.Follows a.axes := by
  intro d axis haxis i hi
  have hd : d = 0 := by
    have hlt : d < a.rank := (List.getElem?_eq_some_iff.mp haxis).1
    rw [ha.rank, hx] at hlt
    simpa using hlt
  subst hd
  have hn0 : n = 0 := by simpa [hx] using hn
  have hextent : z.shape.getD 0 1 = x.shape.getD 0 1 := by simp [hshape, hx, hn0]
  rw [hextent]
  refine (ha.axes 0 axis haxis [] (by simp [hx])).congr fun p hp => ?_
  obtain ⟨hin, hzx⟩ := hz _ (hi.set (hextent ▸ hp))
  rw [Tensor.line, Tensor.line, hzx]
  rw [hx, Shape.contains_nil] at hin
  rw [hin]
  rfl

/-- A new dimension of extent one. -/
theorem expandDims (ha : a.Describes x) (hx : x.shape ≠ []) {n : Nat} (hn : n ≤ x.shape.length)
    (hshape : z.shape = x.shape.insertIdx n 1)
    (hz : ∀ i, z.shape.Contains i → x.shape.Contains (i.eraseIdx n) ∧ z i = x (i.eraseIdx n)) :
    z.Follows (a.axes.insertIdx n ⟨1, 1, 0⟩) := by
  have harank : a.axes.length = x.shape.length := by
    have : a.axes.length = max x.shape.length 1 := ha.rank
    have := List.length_pos_iff.mpr hx
    omega
  intro d axis haxis i hi
  have hin := (hz i hi).1
  have hgetD (k : Nat) (hk : z.shape[d]? = x.shape[k]?) : z.shape.getD d 1 = x.shape.getD k 1 := by
    rw [List.getD_eq_getElem?_getD, List.getD_eq_getElem?_getD, hk]
  -- Dimensions before the new one keep their number, those after it move up by one.
  rcases Nat.lt_trichotomy d n with hd | rfl | hd
  · rw [List.getElem?_insertIdx_of_lt hd] at haxis
    have hextent := hgetD d (by rw [hshape, List.getElem?_insertIdx_of_lt hd])
    rw [hextent]
    refine (ha.axes d axis haxis _ hin).congr fun p hp => ?_
    rw [Tensor.line, Tensor.line, (hz _ (hi.set (hextent ▸ hp))).2, List.eraseIdx_set_gt hd]
  · rw [List.getElem?_insertIdx_self, if_pos (harank ▸ hn)] at haxis
    cases haxis
    exact Axis.describes_of_unit 0
  · rw [List.getElem?_insertIdx_of_gt hd] at haxis
    have hextent := hgetD (d - 1) (by rw [hshape, List.getElem?_insertIdx_of_gt hd])
    rw [hextent]
    refine (ha.axes (d - 1) axis haxis _ hin).congr fun p hp => ?_
    rw [Tensor.line, Tensor.line, (hz _ (hi.set (hextent ▸ hp))).2, List.eraseIdx_set_lt hd]

end Fact.Describes

/-- Operators of which a rule records no more than holds. -/
def BinaryOp.isRegular : BinaryOp → Bool
  | .divS | .divU | .remS => false
  | _ => true

/-- Of operators and comparisons only these occur. -/
def Op.Within (ops : BinaryOp → Prop) (predicates : Comparison → Prop) : Op → Prop
  | .binary op _ _ => ops op
  | .cmp predicate _ _ => predicates predicate
  | _ => True

instance {ops : BinaryOp → Prop} {predicates : Comparison → Prop} [DecidablePred ops]
    [DecidablePred predicates] : DecidablePred (Op.Within ops predicates)
  | .binary op _ _ => inferInstanceAs (Decidable (ops op))
  | .cmp predicate _ _ => inferInstanceAs (Decidable (predicates predicate))
  | .const _ | .constFloat _ | .arg _ | .cast .. | .addPtr .. | .select .. | .range .. | .splat _
  | .broadcast _ | .expandDims .. | .reshape _ | .merge _ | .atomicRmw .. | .gatherAtomicRmw .. =>
    .isTrue trivial

theorem Op.Within.mono {ops ops' : BinaryOp → Prop} {predicates predicates' : Comparison → Prop}
    {op : Op} (h : op.Within ops predicates) (hops : ∀ o, ops o → ops' o)
    (hpredicates : ∀ p, predicates p → predicates' p) : op.Within ops' predicates' := by
  cases op with
  | binary => exact hops _ h
  | cmp => exact hpredicates _ h
  | _ => trivial

/-- No quotient, no signed remainder and no strict comparison. -/
abbrev Op.Regular : Op → Prop := Op.Within (·.isRegular = true) (·.isStrict = false)

theorem Context.isRegular_of_binaryOp {ctx : Context} (h : ctx.op.Regular) {op : BinaryOp}
    (hop : ctx.binaryOp = .ok op) : op.isRegular = true := by
  unfold Context.binaryOp at hop
  split at hop
  · next heq =>
    cases hop
    rw [heq] at h
    exact h
  · cases hop
    rfl
  · cases hop

/-- Answers to regular operations are true along every dimension. -/
theorem Answer.follows {ctx : Context} {types : ValueId → Option ValueType} {facts : List Fact}
    {f : Fact} {xs : List Tensor} {z : Tensor} (h : Answer ctx facts f) (hregular : ctx.op.Regular)
    (hsizes : ctx.Sizes z) (hfacts : List.Forall₂ Fact.Describes facts xs)
    (hz : ctx.Computes types xs z) : z.Follows f.axes := by
  cases h with
  | unknown => exact Tensor.follows_top _
  | constant hop => exact (hz.constant hop).follows hsizes
  | range hop hcount =>
    obtain ⟨horder, hshape, helements⟩ := hz.range hop hcount
    exact Tensor.follows_range hshape hcount horder helements
  | identity hop =>
    rcases hfacts with _ | ⟨ha, _ | _⟩
    obtain ⟨hx, helements⟩ := hz.cast hop
    exact ha.axes.congr hx helements
  | policy hop hpolicy haxes =>
    rcases hfacts with _ | ⟨ha, _ | ⟨hb, _ | _⟩⟩
    exact (hz.combines hop).follows_policy ha hb hpolicy haxes
  | dividend hop hdiv _ | quotient hop hdiv _ =>
    have := Context.isRegular_of_binaryOp hregular hop
    rcases hdiv with rfl | rfl <;> cases this
  | noRemainder hop hrem hkeeps =>
    rcases hfacts with _ | ⟨ha, _ | ⟨hb, _ | _⟩⟩
    exact ((hz.combines hop).remainder hrem ha.constant hb.constant hkeeps).follows hsizes
  | remainder hop hrem haxes =>
    rcases hfacts with _ | ⟨ha, _ | ⟨hb, _ | _⟩⟩
    have := Context.isRegular_of_binaryOp hregular hop
    rcases hrem with rfl | rfl
    · cases this
    · exact (hz.combines hop).follows_remainder hsizes ha hb haxes
  | folded hop hfold => exact Tensor.follows_top _
  | extremumLeft hop hfold hvalue =>
    rcases hfacts with _ | ⟨ha, _ | ⟨hb, _ | _⟩⟩
    have hcombines := hz.combines hop
    refine ha.axes.congr hcombines.left fun i hi => ?_
    rw [hcombines.fold ha.constant hb.constant hfold i hi,
      ha.constant _ hvalue i (hcombines.left ▸ hi)]
  | extremumRight hop hfold hvalue =>
    rcases hfacts with _ | ⟨ha, _ | ⟨hb, _ | _⟩⟩
    have hcombines := hz.combines hop
    refine hb.axes.congr hcombines.right fun i hi => ?_
    rw [hcombines.fold ha.constant hb.constant hfold i hi,
      hb.constant _ hvalue i (hcombines.right ▸ hi)]
  | compared hop hl hr =>
    rcases hfacts with _ | ⟨ha, _ | ⟨hb, _ | _⟩⟩
    obtain ⟨hx, hy, helements⟩ := hz.comparison hop
    refine Tensor.IsConstant.follows (fun i hi => ?_) hsizes
    rw [helements i hi, ha.constant _ hl i (hx ▸ hi), hb.constant _ hr i (hy ▸ hi)]
  | comparison hop haxes =>
    rw [hop] at hregular
    have hopen : _ = false := hregular
    intro d axis haxis i _
    obtain ⟨l, r, extent, _, _, _, rfl⟩ := haxes d axis haxis
    rw [hopen]
    exact Axis.describes_of_unit 0
  | @decided _ _ _ c a b value hop hvalue =>
    rcases hfacts with _ | ⟨hc, _ | ⟨ha, _ | ⟨hb, _ | _⟩⟩⟩
    have hchooses := hz.chooses hop
    split
    · next h0 =>
      refine ha.axes.congr hchooses.left fun i hi => ?_
      rw [hchooses.decided hc.constant hvalue hi, if_pos h0]
    · next h0 =>
      refine hb.axes.congr hchooses.right fun i hi => ?_
      rw [hchooses.decided hc.constant hvalue hi, if_neg h0]
  | choice hop hjoin hcond haxes =>
    rcases hfacts with _ | ⟨hc, _ | ⟨ha, _ | ⟨hb, _ | _⟩⟩⟩
    rw [← hz.shape_head hcond, ← hz.shape] at haxes
    exact (hz.chooses hop).follows hc ha hb hjoin haxes
  | splat hop haxes =>
    rcases hfacts with _ | ⟨ha, _ | _⟩
    obtain ⟨hx, helements⟩ := hz.splat hop
    exact ha.spread hsizes hx helements haxes
  | broadcastScalar hop hs hscalar haxes =>
    rcases hfacts with _ | ⟨ha, _ | _⟩
    obtain ⟨_, helements⟩ := hz.broadcast hop
    have hx := (hz.shape_head hs).trans hscalar
    refine ha.spread hsizes hx (fun i hi => ?_) haxes
    rw [helements i hi, hx]
    rfl
  | broadcast hop hs htensor haxes =>
    rcases hfacts with _ | ⟨ha, _ | _⟩
    obtain ⟨hx, helements⟩ := hz.broadcast hop
    rw [← hz.shape_head hs] at htensor haxes
    obtain ⟨hlen, hstretch⟩ := hx.resolve_left htensor
    exact ha.broadcast hsizes hlen hstretch helements haxes
  | expandScalar hop hs hscalar =>
    rcases hfacts with _ | ⟨ha, _ | _⟩
    obtain ⟨hn, hshape, helements⟩ := hz.expandDims hop
    exact ha.expandScalar ((hz.shape_head hs).trans hscalar) hn hshape helements
  | expandDims hop hs htensor =>
    rcases hfacts with _ | ⟨ha, _ | _⟩
    obtain ⟨hn, hshape, helements⟩ := hz.expandDims hop
    exact ha.expandDims (hz.shape_head hs ▸ htensor) hn hshape helements

/-! ### Graphs -/

namespace Graph

/-- Every extent fits a word. -/
def ExtentsFit (g : Graph) : Prop := ∀ node ∈ g.nodes, ∀ extent ∈ node.type.shape, extent < 2 ^ 63

instance (g : Graph) : Decidable g.ExtentsFit :=
  inferInstanceAs (Decidable (∀ node ∈ g.nodes, ∀ extent ∈ node.type.shape, extent < 2 ^ 63))

/-- Every operation of the graph is regular. -/
def Regular (g : Graph) : Prop := ∀ node ∈ g.nodes, node.op.Regular

instance (g : Graph) : Decidable g.Regular :=
  inferInstanceAs (Decidable (∀ node ∈ g.nodes, node.op.Regular))

end Graph

theorem Fact.describes_meaning {g : Graph} (hfit : g.ExtentsFit) (hregular : g.Regular) :
    Meaning g Fact.Describes where
  top hx := ⟨by rw [Fact.rank_top, hx]; rfl, Tensor.follows_top _, (Fact.fixes_meaning g).top hx⟩
  join_left h hc :=
    ⟨(Fact.rank_of_join hc).1.symm.trans h.rank, h.axes.join_left hc, h.constant.join_left hc⟩
  join_right h hc :=
    ⟨(Fact.rank_of_join hc).2.symm.trans h.rank, h.axes.join_right hc, h.constant.join_right hc⟩
  answer := by
    intro v node ctx facts f xs x hv hop htype hanswer hrank hfacts hx
    have hmem := List.mem_of_getElem? hv
    have hsizes : ctx.Sizes x := by
      refine ⟨hx.shape, ?_, hx.shape ▸ hx.typed.extents⟩
      rw [hx.shape, htype]
      exact hfit node hmem
    refine ⟨?_, hanswer.follows (hop ▸ hregular node hmem) hsizes hfacts hx,
      hanswer.fixes (hfacts.imp fun _ _ h => h.constant) hx⟩
    rw [hrank, hx.shape]
    rfl

/-- Whatever regular graph is built, as long as its extents fit words, and however often a value may
be looked at: every value that can be some tensor has a fact, and its fact describes every tensor
that it can be. -/
theorem Inference.facts_describe {g : Graph} (hg : g.Built) (hfit : g.ExtentsFit)
    (hregular : g.Regular) (settings : Settings) :
    ∃ inference, (Inference.run g .standard settings).2 = .ok inference ∧
      ∀ v x, g.Possible g.Grounded v x → ∃ f, inference.lookup v = some f ∧ f.Describes x := by
  obtain ⟨inference, hrun, hsolution⟩ := Inference.run_solution hg.wellTyped settings
  refine ⟨inference, hrun, fun v x hx => ?_⟩
  exact (Fact.describes_meaning hfit hregular).sound hg.wellTyped hsolution hx

/-- Eight indices that a loop moves up by four, over and over. -/
def Graph.advancing : Graph :=
  ⟨[⟨.range 0 8, ⟨.i32, [8]⟩⟩, ⟨.merge [0, 3], ⟨.i32, [8]⟩⟩, ⟨.const 4, ⟨.i32, [8]⟩⟩,
    ⟨.binary .add 1 2, ⟨.i32, [8]⟩⟩]⟩

theorem Graph.advancing_built : Graph.advancing.Built :=
  .of_requests [.define (.range 0 8), .define (.merge 0), .define (.const 4 ⟨.i32, [8]⟩),
    .define (.binary .add 1 2), .addMergeInput 1 3] .empty (by decide)

/-- The indices before the loop has moved them. -/
theorem Graph.advancing_possible : Graph.advancing.Possible Graph.advancing.Grounded 1
    ⟨[8], fun i => Int64.ofNat (i.headD 0)⟩ := by
  refine .merge (u := 0) rfl rfl (by simp [Op.operands]) (.of_operands rfl .nil (.range ?_) rfl)
  intro i _
  exact (Int64.zero_add _).symm

theorem Inference.facts_describe_advancing : Graph.advancing.Built ∧ Graph.advancing.ExtentsFit ∧
    Graph.advancing.Regular ∧
    Graph.advancing.Possible Graph.advancing.Grounded 1 ⟨[8], fun i => Int64.ofNat (i.headD 0)⟩ ∧
    ∃ inference, (Inference.run .advancing .standard .standard).2 = .ok inference ∧
      inference.lookup 1 = some ⟨[⟨4, 8, 1⟩], none⟩ ∧
      ∀ x, Graph.advancing.Possible Graph.advancing.Grounded 1 x →
        Fact.Describes ⟨[⟨4, 8, 1⟩], none⟩ x := by
  have hfit : Graph.advancing.ExtentsFit := by decide
  have hregular : Graph.advancing.Regular := by decide
  obtain ⟨inference, hrun, hall⟩ :=
    Inference.facts_describe Graph.advancing_built hfit hregular .standard
  have hlookup : inference.lookup 1 = some ⟨[⟨4, 8, 1⟩], none⟩ :=
    Inference.lookup_of_run hrun (by decide +kernel)
  refine ⟨Graph.advancing_built, hfit, hregular, Graph.advancing_possible, inference, hrun, hlookup,
    ?_⟩
  intro x hx
  obtain ⟨f, hf, hdescribes⟩ := hall 1 x hx
  rw [hlookup] at hf
  cases hf
  exact hdescribes

/-- An update by a sum that is defined by itself, as one of two inputs. -/
def Graph.unreached : Graph :=
  ⟨[⟨.const 1, .scalar .i32⟩, ⟨.binary .add 2 2, .scalar .i32⟩, ⟨.binary .add 1 1, .scalar .i32⟩,
    ⟨.arg 0, .scalar (.pointer .i32 .global)⟩, ⟨.atomicRmw .add 3 1 none, .scalar .i32⟩,
    ⟨.const 8, .scalar .i32⟩, ⟨.merge [5, 4], .scalar .i32⟩]⟩

/-- An update that is never reached has no fact and could not be taken to be any tensor: the merge
that has it as an input keeps the divisor of its other input. -/
theorem Inference.divisor_of_unreached : Graph.unreached.Built ∧ Graph.unreached.ExtentsFit ∧
    Graph.unreached.Regular ∧
    ∃ inference f x, (Inference.run .unreached .standard .standard).2 = .ok inference ∧
      inference.lookup 4 = none ∧ inference.lookup 6 = some f ∧ f.divisibilities = [8] ∧
      Graph.unreached.Possible (fun _ => True) 6 x ∧ ¬ (8 : Int) ∣ (x []).toInt := by
  have hbuilt : Graph.unreached.Built :=
    .of_requests [.define (.const 1 (.scalar .i32)), .define (.binary .add 0 0),
      .define (.binary .add 1 1), .replaceAllUses 0 2,
      .define (.arg 0 (.scalar (.pointer .i32 .global))), .define (.atomicRmw .add 3 1 none),
      .define (.const 8 (.scalar .i32)), .define (.merge 5), .addMergeInput 6 4] .empty (by decide)
  obtain ⟨inference, hrun, _⟩ := Inference.run_solution hbuilt.wellTyped .standard
  have hnone : inference.lookup 4 = none := Inference.lookup_of_run hrun (by decide +kernel)
  have hlookup : inference.lookup 6 = some (.ofConstant 8 [1]) :=
    Inference.lookup_of_run hrun (by decide +kernel)
  refine ⟨hbuilt, by decide, by decide, inference, _, ⟨[], fun _ => 1⟩, hrun, hnone, hlookup,
    by decide, ?_, by decide⟩
  exact .merge (u := 4) rfl rfl (by simp [Op.operands]) (.free rfl rfl trivial rfl)

end TileFacts

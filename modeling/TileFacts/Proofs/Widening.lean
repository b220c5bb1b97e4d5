import TileFacts.Proofs.Progress
import Mathlib.Data.Int.ModEq

/-! Sums of offsets of different sizes.

A pointer that is moved by two numbers of different sizes is split into its base and one offset: the
smaller number is extended by its top bit and added to the larger. Every value has a word
(`Graph.Obeys`), and the number it stands for is read off the word at the scalar of the value, in
two's complement or as an unsigned number (`Scalar.read`). Extending by the top bit keeps signed
numbers. An unsigned number of the upper half is taken for a negative one, and no larger size makes
up for that (`Scalar.value_signExtend_add_iff`). Main statement: an offset that can be the sum of
the two numbers is the sum if and only if the smaller number is signed or in the lower half
(`Address.track_reads_sum_iff`). -/
namespace TileFacts

/-! ### Numbers -/

namespace Scalar

/-- Machine integers: no truth values, no floats and no indices. -/
def isNumber (s : Scalar) : Bool := s.isSigned || s.isUnsigned

/-- The bits of a word that a scalar has. -/
def low (s : Scalar) (w : BitVec 64) : BitVec s.bits := w.setWidth s.bits

/-- The number that bits stand for: in two's complement, unless the scalar is unsigned. -/
def value (s : Scalar) (b : BitVec s.bits) : Int := if s.isUnsigned then b.toNat else b.toInt

/-- The number that a word stands for. -/
def read (s : Scalar) (w : BitVec 64) : Int := s.value (s.low w)

/-- The numbers of a scalar. -/
def Represents (s : Scalar) (n : Int) : Prop :=
  if s.isUnsigned then 0 ≤ n ∧ n < 2 ^ s.bits else -2 ^ (s.bits - 1) ≤ n ∧ n < 2 ^ (s.bits - 1)

instance (s : Scalar) (n : Int) : Decidable (s.Represents n) :=
  inferInstanceAs (Decidable (if s.isUnsigned then 0 ≤ n ∧ n < 2 ^ s.bits
    else -2 ^ (s.bits - 1) ≤ n ∧ n < 2 ^ (s.bits - 1)))

/-- The numbers whose top bit is no part of the magnitude: all, unless the scalar is unsigned. -/
def LowerHalf (s : Scalar) (n : Int) : Prop := s.isUnsigned = true → n < 2 ^ (s.bits - 1)

/-- The scalar with more bytes. -/
def wider (l r : Scalar) : Scalar := if l.bytes < r.bytes then r else l

variable {s l r : Scalar}

theorem bits_bounds (s : Scalar) : 0 < s.bits ∧ s.bits ≤ 64 := by
  have hall : ∀ s ∈ all, 0 < s.bits ∧ s.bits ≤ 64 := by decide
  exact hall s (mem_all s)

theorem bits_of_isNumber (h : s.isNumber = true) : s.bits = s.bytes * 8 := by
  cases s <;> first | rfl | cases h

theorem isInt_of_isNumber (h : s.isNumber = true) : s.isInt = true := by
  cases s <;> first | rfl | cases h

/-- Half of the bit patterns have the top bit. -/
theorem two_pow_bits (s : Scalar) : (2 : Int) ^ s.bits = 2 * 2 ^ (s.bits - 1) := by
  rw [← pow_succ', Nat.sub_add_cancel s.bits_bounds.1]

theorem value_modEq (s : Scalar) (b : BitVec s.bits) : s.value b ≡ b.toInt [ZMOD 2 ^ s.bits] := by
  unfold value
  split
  · rw [BitVec.toInt_eq_toNat_bmod]
    exact_mod_cast (Int.bmod_emod (x := b.toNat) (m := 2 ^ s.bits)).symm
  · rfl

theorem represents_value (s : Scalar) (b : BitVec s.bits) : s.Represents (s.value b) := by
  unfold Represents value
  split
  · exact ⟨Int.natCast_nonneg _, by exact_mod_cast b.isLt⟩
  · exact ⟨b.le_toInt, b.toInt_lt⟩

/-- Numbers of one scalar with one residue are one number. -/
theorem Represents.eq_of_modEq {m n : Int} (hm : s.Represents m) (hn : s.Represents n)
    (h : m ≡ n [ZMOD 2 ^ s.bits]) : m = n := by
  have hpow := s.two_pow_bits
  have hnear : |n - m| < 2 ^ s.bits := by
    rw [abs_lt]
    unfold Represents at hm hn
    split at hm
    · rw [if_pos ‹_›] at hn
      constructor <;> omega
    · rw [if_neg ‹_›] at hn
      constructor <;> omega
  have := Int.eq_zero_of_abs_lt_dvd (Int.modEq_iff_dvd.mp h) hnear
  omega

theorem toInt_of_lowerHalf {b : BitVec s.bits} (h : s.LowerHalf (s.value b)) :
    b.toInt = s.value b := by
  by_cases hunsigned : s.isUnsigned = true
  · have hhalf := h hunsigned
    rw [value, if_pos hunsigned] at hhalf ⊢
    have hlt : 2 * (b.toNat : Int) < 2 ^ s.bits := by
      rw [s.two_pow_bits]
      omega
    rw [BitVec.toInt_eq_toNat_cond, if_pos (by exact_mod_cast hlt)]
  · rw [value, if_neg hunsigned]

theorem toInt_of_not_lowerHalf {b : BitVec s.bits} (h : ¬ s.LowerHalf (s.value b)) :
    b.toInt = s.value b - 2 ^ s.bits := by
  rw [LowerHalf, Classical.not_imp] at h
  obtain ⟨hunsigned, hhalf⟩ := h
  rw [value, if_pos hunsigned] at hhalf ⊢
  have hge : ¬ 2 * (b.toNat : Int) < 2 ^ s.bits := by
    rw [s.two_pow_bits]
    omega
  rw [BitVec.toInt_eq_toNat_cond, if_neg (by exact_mod_cast hge)]
  push_cast
  rfl

/-- A narrow number that is extended by its top bit and added to a wide one: the sum is right if and
only if the top bit is no part of the magnitude. -/
theorem value_signExtend_add_iff (hlt : l.bits < r.bits) (x : BitVec l.bits) (y : BitVec r.bits)
    (hsum : r.Represents (l.value x + r.value y)) :
    r.value (x.signExtend r.bits + y) = l.value x + r.value y ↔ l.LowerHalf (l.value x) := by
  have hmod : r.value (x.signExtend r.bits + y) ≡ x.toInt + r.value y [ZMOD 2 ^ r.bits] := by
    calc r.value (x.signExtend r.bits + y)
        ≡ (x.signExtend r.bits + y).toInt [ZMOD 2 ^ r.bits] := value_modEq r _
      _ ≡ (x.signExtend r.bits).toInt + y.toInt [ZMOD 2 ^ r.bits] := by
          rw [BitVec.toInt_add]
          exact_mod_cast Int.bmod_emod
      _ ≡ x.toInt + r.value y [ZMOD 2 ^ r.bits] := by
          rw [BitVec.toInt_signExtend_of_le hlt.le]
          exact (value_modEq r y).symm.add_left _
  constructor
  · intro heq
    by_contra hupper
    rw [heq, toInt_of_not_lowerHalf hupper] at hmod
    have hdvd : (2 : Int) ^ r.bits ∣ 2 ^ l.bits := by
      have hdifference := Int.modEq_iff_dvd.mp hmod.symm
      have hbits : l.value x + r.value y - (l.value x - 2 ^ l.bits + r.value y) = 2 ^ l.bits := by
        ring
      rwa [hbits] at hdifference
    have hle := Int.le_of_dvd (by positivity) hdvd
    exact absurd hle (not_le.mpr (pow_lt_pow_right₀ one_lt_two hlt))
  · intro hlower
    rw [toInt_of_lowerHalf hlower] at hmod
    exact (represents_value r _).eq_of_modEq hsum hmod

theorem read_eq_add_iff (hl : l.isNumber = true) (hr : r.isNumber = true)
    (hlt : l.bytes < r.bytes) {x y z : BitVec 64}
    (hz : r.low z = (l.low x).signExtend r.bits + r.low y)
    (hsum : r.Represents (l.read x + r.read y)) :
    r.read z = l.read x + r.read y ↔ l.LowerHalf (l.read x) := by
  have hbits : l.bits < r.bits := by
    rw [bits_of_isNumber hl, bits_of_isNumber hr]
    omega
  rw [read, hz]
  exact value_signExtend_add_iff hbits (l.low x) (r.low y) hsum

/-- Every bit pattern is the low part of a word. -/
theorem low_setWidth (b : BitVec s.bits) : s.low (b.setWidth 64) = b := by
  rw [low, BitVec.setWidth_setWidth_of_le b s.bits_bounds.2, BitVec.setWidth_eq]

theorem exists_low (scalar : Option Scalar) (bits : (s : Scalar) → Option (BitVec s.bits)) :
    ∃ w : BitVec 64, ∀ s ∈ scalar, ∀ b ∈ bits s, s.low w = b := by
  cases scalar with
  | none => exact ⟨0, by rintro _ ⟨⟩⟩
  | some s =>
    cases hb : bits s with
    | none =>
      refine ⟨0, ?_⟩
      rintro _ ⟨⟩ b hb'
      rw [hb] at hb'
      cases hb'
    | some b =>
      refine ⟨b.setWidth 64, ?_⟩
      rintro _ ⟨⟩ b' hb'
      rw [hb] at hb'
      cases hb'
      exact low_setWidth b

end Scalar

/-! ### Words -/

/-- The scalar that a value is one of, if it is no tensor and no pointer. -/
def Graph.scalarOf? (g : Graph) (v : ValueId) : Option Scalar :=
  (g.typeOf? v).bind fun t => if t.isScalar then t.element.scalar? else none

/-- The bits that an operation of offsets makes of words: signs are extended, casts between scalars
of one size keep the bits, and sums wrap. -/
def Op.bits (scalars : ValueId → Option Scalar) (X : ValueId → BitVec 64) (s : Scalar) :
    Op → Option (BitVec s.bits)
  | .cast .extS u => (scalars u).map fun l => (l.low (X u)).signExtend s.bits
  | .cast .indexCast u => (scalars u).map fun l => (l.low (X u)).setWidth s.bits
  | .binary .add u v => some (s.low (X u) + s.low (X v))
  | _ => none

/-- Words for all values, which are what operations of offsets make of them. -/
def Graph.Obeys (g : Graph) (X : ValueId → BitVec 64) : Prop :=
  ∀ v < g.size, ∀ node ∈ g.nodes[v]?, ∀ s ∈ g.scalarOf? v,
    ∀ b ∈ node.op.bits g.scalarOf? X s, s.low (X v) = b

instance (g : Graph) (X : ValueId → BitVec 64) : Decidable (g.Obeys X) :=
  -- Bit patterns could be tried one by one, which is not meant here.
  letI (v : ValueId) (node : Node) (s : Scalar) :
      Decidable (∀ b ∈ node.op.bits g.scalarOf? X s, s.low (X v) = b) := Option.decidableForallMem _
  inferInstanceAs (Decidable (∀ v < g.size, ∀ node ∈ g.nodes[v]?, ∀ s ∈ g.scalarOf? v,
    ∀ b ∈ node.op.bits g.scalarOf? X s, s.low (X v) = b))

theorem Op.bits_congr {op : Op} {scalars scalars' : ValueId → Option Scalar}
    {X Y : ValueId → BitVec 64} (hscalars : ∀ u ∈ op.operands, scalars' u = scalars u)
    (hX : ∀ u ∈ op.operands, Y u = X u) (s : Scalar) :
    op.bits scalars' Y s = op.bits scalars X s := by
  cases op with
  | cast c u =>
    have hu := List.mem_singleton_self u
    cases c <;> simp only [bits, hscalars u hu, hX u hu]
  | binary c u v =>
    have hu : u ∈ [u, v] := by simp
    have hv : v ∈ [u, v] := by simp
    cases c <;> simp only [bits, hX u hu, hX v hv]
  | _ => rfl

namespace Graph

variable {g h : Graph} {X : ValueId → BitVec 64} {u v : ValueId} {s : Scalar}

theorem scalarOf?_of_typeOf? (hv : g.typeOf? v = some (.scalar (.scalar s))) :
    g.scalarOf? v = some s := by
  rw [scalarOf?, hv]
  rfl

theorem scalarOf?_push {new : Node} (hv : v < g.size) :
    (g.push new).scalarOf? v = g.scalarOf? v := by
  rw [scalarOf?, scalarOf?, typeOf?, typeOf?, push, List.getElem?_append_left hv]

theorem Obeys.low_eq {op : Op} {b : BitVec s.bits} (hX : g.Obeys X)
    (hv : g.nodes[v]? = some ⟨op, .scalar (.scalar s)⟩) (hb : op.bits g.scalarOf? X s = some b) :
    s.low (X v) = b :=
  hX v (List.getElem?_eq_some_iff.mp hv).1 _ hv s (scalarOf?_of_typeOf? (typeOf?_of_node hv)) b hb

/-- A word is found for a new value, and all others stay. -/
theorem Obeys.push {new : Node} (hX : g.Obeys X) (hg : g.WellTyped)
    (hnew : NodeTyped g.typeOf? new) : ∃ Y, (g.push new).Obeys Y ∧ ∀ v < g.size, Y v = X v := by
  obtain ⟨w, hw⟩ := Scalar.exists_low ((g.push new).scalarOf? g.size) fun s =>
    new.op.bits g.scalarOf? X s
  have hold : ∀ v < g.size, Function.update X g.size w v = X v := fun v hv =>
    Function.update_of_ne (Nat.ne_of_lt hv) w X
  refine ⟨Function.update X g.size w, fun v hv node hnode s hs b hb => ?_, hold⟩
  have hread : ∀ u ∈ node.op.operands, u < g.size := by
    intro u hu
    rcases node_push hnode with hnode | ⟨_, rfl⟩
    · exact hg.lt_size_of_uses ⟨node, hnode, hu⟩
    · obtain ⟨t, ht⟩ := hnew.op.operand hu
      exact lt_size_of_typeOf? ht
  rw [Op.bits_congr (fun u hu => scalarOf?_push (hread u hu)) fun u hu => hold u (hread u hu)] at hb
  rcases node_push hnode with hnode | ⟨rfl, rfl⟩
  · have hlt := (List.getElem?_eq_some_iff.mp hnode).1
    rw [hold v hlt]
    rw [scalarOf?_push hlt] at hs
    exact hX v hlt node hnode s hs b hb
  · rw [Function.update_self]
    exact hw s hs b hb

/-- Values that are added restrict no words. -/
theorem Adds.exists_obeys {P : Node → Prop} (hadds : g.Adds P h) (hg : g.WellTyped)
    (hX : g.Obeys X) : ∃ Y, h.Obeys Y ∧ ∀ v < g.size, Y v = X v :=
  hadds.exists_extension hg (fun _ _ _ hk hnew _ hX => hX.push hk hnew) hX

/-! ### Sums of offsets -/

/-- `v` adds the values `a` and `b`, and the one with fewer bytes is extended by its top bit. -/
inductive AddsExtended (g : Graph) (a b : ValueId) (l r : Scalar) (v : ValueId) : Prop
  | left {w : ValueId} (hlt : l.bytes < r.bytes)
    (hcast : g.nodes[w]? = some ⟨.cast .extS a, .scalar (.scalar r)⟩)
    (hsum : g.nodes[v]? = some ⟨.binary .add w b, .scalar (.scalar r)⟩)
  | right {w : ValueId} (hlt : r.bytes < l.bytes)
    (hcast : g.nodes[w]? = some ⟨.cast .extS b, .scalar (.scalar l)⟩)
    (hsum : g.nodes[v]? = some ⟨.binary .add a w, .scalar (.scalar l)⟩)

section AddsExtended

variable {a b : ValueId} {l r : Scalar}

theorem AddsExtended.typeOf? (h : g.AddsExtended a b l r v) :
    g.typeOf? v = some (.scalar (.scalar (l.wider r))) := by
  cases h with
  | left hlt _ hsum =>
    rw [Scalar.wider, if_pos hlt]
    exact typeOf?_of_node hsum
  | right hlt _ hsum =>
    rw [Scalar.wider, if_neg (Nat.lt_asymm hlt)]
    exact typeOf?_of_node hsum

theorem AddsExtended.read_eq_iff (h : g.AddsExtended a b l r v)
    (ha : g.typeOf? a = some (.scalar (.scalar l))) (hb : g.typeOf? b = some (.scalar (.scalar r)))
    (hl : l.isNumber = true) (hr : r.isNumber = true) (hX : g.Obeys X)
    (hsum : (l.wider r).Represents (l.read (X a) + r.read (X b))) :
    (l.wider r).read (X v) = l.read (X a) + r.read (X b) ↔
      (l.bytes < r.bytes → l.LowerHalf (l.read (X a))) ∧
      (r.bytes < l.bytes → r.LowerHalf (r.read (X b))) := by
  cases h with
  | @left w hlt hcast hadd =>
    rw [Scalar.wider, if_pos hlt] at hsum ⊢
    have hwide : r.low (X w) = (l.low (X a)).signExtend r.bits :=
      hX.low_eq hcast (by rw [Op.bits, scalarOf?_of_typeOf? ha]; rfl)
    have hlow : r.low (X v) = (l.low (X a)).signExtend r.bits + r.low (X b) := by
      rw [← hwide]
      exact hX.low_eq hadd rfl
    rw [Scalar.read_eq_add_iff hl hr hlt hlow hsum]
    simp [hlt, Nat.lt_asymm hlt]
  | @right w hlt hcast hadd =>
    rw [Scalar.wider, if_neg (Nat.lt_asymm hlt), add_comm] at hsum ⊢
    have hwide : l.low (X w) = (r.low (X b)).signExtend l.bits :=
      hX.low_eq hcast (by rw [Op.bits, scalarOf?_of_typeOf? hb]; rfl)
    have hlow : l.low (X v) = (r.low (X b)).signExtend l.bits + l.low (X a) := by
      rw [← hwide, BitVec.add_comm]
      exact hX.low_eq hadd rfl
    rw [Scalar.read_eq_add_iff hr hl hlt hlow hsum]
    simp [hlt, Nat.lt_asymm hlt]

end AddsExtended

/-! ### Chains of two moves -/

theorem pointerPathWithin_of_origin?_none {node : Node} (hv : g.nodes[v]? = some node)
    (hstart : node.op.origin? = none) (hscalar : node.type.shape = []) (fuel : Nat) :
    g.pointerPathWithin (fuel + 1) v = .ok ⟨v, []⟩ := by
  obtain ⟨op, type⟩ := node
  have hread : (checked (g.node v) : Attempt LoweringRefusal Node) = .ok ⟨op, type⟩ :=
    checked_eq_ok.mpr (element_eq_ok.mpr hv)
  have hisScalar : type.isScalar = true := List.isEmpty_iff.mpr hscalar
  rw [pointerPathWithin, hread, ok_bind]
  cases op with
  | addPtr | splat | broadcast => cases hstart
  | _ => exact if_pos hisScalar

theorem pointerPathWithin_addPtr {ptr offset : ValueId} {t : ValueType} {path : PointerPath}
    {fuel : Nat} (hv : g.nodes[v]? = some ⟨.addPtr ptr offset, t⟩)
    (h : g.pointerPathWithin fuel ptr = .ok path) :
    g.pointerPathWithin (fuel + 1) v = .ok (path.extend (.move offset)) := by
  have hread : (checked (g.node v) : Attempt LoweringRefusal Node) = .ok ⟨.addPtr ptr offset, t⟩ :=
    checked_eq_ok.mpr (element_eq_ok.mpr hv)
  rw [pointerPathWithin, hread, ok_bind]
  dsimp only
  rw [h]
  rfl

/-- A pointer that is `base` moved by `a` and then by `b`, where `base` is not moved itself. -/
structure MovedTwice (g : Graph) (base a b ptr : ValueId) : Prop where
  start : ∃ node, g.nodes[base]? = some node ∧ node.op.origin? = none
  moves : ∃ mid t u, g.nodes[mid]? = some ⟨.addPtr base a, t⟩ ∧
    g.nodes[ptr]? = some ⟨.addPtr mid b, u⟩

theorem MovedTwice.pointerPath_eq {base a b ptr : ValueId} (h : g.MovedTwice base a b ptr)
    (hg : g.WellTyped) (ha : g.typeOf? a = some (.scalar (.scalar s))) :
    g.pointerPath ptr = .ok ⟨base, [.move a, .move b]⟩ := by
  obtain ⟨node, hbase, hstart⟩ := h.start
  obtain ⟨mid, t, u, hmid, hptr⟩ := h.moves
  have hscalar : node.type.shape = [] := by
    cases (hg mid _ hmid).op with
    | addPtr hpointer hoffset _ _ hshape =>
      cases hoffset.symm.trans ha
      cases hpointer.symm.trans (typeOf?_of_node hbase)
      exact hshape
  -- The walk takes three steps, and the graph has two values at least.
  have hne : base ≠ mid := by
    rintro rfl
    cases hbase.symm.trans hmid
    cases hstart
  have hbaselt : base < g.size := (List.getElem?_eq_some_iff.mp hbase).1
  have hmidlt : mid < g.size := (List.getElem?_eq_some_iff.mp hmid).1
  have hsize : 2 ≤ g.size := by
    rcases Nat.lt_or_gt_of_ne hne with hlt | hlt
    · exact Nat.lt_of_le_of_lt (Nat.succ_le_of_lt (Nat.zero_lt_of_lt hlt)) hmidlt
    · exact Nat.lt_of_le_of_lt (Nat.succ_le_of_lt (Nat.zero_lt_of_lt hlt)) hbaselt
  obtain ⟨n, hn⟩ : ∃ n, g.size + 1 = n + 1 + 1 + 1 := ⟨g.size - 2, by omega⟩
  rw [pointerPath, hn]
  exact pointerPathWithin_addPtr hptr (pointerPathWithin_addPtr hmid
    (pointerPathWithin_of_origin?_none hbase hstart hscalar n))

end Graph

namespace Address

open Build Lowering

variable {s : Session} {base a b v ptr : ValueId} {l r : Scalar}

/-- Between numbers of different sizes the sign is extended. -/
theorem widen_yields_extS (hv : s.graph.typeOf? v = some (.scalar (.scalar l)))
    (hl : l.isNumber = true) (hr : r.isNumber = true) (hbytes : l.bytes ≠ r.bytes) :
    (widen v (.scalar r)).Yields s fun w k =>
      k.nodes[w]? = some ⟨.cast .extS v, .scalar (.scalar r)⟩ := by
  refine yields_of_read (typeOf_of_typeOf? hv) ?_
  have hcast : ((ValueType.scalar (.scalar l)).element.bytes == (Element.scalar r).bytes) = false :=
    beq_eq_false_iff_ne.mpr hbytes
  rw [hcast]
  have haccepts : CastOp.extS.accepts (.scalar l) (.scalar r) = true := by
    simp [CastOp.accepts, Element.isInt, Element.scalar?, Scalar.isInt_of_isNumber hl,
      Scalar.isInt_of_isNumber hr]
  exact define_yields_node ⟨.cast .extS v, .scalar (.scalar r)⟩
    ⟨.cast hv haccepts, List.not_mem_nil⟩ (by rintro ⟨⟩)

theorem addOffsets_yields_extended (ha : s.graph.typeOf? a = some (.scalar (.scalar l)))
    (hb : s.graph.typeOf? b = some (.scalar (.scalar r))) (hl : l.isNumber = true)
    (hr : r.isNumber = true) (hbytes : l.bytes ≠ r.bytes) :
    (addOffsets a b).Yields s fun v k => k.AddsExtended a b l r v := by
  have hsum {s : Session} {x y : ValueId} {t : Scalar} (ht : t.isNumber = true)
      (hx : s.graph.typeOf? x = some (.scalar (.scalar t)))
      (hy : s.graph.typeOf? y = some (.scalar (.scalar t))) :
      (Lowering.define (.binary .add x y)).Yields s fun v k =>
        k.nodes[v]? = some ⟨.binary .add x y, .scalar (.scalar t)⟩ :=
    define_yields_node ⟨.binary .add x y, .scalar (.scalar t)⟩
      ⟨.binary hx hy (Scalar.isInt_of_isNumber ht), List.not_mem_nil⟩ (by rintro ⟨⟩)
  refine yields_of_read (typeOf_of_typeOf? ha) (yields_of_read (typeOf_of_typeOf? hb) ?_)
  split
  · next hsame =>
    cases beq_iff_eq.mp hsame
    exact absurd rfl hbytes
  · split
    · next hlt =>
      refine (widen_yields_extS ha hl hr hbytes).bind fun w s₁ h₁ hw => ?_
      obtain ⟨v, s₂, hdefine, h₂, hv⟩ :=
        hsum hr (Graph.typeOf?_of_node hw) (h₁.typeOf? hb)
      exact ⟨v, s₂, hdefine, h₂, .left hlt (h₂.node hw) hv⟩
    · next hle =>
      refine (widen_yields_extS hb hr hl hbytes.symm).bind fun w s₁ h₁ hw => ?_
      obtain ⟨v, s₂, hdefine, h₂, hv⟩ :=
        hsum hl (h₁.typeOf? ha) (Graph.typeOf?_of_node hw)
      have hlt : r.bytes < l.bytes := Nat.lt_of_le_of_ne (Nat.le_of_not_lt hle) hbytes.symm
      exact ⟨v, s₂, hdefine, h₂, .right hlt (h₂.node hw) hv⟩

theorem track_yields_extended (hs : s.graph.WellTyped) (hptr : s.graph.MovedTwice base a b ptr)
    (ha : s.graph.typeOf? a = some (.scalar (.scalar l)))
    (hb : s.graph.typeOf? b = some (.scalar (.scalar r))) (hl : l.isNumber = true)
    (hr : r.isNumber = true) (hbytes : l.bytes ≠ r.bytes) :
    (track ptr).Yields s fun address k =>
      address.base = base ∧ k.AddsExtended a b l r address.offset := by
  refine yields_of_read (graph_eq_ok.mpr ⟨rfl, rfl⟩) ?_
  refine yields_of_read (attempt_eq_ok.mpr ⟨hptr.pointerPath_eq hs ha, rfl⟩) ?_
  obtain ⟨v, s₁, hsum, h₁, hv⟩ := addOffsets_yields_extended ha hb hl hr hbytes
  have hfold : [PointerLink.move a, .move b].foldlM follow none s = .ok (some v) s₁ := by
    show (some <$> addOffsets a b >>= pure) s = _
    rw [bind_pure]
    exact Build.map_eq_ok.mpr ⟨v, hsum, rfl⟩
  refine ⟨⟨base, v⟩, { s₁ with log := s₁.log ++ [.tracked ptr base v] }, ?_, h₁, rfl, hv⟩
  rw [bind_of_ok hfold]
  rfl

end Address

/-- A pointer that is moved by two numbers of different sizes is split into its base and a number of
the larger size. If the sum of the two numbers has that size, the offset is the sum, unless the
smaller number is unsigned and has its top bit set: it is taken for a negative number then. -/
theorem Address.track_reads_sum_iff {s : Session} {base a b ptr : ValueId} {l r : Scalar}
    (hs : s.graph.WellTyped) (hptr : s.graph.MovedTwice base a b ptr)
    (ha : s.graph.typeOf? a = some (.scalar (.scalar l)))
    (hb : s.graph.typeOf? b = some (.scalar (.scalar r)))
    (hl : l.isNumber = true) (hr : r.isNumber = true) (hbytes : l.bytes ≠ r.bytes) :
    ∃ address s', track ptr s = .ok address s' ∧ address.base = base ∧
      s'.graph.typeOf? address.offset = some (.scalar (.scalar (l.wider r))) ∧
      (∀ X, s.graph.Obeys X → ∃ Y, s'.graph.Obeys Y ∧ ∀ v < s.graph.size, Y v = X v) ∧
      ∀ X, s'.graph.Obeys X → (l.wider r).Represents (l.read (X a) + r.read (X b)) →
        ((l.wider r).read (X address.offset) = l.read (X a) + r.read (X b) ↔
          (l.bytes < r.bytes → l.LowerHalf (l.read (X a))) ∧
          (r.bytes < l.bytes → r.LowerHalf (r.read (X b)))) := by
  obtain ⟨address, s', hrun, hadds, hbase, hextended⟩ :=
    track_yields_extended hs hptr ha hb hl hr hbytes
  exact ⟨address, s', hrun, hbase, hextended.typeOf?, fun X hX => hadds.exists_obeys hs hX,
    fun X hX hsum => hextended.read_eq_iff (hadds.typeOf? ha) (hadds.typeOf? hb) hl hr hX hsum⟩

/-- A pointer that is moved by two numbers. -/
def Graph.movedBy (l r : Scalar) : Graph :=
  ⟨[⟨.arg 0, .scalar (.pointer .i32 .global)⟩, ⟨.arg 1, .scalar (.scalar l)⟩,
    ⟨.arg 2, .scalar (.scalar r)⟩, ⟨.addPtr 0 1, .scalar (.pointer .i32 .global)⟩,
    ⟨.addPtr 3 2, .scalar (.pointer .i32 .global)⟩]⟩

theorem Graph.movedBy_movedTwice (l r : Scalar) : (Graph.movedBy l r).MovedTwice 0 1 2 4 where
  start := ⟨_, rfl, rfl⟩
  moves := ⟨3, _, _, rfl, rfl⟩

/-- Words for the two numbers. -/
def Graph.twoWords (x y : BitVec 64) : ValueId → BitVec 64
  | 1 => x
  | 2 => y
  | _ => 0

/-- A small negative number and a large unsigned one. -/
theorem Address.track_reads_sum_iff_negative :
    ∃ address s X, track 4 ⟨.movedBy (.signed .w32) (.unsigned .w64), []⟩ = .ok address s ∧
      s.graph.Obeys X ∧ (Scalar.signed .w32).read (X 1) = -5 ∧
      (Scalar.unsigned .w64).read (X 2) = 8 ∧
      (Scalar.unsigned .w64).read (X address.offset) = 3 := by
  have hbuilt : (Graph.movedBy (.signed .w32) (.unsigned .w64)).Built :=
    .of_requests [.define (.arg 0 (.scalar (.pointer .i32 .global))),
      .define (.arg 1 (.scalar (.scalar (.signed .w32)))),
      .define (.arg 2 (.scalar (.scalar (.unsigned .w64)))), .define (.addPtr 0 1),
      .define (.addPtr 3 2)] .empty (by decide)
  obtain ⟨address, s, hrun, _, _, hextends, hsum⟩ :=
    track_reads_sum_iff (s := ⟨.movedBy (.signed .w32) (.unsigned .w64), []⟩) hbuilt.wellTyped
      (Graph.movedBy_movedTwice _ _) rfl rfl rfl rfl (by decide)
  obtain ⟨X, hX, hagree⟩ := hextends (Graph.twoWords (-5) 8) (by decide +kernel)
  have hx : (Scalar.signed .w32).read (X 1) = -5 := by
    rw [hagree 1 (by decide)]
    decide +kernel
  have hy : (Scalar.unsigned .w64).read (X 2) = 8 := by
    rw [hagree 2 (by decide)]
    decide +kernel
  have hread := hsum X hX
  rw [hx, hy] at hread
  refine ⟨address, s, X, hrun, hX, hx, hy, (hread (by decide +kernel)).mpr ⟨?_, ?_⟩⟩
  · intro _ hunsigned
    cases hunsigned
  · intro hlt
    exact absurd hlt (by decide)

/-- Two hundred, in an unsigned byte, is taken for minus fifty-six. -/
theorem Address.track_reads_byte_negative :
    ∃ address s X, track 4 ⟨.movedBy (.unsigned .w8) (.signed .w64), []⟩ = .ok address s ∧
      s.graph.Obeys X ∧ (Scalar.unsigned .w8).read (X 1) = 200 ∧
      (Scalar.signed .w64).read (X 2) = 0 ∧ (Scalar.signed .w64).Represents (200 + 0) ∧
      (Scalar.signed .w64).read (X address.offset) = -56 := by
  obtain ⟨s, hrun, hgraph⟩ :=
    Build.exists_of_result (x := track 4) (s := ⟨.movedBy (.unsigned .w8) (.signed .w64), []⟩)
      (a := ⟨0, 6⟩) (g := ⟨(Graph.movedBy (.unsigned .w8) (.signed .w64)).nodes ++
        [⟨.cast .extS 1, .scalar (.scalar (.signed .w64))⟩,
          ⟨.binary .add 5 2, .scalar (.scalar (.signed .w64))⟩]⟩) (by decide)
  refine ⟨⟨0, 6⟩, s, fun v => if v = 1 then 200 else if v ≤ 4 then 0 else -56, hrun, ?_⟩
  rw [hgraph]
  decide +kernel

end TileFacts

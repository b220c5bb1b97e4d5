import TileFacts.Proofs.Rule.Answer

/-! Divisors of products.

The rule of products moves the divisor of one operand up by the logarithm of the other's, and the
rule of left shifts moves it up by the amount of the shift. A divisor moved up is the exact product
as long as that is tracked, and the largest tracked power of two from there on
(`Word.IsPower.scaleUp`). The cap is the same from either side, so the order of the operands does
not show in the divisor of a product (`Policy.product_divisibility_comm`), nor in anything else that
the rule of products answers (`Policy.product_rule_comm`). Main statement:
`Rulebook.product_divisors_exact`. -/
namespace TileFacts

/-! ### Both orders of the operands -/

theorem BinaryOp.fold_mul_comm (a b : Option Int64) : mul.fold a b = mul.fold b a := by
  cases a with
  | none => cases b <;> rfl
  | some l =>
    cases b with
    | none => rfl
    | some r => exact congrArg some (Int64.mul_comm l r)

namespace Context

variable {ctx : Context} {op : BinaryOp} {a b : Fact}

theorem checkRank_congr (h : a.rank = b.rank) (i : Nat) :
    ctx.checkRank i a = ctx.checkRank i b := by
  simp only [checkRank, h]

/-- Operands of one rank may change places. -/
theorem Binary.swap (h : ctx.Binary op a b) : ctx.Binary op b a := by
  have hrank : a.rank = b.rank := h.left.trans h.right.symm
  obtain ⟨_, hfirst, hrest⟩ := bind_eq_ok.mp h.operands
  obtain ⟨_, hsecond, _⟩ := bind_eq_ok.mp hrest
  rw [checkRank_congr hrank] at hfirst
  rw [← checkRank_congr hrank] at hsecond
  refine ⟨?_, h.op, h.right, h.left⟩
  exact bind_eq_ok.mpr ⟨_, hfirst, bind_eq_ok.mpr ⟨_, hsecond, rfl⟩⟩

end Context

namespace Policy

section Lanes

variable {op : BinaryOp} {l r : Lane}

theorem product_run_comm (l r : Lane) : product.run op l r = product.run op r l := by
  show max (Word.gcd l.constancy r.run) (Word.gcd l.run r.constancy) =
    max (Word.gcd r.constancy l.run) (Word.gcd r.run l.constancy)
  rw [Word.max_comm, Word.gcd_comm l.run, Word.gcd_comm l.constancy]

theorem productStep_comm (l r : Lane) : productStep l r = productStep r l := by
  unfold productStep
  rw [Bool.or_comm, Word.max_comm]

variable (hl : Word.IsPower l.divisibility) (hr : Word.IsPower r.divisibility)
include hl hr

/-- Moved up from either side, divisors come to the same product. -/
theorem product_divisibility_comm : product.divisibility op l r = product.divisibility op r l := by
  obtain ⟨w, hw, _, hmin, _⟩ := hl.scaleUp_log2 hr
  obtain ⟨w', hw', _, hmin', _⟩ := hr.scaleUp_log2 hl
  have hsame : w = w' := Int64.toInt_inj.mp (by rw [hmin, hmin', mul_comm])
  rw [product_divisibility_eq, product_divisibility_eq, hw, hw', hsame]

theorem product_axis_comm (constant : Option Int64) :
    product.axis op l r constant = product.axis op r l constant := by
  cases constant with
  | some value =>
    simp only [axis]
    rw [Word.max_comm]
  | none =>
    have hstep : product.step op l r = product.step op r l :=
      congrArg Except.ok (productStep_comm l r)
    simp only [axis, product_divisibility_comm hl hr, product_run_comm l r, hstep]

end Lanes

variable {ctx : Context} {a b : Fact}

/-- The rule of products answers both orders of its operands with one fact. -/
theorem product_rule_comm (h : ctx.Binary .mul a b)
    (ha : ∀ x ∈ a.axes, Word.IsPower x.divisibility)
    (hb : ∀ x ∈ b.axes, Word.IsPower x.divisibility) :
    ∃ f, product.rule ctx [a, b] = .ok f ∧ product.rule ctx [b, a] = .ok f ∧ f.rank = ctx.rank := by
  obtain ⟨axes, hrule, hlen, haxes⟩ := product.rule_eq_ok (product_total _) h
  obtain ⟨axes', hrule', hlen', haxes'⟩ := product.rule_eq_ok (product_total _) h.swap
  have hconstant : product.constant .mul b.constant a.constant =
      product.constant .mul a.constant b.constant := BinaryOp.fold_mul_comm ..
  rw [hconstant] at hrule' haxes'
  have hsame : axes' = axes := by
    refine List.ext_getElem (hlen'.trans hlen.symm) fun d hd' hd => ?_
    obtain ⟨l, r, hl, hr, haxis⟩ := haxes d _ (List.getElem?_eq_getElem hd)
    obtain ⟨r', l', hr', hl', haxis'⟩ := haxes' d _ (List.getElem?_eq_getElem hd')
    cases hl.symm.trans hl'
    cases hr.symm.trans hr'
    have hlpower := ha _ (List.mem_of_getElem? (Fact.lane_eq_ok.mp hl).1)
    have hrpower := hb _ (List.mem_of_getElem? (Fact.lane_eq_ok.mp hr).1)
    rw [product_axis_comm hrpower hlpower, haxis] at haxis'
    exact (Except.ok.inj haxis').symm
  exact ⟨_, hrule, hsame ▸ hrule', hlen⟩

end Policy

/-! ### Wrapped products -/

/-- A tracked divisor of an exact product divides the word that the product wraps to. -/
theorem Word.IsPower.dvd_ofInt {m : Int64} (hm : IsPower m) {n : Int} (h : m.toInt ∣ n) :
    m.toInt ∣ (Int64.ofInt n).toInt :=
  (hm.of_modEq (toInt_ofInt_modEq n)).dvd_iff.mpr h

theorem BinaryOp.evaluate_shl_eq_some {s : Int64} (h : 0 ≤ s.toInt ∧ s.toInt < 64) (x : Int64) :
    shl.evaluate x s = some (Int64.ofInt (x.toInt * 2 ^ s.toInt.toNat)) := by
  rw [← Word.shiftLeft_eq_ofInt h]
  exact if_pos (Word.isShiftAmount_iff.mpr h)

/-- Divisors of products are exact up to the cap and do not depend on the order of the operands.

Two tracked powers of two combine to their exact product, or to the largest tracked power if that
is less; so the divisor that the rule of products works out for two lanes, and the whole fact that
it answers for two operands, are the same in both orders. A tracked power of two moved up by any
shift of a word is the exact multiple, capped likewise, and divides what every multiple of the power
is shifted to, which is the exact product wrapped to a word. -/
theorem Rulebook.product_divisors_exact :
    (∀ a b : Int64, Word.IsPower a → Word.IsPower b →
      ∃ w, Word.scaleUp a (Int64.ofNat (Word.log2 b)) = .ok w ∧
        w.toInt = min (a.toInt * b.toInt) (2 ^ 62)) ∧
    (∀ (op : BinaryOp) (l r : Lane), Word.IsPower l.divisibility → Word.IsPower r.divisibility →
      Policy.product.divisibility op l r = Policy.product.divisibility op r l) ∧
    (∀ (ctx : Context) (f g : Fact), ctx.Binary .mul f g →
      (∀ x ∈ f.axes, Word.IsPower x.divisibility) → (∀ x ∈ g.axes, Word.IsPower x.divisibility) →
      ∃ p, standard.transfer ctx [f, g] = .ok p ∧ standard.transfer ctx [g, f] = .ok p) ∧
    (∀ a s : Int64, Word.IsPower a → 0 ≤ s.toInt → s.toInt ≤ 63 →
      ∃ w, Word.scaleUp a s = .ok w ∧ w.toInt = min (a.toInt * 2 ^ s.toInt.toNat) (2 ^ 62) ∧
        ∀ x : Int64, a.toInt ∣ x.toInt →
          BinaryOp.shl.evaluate x s = some (Int64.ofInt (x.toInt * 2 ^ s.toInt.toNat)) ∧
          w.toInt ∣ (Int64.ofInt (x.toInt * 2 ^ s.toInt.toNat)).toInt) := by
  refine ⟨?_, fun op l r => Policy.product_divisibility_comm, ?_, ?_⟩
  · intro a b ha hb
    obtain ⟨w, hw, _, hmin, _⟩ := ha.scaleUp_log2 hb
    exact ⟨w, hw, hmin⟩
  · intro ctx f g h hf hg
    have hrule := standard_rule_of_binaryOp h.op
    obtain ⟨p, hp, hp', hrank⟩ := Policy.product_rule_comm h hf hg
    exact ⟨p, transfer_eq_ok hrule hp hrank, transfer_eq_ok hrule hp' hrank⟩
  · intro a s ha hlow hhigh
    have hs : 0 ≤ s.toInt ∧ s.toInt < 64 := by omega
    obtain ⟨w, hw, hpower, hmin, hdvd⟩ := ha.scaleUp hs
    refine ⟨w, hw, hmin, fun x hx => ⟨BinaryOp.evaluate_shl_eq_some hs x, ?_⟩⟩
    exact hpower.dvd_ofInt (hdvd.trans (mul_dvd_mul_right hx _))

/-- The largest divisor and eight meet the cap from either side, in lanes as in facts, and so does a
one moved up by `63` bits: it divides three moved up as far, which wraps to the least word. -/
theorem Rulebook.product_divisors_exact_capped :
    (∃ w, Word.scaleUp 8 (Int64.ofNat (Word.log2 Word.maxPower)) = .ok w ∧ w.toInt = 2 ^ 62) ∧
    Policy.product.divisibility .mul ⟨⟨8, 8, 0⟩, none⟩ ⟨⟨Word.maxPower, 4, 1⟩, none⟩ =
      Policy.product.divisibility .mul ⟨⟨Word.maxPower, 4, 1⟩, none⟩ ⟨⟨8, 8, 0⟩, none⟩ ∧
    (∃ p, standard.transfer ⟨2, .binary .mul 0 1, ⟨.i32, [8]⟩, [⟨.i32, [8]⟩, ⟨.i32, [8]⟩]⟩
        [⟨[⟨8, 8, 0⟩], none⟩, ⟨[⟨Word.maxPower, 4, 1⟩], none⟩] = .ok p ∧
      standard.transfer ⟨2, .binary .mul 0 1, ⟨.i32, [8]⟩, [⟨.i32, [8]⟩, ⟨.i32, [8]⟩]⟩
        [⟨[⟨Word.maxPower, 4, 1⟩], none⟩, ⟨[⟨8, 8, 0⟩], none⟩] = .ok p) ∧
    ∃ w, Word.scaleUp 1 63 = .ok w ∧ w.toInt = 2 ^ 62 ∧
      BinaryOp.shl.evaluate 3 63 = some Int64.minValue ∧ w.toInt ∣ Int64.minValue.toInt := by
  have h8 : Word.IsPower 8 := ⟨3, by decide, by decide⟩
  obtain ⟨hproduct, hlanes, hfacts, hshift⟩ := product_divisors_exact
  refine ⟨?_, hlanes _ _ _ h8 Word.isPower_maxPower, ?_, ?_⟩
  · obtain ⟨w, hw, hmin⟩ := hproduct _ _ h8 Word.isPower_maxPower
    exact ⟨w, hw, hmin.trans (by decide)⟩
  · exact hfacts _ _ _ ⟨rfl, rfl, rfl, rfl⟩ (by simpa using h8)
      (by simpa using Word.isPower_maxPower)
  · obtain ⟨w, hw, hmin, hall⟩ := hshift 1 63 Word.isPower_one (by decide) (by decide)
    obtain ⟨hshl, hdvd⟩ := hall 3 (by decide)
    have hwrap : Int64.ofInt ((3 : Int64).toInt * 2 ^ (63 : Int64).toInt.toNat) =
        Int64.minValue := by decide
    rw [hwrap] at hshl hdvd
    exact ⟨w, hw, hmin.trans (by decide), hshl, hdvd⟩

end TileFacts

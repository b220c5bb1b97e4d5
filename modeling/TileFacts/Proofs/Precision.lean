import TileFacts.Proofs.Line
import TileFacts.Proofs.Rule.Context
import Mathlib.Order.BoundedOrder.Lattice

/-! The order of precision.

Facts of one rank whose divisors and runs are positive (`Fact.Positive`) are ordered by how much
they say (`Fact.Below`), and `Fact.weakerOrEqual` decides that order. With less knowledge further up
they are a semilattice with a top (`Fact.OfRank`): a join is the least fact above both of its sides.
Main statement: the comparison is a partial order with `Fact.top` as its weakest element, the join
is the strongest fact that is weaker than both sides, and so the laws of joins hold. -/
namespace TileFacts

/-! ### Axes -/

/-- What an axis says, the other says too. -/
structure Axis.Below (a b : Axis) : Prop where
  divisibility_pos : 0 < a.divisibility.toInt
  divisibility : a.divisibility.toInt ∣ b.divisibility.toInt
  run_pos : 0 < a.run.toInt
  run : a.run.toInt ∣ b.run.toInt
  step : a.step = unknownStep ∨ a.step = b.step

structure Axis.Positive (a : Axis) : Prop where
  divisibility : 0 < a.divisibility.toInt
  run : 0 < a.run.toInt

namespace Axis

variable {a b c : Axis}

instance (a : Axis) : Decidable a.Positive :=
  decidable_of_iff (0 < a.divisibility.toInt ∧ 0 < a.run.toInt)
    ⟨fun h => ⟨h.1, h.2⟩, fun h => ⟨h.divisibility, h.run⟩⟩

theorem positive_top : top.Positive := by decide

theorem Positive.join (h : a.Positive) (b : Axis) : (a.join b).Positive :=
  ⟨Word.gcd_pos h.divisibility, Word.gcd_pos h.run⟩

theorem Below.positive (h : a.Below b) : a.Positive := ⟨h.divisibility_pos, h.run_pos⟩

theorem Positive.below_self (h : a.Positive) : a.Below a :=
  ⟨h.divisibility, dvd_rfl, h.run, dvd_rfl, .inr rfl⟩

theorem top_below (a : Axis) : top.Below a :=
  ⟨by decide, one_dvd _, by decide, one_dvd _, .inl rfl⟩

theorem Below.trans (hab : a.Below b) (hbc : b.Below c) : a.Below c where
  divisibility_pos := hab.divisibility_pos
  divisibility := hab.divisibility.trans hbc.divisibility
  run_pos := hab.run_pos
  run := hab.run.trans hbc.run
  step := by
    cases hab.step with
    | inl hunknown => exact .inl hunknown
    | inr hsame =>
      rw [hsame]
      exact hbc.step

/-- Words that divide each other are the same. The unknown step is an ordinary word, and so it is
below itself only. -/
theorem Below.antisymm (hab : a.Below b) (hba : b.Below a) : a = b := by
  have hdivisibility : a.divisibility = b.divisibility :=
    Int64.toInt_inj.mp (Int.dvd_antisymm hab.divisibility_pos.le hba.divisibility_pos.le
      hab.divisibility hba.divisibility)
  have hrun : a.run = b.run :=
    Int64.toInt_inj.mp (Int.dvd_antisymm hab.run_pos.le hba.run_pos.le hab.run hba.run)
  have hstep : a.step = b.step := by
    rcases hab.step with ha | hsame
    · rcases hba.step with hb | hsame
      · rw [ha, hb]
      · exact hsame.symm
    · exact hsame
  obtain ⟨_, _, _⟩ := a
  obtain ⟨_, _, _⟩ := b
  simp_all

theorem Below.join_left (h : a.Below c) (b : Axis) : (a.join b).Below c where
  divisibility_pos := Word.gcd_pos h.divisibility_pos
  divisibility := (Word.gcd_dvd_left h.divisibility_pos).trans h.divisibility
  run_pos := Word.gcd_pos h.run_pos
  run := (Word.gcd_dvd_left h.run_pos).trans h.run
  step := by
    by_cases hsame : (a.step == b.step) = true
    · have hkept : (a.join b).step = a.step := if_pos hsame
      rw [hkept]
      exact h.step
    · exact .inl (if_neg hsame)

theorem Below.join_right (h : b.Below c) (a : Axis) : (a.join b).Below c := by
  rw [join_comm]
  exact h.join_left a

/-- What both sides say, their join says. -/
theorem Below.le_join (ha : c.Below a) (hb : c.Below b) (hpos : a.Positive) :
    c.Below (a.join b) where
  divisibility_pos := ha.divisibility_pos
  divisibility := by
    show _ ∣ (Word.gcd a.divisibility b.divisibility).toInt
    rw [Word.toInt_gcd_of_pos hpos.divisibility]
    exact Int.dvd_coe_gcd ha.divisibility hb.divisibility
  run_pos := ha.run_pos
  run := by
    show _ ∣ (Word.gcd a.run b.run).toInt
    rw [Word.toInt_gcd_of_pos hpos.run]
    exact Int.dvd_coe_gcd ha.run hb.run
  step := by
    cases ha.step with
    | inl hunknown => exact .inl hunknown
    | inr hsame =>
      cases hb.step with
      | inl hunknown => exact .inl hunknown
      | inr hsame' =>
        have hkept : (a.join b).step = a.step := if_pos (by simp [← hsame, ← hsame'])
        exact .inr (hsame.trans hkept.symm)

end Axis

/-! ### Facts -/

/-- What a fact says, the other says too. -/
structure Fact.Below (a b : Fact) : Prop where
  rank : a.rank = b.rank
  axes : ∀ (d : Nat) (x y : Axis), a.axes[d]? = some x → b.axes[d]? = some y → x.Below y
  constant : ∀ c, a.constant = some c → b.constant = some c

/-- A fact of rank `n` whose divisors and runs are positive. -/
structure Fact.Positive (n : Nat) (f : Fact) : Prop where
  rank : f.rank = n
  axes : ∀ x ∈ f.axes, x.Positive

namespace Fact

variable {a b c : Fact} {n : Nat}

instance (n : Nat) (f : Fact) : Decidable (f.Positive n) :=
  decidable_of_iff (f.rank = n ∧ ∀ x ∈ f.axes, x.Positive)
    ⟨fun h => ⟨h.1, h.2⟩, fun h => ⟨h.rank, h.axes⟩⟩

theorem Positive.axis (h : a.Positive n) {d : Nat} {x : Axis} (hx : a.axes[d]? = some x) :
    x.Positive :=
  h.axes x (List.mem_of_getElem? hx)

/-- Facts of one rank have the same dimensions. -/
theorem exists_axis_of_rank (h : a.rank = b.rank) {d : Nat} {x : Axis}
    (hx : a.axes[d]? = some x) : ∃ y, b.axes[d]? = some y := by
  have hd : d < a.axes.length := (List.getElem?_eq_some_iff.mp hx).1
  exact ⟨_, List.getElem?_eq_getElem (Nat.lt_of_lt_of_eq hd h)⟩

theorem Below.positive (h : a.Below b) : a.Positive a.rank := by
  refine ⟨rfl, fun x hx => ?_⟩
  obtain ⟨d, hd⟩ := List.mem_iff_getElem?.mp hx
  obtain ⟨y, hy⟩ := exists_axis_of_rank h.rank hd
  exact (h.axes d x y hd hy).positive

theorem Positive.below_self (h : a.Positive n) : a.Below a := by
  refine ⟨rfl, fun d x y hx hy => ?_, fun _ hc => hc⟩
  rw [hx] at hy
  cases hy
  exact (h.axis hx).below_self

theorem positive_top (n : Nat) : (top n).Positive n :=
  ⟨rank_top n, fun _ hx => List.eq_of_mem_replicate hx ▸ Axis.positive_top⟩

theorem Positive.top_below (h : a.Positive n) : (top n).Below a := by
  refine ⟨(rank_top n).trans h.rank.symm, fun d x y hx _ => ?_, by rintro _ ⟨⟩⟩
  rw [List.eq_of_mem_replicate (List.mem_of_getElem? hx)]
  exact y.top_below

theorem Below.trans (hab : a.Below b) (hbc : b.Below c) : a.Below c := by
  refine ⟨hab.rank.trans hbc.rank, fun d x z hx hz => ?_, fun k hk => ?_⟩
  · obtain ⟨y, hy⟩ := exists_axis_of_rank hab.rank hx
    exact (hab.axes d x y hx hy).trans (hbc.axes d y z hy hz)
  · exact hbc.constant k (hab.constant k hk)

theorem Below.antisymm (hab : a.Below b) (hba : b.Below a) : a = b := by
  have haxes : a.axes = b.axes := by
    apply List.ext_getElem hab.rank
    intro d ha hb
    have hx := List.getElem?_eq_getElem ha
    have hy := List.getElem?_eq_getElem hb
    exact (hab.axes d _ _ hx hy).antisymm (hba.axes d _ _ hy hx)
  have hconstant : a.constant = b.constant :=
    Option.ext fun k => ⟨hab.constant k, hba.constant k⟩
  obtain ⟨_, _⟩ := a
  obtain ⟨_, _⟩ := b
  simp_all

/-! ### Joins -/

theorem Positive.join (ha : a.Positive n) (h : a.join b = .ok c) : c.Positive n := by
  refine ⟨(rank_of_join h).1.symm.trans ha.rank, fun x hx => ?_⟩
  obtain ⟨d, hd⟩ := List.mem_iff_getElem?.mp hx
  obtain ⟨l, r, hl, _, rfl⟩ := axis_of_join h hd
  exact (ha.axis hl).join r

theorem Below.join_left {l r : Fact} (h : l.Below b) (hc : l.join r = .ok c) : c.Below b := by
  refine ⟨(rank_of_join hc).1.symm.trans h.rank, fun d x y hx hy => ?_, fun k hk => ?_⟩
  · obtain ⟨p, q, hp, _, rfl⟩ := axis_of_join hc hx
    exact (h.axes d p y hp hy).join_left q
  · exact h.constant k (constant_of_join hc hk).1

theorem Below.join_right {l r : Fact} (h : r.Below b) (hc : l.join r = .ok c) : c.Below b := by
  refine ⟨(rank_of_join hc).2.symm.trans h.rank, fun d x y hx hy => ?_, fun k hk => ?_⟩
  · obtain ⟨p, q, _, hq, rfl⟩ := axis_of_join hc hx
    exact (h.axes d q y hq hy).join_right p
  · exact h.constant k (constant_of_join hc hk).2

theorem Below.le_join {j : Fact} (ha : c.Below a) (hb : c.Below b) (hpos : a.Positive n)
    (hj : a.join b = .ok j) : c.Below j := by
  refine ⟨ha.rank.trans (rank_of_join hj).1, fun d z x hz hx => ?_, fun k hk => ?_⟩
  · obtain ⟨l, r, hl, hr, rfl⟩ := axis_of_join hj hx
    exact (ha.axes d z l hz hl).le_join (hb.axes d z r hz hr) (hpos.axis hl)
  · rw [(join_eq_ok.mp hj).2, ha.constant k hk, hb.constant k hk]
    exact if_pos rfl

/-! ### The comparison -/

theorem divides_of_pos {x y : Int64} (hx : 0 < x.toInt) :
    divides x y = .ok (decide (x.toInt ∣ y.toInt)) := by
  have hzero : x ≠ 0 := by
    rintro rfl
    exact absurd hx (by decide)
  have hone : x ≠ -1 := by
    rintro rfl
    exact absurd hx (by decide)
  have hrem : y % x = 0 ↔ x.toInt ∣ y.toInt := by
    rw [← Int64.toInt_inj, Int64.toInt_mod]
    exact Int.dvd_iff_tmod_eq_zero.symm
  simp [divides, Word.checkedRem, Word.divOverflows, hzero, hone, hrem, Functor.map, Except.map,
    Bool.beq_eq_decide_eq]

theorem dividesAll_of_pos {pairs : List (Int64 × Int64)} (h : ∀ p ∈ pairs, 0 < p.1.toInt) :
    dividesAll pairs = .ok (pairs.all fun p => decide (p.1.toInt ∣ p.2.toInt)) := by
  induction pairs with
  | nil => simp [dividesAll]
  | cons p rest ih =>
    have hrest := ih fun q hq => h q (List.mem_cons_of_mem p hq)
    rw [dividesAll, divides_of_pos (h p (List.mem_cons_self ..)), ok_bind, hrest]
    by_cases hp : p.1.toInt ∣ p.2.toInt
    · simp [hp]
    · simp [hp, pure, Except.pure]

/-- Pairs of one property of two facts come from axes of one dimension. -/
theorem forall_mem_zip {β : Type} {property : Axis → β} {P : β × β → Prop} :
    (∀ p ∈ (a.axes.map property).zip (b.axes.map property), P p) ↔
      ∀ (d : Nat) (x y : Axis), a.axes[d]? = some x → b.axes[d]? = some y →
        P (property x, property y) := by
  rw [List.zip_map]
  constructor
  · intro h d x y hx hy
    have hxy : (a.axes.zip b.axes)[d]? = some (x, y) := List.getElem?_zip_eq_some.mpr ⟨hx, hy⟩
    exact h _ (List.mem_map_of_mem (List.mem_of_getElem? hxy))
  · intro h p hp
    obtain ⟨⟨x, y⟩, hxy, rfl⟩ := List.mem_map.mp hp
    obtain ⟨d, hd⟩ := List.mem_iff_getElem?.mp hxy
    obtain ⟨hx, hy⟩ := List.getElem?_zip_eq_some.mp hd
    exact h d x y hx hy

/-- The order, property by property. -/
theorem below_iff (ha : a.Positive n) (hrank : a.rank = b.rank) : a.Below b ↔
    (∀ p ∈ a.divisibilities.zip b.divisibilities, p.1.toInt ∣ p.2.toInt) ∧
    (∀ p ∈ a.runs.zip b.runs, p.1.toInt ∣ p.2.toInt) ∧
    (∀ p ∈ a.steps.zip b.steps, p.1 = unknownStep ∨ p.1 = p.2) ∧
    ∀ c, a.constant = some c → b.constant = some c := by
  unfold divisibilities runs steps
  rw [forall_mem_zip, forall_mem_zip, forall_mem_zip]
  constructor
  · intro h
    exact ⟨fun d x y hx hy => (h.axes d x y hx hy).divisibility,
      fun d x y hx hy => (h.axes d x y hx hy).run,
      fun d x y hx hy => (h.axes d x y hx hy).step, h.constant⟩
  · intro ⟨hdivisibility, hrun, hstep, hconstant⟩
    refine ⟨hrank, fun d x y hx hy => ?_, hconstant⟩
    have hpos := ha.axis hx
    exact ⟨hpos.divisibility, hdivisibility d x y hx hy, hpos.run, hrun d x y hx hy,
      hstep d x y hx hy⟩

theorem constant_below_iff {x y : Option Int64} :
    (x.isNone || x == y) = true ↔ ∀ c, x = some c → y = some c := by
  cases x with
  | none => simp
  | some k => simp [eq_comm (a := y)]

/-- Tests that are made one after another, each only if those before it hold. -/
theorem ok_and_then (x y z : Bool) :
    (do
      if ← (.ok x : Checked Bool) then
        if ← (.ok y : Checked Bool) then return z else return false
      else return false : Checked Bool) = .ok (x && (y && z)) := by
  cases x <;> cases y <;> rfl

/-- A comparison with a positive fact on the left ends, and its answer is the order. -/
theorem exists_weakerOrEqual (ha : a.Positive n) (b : Fact) :
    ∃ answer, a.weakerOrEqual b = .ok answer ∧ (answer = true ↔ a.Below b) := by
  by_cases hrank : a.rank = b.rank
  swap
  · refine ⟨false, if_pos hrank, ?_⟩
    simpa using fun h : a.Below b => hrank h.rank
  have hdivisibilities : ∀ p ∈ a.divisibilities.zip b.divisibilities, 0 < p.1.toInt :=
    forall_mem_zip.mpr fun _ _ _ hx _ => (ha.axis hx).divisibility
  have hruns : ∀ p ∈ a.runs.zip b.runs, 0 < p.1.toInt :=
    forall_mem_zip.mpr fun _ _ _ hx _ => (ha.axis hx).run
  unfold weakerOrEqual
  rw [if_neg (not_not.mpr hrank), dividesAll_of_pos hdivisibilities, dividesAll_of_pos hruns,
    below_iff ha hrank, ← constant_below_iff]
  refine ⟨_, ok_and_then _ _ _, ?_⟩
  simp only [Bool.and_eq_true, decide_eq_true_eq, List.all_eq_true, stepWeaker, Bool.or_eq_true,
    beq_iff_eq]

theorem Below.weakerOrEqual (h : a.Below b) : a.weakerOrEqual b = .ok true := by
  obtain ⟨answer, hanswer, hiff⟩ := exists_weakerOrEqual h.positive b
  rw [hanswer, hiff.mpr h]

theorem Positive.weakerOrEqual_iff (ha : a.Positive n) :
    a.weakerOrEqual b = .ok true ↔ a.Below b := by
  obtain ⟨answer, hanswer, hiff⟩ := exists_weakerOrEqual ha b
  rw [hanswer, Except.ok.injEq, hiff]

/-! ### The semilattice -/

/-- The facts of rank `n` with positive divisors and runs. -/
def OfRank (n : Nat) : Type := {f : Fact // f.Positive n}

/-- Joins of facts of one rank do not fault. -/
theorem Positive.exists_join (ha : a.Positive n) (hb : b.Positive n) :
    a.join b = .ok ⟨List.zipWith Axis.join a.axes b.axes, commonConstant a.constant b.constant⟩ :=
  join_eq_ok.mpr ⟨ha.rank.trans hb.rank.symm, rfl⟩

/-- The less a fact says, the higher it is. -/
instance (n : Nat) : SemilatticeSup (OfRank n) where
  le a b := b.val.Below a.val
  le_refl a := a.property.below_self
  le_trans _ _ _ hab hbc := hbc.trans hab
  le_antisymm _ _ hab hba := Subtype.ext (hba.antisymm hab)
  sup a b := ⟨_, a.property.join (a.property.exists_join b.property)⟩
  le_sup_left a b := a.property.below_self.join_left (a.property.exists_join b.property)
  le_sup_right a b := b.property.below_self.join_right (a.property.exists_join b.property)
  sup_le a b _ ha hb := ha.le_join hb a.property (a.property.exists_join b.property)

instance (n : Nat) : OrderTop (OfRank n) where
  top := ⟨top n, positive_top n⟩
  le_top a := a.property.top_below

theorem OfRank.join_eq (a b : OfRank n) : a.val.join b.val = .ok (a ⊔ b).val :=
  a.property.exists_join b.property

/-- The comparison finds that the first says no more than the second. -/
def Weaker (a b : Fact) : Prop := a.weakerOrEqual b = .ok true

instance (a b : Fact) : Decidable (a.Weaker b) := inferInstanceAs (Decidable (_ = _))

theorem OfRank.weaker_iff_le (a b : OfRank n) : a.val.Weaker b.val ↔ b ≤ a :=
  a.property.weakerOrEqual_iff

/-- The join is the least upper bound of the order of precision. On facts of one rank with positive
divisors and runs the comparison always ends, it is a partial order, and nothing is weaker than the
top. Their join exists, it is weaker than both sides, and whatever else is weaker than both is
weaker than the join. So joins commute, associate, are idempotent and are absorbed by the top. -/
theorem join_leastUpperBound (ha : a.Positive n) (hb : b.Positive n) (hc : c.Positive n) :
    ((∃ answer, a.weakerOrEqual b = .ok answer) ∧ a.Weaker a ∧
      (a.Weaker b → b.Weaker a → a = b) ∧ (a.Weaker b → b.Weaker c → a.Weaker c)) ∧
    ((top n).Positive n ∧ (top n).Weaker a) ∧
    ∃ ab, a.join b = .ok ab ∧
      (ab.Positive n ∧ ab.Weaker a ∧ ab.Weaker b ∧ (c.Weaker a → c.Weaker b → c.Weaker ab)) ∧
      b.join a = .ok ab ∧
      (∃ bc, b.join c = .ok bc ∧ ∃ abc, ab.join c = .ok abc ∧ a.join bc = .ok abc) ∧
      a.join a = .ok a ∧ a.join (top n) = .ok (top n) ∧ (top n).join a = .ok (top n) := by
  obtain ⟨answer, hanswer, _⟩ := exists_weakerOrEqual ha b
  obtain ⟨a, rfl⟩ : ∃ x : OfRank n, x.val = a := ⟨⟨a, ha⟩, rfl⟩
  obtain ⟨b, rfl⟩ : ∃ x : OfRank n, x.val = b := ⟨⟨b, hb⟩, rfl⟩
  obtain ⟨c, rfl⟩ : ∃ x : OfRank n, x.val = c := ⟨⟨c, hc⟩, rfl⟩
  have htop : top n = (⊤ : OfRank n).val := rfl
  rw [htop]
  simp only [OfRank.join_eq, OfRank.weaker_iff_le, Except.ok.injEq, exists_eq_left']
  refine ⟨⟨⟨answer, hanswer⟩, le_rfl, fun hab hba => ?_, fun hab hbc => hbc.trans hab⟩,
    ⟨(⊤ : OfRank n).property, le_top⟩,
    ⟨(a ⊔ b).property, le_sup_left, le_sup_right, sup_le⟩, ?_⟩
  · have heq : a = b := le_antisymm hba hab
    rw [heq]
  · rw [sup_comm b a, sup_idem, sup_top_eq, top_sup_eq, sup_assoc]
    exact ⟨rfl, rfl, rfl, rfl, rfl⟩

/-- Along the second dimension one side has no known step; the runs of the first have only a part in
common, and one side alone has a constant. -/
theorem join_leastUpperBound_mixed :
    Positive 2 ⟨[⟨8, 6, 0⟩, ⟨4, 4, 1⟩], some 24⟩ ∧ Positive 2 ⟨[⟨12, 4, 0⟩, ⟨4, 2, -1⟩], none⟩ ∧
    Positive 2 ⟨[⟨2, 2, 0⟩, ⟨1, 1, -1⟩], none⟩ ∧
    ∃ ab, join ⟨[⟨8, 6, 0⟩, ⟨4, 4, 1⟩], some 24⟩ ⟨[⟨12, 4, 0⟩, ⟨4, 2, -1⟩], none⟩ = .ok ab ∧
      ab = ⟨[⟨4, 2, 0⟩, ⟨4, 2, -1⟩], none⟩ ∧ Weaker ⟨[⟨2, 2, 0⟩, ⟨1, 1, -1⟩], none⟩ ab ∧
      join ⟨[⟨12, 4, 0⟩, ⟨4, 2, -1⟩], none⟩ ⟨[⟨8, 6, 0⟩, ⟨4, 4, 1⟩], some 24⟩ = .ok ab := by
  have ha : Positive 2 ⟨[⟨8, 6, 0⟩, ⟨4, 4, 1⟩], some 24⟩ := by decide
  have hb : Positive 2 ⟨[⟨12, 4, 0⟩, ⟨4, 2, -1⟩], none⟩ := by decide
  have hc : Positive 2 ⟨[⟨2, 2, 0⟩, ⟨1, 1, -1⟩], none⟩ := by decide
  obtain ⟨_, _, ab, hab, ⟨_, _, _, hleast⟩, hcomm, _⟩ := join_leastUpperBound ha hb hc
  have heq : ab = ⟨[⟨4, 2, 0⟩, ⟨4, 2, -1⟩], none⟩ :=
    Except.ok.inj (hab.symm.trans (by decide +kernel))
  exact ⟨ha, hb, hc, ab, hab, heq, hleast (by decide +kernel) (by decide +kernel), hcomm⟩

end Fact

end TileFacts

import TileFacts.Proofs.Constants
import TileFacts.Proofs.Precision

/-! What facts say of tensors, run by run.

A line is cut into runs from its first element on. An axis holds of a line (`Axis.Holds`) when its
divisor divides the first element of every run and a known step leads from each element of a run to
the next; a fact holds of a tensor (`Fact.Holds`) when its axes hold of all lines along their
dimensions and its constant is every element. Unlike `Axis.Describes`, nothing ties a run to the one
before it, and the divisor speaks of every run.

Inside a run elements follow the step, and a run starts at a multiple of the divisor. So a number
that divides both the divisor and the length of a run in steps finds every element where counting
from zero would have put it (`Axis.Holds.congruent`). -/
namespace TileFacts

structure Axis.Holds (a : Axis) (n : Nat) (x : Nat → Int64) : Prop where
  /-- The divisor divides the first element of every run. -/
  heads : ∀ p < n, a.run.toInt ∣ p → a.divisibility.toInt ∣ (x p).toInt
  /-- A known step leads from each element of a run to the next. -/
  steps : a.step ≠ unknownStep →
    ∀ p, p + 1 < n → ¬ a.run.toInt ∣ (p + 1 : Nat) → x (p + 1) = x p + a.step

/-- The divisor is a tracked power of two, and runs have a length. -/
structure Axis.Tracked (a : Axis) : Prop where
  power : Word.IsPower a.divisibility
  run_pos : 0 < a.run.toInt

instance (m : Int64) : Decidable (Word.IsPower m) :=
  inferInstanceAs (Decidable (∃ k ≤ 62, m.toInt = 2 ^ k))

instance (a : Axis) : Decidable a.Tracked :=
  decidable_of_iff (Word.IsPower a.divisibility ∧ 0 < a.run.toInt)
    ⟨fun h => ⟨h.1, h.2⟩, fun h => ⟨h.power, h.run_pos⟩⟩

/-! ### Lines -/

namespace Axis

variable {a b : Axis} {n : Nat} {x y : Nat → Int64}

instance (a : Axis) (n : Nat) (x : Nat → Int64) : Decidable (a.Holds n x) :=
  decidable_of_iff ((∀ p < n, a.run.toInt ∣ p → a.divisibility.toInt ∣ (x p).toInt) ∧
      (a.step ≠ unknownStep →
        ∀ p < n, p + 1 < n → ¬ a.run.toInt ∣ (p + 1 : Nat) → x (p + 1) = x p + a.step))
    ⟨fun h => ⟨h.1, fun hs p hp => h.2 hs p (by omega) hp⟩,
      fun h => ⟨h.heads, fun hs p _ hp => h.steps hs p hp⟩⟩

theorem Tracked.positive (h : a.Tracked) : a.Positive := ⟨h.power.pos, h.run_pos⟩

theorem Holds.congr (h : a.Holds n x) (hxy : ∀ p < n, x p = y p) : a.Holds n y where
  heads p hp hrun := by
    rw [← hxy p hp]
    exact h.heads p hp hrun
  steps hs p hp hrun := by
    rw [← hxy p (by omega), ← hxy (p + 1) hp]
    exact h.steps hs p hp hrun

/-- A divisor of one and runs of one say nothing, whatever the step. -/
theorem holds_unit (step : Int64) : (⟨1, 1, step⟩ : Axis).Holds n x where
  heads _ _ _ := one_dvd _
  steps _ _ _ hrun := absurd (one_dvd _) hrun

theorem holds_top : Axis.top.Holds n x := holds_unit unknownStep

/-- A line of one number, with a divisor of it and runs of any length. -/
theorem holds_uniform {m run c : Int64} (hmc : m.toInt ∣ c.toInt) (hx : ∀ p < n, x p = c) :
    (⟨m, run, 0⟩ : Axis).Holds n x where
  heads p hp _ := by
    rw [hx p hp]
    exact hmc
  steps _ p hp _ := by
    rw [hx p (by omega), hx (p + 1) hp]
    exact (Int64.add_zero c).symm

/-- Elements are where counting by the step from zero puts them, up to multiples of what divides the
divisor and a run. The induction is on the position: a step leads on inside a run, and at the start
of a run both sides are multiples. -/
theorem Holds.congruent (h : a.Holds n x) (hs : a.step ≠ unknownStep) {m : Int}
    (hdivisor : m ∣ a.divisibility.toInt) (hrun : m ∣ a.run.toInt * a.step.toInt)
    (hsize : m ∣ 2 ^ 64) : ∀ p < n, (x p).toInt ≡ p * a.step.toInt [ZMOD m] := by
  intro p
  induction p with
  | zero =>
    intro hp
    have hhead := hdivisor.trans (h.heads 0 hp (dvd_zero _))
    simpa using Int.modEq_zero_iff_dvd.mpr hhead
  | succ p ih =>
    intro hp
    by_cases hhead : a.run.toInt ∣ (p + 1 : Nat)
    · have hx := Int.modEq_zero_iff_dvd.mpr (hdivisor.trans (h.heads (p + 1) hp hhead))
      have hcount := Int.modEq_zero_iff_dvd.mpr (hrun.trans (mul_dvd_mul_right hhead a.step.toInt))
      exact hx.trans hcount.symm
    · calc (x (p + 1)).toInt
          ≡ (x p).toInt + a.step.toInt [ZMOD m] := by
            rw [h.steps hs p hp hhead]
            exact (Word.toInt_add_modEq _ _).of_dvd hsize
        _ ≡ p * a.step.toInt + a.step.toInt [ZMOD m] := (ih (by omega)).add_right _
        _ = (p + 1 : Nat) * a.step.toInt := by
            push_cast
            ring

/-- A line that is one contiguous run counts up from a multiple of its divisor. -/
theorem Holds.counts (h : a.Holds n x) {extent : Int64} (hn : extent.toInt = n)
    (hc : a.isContiguousOver extent = true) {m : Int64} (hm : Word.IsPower m)
    (hdivisor : m.toInt ∣ a.divisibility.toInt) : ∀ p < n, (x p).toInt ≡ p [ZMOD m.toInt] := by
  intro p
  induction p with
  | zero =>
    intro hp
    exact Int.modEq_zero_iff_dvd.mpr (hdivisor.trans (h.heads 0 hp (dvd_zero _)))
  | succ p ih =>
    intro hp
    rw [(Steps.contiguous h.steps hn hc hp).2]
    calc (x p + 1).toInt
        ≡ (x p).toInt + 1 [ZMOD m.toInt] := hm.of_modEq (Word.toInt_add_modEq (x p) 1)
      _ ≡ (p + 1 : Nat) [ZMOD m.toInt] := by
          push_cast
          exact (ih (by omega)).add_right 1

theorem Holds.stands (h : a.Holds n x) {extent : Int64} (hn : extent.toInt = n)
    (hc : a.isConstantOver extent = true) : ∀ p < n, x p = x 0 := by
  intro p
  induction p with
  | zero =>
    intro _
    rfl
  | succ p ih =>
    intro hp
    rw [(Steps.constant h.steps hn hc hp).2]
    exact ih (by omega)

theorem Holds.stands_dvd (h : a.Holds n x) {extent : Int64} (hn : extent.toInt = n)
    (hc : a.isConstantOver extent = true) {p : Nat} (hp : p < n) :
    a.divisibility.toInt ∣ (x p).toInt := by
  rw [h.stands hn hc p hp]
  exact h.heads 0 (by omega) (dvd_zero _)

end Axis

/-! ### Tensors -/

/-- A fact is true of a tensor, run by run: it has one axis per dimension, every axis holds of the
lines along its dimension, and the constant is every element. -/
structure Fact.Holds (f : Fact) (x : Tensor) : Prop where
  rank : f.rank = max x.shape.length 1
  axes : ∀ (d : Nat) (a : Axis), f.axes[d]? = some a → ∀ i, x.shape.Contains i →
    a.Holds (x.shape.getD d 1) (x.line d i)
  constant : f.Fixes x

def Fact.Tracked (f : Fact) : Prop := ∀ a ∈ f.axes, a.Tracked

instance (f : Fact) : Decidable f.Tracked := inferInstanceAs (Decidable (∀ a ∈ f.axes, a.Tracked))

/-- What an axis and a constant say of a line, run by run. -/
structure Lane.Holds (l : Lane) (n : Nat) (x : Nat → Int64) : Prop where
  axis : l.toAxis.Holds n x
  constant : ∀ c, l.constant = some c → ∀ p < n, x p = c

namespace Fact

variable {f : Fact} {x : Tensor}

theorem Tracked.axis (h : f.Tracked) {d : Nat} {a : Axis} (ha : f.axes[d]? = some a) : a.Tracked :=
  h a (List.mem_of_getElem? ha)

theorem Tracked.positive (h : f.Tracked) : f.Positive f.rank :=
  ⟨rfl, fun a ha => (h a ha).positive⟩

theorem Tracked.lane (h : f.Tracked) {d : Nat} {l : Lane} (hl : f.lane d = .ok l) :
    l.toAxis.Tracked :=
  h.axis (lane_eq_ok.mp hl).1

/-- The lane of a fact holds of the lines of its dimension. -/
theorem Holds.lane (h : f.Holds x) {d : Nat} {l : Lane} (hl : f.lane d = .ok l) {i : Position}
    (hi : x.shape.Contains i) : l.Holds (x.shape.getD d 1) (x.line d i) := by
  obtain ⟨haxis, hconstant⟩ := lane_eq_ok.mp hl
  refine ⟨h.axes d _ haxis i hi, fun c hc p hp => ?_⟩
  exact h.constant c (hconstant ▸ hc) _ (hi.set hp)

theorem Holds.congr {z : Tensor} (h : f.Holds x) (hshape : x.shape = z.shape)
    (hz : ∀ i, z.shape.Contains i → z i = x i) : f.Holds z where
  rank := hshape ▸ h.rank
  axes d a ha i hi := by
    rw [← hshape] at hi ⊢
    apply (h.axes d a ha i hi).congr
    intro p hp
    exact (hz _ (hshape ▸ hi.set hp)).symm
  constant c hc i hi := (hz i hi).trans (h.constant c hc i (hshape ▸ hi))

/-- A fact of one dimension without a constant holds of a line as its axis does. -/
theorem holds_along {p : Axis} {n : Nat} {line : Nat → Int64} :
    (⟨[p], none⟩ : Fact).Holds (.along n line) ↔ p.Holds n line := by
  have hline : ∀ i, Shape.Contains [n] i → (Tensor.along n line).line 0 i = line := by
    intro i hi
    obtain ⟨q, j, rfl, _, _⟩ := Shape.contains_cons.mp hi
    funext k
    rfl
  constructor
  · intro h
    rcases Nat.eq_zero_or_pos n with rfl | hn
    · exact ⟨by omega, by omega⟩
    · have hfirst : Shape.Contains [n] [0] := .cons hn .nil
      have haxis := h.axes 0 p rfl [0] hfirst
      rwa [hline [0] hfirst] at haxis
  · intro h
    refine ⟨rfl, fun d q hq i hi => ?_, by rintro _ ⟨⟩⟩
    cases d with
    | zero =>
      cases hq
      rw [hline i hi]
      exact h
    | succ d => cases hq

/-- Without a constant, a fact says what its axes say. -/
theorem holds_none_iff {axes : List Axis} (hrank : axes.length = max x.shape.length 1) :
    (⟨axes, none⟩ : Fact).Holds x ↔ ∀ (d : Nat) (a : Axis), axes[d]? = some a →
      ∀ i, x.shape.Contains i → a.Holds (x.shape.getD d 1) (x.line d i) :=
  ⟨fun h => h.axes, fun h => ⟨hrank, h, by rintro _ ⟨⟩⟩⟩

/-- A tensor of one number meets what is said of it, along runs of any length. -/
theorem holds_of_isConstant {value : Int64} (h : x.IsConstant value) {axes : List Axis}
    (hrank : axes.length = max x.shape.length 1) (haxes : ∀ (d : Nat) (a : Axis),
      axes[d]? = some a → ∃ run, a = ⟨Word.powerDivisor value, run, 0⟩) :
    (⟨axes, some value⟩ : Fact).Holds x where
  rank := hrank
  axes d a ha i hi := by
    obtain ⟨run, rfl⟩ := haxes d a ha
    exact Axis.holds_uniform (Word.powerDivisor_dvd value) fun p hp => h _ (hi.set hp)
  constant := h.fixes rfl

theorem holds_ofConstant {value : Int64} (h : x.IsConstant value) {shape : List Int64}
    (hrank : shape.length = max x.shape.length 1) : (Fact.ofConstant value shape).Holds x := by
  refine holds_of_isConstant h ((rank_ofConstant value shape).trans hrank) fun d a ha => ?_
  obtain ⟨extent, _, rfl⟩ := Option.map_eq_some_iff.mp (List.getElem?_map .. ▸ ha)
  exact ⟨extent, rfl⟩

end Fact

end TileFacts

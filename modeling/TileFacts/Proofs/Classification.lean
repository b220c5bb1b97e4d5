import TileFacts.Proofs.Pattern
import TileFacts.Proofs.Runs

/-! Patterns told from facts that hold run by run.

What a pattern says of a line (`AccessPattern.HoldsAlong`) is completed here by how long its blocks
are and by what a strided pattern says (`AccessPattern.FitsAlong`). Main statement: a pattern can be
told from every fact with positive divisors and runs, it is the one that the last axis calls for,
and it says nothing that the fact does not say (`AccessPattern.classify_tells`). Divisors need not
be powers of two here. -/
namespace TileFacts

namespace AccessPattern

/-- Blocks fit the line. Strided offsets make their step, which is no step of another pattern,
inside runs of two elements or more that fit the line. -/
def FitsAlong (run : Int64) (n : Nat) (x : Nat → Int64) : AccessPattern → Prop
  | contiguous width _ => width.toInt ≤ n
  | strided step => step ≠ 0 ∧ step ≠ 1 ∧ 2 ≤ run.toInt ∧ run.toInt ≤ n ∧
    ∀ p, p + 1 < n → ¬ run.toInt ∣ (p + 1 : Nat) → x (p + 1) = x p + step
  | uniform | gather => True

variable {a : Axis} {n : Nat} {x : Nat → Int64}

theorem aligns_of_holds (h : a.Holds n x) : Aligns a n x := by
  intro hdvd p hp hblock
  by_cases hle : a.run.toInt ≤ n
  · rw [min_eq_left hle] at hdvd hblock ⊢
    exact hdvd.trans (h.heads p hp hblock)
  · -- The line is shorter than a run, and its only block starts where the line does.
    rw [min_eq_right (not_le.mp hle).le] at hdvd hblock ⊢
    have hfirst : p = 0 := Nat.eq_zero_of_dvd_of_lt (Int.natCast_dvd_natCast.mp hblock) hp
    rw [hfirst]
    exact hdvd.trans (h.heads 0 (by omega) (dvd_zero _))

theorem ReadOff.fitsAlong {pattern : AccessPattern} (h : pattern.ReadOff a n)
    (hsteps : a.Steps n x) : pattern.FitsAlong a.run n x := by
  cases h with
  | contiguous _ _ _ hwidth =>
    show _ ≤ _
    rw [hwidth]
    exact min_le_right _ _
  | strided hrun hfits hknown hzero hone => exact ⟨hzero, hone, hrun, hfits, hsteps hknown⟩
  | uniform | gather => trivial

/-- A pattern can always be told, and it says only what the fact says of every line along the last
dimension. -/
theorem classify_tells {f : Fact} {t : ValueType} (hzero : 0 ∉ t.shape)
    (hfit : ∀ extent ∈ t.shape, extent < 2 ^ 63) (hf : f.Positive t.factRank) :
    ∃ pattern a, classify f t = .ok pattern ∧ f.axes[t.factRank - 1]? = some a ∧
      pattern.ReadOff a (t.shape.getD (t.factRank - 1) 1) ∧
      ∀ x : Tensor, x.shape = t.shape → f.Holds x → ∀ i, t.shape.Contains i →
        pattern.HoldsAlong (t.shape.getD (t.factRank - 1) 1) (x.line (t.factRank - 1) i) ∧
        pattern.FitsAlong a.run (t.shape.getD (t.factRank - 1) 1)
          (x.line (t.factRank - 1) i) := by
  have hfits : ∀ extent ∈ t.shape, extent < UInt64.size := fun extent hextent =>
    (hfit extent hextent).trans (by decide)
  obtain ⟨pattern, hpattern⟩ :=
    exists_classify hf.rank (fun a ha => (hf.axes a ha).divisibility) hzero hfits
  obtain ⟨a, extent, ha, hextent, hread⟩ := classify_eq_ok.mp hpattern
  have hreadOff := readOff_of_ofAxis hread (hf.axis ha).run
    (ValueType.extent_of_factShape hfit hzero hextent).1
  refine ⟨pattern, a, hpattern, ha, hreadOff, ?_⟩
  intro x hshape hx i hi
  have hline := hx.axes _ a ha i (hshape ▸ hi)
  rw [hshape] at hline
  exact ⟨hreadOff.holdsAlong hline.steps fun _ => aligns_of_holds hline,
    hreadOff.fitsAlong hline.steps⟩

/-- A run of thirty-two offsets that is cut off after eight, at a start that sixteen divides. -/
theorem classify_tells_cut :
    ∃ pattern, classify ⟨[⟨16, 32, 1⟩], none⟩ ⟨.i32, [8]⟩ = .ok pattern ∧
      pattern = contiguous 8 true ∧
      pattern.HoldsAlong 8 ((Tensor.along 8 fun p => 48 + Int64.ofNat p).line 0 [0]) := by
  obtain ⟨pattern, a, hpattern, _, _, hall⟩ :=
    @classify_tells ⟨[⟨16, 32, 1⟩], none⟩ ⟨.i32, [8]⟩ (by decide) (by decide) (by decide)
  have htold : pattern = contiguous 8 true := by
    have hclassify : classify ⟨[⟨16, 32, 1⟩], none⟩ ⟨.i32, [8]⟩ = .ok (contiguous 8 true) := by
      decide
    rw [hpattern] at hclassify
    exact Except.ok.inj hclassify
  refine ⟨pattern, hpattern, htold, ?_⟩
  have hx : (⟨[⟨16, 32, 1⟩], none⟩ : Fact).Holds (Tensor.along 8 fun p => 48 + Int64.ofNat p) :=
    Fact.holds_along.mpr (by decide)
  exact (hall _ rfl hx [0] (.cons (by decide) .nil)).1

end AccessPattern

end TileFacts

import TileFacts.Proofs.Rule.Arithmetic

/-! Shifts along a line.

A left shift by a known amount scales a line by a power of two. A right shift divides, of the
signed or the unsigned reading; both readings have one residue, so what a power of two says of
the first element is the same for both. Steps do not survive a division. -/
namespace TileFacts.Policy

/-- A known shift amount is the constant of its lane, and small. -/
theorem shiftAmount_eq_some {r : Lane} {s : Int64} (h : shiftAmount r = some s) :
    r.constant = some s ∧ isShiftAmount s = true ∧ 0 ≤ s.toInt ∧ s.toInt < 64 := by
  obtain ⟨hc, hs⟩ := Option.filter_eq_some_iff.mp h
  exact ⟨hc, hs, Word.isShiftAmount_iff.mp hs⟩

/-- A shift amount that is usable is good for a factor. -/
theorem shiftedStep_eq (step : Int64) {shift : Int64}
    (h : 0 ≤ shift.toInt ∧ shift.toInt < 64) : shiftedStep step shift =
      .ok (((Word.mul? step (1 <<< shift)).filter fun s =>
        s.toInt.natAbs ≤ Word.maxPower.toInt.natAbs).getD unknownStep) := by
  rw [shiftedStep, Word.checkedShl_of_small h]
  rfl

/-- A known step after a left shift is a multiple of the step before it. -/
theorem shiftLeft_step {l r : Lane} {shift step : Int64} (hs : shiftAmount r = some shift)
    (hstep : shiftLeft.step .shl l r = .ok step) (h : step ≠ unknownStep) :
    l.step ≠ unknownStep ∧
      step.toInt ≡ l.step.toInt * 2 ^ shift.toInt.toNat [ZMOD 2 ^ 64] := by
  obtain ⟨_, _, hbounds⟩ := shiftAmount_eq_some hs
  have hone : (1 <<< shift : Int64).toInt ≡ 2 ^ shift.toInt.toNat [ZMOD 2 ^ 64] := by
    simpa using Word.toInt_shiftLeft_modEq hbounds 1
  simp only [shiftLeft, hs, beq_iff_eq] at hstep
  by_cases hls : l.step = unknownStep
  · rw [if_pos hls] at hstep
    exact absurd (Except.ok.inj hstep).symm h
  · rw [if_neg hls, shiftedStep_eq l.step hbounds] at hstep
    cases hstep
    refine ⟨hls, ?_⟩
    cases hmul : (Word.mul? l.step (1 <<< shift)).filter fun s =>
        s.toInt.natAbs ≤ Word.maxPower.toInt.natAbs with
    | none =>
      rw [hmul] at h
      exact absurd rfl h
    | some w =>
      obtain ⟨hw, _⟩ := Option.filter_eq_some_iff.mp hmul
      rw [Option.getD_some, Word.ofInt?_eq_some.mp hw]
      exact hone.mul_left _

/-- A left shift is a product with a power of two. -/
theorem evaluate_shiftLeft {a s c : Int64} (h : BinaryOp.shl.evaluate a s = some c) :
    (0 ≤ s.toInt ∧ s.toInt < 64) ∧ c.toInt ≡ a.toInt * 2 ^ s.toInt.toNat [ZMOD 2 ^ 64] := by
  simp only [BinaryOp.evaluate] at h
  split at h
  · next hs =>
    cases h
    have hbounds := Word.isShiftAmount_iff.mp hs
    exact ⟨hbounds, Word.toInt_shiftLeft_modEq hbounds a⟩
  · cases h

theorem shiftLeft_divisibility {l r : Lane} {shift m : Int64} (hl : Word.IsPower l.divisibility)
    (hs : shiftAmount r = some shift) (hm : shiftLeft.divisibility .shl l r = .ok m) :
    Word.IsPower m ∧ m.toInt ∣ l.divisibility.toInt * 2 ^ shift.toInt.toNat := by
  obtain ⟨_, _, hbounds⟩ := shiftAmount_eq_some hs
  obtain ⟨w, hw, hpow, _, hdvd⟩ := hl.scaleUp hbounds
  simp only [shiftLeft, hs] at hm
  cases hw.symm.trans hm
  exact ⟨hpow, hdvd⟩

theorem shiftLeft_sound : shiftLeft.Sound .shl := by
  apply sound_of_variable rfl
  intro l r n x y z hl hr hz _ m step hm hstep
  cases hs : shiftAmount r with
  | none =>
    simp only [shiftLeft, hs] at hm hstep ⊢
    cases hm
    cases hstep
    exact Axis.describes_of_unit unknownStep
  | some shift =>
    obtain ⟨hpow, hdvd⟩ := shiftLeft_divisibility hl.axis.power hs hm
    have hrun : shiftLeft.run .shl l r = l.run := by simp [shiftLeft, hs]
    rw [hrun]
    refine hl.axis.scale (fun p hp => ?_) hpow hdvd hl.axis.run_pos dvd_rfl
      (shiftLeft_step hs hstep)
    have heval := hz p hp
    rw [hr.constant shift (shiftAmount_eq_some hs).1 p hp] at heval
    exact (evaluate_shiftLeft heval).2

/-- What a right shift by a known amount leaves of an element: the quotient, of the signed or
the unsigned reading. -/
theorem evaluate_shiftRight {op : BinaryOp} (hop : op = .shrS ∨ op = .shrU) {a s c : Int64}
    (h : op.evaluate a s = some c) :
    (0 ≤ s.toInt ∧ s.toInt < 64) ∧ ∃ u : Int, u ≡ a.toInt [ZMOD 2 ^ 64] ∧
      c.toInt ≡ u / 2 ^ s.toInt.toNat [ZMOD 2 ^ 64] := by
  by_cases hs : isShiftAmount s = true
  · have hbounds := Word.isShiftAmount_iff.mp hs
    refine ⟨hbounds, ?_⟩
    rcases hop with rfl | rfl
    · simp only [BinaryOp.evaluate, hs, if_true, Option.some.injEq] at h
      refine ⟨a.toInt, rfl, ?_⟩
      rw [← h, Word.toInt_shiftRight hbounds]
    · simp only [BinaryOp.evaluate, hs, if_true, Option.some.injEq] at h
      refine ⟨a.toUInt64.toNat, Word.toNat_modEq a, ?_⟩
      rw [← h]
      refine (Word.toInt_toInt64_modEq _).trans ?_
      rw [Word.toNat_shiftRight hbounds]
      norm_cast
  · rcases hop with rfl | rfl <;> simp [BinaryOp.evaluate, hs] at h

/-- A divisor moved down by a shift is a power of two again, or gives way to one. -/
theorem shiftRight_divisor {m shift : Int64} (hm : Word.IsPower m)
    (hbounds : 0 ≤ shift.toInt ∧ shift.toInt < 64) :
    Word.IsPower (max (m >>> shift) 1) ∧
      ∀ u : Int, m.toInt ∣ u → (max (m >>> shift) 1).toInt ∣ u / 2 ^ shift.toInt.toNat := by
  obtain ⟨k, hk, hmk⟩ := hm
  have hword : (m >>> shift).toInt = 2 ^ k / 2 ^ shift.toInt.toNat := by
    rw [Word.toInt_shiftRight hbounds, hmk]
  refine ⟨Word.isPower_max_one hk hword, ?_⟩
  rintro u ⟨v, rfl⟩
  rcases Word.max_one_of_quotient hword with hone | ⟨hle, hquot⟩
  · rw [hone]
    exact one_dvd _
  · have hsplit : m.toInt = 2 ^ (k - shift.toInt.toNat) * 2 ^ shift.toInt.toNat := by
      rw [hmk, ← pow_add]
      congr 1
      omega
    rw [hquot, hsplit, mul_right_comm, Int.mul_ediv_cancel _ (by positivity)]
    exact dvd_mul_right ..

/-- A usable amount is one to shift right by. -/
theorem shiftRight_divisibility (op : BinaryOp) (l : Lane) {r : Lane} {shift : Int64}
    (hs : shiftAmount r = some shift) :
    shiftRight.divisibility op l r = .ok (max (l.divisibility >>> shift) 1) := by
  simp only [shiftRight, hs, Word.checkedShr_of_small (shiftAmount_eq_some hs).2.2]
  rfl

theorem shiftRight_sound {op : BinaryOp} (hop : op = .shrS ∨ op = .shrU) :
    shiftRight.Sound op := by
  apply sound_of_variable rfl
  intro l r n x y z hl hr hz _ m step hm hstep
  cases hs : shiftAmount r with
  | none =>
    simp only [shiftRight, hs] at hm hstep ⊢
    cases hm
    cases hstep
    exact Axis.describes_of_unit unknownStep
  | some shift =>
    obtain ⟨hc, _, hbounds⟩ := shiftAmount_eq_some hs
    obtain ⟨hpow, hquot⟩ := shiftRight_divisor hl.axis.power hbounds
    rw [shiftRight_divisibility op l hs] at hm
    simp only [shiftRight, hs] at hstep ⊢
    cases hm
    cases hstep
    have hz' : ∀ p < n, ∃ u : Int, u ≡ (x p).toInt [ZMOD 2 ^ 64] ∧
        (z p).toInt ≡ u / 2 ^ shift.toInt.toNat [ZMOD 2 ^ 64] := by
      intro p hp
      have := hz p hp
      rw [hr.constant shift hc p hp] at this
      exact (evaluate_shiftRight hop this).2
    by_cases h0 : shift = 0
    · -- A shift by zero changes neither the elements nor what is said of them.
      subst h0
      have hmax : (max (l.divisibility >>> 0) 1).toInt = l.divisibility.toInt := by
        have := hl.axis.power.pos
        rw [Int64.shiftRight_zero]
        show (if l.divisibility ≤ 1 then 1 else l.divisibility).toInt = _
        split
        · next hle =>
          have hle' : l.divisibility.toInt ≤ 1 := Int64.le_iff_toInt_le.mp hle
          show (1 : Int) = _
          omega
        · rfl
      simp only [beq_self_eq_true, if_true]
      have hxz : ∀ p < n, x p = z p := by
        intro p hp
        obtain ⟨u, hu, hzu⟩ := hz' p hp
        exact Word.eq_of_modEq (hu.symm.trans (by simpa using hzu.symm))
      exact (hl.axis.weaken hpow (by rw [hmax]) hl.axis.run_pos dvd_rfl (.inl rfl)).congr hxz
    · simp only [Option.some_beq_some, beq_iff_eq, h0, if_false]
      refine Axis.describes_of_head hpow (by decide) fun hn => ?_
      obtain ⟨u, hu, hzu⟩ := hz' 0 hn
      refine (hpow.of_modEq hzu).dvd_iff.mpr (hquot u ?_)
      exact (hl.axis.power.of_modEq hu).dvd_iff.mpr (hl.axis.head hn)

end TileFacts.Policy

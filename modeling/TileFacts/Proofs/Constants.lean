import TileFacts.Proofs.Possible

/-! Constants that the inference finds.

A fact fixes a tensor if the constant it knows, if any, is every element (`Fact.Fixes`). Rules fold
constants with the operator itself, keep a dividend where the divisor is one or the dividend is
zero, and otherwise hand constants on unchanged, so every answer fixes what is computed. This needs
no bound on extents and leaves no operator out. Main statement: on every graph that can be built,
the constant of a value is every element of every tensor the value can be. -/
namespace TileFacts

/-- The constant of a fact, if there is one, is every element. -/
def Fact.Fixes (f : Fact) (x : Tensor) : Prop := ∀ c, f.constant = some c → x.IsConstant c

/-! ### Quotients and remainders without arithmetic -/

namespace BinaryOp

variable {op : BinaryOp} {l r q : Int64}

theorem evaluate_div_one (hdiv : op = .divS ∨ op = .divU) (l : Int64) :
    op.evaluate l 1 = some l := by
  have hone : Int64.toUInt64 1 = 1 := rfl
  rcases hdiv with rfl | rfl <;> simp [evaluate, undividable, hone]

theorem evaluate_rem_one (hrem : op = .remS ∨ op = .remU) (l : Int64) :
    op.evaluate l 1 = some 0 := by
  have hone : Int64.toUInt64 1 = 1 := rfl
  rcases hrem with rfl | rfl <;> simp [evaluate, undividable, hone]

theorem evaluate_zero (hop : op = .divS ∨ op = .divU ∨ op = .remS ∨ op = .remU) (hr : r ≠ 0) :
    op.evaluate 0 r = some 0 := by
  have hzero : Int64.toUInt64 0 = 0 := rfl
  have hmin : (0 : Int64) ≠ Int64.minValue := by decide
  rcases hop with rfl | rfl | rfl | rfl <;> simp [evaluate, undividable, hzero, hr, hmin]

theorem evaluate_by_zero (hop : op = .divS ∨ op = .divU ∨ op = .remS ∨ op = .remU) (l : Int64) :
    op.evaluate l 0 = none := by
  rcases hop with rfl | rfl | rfl | rfl <;> simp [evaluate, undividable]

theorem eq_zero_of_evaluate_zero (hop : op = .divS ∨ op = .divU ∨ op = .remS ∨ op = .remU)
    (h : op.evaluate 0 r = some q) : q = 0 := by
  by_cases hr : r = 0
  · rw [hr, evaluate_by_zero hop] at h
    cases h
  · exact Option.some.inj (h.symm.trans (evaluate_zero hop hr))

end BinaryOp

namespace Tensor.Combines

variable {op : BinaryOp} {a b : Fact} {x y z : Tensor}

/-- The constant that two constants combine to is every element of the result. -/
theorem fold (h : Combines op x y z) (ha : a.Fixes x) (hb : b.Fixes y) {value : Int64}
    (hfold : op.fold a.constant b.constant = some value) : z.IsConstant value := by
  intro i hi
  obtain ⟨l, r, hl, hr, heval⟩ := BinaryOp.fold_eq_some hfold
  have := h.elements i hi
  rw [ha l hl i (h.left ▸ hi), hb r hr i (h.right ▸ hi), heval] at this
  exact (Option.some.inj this).symm

/-- A kept dividend is the quotient. -/
theorem quotient (h : Combines op x y z) (hdiv : op = .divS ∨ op = .divU) (ha : a.Fixes x)
    (hb : b.Fixes y) (hkeeps : Rule.keepsDividend a b = true) {i : Position}
    (hi : z.shape.Contains i) : z i = x i := by
  have heval := h.elements i hi
  simp only [Rule.keepsDividend, Bool.or_eq_true, beq_iff_eq] at hkeeps
  rcases hkeeps with hone | hzero
  · rw [hb 1 hone i (h.right ▸ hi)] at heval
    exact Option.some.inj (heval.symm.trans (BinaryOp.evaluate_div_one hdiv _))
  · have hx := ha 0 hzero i (h.left ▸ hi)
    rw [hx] at heval ⊢
    exact BinaryOp.eq_zero_of_evaluate_zero (hdiv.imp_right .inl) heval

/-- Where a dividend is kept nothing remains. -/
theorem remainder (h : Combines op x y z) (hrem : op = .remS ∨ op = .remU) (ha : a.Fixes x)
    (hb : b.Fixes y) (hkeeps : Rule.keepsDividend a b = true) : z.IsConstant 0 := by
  intro i hi
  have heval := h.elements i hi
  simp only [Rule.keepsDividend, Bool.or_eq_true, beq_iff_eq] at hkeeps
  rcases hkeeps with hone | hzero
  · rw [hb 1 hone i (h.right ▸ hi)] at heval
    exact Option.some.inj (heval.symm.trans (BinaryOp.evaluate_rem_one hrem _))
  · rw [ha 0 hzero i (h.left ▸ hi)] at heval
    exact BinaryOp.eq_zero_of_evaluate_zero (.inr (.inr hrem)) heval

end Tensor.Combines

/-- A known condition takes one branch as a whole. -/
theorem Tensor.Chooses.decided {f : Fact} {c x y z : Tensor} (h : Tensor.Chooses c x y z)
    (hc : f.Fixes c) {value : Int64} (hvalue : f.constant = some value) {i : Position}
    (hi : z.shape.Contains i) : z i = if value ≠ 0 then x i else y i := by
  rw [h.elements i hi, hc value hvalue _ (h.contains_condition hi)]

/-! ### Facts that fix -/

namespace Fact.Fixes

variable {a b c : Fact} {x z : Tensor}

theorem join_left (h : a.Fixes x) (hc : a.join b = .ok c) : c.Fixes x :=
  fun k hk => h k (Fact.constant_of_join hc hk).1

theorem join_right (h : b.Fixes x) (hc : a.join b = .ok c) : c.Fixes x :=
  fun k hk => h k (Fact.constant_of_join hc hk).2

/-- A constant is handed on to whatever takes its elements from the tensor. -/
theorem take (h : a.Fixes x) (hc : b.constant = a.constant)
    (hz : ∀ i, z.shape.Contains i → ∃ j, x.shape.Contains j ∧ z i = x j) : b.Fixes z := by
  intro k hk i hi
  obtain ⟨j, hj, hij⟩ := hz i hi
  rw [hij]
  exact h k (hc ▸ hk) j hj

end Fact.Fixes

theorem Tensor.IsConstant.fixes {z : Tensor} {value : Int64} (h : z.IsConstant value) {f : Fact}
    (hf : f.constant = some value) : f.Fixes z := by
  intro k hk
  rw [hf] at hk
  cases hk
  exact h

/-- Every answer fixes what is computed from tensors that the facts of the operands fix. -/
theorem Answer.fixes {ctx : Context} {types : ValueId → Option ValueType} {facts : List Fact}
    {f : Fact} {xs : List Tensor} {z : Tensor} (h : Answer ctx facts f)
    (hfacts : List.Forall₂ Fact.Fixes facts xs) (hz : ctx.Computes types xs z) : f.Fixes z := by
  cases h with
  | unknown => exact fun c hc => nomatch hc
  | constant hop => exact (hz.constant hop).fixes rfl
  | range hop _ => exact fun c hc => nomatch hc
  | comparison hop _ => exact fun c hc => nomatch hc
  | identity hop =>
    rcases hfacts with _ | ⟨ha, _ | _⟩
    obtain ⟨hx, helements⟩ := hz.cast hop
    exact ha.take rfl fun i hi => ⟨i, hx ▸ hi, helements i hi⟩
  | policy hop | quotient hop | remainder hop =>
    rcases hfacts with _ | ⟨ha, _ | ⟨hb, _ | _⟩⟩
    exact fun c hc => (hz.combines hop).fold ha hb hc
  | folded hop hfold =>
    rcases hfacts with _ | ⟨ha, _ | ⟨hb, _ | _⟩⟩
    exact ((hz.combines hop).fold ha hb hfold).fixes rfl
  | extremumLeft hop hfold hvalue | extremumRight hop hfold hvalue =>
    rcases hfacts with _ | ⟨ha, _ | ⟨hb, _ | _⟩⟩
    exact ((hz.combines hop).fold ha hb hfold).fixes hvalue
  | dividend hop hdiv hkeeps =>
    rcases hfacts with _ | ⟨ha, _ | ⟨hb, _ | _⟩⟩
    have hcombines := hz.combines hop
    exact ha.take rfl fun i hi =>
      ⟨i, hcombines.left ▸ hi, hcombines.quotient hdiv ha hb hkeeps hi⟩
  | noRemainder hop hrem hkeeps =>
    rcases hfacts with _ | ⟨ha, _ | ⟨hb, _ | _⟩⟩
    exact ((hz.combines hop).remainder hrem ha hb hkeeps).fixes rfl
  | compared hop hl hr =>
    rcases hfacts with _ | ⟨ha, _ | ⟨hb, _ | _⟩⟩
    obtain ⟨hx, hy, helements⟩ := hz.comparison hop
    refine Tensor.IsConstant.fixes (fun i hi => ?_) rfl
    rw [helements i hi, ha _ hl i (hx ▸ hi), hb _ hr i (hy ▸ hi)]
  | @decided _ _ _ c a b value hop hvalue =>
    rcases hfacts with _ | ⟨hc, _ | ⟨ha, _ | ⟨hb, _ | _⟩⟩⟩
    have hchooses := hz.chooses hop
    split
    · next h0 =>
      refine ha.take rfl fun i hi => ⟨i, hchooses.left ▸ hi, ?_⟩
      rw [hchooses.decided hc hvalue hi, if_pos h0]
    · next h0 =>
      refine hb.take rfl fun i hi => ⟨i, hchooses.right ▸ hi, ?_⟩
      rw [hchooses.decided hc hvalue hi, if_neg h0]
  | choice hop hjoin _ _ =>
    rcases hfacts with _ | ⟨hc, _ | ⟨ha, _ | ⟨hb, _ | _⟩⟩⟩
    have hchooses := hz.chooses hop
    intro k hk i hi
    have hx := ha.join_left hjoin k hk i (hchooses.left ▸ hi)
    have hy := hb.join_right hjoin k hk i (hchooses.right ▸ hi)
    rw [hchooses.elements i hi, hx, hy, ite_self]
  | splat hop _ =>
    rcases hfacts with _ | ⟨ha, _ | _⟩
    obtain ⟨hx, helements⟩ := hz.splat hop
    exact ha.take rfl fun i hi => ⟨[], by simp [hx], helements i hi⟩
  | broadcastScalar hop _ _ _ | broadcast hop _ _ _ =>
    rcases hfacts with _ | ⟨ha, _ | _⟩
    obtain ⟨hx, helements⟩ := hz.broadcast hop
    refine ha.take rfl fun i hi => ⟨_, ?_, helements i hi⟩
    rcases hx with hx | ⟨hlen, hstretch⟩
    · simp [hx, Shape.stretched]
    · exact Shape.contains_stretched hi hlen hstretch
  | expandScalar hop _ _ | expandDims hop _ _ =>
    rcases hfacts with _ | ⟨ha, _ | _⟩
    obtain ⟨_, _, helements⟩ := hz.expandDims hop
    exact ha.take rfl fun i hi => ⟨_, helements i hi⟩

theorem Fact.fixes_meaning (g : Graph) : Meaning g Fact.Fixes where
  top _ := fun _ hc => nomatch hc
  join_left h hc := h.join_left hc
  join_right h hc := h.join_right hc
  answer _ _ _ hanswer _ hfacts hx := hanswer.fixes hfacts hx

/-! ### Constants of graphs -/

/-- Whatever a graph is built from and however often a value may be looked at: a constant that is
found for a value is every element of every tensor that the value can be. -/
theorem Inference.constants_hold {g : Graph} (hg : g.Built) (settings : Settings) :
    ∃ inference, (Inference.run g .standard settings).2 = .ok inference ∧
      ∀ v x, g.Possible g.Grounded v x →
        ∃ f, inference.lookup v = some f ∧ ∀ c, f.constant = some c → x.IsConstant c := by
  obtain ⟨inference, hrun, hsolution⟩ := Inference.run_solution hg.wellTyped settings
  refine ⟨inference, hrun, fun v x hx => ?_⟩
  exact (Fact.fixes_meaning g).sound hg.wellTyped hsolution hx

/-- A loop that multiplies three by one, over and over. -/
def Graph.steady : Graph :=
  ⟨[⟨.const 3, .scalar .i32⟩, ⟨.merge [0, 3], .scalar .i32⟩, ⟨.const 1, .scalar .i32⟩,
    ⟨.binary .mul 1 2, .scalar .i32⟩]⟩

theorem Graph.steady_built : Graph.steady.Built :=
  .of_requests [.define (.const 3 (.scalar .i32)), .define (.merge 0),
    .define (.const 1 (.scalar .i32)), .define (.binary .mul 1 2), .addMergeInput 1 3] .empty
    (by decide)

/-- Three is what the loop can be. -/
theorem Graph.steady_possible : Graph.steady.Possible Graph.steady.Grounded 1 ⟨[], fun _ => 3⟩ := by
  refine .merge (u := 0) rfl rfl (by simp [Op.operands]) ?_
  exact .of_operands rfl .nil (.const fun _ _ => rfl) rfl

theorem Inference.constants_hold_steady : Graph.steady.Built ∧
    Graph.steady.Possible Graph.steady.Grounded 1 ⟨[], fun _ => 3⟩ ∧
    ∃ inference f, (Inference.run .steady .standard .standard).2 = .ok inference ∧
      inference.lookup 1 = some f ∧ f.constant = some 3 ∧
      ∀ x, Graph.steady.Possible Graph.steady.Grounded 1 x → x.IsConstant 3 := by
  obtain ⟨inference, hrun, hall⟩ := Inference.constants_hold Graph.steady_built .standard
  have hlookup : inference.lookup 1 = some (.ofConstant 3 [1]) :=
    Inference.lookup_of_run hrun (by decide +kernel)
  refine ⟨Graph.steady_built, Graph.steady_possible, inference, _, hrun, hlookup, rfl, ?_⟩
  intro x hx
  obtain ⟨f, hf, hconstant⟩ := hall 1 x hx
  rw [hlookup] at hf
  cases hf
  exact hconstant 3 rfl

/-- An update that waits for a loop of merges which nothing enters, as one of two inputs. -/
def Graph.waiting : Graph :=
  ⟨[⟨.const 0, .scalar .i32⟩, ⟨.merge [2], .scalar .i32⟩, ⟨.merge [1], .scalar .i32⟩,
    ⟨.arg 0, .scalar (.pointer .i32 .global)⟩, ⟨.atomicRmw .add 3 1 none, .scalar .i32⟩,
    ⟨.const 7, .scalar .i32⟩, ⟨.merge [5, 4], .scalar .i32⟩]⟩

/-- An update that is never reached could not be taken to be any tensor: the merge that has it as
an input keeps the constant of its other input. -/
theorem Inference.constant_of_unreached : Graph.waiting.Built ∧
    ∃ inference f x, (Inference.run .waiting .standard .standard).2 = .ok inference ∧
      inference.lookup 6 = some f ∧ f.constant = some 7 ∧
      Graph.waiting.Possible (fun _ => True) 6 x ∧ ¬ x.IsConstant 7 := by
  have hbuilt : Graph.waiting.Built :=
    .of_requests [.define (.const 0 (.scalar .i32)), .define (.merge 0), .define (.merge 1),
      .replaceAllUses 0 2, .define (.arg 0 (.scalar (.pointer .i32 .global))),
      .define (.atomicRmw .add 3 1 none), .define (.const 7 (.scalar .i32)), .define (.merge 5),
      .addMergeInput 6 4] .empty (by decide)
  obtain ⟨inference, hrun, _⟩ := Inference.run_solution hbuilt.wellTyped .standard
  have hlookup : inference.lookup 6 = some (.ofConstant 7 [1]) :=
    Inference.lookup_of_run hrun (by decide +kernel)
  refine ⟨hbuilt, inference, _, ⟨[], fun _ => 0⟩, hrun, hlookup, rfl, ?_, ?_⟩
  · exact .merge (u := 4) rfl rfl (by simp [Op.operands]) (.free rfl rfl trivial rfl)
  · intro h
    exact absurd (h [] (by simp)) (by decide)

end TileFacts

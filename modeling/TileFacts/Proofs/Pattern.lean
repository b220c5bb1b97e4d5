import TileFacts.Proofs.Access
import TileFacts.Proofs.Update

/-! What access patterns say of offsets, and which operations they can be relied on with.

A uniform pattern says that offsets stay the same along the last dimension, a contiguous one that
they count up by one inside blocks, and whether blocks start at multiples of their width
(`AccessPattern.Holds`). A pattern is read off the fact of an offset (`AccessPattern.ReadOff`), so
it holds wherever facts describe their values (`Lowering.pattern_holds`). Main statement: the
operators and comparisons with which every reported pattern holds are exactly the regular ones. Each
of the others makes some update go wrong on its own, and those updates are what the last part is
about. -/
namespace TileFacts

namespace AccessPattern

/-- What a pattern says of a line of offsets. Blocks start at multiples of the width, so neighbours
are in one block unless the second of them is at such a multiple. -/
def HoldsAlong (n : Nat) (x : Nat → Int64) : AccessPattern → Prop
  | uniform => ∀ p < n, x p = x 0
  | contiguous width aligned => 1 < width.toInt ∧
    (∀ p, p + 1 < n → ¬ width.toInt ∣ (p + 1 : Nat) → x (p + 1) = x p + 1) ∧
    (aligned = true → ∀ p < n, width.toInt ∣ (p : Nat) → width.toInt ∣ (x p).toInt)
  | strided _ | gather => True

/-- What a pattern says of offsets: the same of every line along the last dimension. -/
def Holds (pattern : AccessPattern) (x : Tensor) : Prop :=
  ∀ i, x.shape.Contains i →
    pattern.HoldsAlong (x.shape.getD (x.shape.length - 1) 1) (x.line (x.shape.length - 1) i)

variable {a : Axis} {n : Nat} {x : Nat → Int64} {extent : Int64}

/-- Which pattern is read off the axis of a line. Blocks are runs, or the whole line if that is
shorter than a run, and are aligned if their width divides the divisor. -/
inductive ReadOff (a : Axis) (n : Nat) : AccessPattern → Prop
  | uniform (h : n ≤ 1 ∨ a.step = 0 ∧ n ≤ a.run.toInt) : ReadOff a n uniform
  | contiguous {width : Int64} {aligned : Bool} (hn : 1 < n) (hstep : a.step = 1)
    (hrun : 1 < a.run.toInt) (hwidth : width.toInt = min a.run.toInt n)
    (haligned : aligned = true ↔ width.toInt ∣ a.divisibility.toInt) :
    ReadOff a n (contiguous width aligned)
  | strided (hrun : 1 < a.run.toInt) (hfits : a.run.toInt ≤ n) (hknown : a.step ≠ unknownStep)
    (hzero : a.step ≠ 0) (hone : a.step ≠ 1) : ReadOff a n (strided a.step)
  | gather (hn : 1 < n) (h : a.run.toInt ≤ 1 ∨ a.step = unknownStep ∨
      a.step = 0 ∧ a.run.toInt < n ∨ a.step ≠ 0 ∧ a.step ≠ 1 ∧ n < a.run.toInt) :
    ReadOff a n gather

theorem readOff_of_ofAxis {pattern : AccessPattern} (h : ofAxis a extent = .ok pattern)
    (hrun : 0 < a.run.toInt) (hextent : extent.toInt = n) : pattern.ReadOff a n := by
  have hconstancy := Axis.constancy_pos hrun
  unfold ofAxis at h
  split at h
  · next hle =>
    cases h
    rw [Int64.le_iff_toInt_le, hextent] at hle
    by_cases hstep : a.step = 0
    · exact .uniform (.inr ⟨hstep, by simpa [Axis.constancy, hstep] using hle⟩)
    · exact .uniform (.inl (by simpa [Axis.constancy, hstep] using hle))
  · next hlt =>
    rw [Int64.le_iff_toInt_le, hextent, not_le] at hlt
    have hn : 1 < n := by omega
    split at h
    · next hcontiguity =>
      have hstep : a.step = 1 := by
        by_contra hne
        simp [Axis.contiguity, hne] at hcontiguity
      have hcontiguous : a.contiguity = a.run := by simp [Axis.contiguity, hstep]
      rw [hcontiguous] at hcontiguity h
      obtain ⟨rest, hrest, h⟩ := bind_eq_ok.mp h
      cases h
      refine .contiguous hn hstep (Int64.lt_iff_toInt_lt.mp hcontiguity) ?_ ?_
      · rw [Word.toInt_min, hextent]
      · rw [beq_iff_eq]
        exact Word.checkedRem_eq_zero_iff hrest
    · next hcontiguity =>
      -- No run of step one is longer than one element.
      have hone : a.run.toInt ≤ 1 ∨ a.step ≠ 1 := by
        by_cases hstep : a.step = 1
        · have hrun : ¬ 1 < a.run := by simpa [Axis.contiguity, hstep] using hcontiguity
          rw [Int64.lt_iff_toInt_lt, not_lt] at hrun
          exact .inl hrun
        · exact .inr hstep
      have hzero : a.step = 0 → a.run.toInt < n := by
        intro hstep
        simpa [Axis.constancy, hstep] using hlt
      split at h
      · next hstrided =>
        cases h
        simp only [Axis.isStridedWithin, Bool.and_eq_true, decide_eq_true_eq, bne_iff_ne,
          Int64.lt_iff_toInt_lt, Int64.le_iff_toInt_le, hextent] at hstrided
        obtain ⟨⟨hlong, hknown, hfits⟩, hne⟩ := hstrided
        exact .strided hlong hfits hknown hne (hone.resolve_left (not_le.mpr hlong))
      · next hstrided =>
        cases h
        simp only [Axis.isStridedWithin, Bool.and_eq_true, decide_eq_true_eq, bne_iff_ne,
          Int64.lt_iff_toInt_lt, Int64.le_iff_toInt_le, hextent] at hstrided
        refine .gather hn ?_
        have hlit : (1 : Int64).toInt = 1 := rfl
        grind

/-- Blocks whose width divides the divisor start at multiples of it. -/
def Aligns (a : Axis) (n : Nat) (x : Nat → Int64) : Prop :=
  min a.run.toInt n ∣ a.divisibility.toInt →
    ∀ p < n, min a.run.toInt n ∣ (p : Nat) → min a.run.toInt n ∣ (x p).toInt

theorem aligns_of_describes (ha : a.Describes n x) (hstep : a.step = 1) : Aligns a n x := by
  intro hdvd p hp hblock
  have hknown : a.step ≠ unknownStep := hstep ▸ by decide
  have hcourse := (ha.aligned hknown p hp).of_dvd hdvd
  rw [hstep] at hcourse
  have hzero := Int.modEq_zero_iff_dvd.mpr (hblock.mul_right (1 : Int64).toInt)
  exact Int.modEq_zero_iff_dvd.mp (hcourse.trans hzero)

theorem ReadOff.holdsAlong {pattern : AccessPattern} (h : pattern.ReadOff a n)
    (hsteps : a.Steps n x) (haligns : a.step = 1 → Aligns a n x) : pattern.HoldsAlong n x := by
  cases h with
  | uniform h =>
    intro p hp
    induction p with
    | zero => rfl
    | succ p ih =>
      obtain ⟨hstep, hrun⟩ : a.step = 0 ∧ n ≤ a.run.toInt := h.resolve_left (by omega)
      have hinside : ¬ a.run.toInt ∣ (p + 1 : Nat) := by
        intro hdvd
        have := Int.le_of_dvd (by omega) hdvd
        omega
      rw [hsteps (hstep ▸ by decide) p hp hinside, hstep, Int64.add_zero]
      exact ih (by omega)
  | @contiguous width aligned hn hstep hrun hwidth haligned =>
    refine ⟨by omega, ?_, ?_⟩
    · intro p hp hblock
      rw [← hstep]
      refine hsteps (hstep ▸ by decide) p hp fun hdvd => hblock ?_
      have := Int.le_of_dvd (by omega) hdvd
      rw [hwidth, min_eq_left (by omega)]
      exact hdvd
    · intro htrue
      rw [haligned, hwidth] at htrue
      rw [hwidth]
      exact haligns hstep htrue
  | strided | gather => trivial

/-- A pattern that is read off a fact holds of what the fact describes. -/
theorem holds_of_classify {f : Fact} {t : ValueType} {pattern : AccessPattern} {x : Tensor}
    (h : classify f t = .ok pattern) (hf : f.Describes x) (hshape : x.shape = t.shape)
    (hfit : ∀ extent ∈ t.shape, extent < 2 ^ 63) (hzero : 0 ∉ t.shape) : pattern.Holds x := by
  obtain ⟨a, extent, ha, hextent, h⟩ := classify_eq_ok.mp h
  have hlast : t.factRank - 1 = x.shape.length - 1 := by
    rw [hshape]
    show max t.shape.length 1 - 1 = _
    omega
  rw [hlast] at hextent ha
  intro i hi
  have hdescribes := hf.axes _ a ha i hi
  refine (readOff_of_ofAxis h hdescribes.run_pos ?_).holdsAlong hdescribes.steps
    (aligns_of_describes hdescribes)
  rw [hshape] at hextent ⊢
  exact (ValueType.extent_of_factShape hfit hzero hextent).1

end AccessPattern

/-! ### Graphs whose values are all worked out -/

namespace Graph

/-- Values read earlier values when they are defined, and merges keep the one they began with. -/
theorem Defined.grounded {g : Graph} (hg : g.Defined) {v : ValueId} (hv : v < g.size) :
    g.Grounded v := by
  induction hg generalizing v with
  | empty => exact absurd hv (Nat.not_lt_zero v)
  | @define g d node hg hd ih =>
    have hadds : g.Adds (· = node) (g.push node) := .define .refl hd rfl
    have hkeeps {u : ValueId} (hu : u < g.size) : (g.push node).Grounded u :=
      (ih hu).mono (fun _ _ h _ => hadds.node h)
        fun _ n h hkind => ⟨n, hadds.node h, hkind, List.Subset.refl _⟩
    have hoperands : ∀ u ∈ node.op.operands, (g.push node).Grounded u := by
      intro u hu
      obtain ⟨_, hs⟩ := (hg.built.wellTyped.define hd).op.operand hu
      exact hkeeps (lt_size_of_typeOf? hs)
    have hnode := List.getElem?_eq_getElem hv
    rcases hadds.cases_node hnode with hold | ⟨_, hnew⟩
    · exact hkeeps (List.getElem?_eq_some_iff.mp hold).1
    · rw [hnew] at hnode
      by_cases hkind : node.op.kind = .merge
      · obtain ⟨u, hu⟩ := exists_operand_of_merge hd hkind
        exact .merge hnode hkind hu (hoperands u hu)
      · exact .op hnode hkind hoperands
  | @addMergeInput g g' merge input hg h ih =>
    obtain ⟨inputs, type, hmerge, _, rfl⟩ := addMergeInput_eq_ok h
    rw [size, Graph.set, List.length_set] at hv
    refine (ih hv).mono (fun u node hu hkind => ?_) fun u node hu hkind => ?_
    · have hne : merge ≠ u := by
        rintro rfl
        rw [hmerge] at hu
        cases hu
        exact hkind rfl
      rw [Graph.set, List.getElem?_set_ne hne]
      exact hu
    · by_cases hne : merge = u
      · subst hne
        rw [hmerge] at hu
        cases hu
        refine ⟨_, List.getElem?_set_self (List.getElem?_eq_some_iff.mp hmerge).1, rfl, ?_⟩
        exact List.subset_append_left _ _
      · refine ⟨node, ?_, hkind, List.Subset.refl _⟩
        rw [Graph.set, List.getElem?_set_ne hne]
        exact hu

end Graph

/-! ### Patterns that hold -/

/-- What is known of a value describes it, if the value is worked out. -/
theorem Inference.describes_of_get {g : Graph} (hg : g.Built) (hfit : g.ExtentsFit)
    (hregular : g.Regular) {settings : Settings} {inference : Inference}
    (hrun : (Inference.run g .standard settings).2 = .ok inference) {v : ValueId} {f : Fact}
    (hf : inference.get v = .ok f) {x : Tensor} (hx : g.Possible g.Grounded v x) :
    f.Describes x := by
  obtain ⟨_, hrun', hsolution⟩ := Inference.run_solution hg.wellTyped settings
  rw [hrun] at hrun'
  cases hrun'
  obtain ⟨f', hlookup, hdescribes⟩ :=
    (Fact.describes_meaning hfit hregular).sound hg.wellTyped hsolution hx
  rw [Inference.get, hlookup] at hf
  cases hf
  exact hdescribes

theorem Op.regular_of_isOffset {op : Op} (h : op.isOffset = true) : op.Regular := by
  unfold Op.isOffset at h
  split at h
  · trivial
  · trivial
  · rfl
  · trivial
  · trivial
  · cases h

namespace Lowering

variable {g : Graph} {settings : Settings} {log : List Event} {a : ValueId}
  {record : LoweringRecord} {s s₁ : Session} {t : Target} {x : Tensor}

theorem target_adds {s s' : Session} (h : target a s = .ok t s') {S : Shape → Prop}
    (hS : s.graph.Shaped S) : s.graph.Adds (Node.IsOffset S) s'.graph := by
  obtain ⟨_, _, _, _, _, _, _, htrack, _⟩ := target_eq_ok h
  exact Address.track_adds htrack hS

theorem extentsFit_of_target (hfit : g.ExtentsFit) (h : target a ⟨g, log⟩ = .ok t s₁) :
    s₁.graph.ExtentsFit := by
  have hshaped : g.Shaped fun shape => ∀ extent ∈ shape, extent < 2 ^ 63 := by
    intro v type htype
    obtain ⟨node, hv, rfl⟩ := Option.map_eq_some_iff.mp htype
    exact hfit node (List.mem_of_getElem? hv)
  intro node hnode
  obtain ⟨v, hv⟩ := List.mem_iff_getElem?.mp hnode
  exact hshaped.of_adds (target_adds h hshaped) v node.type (by rw [Graph.typeOf?, hv]; rfl)

theorem regular_of_target (hregular : g.Regular) (h : target a ⟨g, log⟩ = .ok t s₁) :
    s₁.graph.Regular := by
  intro node hnode
  obtain ⟨v, hv⟩ := List.mem_iff_getElem?.mp hnode
  rcases (target_adds h (Address.shaped_true g)).cases_node hv with hv | ⟨_, hoffset, _⟩
  · exact hregular node (List.mem_of_getElem? hv)
  · exact Op.regular_of_isOffset hoffset

/-- The pattern of a regular graph holds of every offset that is worked out. -/
theorem pattern_holds (hg : g.Built) (hfit : g.ExtentsFit) (hregular : g.Regular)
    (hone : one settings a ⟨g, log⟩ = .ok record s) (htarget : target a ⟨g, log⟩ = .ok t s₁)
    (hx : s₁.graph.Possible s₁.graph.Grounded t.address.offset x) : record.pattern.Holds x := by
  obtain ⟨t', s₁', inference, pattern, s₂, htarget', hinfer, hpattern, hreplace⟩ := one_eq_ok hone
  rw [htarget] at htarget'
  cases htarget'
  obtain ⟨hgraph, hrun⟩ := infer_eq_ok hinfer
  obtain ⟨_, f, type, hget, htype, hclassify⟩ := accessPattern_eq_ok hpattern
  obtain ⟨_, _, _, _, _, _, hrecord, _⟩ := replace_eq_ok hreplace
  -- The facts are those of the graph that tracking has left, with the offset in it.
  have hbuilt : s₁.graph.Built := (target_adds htarget (Address.shaped_true g)).built hg
  have hfit₁ := extentsFit_of_target hfit htarget
  have hdescribes :=
    Inference.describes_of_get hbuilt hfit₁ (regular_of_target hregular htarget) hrun hget hx
  obtain ⟨type', htype', hshape⟩ := hx.shape hbuilt.wellTyped
  rw [hgraph, htype'] at htype
  cases htype
  obtain ⟨node, hnode, rfl⟩ := Option.map_eq_some_iff.mp htype'
  rw [hrecord]
  exact AccessPattern.holds_of_classify hclassify hdescribes hshape
    (hfit₁ node (List.mem_of_getElem? hnode)) (hbuilt.wellTyped.extents_of_typeOf? htype')

/-- Whatever graph is built of permitted operations, as long as its extents fit words: the pattern
that an update is lowered with holds of every offset that it can have. What comes from outside can
be any tensor; if uses have been redirected, any tensor once it is worked out at all. -/
def PatternsHold (permitted : Op → Prop) : Prop :=
  ∀ (g : Graph) (settings : Settings) (log : List Event) (a : ValueId) (record : LoweringRecord)
    (t : Target) (s s₁ : Session) (x : Tensor), g.Built → g.ExtentsFit →
    (∀ node ∈ g.nodes, permitted node.op) → one settings a ⟨g, log⟩ = .ok record s →
    target a ⟨g, log⟩ = .ok t s₁ →
    s₁.graph.Possible (fun v => g.Defined ∨ s₁.graph.Grounded v) t.address.offset x →
    record.pattern.Holds x

theorem PatternsHold.anti {permitted permitted' : Op → Prop} (h : PatternsHold permitted)
    (hsub : ∀ op, permitted' op → permitted op) : PatternsHold permitted' :=
  fun g settings log a record t s s₁ x hg hfit hpermitted =>
    h g settings log a record t s s₁ x hg hfit fun node hnode => hsub _ (hpermitted node hnode)

theorem patternsHold_regular : PatternsHold Op.Regular := by
  intro g settings log a record t s s₁ x hg hfit hregular hone htarget hx
  have hadds := target_adds htarget (Address.shaped_true g)
  refine pattern_holds hg hfit hregular hone htarget (hx.mono fun v hv hruns => ?_)
  rcases hruns with hdefined | hgrounded
  · exact (hadds.defined hdefined).grounded hv
  · exact hgrounded

end Lowering

/-! ### Patterns that do not hold -/

/-- A row is its own last dimension. -/
theorem AccessPattern.Holds.along {pattern : AccessPattern} {n : Nat} {f : Nat → Int64}
    (h : pattern.Holds (.along (n + 1) f)) : pattern.HoldsAlong (n + 1) f :=
  h [0] (Shape.contains_cons.mpr ⟨0, [], rfl, Nat.succ_pos n, .nil⟩)

namespace Lowering

variable {g g₁ : Graph} {a : ValueId} {t : Target} {pattern : AccessPattern}

theorem exists_of_results
    (hone : ((one .standard a).result ⟨g, []⟩).map (·.1.pattern) = some pattern)
    (htarget : (target a).result ⟨g, []⟩ = some (t, g₁)) :
    ∃ record s s₁, one .standard a ⟨g, []⟩ = .ok record s ∧ record.pattern = pattern ∧
      target a ⟨g, []⟩ = .ok t s₁ ∧ s₁.graph = g₁ := by
  obtain ⟨⟨record, g'⟩, hresult, hpattern⟩ := Option.map_eq_some_iff.mp hone
  obtain ⟨s, hs, _⟩ := Build.exists_of_result hresult
  obtain ⟨s₁, hs₁, hgraph⟩ := Build.exists_of_result htarget
  exact ⟨record, s, s₁, hs, hpattern, hs₁, hgraph⟩

/-- One update is enough whose pattern does not hold of one row of offsets that it can have. -/
theorem not_patternsHold_of_update {permitted : Op → Prop} {n : Nat} {f : Nat → Int64}
    (hg : g.Defined) (hfit : g.ExtentsFit) (hpermitted : ∀ node ∈ g.nodes, permitted node.op)
    (hone : ((one .standard a).result ⟨g, []⟩).map (·.1.pattern) = some pattern)
    (htarget : (target a).result ⟨g, []⟩ = some (t, g₁))
    (hx : g₁.Possible (fun _ => True) t.address.offset (.along (n + 1) f))
    (hbad : ¬ pattern.HoldsAlong (n + 1) f) : ¬ PatternsHold permitted := by
  intro h
  obtain ⟨record, s, s₁, hs, rfl, hs₁, rfl⟩ := exists_of_results hone htarget
  have hholds := h g .standard [] a record t s s₁ _ hg.built hfit hpermitted hs hs₁
    (hx.mono fun _ _ _ => .inl hg)
  exact hbad hholds.along

end Lowering

/-- An update of one row behind a pointer. Its offsets are what an operation makes of numbers that
count up and of a constant. -/
def Graph.updating (n : Nat) (start stop c : Int64) (op : Op) (element : Element) : Graph :=
  ⟨[⟨.range start stop, ⟨.i32, [n]⟩⟩, ⟨.const c, ⟨.i32, [n]⟩⟩, ⟨op, ⟨element, [n]⟩⟩,
    ⟨.arg 0, .scalar (.pointer .i32 .global)⟩, ⟨.splat 3, ⟨.pointer .i32 .global, [n]⟩⟩,
    ⟨.addPtr 4 2, ⟨.pointer .i32 .global, [n]⟩⟩, ⟨.arg 1, ⟨.i32, [n]⟩⟩,
    ⟨.atomicRmw .add 5 6 none, ⟨.i32, [n]⟩⟩]⟩

section Updating

variable {n : Nat} {start stop c : Int64} {op : Op} {element : Element} {runs : ValueId → Prop}

theorem Graph.updating_defined {d : Definition}
    (h : [.range start stop, .const c ⟨.i32, [n]⟩, d, .arg 0 (.scalar (.pointer .i32 .global)),
      .splat 3 [n], .addPtr 4 2, .arg 1 ⟨.i32, [n]⟩, .atomicRmw .add 5 6 none].foldlM
        (fun g d => g.perform (.define d)) Graph.empty = .ok (updating n start stop c op element)) :
    (updating n start stop c op element).Defined :=
  .of_definitions _ .empty h

theorem Graph.updating_counts : (updating n start stop c op element).Possible runs 0
    (.along n fun p => start + .ofNat p) :=
  .of_operands rfl .nil (.range fun _ _ => rfl) rfl

theorem Graph.updating_constant : (updating n start stop c op element).Possible runs 1
    (.along n fun _ => c) :=
  .of_operands rfl .nil (.const fun _ _ => rfl) rfl

theorem Lowering.target_updating : (target 7).result ⟨.updating n start stop c op element, []⟩ =
    some (⟨7, .add, 6, none, ⟨3, 2⟩⟩, .updating n start stop c op element) := rfl

end Updating

/-- Remainders by four, of numbers that begin below zero. -/
def Graph.remainders : Graph := .updating 8 (-4) 4 4 (.binary .remS 0 1) .i32

/-- They begin at 0, go on with -3, and count up from there. -/
def Tensor.remainders : Tensor := .along 8 fun p => (-4 + .ofNat p) % 4

theorem Graph.remainders_defined : Graph.remainders.Defined :=
  updating_defined (d := .binary .remS 0 1) (by decide)

theorem Graph.remainders_possible {runs : ValueId → Prop} :
    Graph.remainders.Possible runs 2 .remainders := by
  refine .of_operands rfl (.cons updating_counts (.cons updating_constant .nil)) (.binary ?_) rfl
  exact Shape.forall_contains_singleton (by decide)

theorem Lowering.one_remainders :
    ((one .standard 7).result ⟨.remainders, []⟩).map (·.1.pattern) = some (.contiguous 4 true) := by
  decide +kernel

/-- Quotients by four, of numbers below zero: -1, and three times 0. -/
def Graph.quotients : Graph := .updating 4 (-4) 0 4 (.binary .divS 0 1) .i32

theorem Graph.quotients_defined : Graph.quotients.Defined :=
  updating_defined (d := .binary .divS 0 1) (by decide)

theorem Graph.quotients_possible {runs : ValueId → Prop} :
    Graph.quotients.Possible runs 2 (.along 4 fun p => (-4 + .ofNat p) / 4) := by
  refine .of_operands rfl (.cons updating_counts (.cons updating_constant .nil)) (.binary ?_) rfl
  exact Shape.forall_contains_singleton (by decide)

/-- Numbers that count up, and what they are in fours. The fours are taken of the same numbers
behind a choice, after which their runs are known to be four long and no longer eight. -/
def Graph.fours : Graph :=
  ⟨[⟨.range 0 8, ⟨.i32, [8]⟩⟩, ⟨.const 4, ⟨.i32, [8]⟩⟩, ⟨.binary .divU 0 1, ⟨.i32, [8]⟩⟩,
    ⟨.cast .trunc 2, ⟨.bool, [8]⟩⟩, ⟨.select 3 0 0, ⟨.i32, [8]⟩⟩, ⟨.binary .divU 4 1, ⟨.i32, [8]⟩⟩,
    ⟨.arg 0, .scalar (.pointer .i32 .global)⟩, ⟨.splat 6, ⟨.pointer .i32 .global, [8]⟩⟩,
    ⟨.addPtr 7 0, ⟨.pointer .i32 .global, [8]⟩⟩, ⟨.addPtr 8 5, ⟨.pointer .i32 .global, [8]⟩⟩,
    ⟨.arg 1, ⟨.i32, [8]⟩⟩, ⟨.atomicRmw .add 9 10 none, ⟨.i32, [8]⟩⟩]⟩

theorem Graph.fours_defined : Graph.fours.Defined :=
  .of_definitions [.range 0 8, .const 4 ⟨.i32, [8]⟩, .binary .divU 0 1, .cast .trunc 2 .bool,
    .select 3 0 0, .binary .divU 4 1, .arg 0 (.scalar (.pointer .i32 .global)), .splat 6 [8],
    .addPtr 7 0, .addPtr 8 5, .arg 1 ⟨.i32, [8]⟩, .atomicRmw .add 9 10 none] .empty (by decide)

/-- The same graph with the sum of both offsets of the pointer. -/
def Graph.foursTracked : Graph := Graph.fours.push ⟨.binary .add 0 5, ⟨.i32, [8]⟩⟩

theorem Graph.foursTracked_possible {runs : ValueId → Prop} :
    Graph.foursTracked.Possible runs 12 (.along 8 fun p => .ofNat (p + p / 4)) := by
  have hcounts : Graph.foursTracked.Possible runs 0 (.along 8 .ofNat) :=
    .of_operands rfl .nil (.range (Shape.forall_contains_singleton (by decide))) rfl
  have hfour : Graph.foursTracked.Possible runs 1 (.along 8 fun _ => 4) :=
    .of_operands rfl .nil (.const fun _ _ => rfl) rfl
  have hquotients : Graph.foursTracked.Possible runs 2 (.along 8 fun p => .ofNat (p / 4)) :=
    .of_operands rfl (.cons hcounts (.cons hfour .nil))
      (.binary (Shape.forall_contains_singleton (by decide))) rfl
  have hcast : Graph.foursTracked.Possible runs 3 (.along 8 fun p => .ofNat (p / 4)) :=
    .of_operands rfl (.cons hquotients .nil) (.cast fun _ _ => rfl) rfl
  have hchoice : Graph.foursTracked.Possible runs 4 (.along 8 .ofNat) :=
    .of_operands rfl (.cons hcast (.cons hcounts (.cons hcounts .nil)))
      (.select fun _ _ => (ite_self _).symm) rfl
  have hagain : Graph.foursTracked.Possible runs 5 (.along 8 fun p => .ofNat (p / 4)) :=
    .of_operands rfl (.cons hchoice (.cons hfour .nil))
      (.binary (Shape.forall_contains_singleton (by decide))) rfl
  exact .of_operands rfl (.cons hcounts (.cons hagain .nil))
    (.binary (Shape.forall_contains_singleton (by decide))) rfl

/-- Which of the first four numbers are above zero. -/
def Graph.comparing (predicate : Comparison) (l r : ValueId) : Graph :=
  .updating 4 0 4 0 (.cmp predicate l r) .bool

namespace Lowering

theorem not_patternsHold_of_comparing {predicate : Comparison} {l r : ValueId}
    (hg : (Graph.comparing predicate l r).Defined)
    (hone : ((one .standard 7).result ⟨.comparing predicate l r, []⟩).map (·.1.pattern) =
      some .uniform)
    (hx : (Graph.comparing predicate l r).Possible (fun _ => True) 2
      (.along 4 fun p => if p = 0 then 0 else 1)) :
    ¬ PatternsHold (Op.Within (fun _ => False) (· = predicate)) := by
  refine not_patternsHold_of_update hg ?_ ?_ hone target_updating hx
    fun h => absurd (h 1 (by decide)) (by decide)
  · simp [Graph.ExtentsFit, Graph.comparing, Graph.updating, ValueType.scalar]
  · simp [Graph.comparing, Graph.updating, Op.Within]

/-- Every strict comparison makes some pattern wrong, without any other operator. -/
theorem not_patternsHold_of_strict {predicate : Comparison} (h : predicate.isStrict = true) :
    ¬ PatternsHold (Op.Within (fun _ => False) (· = predicate)) := by
  cases predicate with
  | slt | ult =>
    refine not_patternsHold_of_comparing (l := 1) (r := 0)
      (Graph.updating_defined (d := .cmp _ 1 0) rfl) (by decide +kernel) ?_
    exact .of_operands rfl (.cons Graph.updating_constant (.cons Graph.updating_counts .nil))
      (.cmp (Shape.forall_contains_singleton (by decide))) rfl
  | sgt | ugt =>
    refine not_patternsHold_of_comparing (l := 0) (r := 1)
      (Graph.updating_defined (d := .cmp _ 0 1) rfl) (by decide +kernel) ?_
    exact .of_operands rfl (.cons Graph.updating_counts (.cons Graph.updating_constant .nil))
      (.cmp (Shape.forall_contains_singleton (by decide))) rfl
  | _ => cases h

/-- So does every operator that is not regular. -/
theorem not_patternsHold_of_irregular {op : BinaryOp} (h : op.isRegular = false) :
    ¬ PatternsHold (Op.Within (· = op) fun _ => False) := by
  cases op with
  | divS =>
    have hone : ((one .standard 7).result ⟨.quotients, []⟩).map (·.1.pattern) = some .uniform := by
      decide +kernel
    exact not_patternsHold_of_update Graph.quotients_defined (by decide) (by decide) hone
      target_updating Graph.quotients_possible
      fun h => absurd (h 1 (by decide)) (by decide)
  | divU =>
    have hone : ((one .standard 11).result ⟨.fours, []⟩).map (·.1.pattern) =
        some (.contiguous 4 true) := by
      decide +kernel
    have htarget : (target 11).result ⟨.fours, []⟩ =
        some (⟨11, .add, 10, none, ⟨6, 12⟩⟩, .foursTracked) := rfl
    exact not_patternsHold_of_update Graph.fours_defined (by decide) (by decide) hone htarget
      Graph.foursTracked_possible fun h => absurd (h.2.2 rfl 4 (by decide) (by decide)) (by decide)
  | remS =>
    exact not_patternsHold_of_update Graph.remainders_defined (by decide) (by decide)
      one_remainders target_updating Graph.remainders_possible
      fun h => absurd (h.2.1 0 (by decide) (by decide)) (by decide)
  | _ => cases h

end Lowering

/-! ### Where patterns can be relied on -/

/-- Patterns hold exactly as long as only regular operators and comparisons occur: no quotients, no
signed remainders and no strict comparisons. -/
theorem Lowering.patternsHold_iff (ops : BinaryOp → Prop) (predicates : Comparison → Prop) :
    PatternsHold (Op.Within ops predicates) ↔
      (∀ op, ops op → op.isRegular = true) ∧ ∀ p, predicates p → p.isStrict = false := by
  constructor
  · intro h
    refine ⟨fun op hop => ?_, fun p hp => ?_⟩
    · by_contra hirregular
      refine not_patternsHold_of_irregular (Bool.not_eq_true _ ▸ hirregular) (h.anti fun o ho => ?_)
      exact ho.mono (fun _ h => h ▸ hop) nofun
    · by_contra hstrict
      refine not_patternsHold_of_strict (Bool.not_eq_false _ ▸ hstrict) (h.anti fun o ho => ?_)
      exact ho.mono nofun fun _ h => h ▸ hp
  · rintro ⟨hops, hpredicates⟩
    exact patternsHold_regular.anti fun o ho => ho.mono hops hpredicates

/-- Eight numbers that count up from eight. -/
def Graph.sums : Graph := .updating 8 0 8 8 (.binary .add 0 1) .i32

theorem Graph.sums_defined : Graph.sums.Defined :=
  updating_defined (d := .binary .add 0 1) (by decide)

theorem Graph.sums_possible {runs : ValueId → Prop} :
    Graph.sums.Possible runs 2 (.along 8 fun p => .ofNat (8 + p)) := by
  refine .of_operands rfl (.cons updating_counts (.cons updating_constant .nil)) (.binary ?_) rfl
  exact Shape.forall_contains_singleton (by decide)

theorem Lowering.patternsHold_iff_sums : ∃ record t s s₁,
    Lowering.one .standard 7 ⟨.sums, []⟩ = .ok record s ∧ record.pattern = .contiguous 8 true ∧
    Lowering.target 7 ⟨.sums, []⟩ = .ok t s₁ ∧
    s₁.graph.Possible (fun _ => True) t.address.offset (.along 8 fun p => .ofNat (8 + p)) ∧
    ∀ x, s₁.graph.Possible (fun _ => True) t.address.offset x →
      (AccessPattern.contiguous 8 true).Holds x := by
  have hone : ((one .standard 7).result ⟨.sums, []⟩).map (·.1.pattern) =
      some (.contiguous 8 true) := by
    decide +kernel
  obtain ⟨record, s, s₁, hs, hpattern, hs₁, hgraph⟩ := exists_of_results hone target_updating
  refine ⟨record, _, s, s₁, hs, hpattern, hs₁, hgraph ▸ Graph.sums_possible, fun x hx => ?_⟩
  rw [← hpattern]
  have hregular := (patternsHold_iff (· = .add) fun _ => False).mpr ⟨fun _ h => h ▸ rfl, nofun⟩
  exact hregular .sums .standard [] 7 record _ s s₁ x Graph.sums_defined.built (by decide)
    (by decide) hs hs₁ (hx.mono fun _ _ _ => .inl Graph.sums_defined)

/-- Signed remainders are reported as aligned blocks of four, and do not even count up: the first
is 0 and the second is -3. -/
theorem Lowering.pattern_of_remainders : Graph.remainders.Defined ∧ Graph.remainders.ExtentsFit ∧
    ∃ record t s s₁, Lowering.one .standard 7 ⟨.remainders, []⟩ = .ok record s ∧
      record.pattern = .contiguous 4 true ∧ Lowering.target 7 ⟨.remainders, []⟩ = .ok t s₁ ∧
      s₁.graph.Possible (fun _ => True) t.address.offset .remainders ∧
      Tensor.remainders [0] = 0 ∧ Tensor.remainders [1] = -3 ∧
      ¬ record.pattern.Holds .remainders := by
  obtain ⟨record, s, s₁, hs, hpattern, hs₁, hgraph⟩ :=
    exists_of_results one_remainders target_updating
  refine ⟨Graph.remainders_defined, by decide, record, _, s, s₁, hs, hpattern, hs₁,
    hgraph ▸ Graph.remainders_possible, by decide, by decide, ?_⟩
  intro h
  rw [hpattern] at h
  exact absurd (h.along.2.1 0 (by decide) (by decide)) (by decide)

end TileFacts

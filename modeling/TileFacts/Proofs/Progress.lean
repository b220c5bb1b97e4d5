import TileFacts.Proofs.Access
import TileFacts.Proofs.Definition
import TileFacts.Proofs.Replacement
import Mathlib.Algebra.BigOperators.Group.List.Lemmas
import Mathlib.Data.Finset.Card

/-! Lowerings that get stuck for no other reason than the two they are meant to.

Every value that a lowering defines is typed by the types of what it was given, so it can be defined
(`Build.Yields`). What is left are the steps before: a pointer may come from a tensor that is
neither moved nor spread, and an update may have no primitive. Main statement: a lowering of a
well-typed, causal graph fails for one of these two reasons or not at all, and leaves a well-typed
graph. -/
namespace TileFacts

/-! ### Counts and elements -/

theorem Shape.prod_pos {shape : Shape} (hzero : 0 ∉ shape) : 0 < shape.prod :=
  List.prod_pos_iff_forall_pos_nat.mpr fun _ hn => Nat.pos_of_ne_zero fun hn0 => hzero (hn0 ▸ hn)

/-- A count of elements that fits 64 bits can be worked out. -/
theorem Shape.numElements_eq_ok {shape : Shape} (hzero : 0 ∉ shape)
    (hfits : shape.prod < UInt64.size) : shape.numElements = .ok shape.prod := by
  -- No extent is zero, so no count on the way exceeds the last one.
  have hfold : ∀ (extents : List Nat) (start : Nat), 0 ∉ extents →
      start * extents.prod < UInt64.size → extents.foldlM (fun count extent =>
        if count * extent < UInt64.size then .ok (count * extent)
        else .error (.overflow .mul)) start = (.ok (start * extents.prod) : Checked Nat) := by
    intro extents
    induction extents with
    | nil =>
      intro start _ _
      rw [List.prod_nil, Nat.mul_one]
      rfl
    | cons extent rest ih =>
      intro start hzero hfits
      rw [List.mem_cons, not_or] at hzero
      rw [List.prod_cons, ← Nat.mul_assoc] at hfits ⊢
      have hstart : start * extent < UInt64.size :=
        Nat.lt_of_le_of_lt (Nat.le_mul_of_pos_right _ (prod_pos hzero.2)) hfits
      rw [List.foldlM_cons, if_pos hstart, ok_bind]
      exact ih _ hzero.2 hfits
  have hone := hfold shape 1 hzero (by rwa [Nat.one_mul])
  rwa [Nat.one_mul] at hone

namespace Element

theorem isInt_of_isBool {e : Element} (h : e.isBool = true) : e.isInt = true := by
  cases e with
  | scalar s =>
    cases s <;> simp_all [isBool, isInt, scalar?, Scalar.isBool, Scalar.isInt, Scalar.isFloat]
  | pointer => cases h

theorem isInt_of_not_isFloat {e : Element} (hfloat : e.isFloat ≠ true)
    (hpointer : e.isPointer = false) : e.isInt = true := by
  cases e with
  | scalar s => simpa [isFloat, isInt, scalar?, Scalar.isInt] using hfloat
  | pointer => cases hpointer

theorem isPointer_of_pointee? {e pointee : Element} (h : e.pointee? = some pointee) :
    e.isPointer = true := by
  cases e with
  | scalar => cases h
  | pointer => rfl

end Element

/-! ### Constructions that succeed -/

namespace Build

variable {ε δ α β : Type} {s s' : Session} {x : Build ε α} {R : α → Graph → Prop}

/-- A construction that succeeds and only adds values. -/
def Yields (x : Build ε α) (s : Session) (R : α → Graph → Prop) : Prop :=
  ∃ a s', x s = .ok a s' ∧ s.graph.Adds (fun _ => True) s'.graph ∧ R a s'.graph

theorem yields_pure {a : α} (h : R a s.graph) : (pure a : Build ε α).Yields s R :=
  ⟨a, s, rfl, .refl, h⟩

theorem Yields.bind (h : x.Yields s R) {f : α → Build ε β} {Q : β → Graph → Prop}
    (hf : ∀ a s', s.graph.Adds (fun _ => True) s'.graph → R a s'.graph → (f a).Yields s' Q) :
    (x >>= f).Yields s Q := by
  obtain ⟨a, s₁, hx, hadds, ha⟩ := h
  obtain ⟨b, s₂, hb, hadds', hQ⟩ := hf a s₁ hadds ha
  exact ⟨b, s₂, by rw [bind_of_ok hx, hb], hadds.trans hadds', hQ⟩

/-- What is only read leaves the session as it is. -/
theorem yields_of_read {a : α} (hx : x s = .ok a s) {f : α → Build ε β} {Q : β → Graph → Prop}
    (hf : (f a).Yields s Q) : (x >>= f).Yields s Q := by
  obtain ⟨b, s₁, hb, hrest⟩ := hf
  exact ⟨b, s₁, by rw [bind_of_ok hx, hb], hrest⟩

theorem Yields.imp {Q : α → Graph → Prop} (h : x.Yields s R) (himp : ∀ a k, R a k → Q a k) :
    x.Yields s Q := by
  obtain ⟨a, s', hx, hadds, ha⟩ := h
  exact ⟨a, s', hx, hadds, himp a _ ha⟩

theorem Yields.map {f : α → β} {Q : β → Graph → Prop} (h : x.Yields s fun a k => Q (f a) k) :
    (f <$> x).Yields s Q := by
  rw [map_eq_pure_bind]
  exact h.bind fun a s' _ ha => yields_pure ha

end Build

namespace Lowering

open Build

variable {s s' : Session} {u v : ValueId} {t : ValueType} {shape : Shape} {n : Nat}

theorem typeOf_of_typeOf? (h : s.graph.typeOf? v = some t) : typeOf v s = .ok t s :=
  inspect_eq_ok.mpr ⟨Graph.type_eq_ok.mpr h, rfl⟩

/-- What is typed can be defined. -/
theorem define_yields_node (node : Node) (h : Graph.NodeTyped s.graph.typeOf? node)
    (hkind : node.op.kind ≠ .merge) :
    (define node.definition).Yields s fun v k => k.nodes[v]? = some node := by
  have hd := Graph.define_definition h hkind
  refine ⟨_, _, within_eq_ok.mpr (Build.define_eq_ok.mpr ⟨node, hd, rfl, rfl⟩),
    .define .refl hd trivial, ?_⟩
  simp [Graph.push, Graph.size]

theorem define_yields (node : Node) (h : Graph.NodeTyped s.graph.typeOf? node)
    (hkind : node.op.kind ≠ .merge) :
    (define node.definition).Yields s fun v k => k.typeOf? v = some node.type :=
  (define_yields_node node h hkind).imp fun _ _ hnode => Graph.typeOf?_of_node hnode

theorem reshape_yields (hv : s.graph.typeOf? v = some t) (hinput : t.shape.numElements = .ok n)
    (houtput : shape.numElements = .ok n) (hzero : 0 ∉ shape) :
    (define (.reshape v shape)).Yields s fun u k => k.typeOf? u = some (t.withShape shape) :=
  define_yields ⟨.reshape v, t.withShape shape⟩ ⟨.reshape hv hinput houtput, hzero⟩ (by rintro ⟨⟩)

theorem flatten_yields (hv : s.graph.typeOf? v = some t) (hinput : t.shape.numElements = .ok n)
    (houtput : shape.numElements = .ok n) (hzero : 0 ∉ shape) :
    (flatten v shape).Yields s fun u k => k.typeOf? u = some (t.withShape shape) := by
  refine yields_of_read (typeOf_of_typeOf? hv) ?_
  split
  · next hshape =>
    refine yields_pure ?_
    rw [hv, ← beq_iff_eq.mp hshape]
    rfl
  · exact reshape_yields hv hinput houtput hzero

end Lowering

/-! ### Typed targets -/

namespace Graph

/-- A tensor of integers of the given shape. -/
def IntTensor (g : Graph) (v : ValueId) (shape : Shape) : Prop :=
  ∃ t, g.typeOf? v = some t ∧ t.element.isInt = true ∧ t.shape = shape

/-- If there is a tensor, it has an integer for every element of the shape. -/
def Spans (shape : Shape) (v : Option ValueId) (g : Graph) : Prop := ∀ u ∈ v, g.IntTensor u shape

theorem spans_none (shape : Shape) (g : Graph) : Spans shape none g := by
  rintro _ ⟨⟩

theorem spans_some {g : Graph} {v : ValueId} {shape : Shape} :
    Spans shape (some v) g ↔ g.IntTensor v shape := by
  simp [Spans]

/-- One pointer. -/
def OnePointer (g : Graph) (v : ValueId) : Prop :=
  ∃ t, g.typeOf? v = some t ∧ t.element.isPointer = true ∧ t.shape = []

/-- Values keep their types. -/
def KeepsTypes (g k : Graph) : Prop := ∀ v t, g.typeOf? v = some t → k.typeOf? v = some t

theorem Adds.keepsTypes {g k : Graph} {P : Node → Prop} (h : g.Adds P k) : g.KeepsTypes k :=
  fun _ _ => h.typeOf?

end Graph

theorem Build.Yields.spans {ε : Type} {x : Build ε ValueId} {s : Session} {shape : Shape}
    (h : x.Yields s fun v k => k.IntTensor v shape) :
    (some <$> x).Yields s (Graph.Spans shape) :=
  .map (h.imp fun _ _ => Graph.spans_some.mpr)

namespace Lowering

open Build

/-- A target of the given type, in a graph whose counts fit 64 bits and whose updates are not of
pointers. -/
structure Target.Typed (t : Target) (g : Graph) (type : ValueType) : Prop where
  atomic : g.typeOf? t.atomic = some type
  element : type.element.isPointer = false
  extents : 0 ∉ type.shape
  count : type.shape.prod < UInt64.size
  value : g.typeOf? t.value = some type
  mask : ∀ m ∈ t.mask, ∃ b, g.typeOf? m = some b ∧ b.element.isBool = true ∧ b.shape = type.shape
  base : g.OnePointer t.address.base
  offset : g.IntTensor t.address.offset type.shape

variable {s s' : Session} {u v : ValueId} {t : Target} {type : ValueType} {shape : Shape} {n : Nat}

/-- A target stays typed if its operands are renamed to values of the same types. -/
theorem Target.Typed.rename {g k : Graph} (ht : t.Typed g type) {f : ValueId → ValueId}
    (hkeeps : g.KeepsTypes k) (hf : ∀ u ut, g.typeOf? u = some ut → k.typeOf? (f u) = some ut) :
    (t.rename f).Typed k type where
  atomic := hkeeps _ _ ht.atomic
  element := ht.element
  extents := ht.extents
  count := ht.count
  value := hf _ _ ht.value
  mask m hm := by
    obtain ⟨m', hm', rfl⟩ := Option.map_eq_some_iff.mp hm
    obtain ⟨b, hb, hbool⟩ := ht.mask m' hm'
    exact ⟨b, hf _ _ hb, hbool⟩
  base := by
    obtain ⟨b, hb, hpointer⟩ := ht.base
    exact ⟨b, hf _ _ hb, hpointer⟩
  offset := by
    obtain ⟨o, ho, hint⟩ := ht.offset
    exact ⟨o, hf _ _ ho, hint⟩

theorem Target.Typed.of_keeps {g k : Graph} (ht : t.Typed g type) (hkeeps : g.KeepsTypes k) :
    t.Typed k type := by
  have h := ht.rename hkeeps (f := fun u => u) hkeeps
  rw [Target.rename, Option.map_id'] at h
  exact h

theorem Target.Typed.numElements {g : Graph} (ht : t.Typed g type) :
    type.shape.numElements = .ok type.shape.prod :=
  Shape.numElements_eq_ok ht.extents ht.count

theorem define_ints_yields (node : Node) (h : Graph.NodeTyped s.graph.typeOf? node)
    (hkind : node.op.kind ≠ .merge) (hint : node.type.element.isInt = true) :
    (define node.definition).Yields s fun v k => k.IntTensor v node.type.shape :=
  (define_yields node h hkind).imp fun _ _ htype => ⟨_, htype, hint, rfl⟩

theorem widenMask_yields (ht : t.Typed s.graph type)
    (houtput : shape.numElements = .ok type.shape.prod) (hzero : 0 ∉ shape) :
    (widenMask shape t.mask).Yields s (Graph.Spans shape) := by
  cases hmask : t.mask with
  | none => exact yields_pure (Graph.spans_none shape _)
  | some m =>
    obtain ⟨b, hb, hbool, hshape⟩ := ht.mask m hmask
    have hinput : b.shape.numElements = .ok type.shape.prod := hshape ▸ ht.numElements
    refine (flatten_yields hb hinput houtput hzero).bind fun flat s₁ _ hflat => ?_
    have haccepts : CastOp.extS.accepts b.element .i8 = true := by
      simp only [CastOp.accepts, Element.isInt_of_isBool hbool]
      rfl
    exact .spans (define_ints_yields ⟨.cast .extS flat, ⟨.i8, shape⟩⟩
      ⟨.cast hflat haccepts, hzero⟩ (by rintro ⟨⟩) rfl)

theorem zero_yields (hzero : 0 ∉ type.shape) (helement : type.element.isPointer = false) :
    (define (zero type)).Yields s fun v k => k.typeOf? v = some type := by
  unfold zero
  split
  · next hfloat =>
    exact define_yields ⟨.constFloat 0, type⟩ ⟨.constFloat hfloat, hzero⟩ (by rintro ⟨⟩)
  · next hfloat =>
    exact define_yields ⟨.const 0, type⟩
      ⟨.const (Element.isInt_of_not_isFloat hfloat helement), hzero⟩ (by rintro ⟨⟩)

theorem gather_yields {op : AtomicOp} {base values indices : ValueId} {wide : Option ValueId}
    (hbase : s.graph.OnePointer base)
    (hvalues : s.graph.typeOf? values = some (type.withShape shape))
    (hindices : s.graph.IntTensor indices shape) (hwide : Graph.Spans shape wide s.graph)
    (hzero : 0 ∉ shape) :
    (define (.gatherAtomicRmw op base values indices wide)).Yields s fun v k =>
      k.typeOf? v = some (type.withShape shape) := by
  obtain ⟨b, hb, hpointer, hscalar⟩ := hbase
  obtain ⟨i, hi, hint, hshape⟩ := hindices
  exact define_yields ⟨.gatherAtomicRmw op base values indices wide, type.withShape shape⟩
    ⟨.gatherAtomicRmw hb hvalues hi hpointer hscalar hint hshape hwide, hzero⟩ (by rintro ⟨⟩)

theorem lowerScalar_yields {op : AtomicOp} (ht : t.Typed s.graph type) (hscalar : type.shape = []) :
    (lowerScalar t op type).Yields s fun r k => k.typeOf? r = some type := by
  obtain ⟨b, hb, hpointer, hbscalar⟩ := ht.base
  obtain ⟨o, ho, hint, hoshape⟩ := ht.offset
  have hone : Shape.numElements [1] = .ok type.shape.prod := by
    rw [hscalar]
    rfl
  have hrest : type.withShape [] = type := by
    rw [← hscalar]
    rfl
  refine (define_yields ⟨.addPtr t.address.base t.address.offset, b⟩
    ⟨.addPtr hb ho hpointer hint (by rw [hbscalar, hoshape, hscalar]), by simp [hbscalar]⟩
    (by rintro ⟨⟩)).bind fun base s₁ h₁ hbase => ?_
  have ht₁ := ht.of_keeps h₁.keepsTypes
  refine (reshape_yields ht₁.value ht₁.numElements hone (by decide)).bind
    fun values s₂ h₂ hvalues => ?_
  refine (define_yields ⟨.const 0, ⟨.i32, [1]⟩⟩ ⟨.const rfl, by decide⟩ (by rintro ⟨⟩)).bind
    fun index s₃ h₃ hindex => ?_
  have ht₃ := ht₁.of_keeps (h₂.trans h₃).keepsTypes
  refine (widenMask_yields ht₃ hone (by decide)).bind fun wide s₄ h₄ hwide => ?_
  refine (gather_yields ⟨b, (h₂.trans (h₃.trans h₄)).typeOf? hbase, hpointer, hbscalar⟩
    ((h₃.trans h₄).typeOf? hvalues) ⟨_, h₄.typeOf? hindex, rfl, rfl⟩ hwide (by decide)).bind
    fun gather s₅ h₅ hgather => ?_
  refine (reshape_yields hgather rfl (show Shape.numElements [] = .ok 1 from rfl)
    (by decide)).bind fun result s₆ h₆ hresult => ?_
  have hresult : s₆.graph.typeOf? result = some type := hresult.trans (congrArg some hrest)
  have ht₆ := ht₃.of_keeps (h₄.trans (h₅.trans h₆)).keepsTypes
  cases hmask : t.mask with
  | none => exact yields_pure hresult
  | some m =>
    refine (zero_yields ht.extents ht.element).bind fun off s₇ h₇ hoff => ?_
    obtain ⟨c, hc, hbool, hshape⟩ := ht₆.mask m hmask
    exact define_yields ⟨.select m result off, type⟩
      ⟨.select (h₇.typeOf? hc) (h₇.typeOf? hresult) hoff hbool (.inr hshape), ht.extents⟩
      (by rintro ⟨⟩)

theorem lowerScattered_yields {op : AtomicOp} (ht : t.Typed s.graph type) :
    (lowerScattered t op type).Yields s fun r k => k.typeOf? r = some type := by
  have hcount := ht.numElements
  have hzero : 0 ∉ [type.shape.prod] := by
    rw [List.mem_singleton]
    exact (Nat.ne_of_gt (Shape.prod_pos ht.extents)).symm
  have hflat : Shape.numElements [type.shape.prod] = .ok type.shape.prod := by
    rw [Shape.numElements_eq_ok hzero (by rw [List.prod_singleton]; exact ht.count),
      List.prod_singleton]
  refine yields_of_read (attempt_eq_ok.mpr ⟨checked_eq_ok.mpr hcount, rfl⟩) ?_
  refine (flatten_yields ht.value hcount hflat hzero).bind fun values s₁ h₁ hvalues => ?_
  have ht₁ := ht.of_keeps h₁.keepsTypes
  obtain ⟨o, ho, hint, hshape⟩ := ht₁.offset
  refine (flatten_yields ho (hshape ▸ hcount) hflat hzero).bind fun indices s₂ h₂ hindices => ?_
  have ht₂ := ht₁.of_keeps h₂.keepsTypes
  refine (widenMask_yields ht₂ hflat hzero).bind fun wide s₃ h₃ hwide => ?_
  have ht₃ := ht₂.of_keeps h₃.keepsTypes
  refine (gather_yields ht₃.base ((h₂.trans h₃).typeOf? hvalues)
    ⟨_, h₃.typeOf? hindices, hint, rfl⟩ hwide hzero).bind fun gather s₄ h₄ hgather => ?_
  split
  · next hrank =>
    obtain ⟨extent, hextent⟩ := List.length_eq_one_iff.mp (beq_iff_eq.mp hrank)
    refine yields_pure (hgather.trans (congrArg some ?_))
    rw [hextent, List.prod_singleton, ← hextent]
    rfl
  · have hresult := reshape_yields hgather hflat hcount ht.extents
    exact hresult

theorem primitive_eq_error {op : RmwOp} {element : Element} {failure : Failure LoweringRefusal}
    (h : op.primitive element = .error failure) : failure = .refused (.unsupported op element) := by
  cases hint : element.isInt <;> cases hfloat : element.isFloat <;> cases op <;>
    simp_all [RmwOp.primitive]

/-- A typed target is replaced, unless there is no primitive for its operation and element. -/
theorem replace_progress {pattern : AccessPattern} (hs : s.graph.WellTyped)
    (ht : t.Typed s.graph type) :
    (replace t pattern).Ends s (fun _ k => k.WellTyped)
      (fun failure k => k = s.graph ∧ t.op.primitive type.element = .error failure) := by
  -- However the replacement is built, the same steps follow.
  have hend {op : AtomicOp} {path : LoweringPath} {s₁ : Session} {x : Lowering ValueId}
      {F : Failure LoweringRefusal → Graph → Prop} (h₁ : s₁.graph = s.graph)
      (hx : x.Yields s₁ fun r k => k.typeOf? r = some type) : (do
        let replacement ← x
        Build.emit [.lowered ⟨t.atomic, replacement, op, path, pattern⟩]
        Build.within .graph (Build.replaceAllUses t.atomic replacement)
        return ⟨t.atomic, replacement, op, path, pattern⟩ : Lowering LoweringRecord).Ends s₁
      (fun _ k => k.WellTyped) F := by
    obtain ⟨r, s₂, hrun, hadds, htype⟩ := hx
    rw [h₁] at hadds
    have hreplace := Graph.replaceAllUses_eq (hadds.typeOf? ht.atomic) htype
    refine ends_bind_of_ok hrun (ends_bind_of_ok (emit_eq _) ?_)
    refine Ends.bind (Q := fun _ k => k.WellTyped)
      (ends_within (ends_replaceAllUses (fun k hk => ?_) fun failure hfailure => ?_))
      fun _ _ hk => ends_pure hk
    · obtain ⟨hsame, rfl⟩ := Graph.replaceAllUses_eq_ok hk
      exact (hadds.wellTyped hs).redirectUses hsame
    · cases hreplace.symm.trans hfailure
  refine ends_bind_of_ok (typeOf_of_typeOf? ht.atomic) ?_
  refine Ends.bind (Q := fun _ k => k = s.graph)
    (ends_attempt (fun _ _ => rfl) fun _ hop => ⟨rfl, hop⟩) fun op s₁ h₁ => ?_
  have ht₁ : t.Typed s₁.graph type := h₁ ▸ ht
  cases hscalar : type.isScalar with
  | true => exact hend h₁ (lowerScalar_yields ht₁ (by simpa [ValueType.isScalar] using hscalar))
  | false => exact hend h₁ (lowerScattered_yields ht₁)

end Lowering

/-! ### Walking back -/

namespace Op

variable {op : Op} {u : ValueId}

/-- What is moved or spread by an operation. -/
def origin? : Op → Option ValueId
  | .addPtr ptr _ => some ptr
  | .splat source | .broadcast source => some source
  | _ => none

theorem origin?_eq_none : op.origin? = none ↔ op.kind ∉ [.addPtr, .splat, .broadcast] := by
  cases op <;> simp [origin?, kind]

theorem mem_operands_of_origin? (h : op.origin? = some u) : op.kind ≠ .merge ∧ u ∈ op.operands := by
  cases op with
  | addPtr ptr offset | splat source | broadcast source =>
    cases h
    exact ⟨by rintro ⟨⟩, List.mem_cons_self ..⟩
  | _ => cases h

end Op

namespace Graph

open Classical in
/-- How many values a value depends on. -/
noncomputable def depth (g : Graph) (v : ValueId) : Nat :=
  ((Finset.range g.size).filter (g.DependsOn v)).card

variable {g : Graph} {v u : ValueId}

theorem depth_le_size (g : Graph) (v : ValueId) : g.depth v ≤ g.size := by
  classical
  exact (Finset.card_filter_le _ _).trans_eq (Finset.card_range _)

/-- An operand depends on fewer values: not on itself. -/
theorem Causal.depth_lt (hcausal : g.Causal) (hu : u < g.size) (hvu : g.DependsOn v u) :
    g.depth u < g.depth v := by
  classical
  refine Finset.card_lt_card (Finset.ssubset_iff_of_subset ?_ |>.mpr ⟨u, ?_, ?_⟩)
  · intro w hw
    rw [Finset.mem_filter] at hw ⊢
    exact ⟨hw.1, hvu.trans hw.2⟩
  · rw [Finset.mem_filter, Finset.mem_range]
    exact ⟨hu, hvu⟩
  · rw [Finset.mem_filter]
    exact fun hself => hcausal u hself.2

/-- A value that no pointer is split at: a tensor that is neither moved nor spread. -/
def Untracked (g : Graph) (v : ValueId) (kind : Kind) : Prop :=
  ∃ node, g.nodes[v]? = some node ∧ node.op.kind = kind ∧ node.type.shape ≠ [] ∧
    kind ∉ [.addPtr, .splat, .broadcast]

/-- Walking back from `v`, through what is moved and what is spread, ends at `e`. -/
inductive StartsAt (g : Graph) : ValueId → ValueId → Prop
  | here {v : ValueId} {node : Node} (hv : g.nodes[v]? = some node)
    (hstart : node.op.origin? = none) : StartsAt g v v
  | back {v u e : ValueId} {node : Node} (hv : g.nodes[v]? = some node)
    (horigin : node.op.origin? = some u) (h : StartsAt g u e) : StartsAt g v e

namespace StartsAt

variable {e e' : ValueId}

theorem unique (h : g.StartsAt v e) (h' : g.StartsAt v e') : e = e' := by
  induction h with
  | here hv hstart =>
    cases h' with
    | here => rfl
    | back hv' horigin =>
      cases hv.symm.trans hv'
      cases hstart.symm.trans horigin
  | back hv horigin _ ih =>
    cases h' with
    | here hv' hstart =>
      cases hv.symm.trans hv'
      cases hstart.symm.trans horigin
    | back hv' horigin' h' =>
      cases hv.symm.trans hv'
      cases horigin.symm.trans horigin'
      exact ih h'

theorem node (h : g.StartsAt v e) : ∃ node, g.nodes[e]? = some node := by
  induction h with
  | here hv => exact ⟨_, hv⟩
  | back _ _ _ ih => exact ih

theorem reads (h : g.StartsAt v e) : Relation.ReflTransGen g.Reads v e := by
  induction h with
  | here => exact .refl
  | back hv horigin _ ih =>
    obtain ⟨hmerge, hu⟩ := Op.mem_operands_of_origin? horigin
    exact .head ⟨_, hv, hmerge, hu⟩ ih

end StartsAt

/-- The walk from a pointer ends where the pointer starts: at a base, or at a value that no pointer
is split at. -/
inductive Walks (g : Graph) (v : ValueId) : Attempt LoweringRefusal PointerPath → Prop
  | reaches {path : PointerPath} (h : g.StartsAt v path.base) : Walks g v (.ok path)
  | stops {e : ValueId} {kind : Kind} (h : g.StartsAt v e) (he : g.Untracked e kind) :
    Walks g v (.error (.refused (.untracked e kind)))

theorem Walks.extend {walk : Attempt LoweringRefusal PointerPath} {node : Node}
    (h : g.Walks u walk) (hv : g.nodes[v]? = some node) (horigin : node.op.origin? = some u)
    (link : PointerLink) : g.Walks v (do return (← walk).extend link) := by
  cases h with
  | reaches h => exact .reaches (.back hv horigin h)
  | stops h he => exact .stops (.back hv horigin h) he

/-- A walk in a causal graph takes no more steps than there are values. -/
theorem pointerPathWithin_walks (hg : g.WellTyped) (hcausal : g.Causal) {fuel : Nat}
    (hfuel : g.depth v < fuel) (hv : v < g.size) : g.Walks v (g.pointerPathWithin fuel v) := by
  induction fuel generalizing v with
  | zero => cases hfuel
  | succ fuel ih =>
    have hnode := List.getElem?_eq_getElem hv
    generalize g.nodes[v] = node at hnode
    -- What is read depends on fewer values, so the fuel lasts for the rest of the walk.
    have hstep {u : ValueId} (link : PointerLink) (horigin : node.op.origin? = some u) :
        g.Walks v (do return (← g.pointerPathWithin fuel u).extend link) := by
      obtain ⟨hmerge, hu⟩ := Op.mem_operands_of_origin? horigin
      have hlt : u < g.size := hg.lt_size_of_uses ⟨node, hnode, hu⟩
      have hdepth := hcausal.depth_lt hlt (.of_operand hnode hmerge hu)
      exact (ih (by omega) hlt).extend hnode horigin link
    have hread : (checked (g.node v) : Attempt LoweringRefusal Node) = .ok node :=
      checked_eq_ok.mpr (element_eq_ok.mpr hnode)
    rw [pointerPathWithin, hread, ok_bind]
    obtain ⟨op, type⟩ := node
    dsimp only
    split
    · exact hstep _ rfl
    · exact hstep _ rfl
    · exact hstep _ rfl
    · next haddPtr hsplat hbroadcast =>
      have hstart : op.origin? = none := by
        cases op with
        | addPtr ptr offset => exact (haddPtr ptr offset rfl).elim
        | splat source => exact (hsplat source rfl).elim
        | broadcast source => exact (hbroadcast source rfl).elim
        | _ => rfl
      split
      · exact .reaches (.here hnode hstart)
      · next htensor =>
        exact .stops (.here hnode hstart) ⟨_, hnode, rfl,
          by simpa [ValueType.isScalar] using htensor, Op.origin?_eq_none.mp hstart⟩

end Graph

/-! ### Splitting pointers -/

namespace Address

open Build Lowering

variable {s s' : Session} {l r v ptr : ValueId} {t : ValueType} {shape : Shape}

theorem widen_yields {element : Element} (hv : s.graph.typeOf? v = some t)
    (hint : t.element.isInt = true) (helement : element.isInt = true) (hzero : 0 ∉ t.shape) :
    (widen v element).Yields s fun w k => k.typeOf? w = some (t.withElement element) := by
  refine yields_of_read (typeOf_of_typeOf? hv) ?_
  have hcast (op : CastOp) (hop : op.accepts t.element element = true) :
      (Lowering.define (.cast op v element)).Yields s fun w k =>
        k.typeOf? w = some (t.withElement element) :=
    define_yields ⟨.cast op v, t.withElement element⟩ ⟨.cast hv hop, hzero⟩ (by rintro ⟨⟩)
  split
  · exact hcast .indexCast (by simp [CastOp.accepts, hint, helement])
  · exact hcast .extS (by simp [CastOp.accepts, hint, helement])

/-- Offsets of one shape can be added. -/
theorem addOffsets_yields (hl : s.graph.IntTensor l shape) (hr : s.graph.IntTensor r shape)
    (hzero : 0 ∉ shape) : (addOffsets l r).Yields s fun v k => k.IntTensor v shape := by
  obtain ⟨⟨lelement, lshape⟩, hl, hlint, rfl⟩ := hl
  obtain ⟨⟨relement, rshape⟩, hr, hrint, rfl⟩ := hr
  have hsum {s : Session} {l r : ValueId} {element : Element} (hint : element.isInt = true)
      (hl : s.graph.typeOf? l = some ⟨element, rshape⟩)
      (hr : s.graph.typeOf? r = some ⟨element, rshape⟩) :
      (Lowering.define (.binary .add l r)).Yields s fun v k => k.IntTensor v rshape := by
    exact define_ints_yields ⟨.binary .add l r, ⟨element, rshape⟩⟩
      ⟨.binary hl hr hint, hzero⟩ (by rintro ⟨⟩) hint
  refine yields_of_read (typeOf_of_typeOf? hl) (yields_of_read (typeOf_of_typeOf? hr) ?_)
  split
  · next hsame =>
    obtain rfl : lelement = relement := beq_iff_eq.mp hsame
    exact hsum hlint hl hr
  · split
    · refine (widen_yields hl hlint hrint hzero).bind fun wide s₁ h₁ hwide => ?_
      exact hsum hrint hwide (h₁.typeOf? hr)
    · refine (widen_yields hr hrint hlint hzero).bind fun wide s₁ h₁ hwide => ?_
      exact hsum hlint (h₁.typeOf? hl) hwide

/-- The pointer at the start of a path points to what the pointer at its end does. -/
theorem onePointer_of_points {path : PointerPath} (hs : s.graph.WellTyped)
    (hpath : s.graph.Points v path) (hv : s.graph.typeOf? v = some t)
    (hpointer : t.element.isPointer = true) : s.graph.OnePointer path.base := by
  induction hpath generalizing t with
  | base hnode hscalar =>
    cases (Graph.typeOf?_of_node hnode).symm.trans hv
    exact ⟨_, hv, hpointer, hscalar⟩
  | move hnode _ ih =>
    cases (Graph.typeOf?_of_node hnode).symm.trans hv
    cases (hs _ _ hnode).op with
    | addPtr hptr => exact ih hptr hpointer
  | splat hnode _ ih =>
    cases (Graph.typeOf?_of_node hnode).symm.trans hv
    cases (hs _ _ hnode).op with
    | splat hsource => exact ih hsource hpointer
  | broadcast hnode _ ih =>
    cases (Graph.typeOf?_of_node hnode).symm.trans hv
    cases (hs _ _ hnode).op with
    | broadcast hsource => exact ih hsource hpointer

section Follow

open TileFacts.Graph (Spans spans_none spans_some)

variable {offset : Option ValueId} {source : Shape}

theorem follow_move_yields {delta : ValueId} (hoffset : Spans shape offset s.graph)
    (hdelta : s.graph.IntTensor delta shape) (hzero : 0 ∉ shape) :
    (follow offset (.move delta)).Yields s (Spans shape) := by
  cases offset with
  | none => exact yields_pure (spans_some.mpr hdelta)
  | some o => exact .spans (addOffsets_yields (spans_some.mp hoffset) hdelta hzero)

theorem follow_splat_yields (hoffset : Spans [] offset s.graph) (hzero : 0 ∉ shape) :
    (follow offset (.splat shape)).Yields s (Spans shape) := by
  cases offset with
  | none => exact yields_pure (spans_none shape _)
  | some o =>
    obtain ⟨t, ht, hint, hscalar⟩ := spans_some.mp hoffset
    exact .spans (define_ints_yields ⟨.splat o, t.withShape shape⟩ ⟨.splat ht hscalar, hzero⟩
      (by rintro ⟨⟩) hint)

theorem follow_broadcast_yields (hoffset : Spans source offset s.graph)
    (hstretches : source.stretchesTo shape = true) (hzero : 0 ∉ shape) :
    (follow offset (.broadcast shape)).Yields s (Spans shape) := by
  cases offset with
  | none => exact yields_pure (spans_none shape _)
  | some o =>
    obtain ⟨t, ht, hint, hshape⟩ := spans_some.mp hoffset
    exact .spans (define_ints_yields ⟨.broadcast o, t.withShape shape⟩
      ⟨.broadcast ht (hshape ▸ hstretches), hzero⟩ (by rintro ⟨⟩) hint)

/-- A path is followed up to its last link, and then along that. -/
theorem foldlM_extend_yields {path : PointerPath} {link : PointerLink}
    (h : (path.links.foldlM follow none).Yields s (Spans source))
    (hlink : ∀ offset s', s.graph.Adds (fun _ => True) s'.graph → Spans source offset s'.graph →
      (follow offset link).Yields s' (Spans shape)) :
    ((path.extend link).links.foldlM follow none).Yields s (Spans shape) := by
  rw [PointerPath.extend, List.foldlM_append]
  refine h.bind fun offset s₁ h₁ hoffset => ?_
  simp only [List.foldlM_cons, List.foldlM_nil, bind_pure]
  exact hlink offset s₁ h₁ hoffset

/-- The offset that a path amounts to has the shape of the pointer at its end. -/
theorem foldlM_yields {path : PointerPath} (hs : s.graph.WellTyped) (hpath : s.graph.Points v path)
    (hv : s.graph.typeOf? v = some t) :
    (path.links.foldlM follow none).Yields s (Spans t.shape) := by
  have hextents := hs.extents_of_typeOf? hv
  induction hpath generalizing t with
  | base => exact yields_pure (spans_none t.shape _)
  | move hnode _ ih =>
    cases (Graph.typeOf?_of_node hnode).symm.trans hv
    cases (hs _ _ hnode).op with
    | addPtr hptr hdelta _ hint hshape =>
      refine foldlM_extend_yields (ih hptr hextents) fun offset s₁ h₁ hoffset => ?_
      exact follow_move_yields hoffset ⟨_, h₁.typeOf? hdelta, hint, hshape.symm⟩ hextents
  | splat hnode _ ih =>
    cases (Graph.typeOf?_of_node hnode).symm.trans hv
    cases (hs _ _ hnode).op with
    | splat hsource hscalar =>
      refine foldlM_extend_yields (ih hsource (hs.extents_of_typeOf? hsource))
        fun offset s₁ _ hoffset => ?_
      exact follow_splat_yields (hscalar ▸ hoffset) hextents
  | broadcast hnode _ ih =>
    cases (Graph.typeOf?_of_node hnode).symm.trans hv
    cases (hs _ _ hnode).op with
    | broadcast hsource hstretches =>
      refine foldlM_extend_yields (ih hsource (hs.extents_of_typeOf? hsource))
        fun offset s₁ _ hoffset => ?_
      exact follow_broadcast_yields hoffset hstretches hextents

end Follow

/-- A pointer is split at the value where it starts, unless that is a tensor. -/
theorem track_progress (hs : s.graph.WellTyped) (hcausal : s.graph.Causal)
    (hptr : s.graph.typeOf? ptr = some t) (hpointer : t.element.isPointer = true) :
    (track ptr).Ends s
      (fun address k => s.graph.Adds (fun _ => True) k ∧ s.graph.StartsAt ptr address.base ∧
        k.OnePointer address.base ∧ k.IntTensor address.offset t.shape)
      (fun failure k => k = s.graph ∧ ∃ e kind, s.graph.StartsAt ptr e ∧
        s.graph.Untracked e kind ∧ failure = .refused (.untracked e kind)) := by
  have hwalk : s.graph.Walks ptr (s.graph.pointerPath ptr) :=
    Graph.pointerPathWithin_walks hs hcausal (Nat.lt_succ_of_le (Graph.depth_le_size _ _))
      (Graph.lt_size_of_typeOf? hptr)
  refine ends_bind_of_ok (graph_eq_ok.mpr ⟨rfl, rfl⟩) ?_
  cases hpath : s.graph.pointerPath ptr with
  | error failure =>
    rw [hpath] at hwalk
    cases hwalk with
    | stops hstart he => exact ends_of_error (bind_of_error rfl) ⟨rfl, _, _, hstart, he, rfl⟩
  | ok path =>
    rw [hpath] at hwalk
    obtain ⟨hstart⟩ := hwalk
    refine ends_bind_of_ok (attempt_eq_ok.mpr ⟨rfl, rfl⟩) ?_
    have hpoints := Graph.points_of_pointerPathWithin hpath
    obtain ⟨b, hb, hbase⟩ := onePointer_of_points hs hpoints hptr hpointer
    obtain ⟨offset, s₁, hfold, h₁, hspans⟩ := foldlM_yields hs hpoints hptr
    refine ends_bind_of_ok hfold ?_
    cases offset with
    | some o =>
      exact ⟨h₁, hstart, ⟨b, h₁.typeOf? hb, hbase⟩, Graph.spans_some.mp hspans⟩
    | none =>
      have hextents := hs.extents_of_typeOf? hptr
      refine ends_bind_of_ok (typeOf_of_typeOf? (h₁.typeOf? hptr)) ?_
      obtain ⟨o, s₂, ho, h₂, hints⟩ := define_ints_yields (s := s₁) ⟨.const 0, t.withElement .i32⟩
        ⟨.const rfl, hextents⟩ (by rintro ⟨⟩) rfl
      refine ends_bind_of_ok ho ?_
      exact ⟨h₁.trans h₂, hstart, ⟨b, (h₁.trans h₂).typeOf? hb, hbase⟩, hints⟩

end Address

/-! ### Whole updates -/

/-- Graphs whose updates can be lowered if anything can: well typed and causal, without pointers to
pointers, and with counts of elements that fit 64 bits. -/
structure Graph.Lowerable (g : Graph) : Prop where
  wellTyped : g.WellTyped
  causal : g.Causal
  pointees : ∀ node ∈ g.nodes, ∀ e ∈ node.type.element.pointee?, e.isPointer = false
  counts : ∀ node ∈ g.nodes, node.type.shape.prod < UInt64.size

namespace Lowering

open Build

variable {g h : Graph} {a : ValueId} {s s' : Session} {t : Target} {type : ValueType}
  {settings : Settings} {inference : Inference} {done : List LoweringRecord}

/-- The two reasons to refuse a lowering: an update depends on a value that no pointer is split at,
or there is no primitive for it. -/
inductive Refuses (g : Graph) : Failure LoweringRefusal → Prop
  | untracked {a v : ValueId} {kind : Kind} (ha : a ∈ atomics g) (hav : g.DependsOn a v)
    (hv : g.Untracked v kind) : Refuses g (.refused (.untracked v kind))
  | unsupported {v ptr value : ValueId} {op : RmwOp} {mask : Option ValueId} {type : ValueType}
    (hv : g.nodes[v]? = some ⟨.atomicRmw op ptr value mask, type⟩)
    (hprimitive : ∀ p, op.primitive type.element ≠ .ok p) :
    Refuses g (.refused (.unsupported op type.element))

/-- A failure that leaves a well-typed graph and has one of these reasons. -/
def Stuck (failure : Failure LoweringRefusal) (k : Graph) : Prop := k.WellTyped ∧ Refuses k failure

/-- A typed target that cannot be replaced shows an update without a primitive. -/
theorem replace_stuck {pattern : AccessPattern} {ptr value : ValueId} {mask : Option ValueId}
    {type' : ValueType} (hs : s.graph.WellTyped) (ht : t.Typed s.graph type)
    (hnode : s.graph.nodes[t.atomic]? = some ⟨.atomicRmw t.op ptr value mask, type'⟩) :
    (replace t pattern).Ends s (fun _ k => k.WellTyped) Stuck := by
  refine (replace_progress hs ht).imp (fun _ _ hk => hk) fun failure k hfailure => ?_
  obtain ⟨rfl, hop⟩ := hfailure
  cases (Graph.typeOf?_of_node hnode).symm.trans ht.atomic
  refine ⟨hs, ?_⟩
  rw [primitive_eq_error hop]
  refine .unsupported hnode fun p hp => ?_
  cases hp.symm.trans hop

/-- The target of an update of a graph that has grown since is typed, unless its pointer cannot be
split. -/
theorem target_progress (hg : g.Lowerable) (ha : a ∈ atomics g)
    (hadds : g.Adds (fun _ => True) s.graph) :
    (target a).Ends s (fun t k => s.graph.Adds (fun _ => True) k ∧ ∃ type, t.Typed k type)
      Stuck := by
  obtain ⟨⟨op, type⟩, hnode, hkind⟩ := mem_atomics.mp ha
  have hs := hadds.wellTyped hg.wellTyped
  have hnode' := hadds.node hnode
  obtain ⟨hop, hextents⟩ := hg.wellTyped a _ hnode
  cases hop with
  | @atomicRmw op ptr value mask p _ hptr hvalue hpointee hshape hmask =>
    obtain ⟨pnode, hpnode, rfl⟩ := Option.map_eq_some_iff.mp hptr
    have helement := hg.pointees pnode (List.mem_of_getElem? hpnode) _ hpointee
    refine ends_bind_of_ok (inspect_eq_ok.mpr ⟨Graph.op_eq_ok hnode', rfl⟩) ?_
    have htrack := Address.track_progress hs (hadds.causal hg.wellTyped hg.causal)
      (hadds.typeOf? hptr) (Element.isPointer_of_pointee? hpointee)
    refine Ends.bind (htrack.imp (fun _ _ h => h) fun failure k hfailure => ?_)
      fun address s₁ hs₁ => ?_
    · obtain ⟨rfl, u, kind, hstart, hu, rfl⟩ := hfailure
      have hreads : s.graph.Reads a ptr := ⟨_, hnode', by rintro ⟨⟩, by simp [Op.operands]⟩
      exact ⟨hs, .untracked (mem_atomics.mpr ⟨_, hnode', rfl⟩) (.head' hreads hstart.reads) hu⟩
    · obtain ⟨h₁, _, hbase, hoffset⟩ := hs₁
      have h := hadds.trans h₁
      refine ends_pure ⟨h₁, type, ?_⟩
      exact {
        atomic := h.typeOf? (Graph.typeOf?_of_node hnode)
        element := helement
        extents := hextents
        count := hg.counts _ (List.mem_of_getElem? hnode)
        value := h.typeOf? hvalue
        mask := fun m hm => (hmask m hm).imp fun _ hb => ⟨h.typeOf? hb.1, hb.2⟩
        base := hbase
        offset := hshape ▸ hoffset }
  | _ => cases hkind

theorem mapM_target_progress (hg : g.Lowerable) {updates : List ValueId}
    (hupdates : ∀ a ∈ updates, a ∈ atomics g) (hadds : g.Adds (fun _ => True) s.graph) :
    (updates.mapM target).Ends s (fun targets k => s.graph.Adds (fun _ => True) k ∧
      ∀ t ∈ targets, ∃ type, t.Typed k type) Stuck := by
  induction updates generalizing s with
  | nil => exact ends_pure ⟨.refl, by rintro _ ⟨⟩⟩
  | cons a rest ih =>
    rw [List.mapM_cons]
    refine (target_progress hg (hupdates a (List.mem_cons_self ..)) hadds).bind fun t s₁ hs₁ => ?_
    obtain ⟨h₁, type, ht⟩ := hs₁
    refine (ih (fun a ha => hupdates a (List.mem_cons_of_mem _ ha)) (hadds.trans h₁)).bind
      fun more s₂ hs₂ => ?_
    obtain ⟨h₂, hmore⟩ := hs₂
    refine ends_pure ⟨h₁.trans h₂, fun t' ht' => ?_⟩
    rcases List.mem_cons.mp ht' with rfl | ht'
    · exact ⟨type, ht.of_keeps h₂.keepsTypes⟩
    · exact hmore t' ht'

/-- The pattern of a typed target can be told by what was inferred of the graph before. -/
theorem exists_accessPattern (hh : h.WellTyped)
    (hrun : (Inference.run h .standard settings).2 = .ok inference) (ht : t.Typed h type)
    (hkeeps : h.KeepsTypes s.graph) :
    ∃ pattern, accessPattern inference t.address.offset s = .ok pattern s := by
  obtain ⟨o, ho, _, hshape⟩ := ht.offset
  obtain ⟨f, hf, hrank, hpowers⟩ := Inference.get_powers hh hrun ho
  have hfits : ∀ extent ∈ o.shape, extent < UInt64.size := by
    intro extent hextent
    rw [hshape] at hextent
    have hle : extent ≤ type.shape.prod :=
      Nat.le_of_dvd (Shape.prod_pos ht.extents) (List.dvd_prod hextent)
    exact Nat.lt_of_le_of_lt hle ht.count
  obtain ⟨pattern, hpattern⟩ :=
    AccessPattern.exists_classify hrank (fun a ha => (hpowers a ha).pos) (hshape ▸ ht.extents) hfits
  refine ⟨pattern, inspect_eq_ok.mpr ⟨?_, rfl⟩⟩
  exact bind_eq_ok.mpr ⟨f, hf, bind_eq_ok.mpr ⟨o, Graph.type_eq_ok.mpr (hkeeps _ _ ho), hpattern⟩⟩

/-- Replacements rename values to values of the same types. -/
theorem Replaced.typeOf?_resolve {k : Graph} (hk : Replaced h done k) {v : ValueId} {t : ValueType}
    (hv : h.typeOf? v = some t) : k.typeOf? (resolve done v) = some t := by
  rcases resolve_cases done v with ⟨_, heq⟩ | ⟨r, hr, rfl, heq⟩
  · rw [heq]
    exact hk.typeOf? hv
  · obtain ⟨t', ht', hreplacement⟩ := hk.typed r hr
    rw [hv] at ht'
    cases ht'
    rw [heq]
    exact hreplacement

/-- The step: the next target is replaced, unless there is no primitive for it. -/
theorem replaceNext_progress (hh : h.WellTyped)
    (hrun : (Inference.run h .standard settings).2 = .ok inference) (ht : Tracked h a t)
    (htyped : t.Typed h type) (hs : Replaced h done s.graph) :
    (replaceNext inference done t).Ends s (fun _ k => k.WellTyped) Stuck := by
  have hkeeps : h.KeepsTypes s.graph := fun _ _ => hs.typeOf?
  obtain ⟨pattern, hpattern⟩ := exists_accessPattern hh hrun htyped hkeeps
  refine ends_bind_of_ok hpattern (ends_bind_of_ok (refresh_eq ht hs) ?_)
  have hfresh := htyped.rename hkeeps fun _ _ => hs.typeOf?_resolve
  obtain ⟨ptr, type', hnode⟩ := ht.node
  exact replace_stuck hs.wellTyped hfresh (ht.atomic ▸ hs.frame a _ hnode)

/-- The run. -/
theorem replaceAll_progress {updates : List ValueId} {targets : List Target} (hh : h.WellTyped)
    (hcausal : h.Causal) (hrun : (Inference.run h .standard settings).2 = .ok inference)
    (htargets : List.Forall₂ (Tracked h) updates targets)
    (htyped : ∀ t ∈ targets, ∃ type, t.Typed h type) (hs : Replaced h done s.graph) :
    (replaceAll inference done targets).Ends s (fun _ k => k.WellTyped) Stuck := by
  induction htargets generalizing done s with
  | nil => exact ends_pure hs.wellTyped
  | @cons a t updates targets ht _ ih =>
    rw [replaceAll_cons]
    obtain ⟨type, httype⟩ := htyped t (List.mem_cons_self ..)
    -- The progress of a step says nothing of the graph that the next one meets; `Replaced` does.
    have hstep := (replaceNext_progress hh hrun ht httype hs).and (replaceNext_ends ht hcausal hs)
    refine Ends.bind (hstep.imp (fun _ _ hk => hk.2.2) fun _ _ hk => hk.1) fun record s₁ hs₁ => ?_
    exact ih (fun t ht => htyped t (List.mem_cons_of_mem _ ht)) hs₁

theorem one_progress (hg : g.Lowerable) (ha : a ∈ atomics g) (settings : Settings)
    (log : List Event) :
    (one settings a).Ends ⟨g, log⟩ (fun _ k => k.WellTyped) Stuck := by
  have htarget := target_progress (s := ⟨g, log⟩) hg ha .refl
  cases hrun : target a ⟨g, log⟩ with
  | error failure s₁ => exact ends_of_error (bind_of_error hrun) (htarget.of_error hrun)
  | ok t s₁ =>
    obtain ⟨h₁, type, ht⟩ := htarget.of_ok hrun
    have htracked := target_tracked (s := ⟨g, log⟩) hg.causal hrun
    obtain ⟨ptr, type', hnode⟩ := htracked.node
    have hs₁ := h₁.wellTyped hg.wellTyped
    obtain ⟨inference, s₂, hinfer, hs₂⟩ := exists_infer hs₁ settings
    rw [← htracked.atomic, ← hs₂] at hnode
    obtain ⟨pattern, hpattern⟩ := exists_accessPattern (s := s₂) hs₁ (infer_eq_ok hinfer).2 ht
      fun v t hv => hs₂ ▸ hv
    refine ends_bind_of_ok hrun (ends_bind_of_ok hinfer (ends_bind_of_ok hpattern ?_))
    exact replace_stuck (hs₂ ▸ hs₁) (hs₂ ▸ ht) hnode

theorem all_progress (hg : g.Lowerable) (settings : Settings) (log : List Event) :
    (all settings).Ends ⟨g, log⟩ (fun _ k => k.WellTyped) Stuck := by
  cases hatomics : atomics g with
  | nil => exact ends_of_ok (all_of_nil (s := ⟨g, log⟩) settings hatomics) hg.wellTyped
  | cons first rest =>
    refine ends_congr (all_of_cons (s := ⟨g, log⟩) settings hatomics) ?_
    have htargets := mapM_target_progress (s := started ⟨g, log⟩) hg (fun a ha => ha) .refl
    cases hrun : (atomics g).mapM target (started ⟨g, log⟩) with
    | error failure s₁ => exact ends_of_error (bind_of_error hrun) (htargets.of_error hrun)
    | ok targets s₁ =>
      obtain ⟨h₁, htyped⟩ := htargets.of_ok hrun
      have hs₁ := h₁.wellTyped hg.wellTyped
      have htracked := mapM_target_tracked (s := started ⟨g, log⟩) hg.wellTyped hg.causal hrun
      obtain ⟨inference, s₂, hinfer, hs₂⟩ := exists_infer hs₁ settings
      have hstart : Replaced s₁.graph [] s₂.graph := by
        rw [hs₂]
        exact .refl hs₁
      refine ends_bind_of_ok hrun (ends_bind_of_ok hinfer ?_)
      refine (replaceAll_progress hs₁ (h₁.causal hg.wellTyped hg.causal) (infer_eq_ok hinfer).2
        htracked htyped hstart).bind fun records s₃ hs₃ => ?_
      exact ends_bind_of_ok (emit_eq _) (ends_pure hs₃)

end Lowering

/-- Lowering an update, or all of them, never gets stuck while it builds: it succeeds, or an update
depends on a value that no pointer is split at, or there is no primitive for it. What it leaves is
well typed either way. -/
theorem Lowering.progress {g : Graph} (hg : g.Lowerable) (settings : Settings) (log : List Event) :
    (∀ (a : ValueId) (node : Node), g.nodes[a]? = some node → node.op.kind = .atomicRmw →
      (one settings a).Ends ⟨g, log⟩ (fun _ k => k.WellTyped) Stuck) ∧
    (all settings).Ends ⟨g, log⟩ (fun _ k => k.WellTyped) Stuck :=
  ⟨fun _ node hnode hkind => one_progress hg (mem_atomics.mpr ⟨node, hnode, hkind⟩) settings log,
    all_progress hg settings log⟩

/-- The masked update is lowered by itself and among all: it is scattered over the memory behind its
base, and what took its place is well typed. -/
theorem Lowering.progress_masked : Graph.masked.Lowerable ∧
    Graph.masked.nodes[6]? = some ⟨.atomicRmw .add 3 4 (some 5), ⟨.i32, [2, 2]⟩⟩ ∧
    (one .standard 6).Ends ⟨.masked, []⟩ (fun _ k => k.WellTyped) Stuck ∧
    (all .standard).Ends ⟨.masked, []⟩ (fun _ k => k.WellTyped) Stuck ∧
    Build.result (one .standard 6) ⟨.masked, []⟩ =
      some (⟨6, 12, .addI, .scattered, .gather⟩, .maskedFlat) ∧
    Build.result (all .standard) ⟨.masked, []⟩ =
      some ([⟨6, 12, .addI, .scattered, .gather⟩], .maskedFlat) ∧
    Graph.maskedFlat.WellTyped := by
  have hg : Graph.masked.Lowerable :=
    ⟨Graph.masked_built.wellTyped, Graph.causal_of_lt (by decide), by decide, by decide⟩
  obtain ⟨hone, hall⟩ := Lowering.progress hg .standard []
  have hresult : Build.result (all .standard) ⟨.masked, []⟩ =
      some ([⟨6, 12, .addI, .scattered, .gather⟩], .maskedFlat) := by decide +kernel
  obtain ⟨s, hs, hgraph⟩ := Build.exists_of_result hresult
  have hflat : s.graph.WellTyped := hall.of_ok hs
  exact ⟨hg, rfl, hone 6 _ rfl rfl, hall, by decide +kernel, hresult, hgraph ▸ hflat⟩

end TileFacts

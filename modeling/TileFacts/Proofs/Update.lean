import TileFacts.Proofs.Address

/-! Lowered updates change memory as the updates did.

A lowering puts one gathered update among values that only prepare its operands and read its
result. Lane by lane, in the order of rows, it updates the address that the pointer had, by the
value it had, where the mask was on (`Gathers`). Main statement: whatever tensors the values of
the resulting graph have, the gathered update has the lanes of the update that was lowered, and
the replacement has its result. -/
namespace TileFacts

/-- The count of elements is the product of the extents. -/
theorem Shape.numElements_eq_prod {shape : Shape} {n : Nat} (h : shape.numElements = .ok n) :
    n = shape.prod := by
  have hfold : ∀ (extents : List Nat) (start : Nat), extents.foldlM (fun count extent =>
      if count * extent < UInt64.size then .ok (count * extent)
      else .error (.overflow .mul)) start = (.ok n : Checked Nat) → n = start * extents.prod := by
    intro extents
    induction extents with
    | nil =>
      intro start h
      cases h
      simp
    | cons extent rest ih =>
      intro start h
      obtain ⟨next, hnext, h⟩ := bind_eq_ok.mp h
      dsimp only at hnext
      split at hnext
      · cases hnext
        rw [ih _ h, List.prod_cons, Nat.mul_assoc]
      · cases hnext
  simpa using hfold shape 1 h

/-- A lane of an update is enabled: there is no mask, or the mask is on. -/
def Enabled (X : ValueId → Tensor) (mask : Option ValueId) (k : Nat) : Prop :=
  ∀ m ∈ mask, (X m).lane k ≠ 0

/-- The first `n` lanes of a gathered update are those of an update through pointers. -/
structure Gathers (X : ValueId → Tensor) (n : Nat) (ptr value : ValueId) (mask : Option ValueId)
    (base values indices : ValueId) (wide : Option ValueId) : Prop where
  address : ∀ k < n, X base [] + (X indices).lane k = (X ptr).lane k
  value : ∀ k < n, (X values).lane k = (X value).lane k
  enabled : ∀ k < n, Enabled X wide k ↔ Enabled X mask k

/-- A value that is no gathered update. -/
def Node.IsPlain (node : Node) : Prop := node.op.kind ≠ .gatherAtomicRmw

theorem Node.IsOffset.isPlain {S : Shape → Prop} {node : Node} (h : node.IsOffset S) :
    node.IsPlain := by
  have := h.1
  intro hkind
  cases hop : node.op <;> simp_all [Op.isOffset, Op.kind]

/-! ### Operands of a gathered update -/

namespace Lowering

variable {s s' : Session} {a u v : ValueId} {X : ValueId → Tensor} {d : Definition}

theorem define_plain (h : define d s = .ok v s') (hd : d.op.kind ≠ .gatherAtomicRmw) :
    s.graph.Adds Node.IsPlain s'.graph :=
  define_adds h fun node hnode => by
    rw [Node.IsPlain, Graph.op_of_define hnode]
    exact hd

theorem define_reshape {shape : Shape} (h : define (.reshape v shape) s = .ok u s')
    (hs : s.graph.WellTyped) (hX : s'.graph.SatisfiesBut a X) (hv : v ≠ a) :
    (X u).shape = shape ∧ ∀ k < shape.prod, (X u).lane k = (X v).lane k := by
  have hshape := define_shape h hX rfl
  obtain ⟨ctx, hop, hcomputes⟩ := define_computes h hs hX
    (by simpa [Definition.op, Op.operands] using hv.symm) rfl (by rintro ⟨⟩)
  exact ⟨hshape, fun k hk => hcomputes.reshape hop k (hshape ▸ hk)⟩

/-- A value that has the flat shape, or is brought to it. -/
theorem flatten_eq_ok {shape : Shape} (h : flatten v shape s = .ok u s') :
    (∃ t, s.graph.typeOf? v = some t ∧ t.shape = shape ∧ u = v ∧ s' = s) ∨
      define (.reshape v shape) s = .ok u s' := by
  obtain ⟨t, s₁, htype, h⟩ := Build.bind_eq_ok.mp h
  obtain ⟨ht, rfl⟩ := typeOf_eq_ok htype
  split at h
  · next hshape =>
    obtain ⟨rfl, rfl⟩ := Build.pure_eq_ok.mp h
    exact .inl ⟨t, ht, by simpa using hshape, rfl, rfl⟩
  · exact .inr h

theorem flatten_plain {shape : Shape} (h : flatten v shape s = .ok u s') :
    s.graph.Adds Node.IsPlain s'.graph := by
  rcases flatten_eq_ok h with ⟨_, _, _, _, rfl⟩ | h
  · exact .refl
  · exact define_plain h (by rintro ⟨⟩)

theorem flatten_ne {shape : Shape} (h : flatten v shape s = .ok u s') (ha : a < s.graph.size)
    (hv : v ≠ a) : u ≠ a := by
  rcases flatten_eq_ok h with ⟨_, _, _, rfl, _⟩ | h
  · exact hv
  · exact define_ne h ha

theorem flatten_lanes {shape : Shape} (h : flatten v shape s = .ok u s') (hs : s.graph.WellTyped)
    (hX : s'.graph.SatisfiesBut a X) (hv : v ≠ a) :
    (X u).shape = shape ∧ ∀ k < shape.prod, (X u).lane k = (X v).lane k := by
  rcases flatten_eq_ok h with ⟨t, ht, hshape, rfl, rfl⟩ | h
  · exact ⟨(hX.shape u t ht).trans hshape, fun k _ => rfl⟩
  · exact define_reshape h hs hX hv

theorem widenMask_eq_ok {shape : Shape} {mask wide : Option ValueId}
    (h : widenMask shape mask s = .ok wide s') : mask = none ∧ wide = none ∧ s' = s ∨
      ∃ m flat w s₁, mask = some m ∧ wide = some w ∧ flatten m shape s = .ok flat s₁ ∧
        define (.cast .extS flat .i8) s₁ = .ok w s' := by
  cases mask with
  | none =>
    obtain ⟨rfl, rfl⟩ := Build.pure_eq_ok.mp h
    exact .inl ⟨rfl, rfl, rfl⟩
  | some m =>
    obtain ⟨flat, s₁, hflat, h⟩ := Build.bind_eq_ok.mp h
    obtain ⟨w, hw, rfl⟩ := Build.map_eq_ok.mp h
    exact .inr ⟨m, flat, w, s₁, rfl, rfl, hflat, hw⟩

theorem widenMask_plain {shape : Shape} {mask wide : Option ValueId}
    (h : widenMask shape mask s = .ok wide s') : s.graph.Adds Node.IsPlain s'.graph := by
  rcases widenMask_eq_ok h with ⟨_, _, rfl⟩ | ⟨m, flat, w, s₁, _, _, hflat, hw⟩
  · exact .refl
  · exact (flatten_plain hflat).trans (define_plain hw (by rintro ⟨⟩))

theorem widenMask_ne {shape : Shape} {mask wide : Option ValueId}
    (h : widenMask shape mask s = .ok wide s') (ha : a < s.graph.size) : ∀ w ∈ wide, w ≠ a := by
  rcases widenMask_eq_ok h with ⟨_, rfl, _⟩ | ⟨m, flat, w, s₁, _, rfl, hflat, hw⟩
  · rintro _ ⟨⟩
  · rintro _ ⟨⟩
    exact define_ne hw (Nat.lt_of_lt_of_le ha (flatten_plain hflat).size_le)

/-- A mask of bytes is on where the mask is. -/
theorem widenMask_enabled {shape : Shape} {mask wide : Option ValueId}
    (h : widenMask shape mask s = .ok wide s') (hs : s.graph.WellTyped)
    (hX : s'.graph.SatisfiesBut a X) (ha : a < s.graph.size) (hmask : ∀ m ∈ mask, m ≠ a) :
    ∀ k < shape.prod, Enabled X wide k ↔ Enabled X mask k := by
  rcases widenMask_eq_ok h with ⟨rfl, rfl, rfl⟩ | ⟨m, flat, w, s₁, rfl, rfl, hflat, hw⟩
  · exact fun k _ => Iff.rfl
  · have hX₁ := hX.of_adds (define_plain hw (by rintro ⟨⟩))
    obtain ⟨hshape, hlanes⟩ := flatten_lanes hflat hs hX₁ (hmask m rfl)
    have hne := flatten_ne hflat ha (hmask m rfl)
    obtain ⟨ctx, hop, hcomputes⟩ := define_computes hw ((flatten_plain hflat).wellTyped hs) hX
      (by simpa [Definition.op, Op.operands] using hne.symm) rfl (by rintro ⟨⟩)
    obtain ⟨hwshape, hcopy⟩ := hcomputes.cast hop
    intro k hk
    have hlane : (X w).lane k = (X m).lane k := by
      rw [← hlanes k hk, Tensor.lane, Tensor.lane, ← hwshape]
      refine hcopy _ ?_
      rw [← hwshape]
      exact Shape.contains_position (hshape ▸ hk)
    simp [Enabled, hlane]

/-- The zero of a type is zero. -/
theorem define_zero {type : ValueType} (h : define (zero type) s = .ok v s')
    (hs : s.graph.WellTyped) (hX : s'.graph.SatisfiesBut a X) : (X v).IsConstant 0 := by
  unfold zero at h
  split at h
  · obtain ⟨node, hv, _, hop⟩ := define_node h
    have hops : a ∉ node.op.operands := by simp [hop, Definition.op, Op.operands]
    exact (hX.holds v node hv hops).float 0 hop
  · exact define_const h hs hX

/-- A base that an offset has moved is where the pointer leads. -/
theorem define_addPtr {base offset ptr : ValueId} (h : define (.addPtr base offset) s = .ok v s')
    (hs : s.graph.WellTyped) (hX : s'.graph.SatisfiesBut a X) (hbase : base ≠ a)
    (hoffset : offset ≠ a) (hscalar : (X ptr).shape = [])
    (hleads : Address.Leads X base offset ptr) :
    X v [] = X ptr [] := by
  obtain ⟨ctx, hop, hcomputes⟩ := define_computes h hs hX
    (by simp [Definition.op, Op.operands, hbase.symm, hoffset.symm]) rfl (by rintro ⟨⟩)
  have hbinary : ctx.binaryOp = .ok .add := by
    rw [Context.binaryOp, hop]
    rfl
  have hsum := hcomputes.combines hbinary
  have hshape : (X v).shape = [] := by rw [← hsum.right, hleads.1, hscalar]
  have helement := Option.some.inj (hsum.elements [] (by simp [hshape]))
  rw [← helement, hleads.2 [] (by simp [hscalar])]

theorem define_gather_shape {op : AtomicOp} {base values indices : ValueId} {wide : Option ValueId}
    (h : define (.gatherAtomicRmw op base values indices wide) s = .ok v s')
    (hs : s.graph.WellTyped) (hX : s'.graph.SatisfiesBut a X) : (X v).shape = (X values).shape := by
  have hplain := define_adds (P := fun _ => True) h fun _ _ => trivial
  obtain ⟨⟨_, type⟩, hv, hnode, rfl⟩ := define_node h
  cases (hs.define hnode).op with
  | gatherAtomicRmw _ hvalues _ _ _ _ _ _ =>
    rw [hX.shape v type (by rw [Graph.typeOf?, hv]; rfl),
      hX.shape values type (hplain.typeOf? hvalues)]

/-! ### Both paths -/

/-- One gathered update among plain values. -/
inductive Gathered (op : AtomicOp) (s s' : Session) (base values indices : ValueId)
    (wide : Option ValueId) (gather : ValueId) : Prop
  | intro {s₁ s₂ : Session} (before : s.graph.Adds Node.IsPlain s₁.graph)
    (update : define (.gatherAtomicRmw op base values indices wide) s₁ = .ok gather s₂)
    (after : s₂.graph.Adds Node.IsPlain s'.graph) :
    Gathered op s s' base values indices wide gather

namespace Gathered

variable {op : AtomicOp} {base values indices gather : ValueId} {wide : Option ValueId}

theorem adds (h : Gathered op s s' base values indices wide gather) :
    s.graph.Adds (fun _ => True) s'.graph := by
  obtain ⟨before, update, after⟩ := h
  exact (before.mono fun _ _ => trivial).trans ((define_adds update fun _ _ => trivial).trans
    (after.mono fun _ _ => trivial))

/-- More plain values before it. -/
theorem prepend {s₀ : Session} (h₀ : s₀.graph.Adds Node.IsPlain s.graph)
    (h : Gathered op s s' base values indices wide gather) :
    Gathered op s₀ s' base values indices wide gather := by
  obtain ⟨before, update, after⟩ := h
  exact .intro (h₀.trans before) update after

theorem node (h : Gathered op s s' base values indices wide gather) :
    s.graph.size ≤ gather ∧
      ∃ t, s'.graph.nodes[gather]? = some ⟨.gatherAtomicRmw op base values indices wide, t⟩ := by
  obtain ⟨before, update, after⟩ := h
  obtain ⟨⟨_, t⟩, hv, _, rfl⟩ := define_node update
  refine ⟨?_, t, after.node hv⟩
  rw [define_name update]
  exact before.size_le

/-- It is the only gathered update among the new values. -/
theorem kind_iff (h : Gathered op s s' base values indices wide gather) {v : ValueId} {node : Node}
    (hnew : s.graph.size ≤ v) (hv : s'.graph.nodes[v]? = some node) :
    node.op.kind = .gatherAtomicRmw ↔ v = gather := by
  obtain @⟨s₁, s₂, before, update, after⟩ := h
  obtain ⟨new, hdefine, hgather, hgraph⟩ := define_eq_ok update
  have hsize : s₂.graph.size = gather + 1 := by rw [hgraph, Graph.size_push, hgather]
  rcases after.cases_node hv with hv | ⟨hlater, hplain⟩
  · rw [hgraph, Graph.push, List.getElem?_append] at hv
    split at hv
    · next hlt =>
      -- Among the values before the update, which are plain.
      have hne : v ≠ gather := hgather ▸ Nat.ne_of_lt hlt
      rcases before.cases_node hv with hv | ⟨_, hplain⟩
      · exact absurd (List.getElem?_eq_some_iff.mp hv).1 (Nat.not_lt.mpr hnew)
      · exact iff_of_false hplain hne
    · next hge =>
      rw [List.getElem?_singleton] at hv
      split at hv
      · next hzero =>
        cases hv
        rw [Graph.op_of_define hdefine]
        refine iff_of_true rfl ?_
        rw [hgather]
        exact Nat.le_antisymm (Nat.sub_eq_zero_iff_le.mp hzero) (Nat.not_lt.mp hge)
      · cases hv
  · refine iff_of_false hplain fun heq => ?_
    rw [hsize, heq] at hlater
    exact Nat.not_succ_le_self _ hlater

end Gathered

/-- A target whose parts are other values than `a`, in a graph that has `a`. -/
structure Target.Avoids (t : Target) (a : ValueId) (s : Session) : Prop where
  wellTyped : s.graph.WellTyped
  known : a < s.graph.size
  base : t.address.base ≠ a
  offset : t.address.offset ≠ a
  value : t.value ≠ a
  mask : ∀ m ∈ t.mask, m ≠ a

/-- A mask among operands that avoid `a`. -/
theorem not_mem_gather {op : AtomicOp} {base values indices : ValueId} {wide : Option ValueId}
    (hbase : base ≠ a) (hvalues : values ≠ a) (hindices : indices ≠ a)
    (hwide : ∀ w ∈ wide, w ≠ a) :
    a ∉ (Op.gatherAtomicRmw op base values indices wide).operands := by
  simp only [Op.operands, List.mem_append, List.mem_cons, List.not_mem_nil, or_false,
    Option.mem_toList]
  rintro ((h | h | h) | h)
  · exact hbase h.symm
  · exact hvalues h.symm
  · exact hindices h.symm
  · exact hwide a h rfl

/-- The result of one element is that of the gathered update, or zero where the mask is off. -/
theorem masked_result {mask : Option ValueId} {type : ValueType} {result : ValueId}
    (h : (match mask with
      | none => return result
      | some mask => do
        let off ← define (zero type)
        define (.select mask result off) : Lowering ValueId) s = .ok v s')
    (hs : s.graph.WellTyped) (ha : a < s.graph.size) (hresult : result ≠ a)
    (hmask : ∀ m ∈ mask, m ≠ a) :
    s.graph.Adds Node.IsPlain s'.graph ∧
      ∀ X, s'.graph.SatisfiesBut a X → (X result).shape = [] → ∀ k,
        (Enabled X mask k → (X v).lane k = (X result).lane k) ∧
        (¬ Enabled X mask k → (X v).lane k = 0) := by
  cases mask with
  | none =>
    obtain ⟨rfl, rfl⟩ := Build.pure_eq_ok.mp h
    exact ⟨.refl, fun X _ _ k => ⟨fun _ => rfl, fun hoff => absurd (by rintro _ ⟨⟩) hoff⟩⟩
  | some m =>
    obtain ⟨off, s₁, hoff, hv⟩ := Build.bind_eq_ok.mp h
    have k₁ : s.graph.Adds Node.IsPlain s₁.graph :=
      define_plain hoff (by unfold zero; split <;> rintro ⟨⟩)
    have k₂ := define_plain hv (by rintro ⟨⟩)
    refine ⟨k₁.trans k₂, fun X hX hscalar k => ?_⟩
    obtain ⟨ctx, hop, hcomputes⟩ := define_computes hv (k₁.wellTyped hs) hX
      (by simp [Definition.op, Op.operands, (hmask m rfl).symm, hresult.symm,
        (define_ne hoff ha).symm]) rfl (by rintro ⟨⟩)
    have hchooses := hcomputes.chooses hop
    have hvshape : (X v).shape = [] := hchooses.left ▸ hscalar
    have hmshape : (X m).shape = [] := by simpa [hvshape] using hchooses.condition
    have hzero : X off [] = 0 :=
      define_zero hoff hs (hX.of_adds k₂) [] (by simp [hchooses.right, hvshape])
    have helement := hchooses.elements [] (by simp [hvshape])
    simp only [Enabled, Option.mem_some_iff, forall_eq', Tensor.lane, hvshape, hmshape, hscalar,
      Shape.position] at helement ⊢
    constructor
    · intro hon
      simpa [hon] using helement
    · intro hoff
      simpa [not_not.mp hoff, hzero] using helement

/-- The path of one element: the offset moves the base, and one index of zero is left. -/
theorem lowerScalar_gathers {t : Target} {op : AtomicOp} {type : ValueType}
    (h : lowerScalar t op type s = .ok v s') (ht : t.Avoids a s) :
    ∃ base values indices wide gather, Gathered op s s' base values indices wide gather ∧
      a ∉ (Op.gatherAtomicRmw op base values indices wide).operands ∧
      ∀ X ptr, s'.graph.SatisfiesBut a X → (X ptr).shape = [] →
        Address.Leads X t.address.base t.address.offset ptr →
        Gathers X 1 ptr t.value t.mask base values indices wide ∧ (X gather).shape = [1] ∧
        ∀ k < 1, (Enabled X t.mask k → (X v).lane k = (X gather).lane k) ∧
          (¬ Enabled X t.mask k → (X v).lane k = 0) := by
  obtain ⟨base, s₁, h₁, h⟩ := Build.bind_eq_ok.mp h
  obtain ⟨values, s₂, h₂, h⟩ := Build.bind_eq_ok.mp h
  obtain ⟨index, s₃, h₃, h⟩ := Build.bind_eq_ok.mp h
  obtain ⟨wide, s₄, h₄, h⟩ := Build.bind_eq_ok.mp h
  obtain ⟨gather, s₅, h₅, h⟩ := Build.bind_eq_ok.mp h
  obtain ⟨result, s₆, h₆, h⟩ := Build.bind_eq_ok.mp h
  have p₁ := define_plain h₁ (by rintro ⟨⟩)
  have p₂ := define_plain h₂ (by rintro ⟨⟩)
  have p₃ := define_plain h₃ (by rintro ⟨⟩)
  have p₄ := widenMask_plain h₄
  have p₅ := define_adds (P := fun _ => True) h₅ fun _ _ => trivial
  have p₆ := define_plain h₆ (by rintro ⟨⟩)
  have w₁ := p₁.wellTyped ht.wellTyped
  have w₂ := p₂.wellTyped w₁
  have w₃ := p₃.wellTyped w₂
  have w₄ := p₄.wellTyped w₃
  have w₅ := p₅.wellTyped w₄
  have a₁ := Nat.lt_of_lt_of_le ht.known p₁.size_le
  have a₂ := Nat.lt_of_lt_of_le a₁ p₂.size_le
  have a₃ := Nat.lt_of_lt_of_le a₂ p₃.size_le
  have a₄ := Nat.lt_of_lt_of_le a₃ p₄.size_le
  have a₅ := Nat.lt_of_lt_of_le a₄ p₅.size_le
  obtain ⟨p₇, hresult⟩ := masked_result h (p₆.wellTyped w₅) (Nat.lt_of_lt_of_le a₅ p₆.size_le)
    (define_ne h₆ a₅) ht.mask
  refine ⟨base, values, index, wide, gather,
    .intro (p₁.trans (p₂.trans (p₃.trans p₄))) h₅ (p₆.trans p₇),
    not_mem_gather (define_ne h₁ ht.known) (define_ne h₂ a₁) (define_ne h₃ a₂)
      (widenMask_ne h₄ a₃), ?_⟩
  intro X ptr hX hscalar hleads
  have x₆ := hX.of_adds p₇
  have x₅ := x₆.of_adds p₆
  have x₄ := x₅.of_adds p₅
  have x₃ := x₄.of_adds p₄
  have x₂ := x₃.of_adds p₃
  have x₁ := x₂.of_adds p₂
  have hbase := define_addPtr h₁ ht.wellTyped x₁ ht.base ht.offset hscalar hleads
  obtain ⟨hvalues, hvlanes⟩ := define_reshape h₂ w₁ x₂ ht.value
  have hindex : (X index).lane 0 = 0 := by
    refine define_const h₃ w₂ x₃ _ (Shape.contains_position ?_)
    rw [define_shape h₃ x₃ rfl]
    decide
  have hgather : (X gather).shape = [1] := by rw [define_gather_shape h₅ w₄ x₅, hvalues]
  obtain ⟨hrshape, hrlanes⟩ := define_reshape h₆ w₅ x₆ (define_ne h₅ a₄)
  refine ⟨⟨?_, hvlanes, ?_⟩, hgather, fun k hk => ?_⟩
  · intro k hk
    obtain rfl : k = 0 := by omega
    rw [hindex, hbase, Tensor.lane, hscalar, Int64.add_zero]
    rfl
  · exact widenMask_enabled h₄ w₃ x₄ a₃ ht.mask
  · obtain ⟨hon, hoff⟩ := hresult X hX hrshape k
    exact ⟨fun h => (hon h).trans (hrlanes k hk), hoff⟩

/-- The path of a tensor: values, offsets and mask are laid out flat. -/
theorem lowerScattered_gathers {t : Target} {op : AtomicOp} {type : ValueType}
    (h : lowerScattered t op type s = .ok v s') (ht : t.Avoids a s) :
    ∃ base values indices wide gather, Gathered op s s' base values indices wide gather ∧
      a ∉ (Op.gatherAtomicRmw op base values indices wide).operands ∧
      ∀ X ptr, s'.graph.SatisfiesBut a X → (X ptr).shape = type.shape →
        Address.Leads X t.address.base t.address.offset ptr →
        Gathers X type.shape.prod ptr t.value t.mask base values indices wide ∧
        (X gather).shape = [type.shape.prod] ∧
        ∀ k < type.shape.prod, (X v).lane k = (X gather).lane k := by
  obtain ⟨count, s₀, h₀, h⟩ := Build.bind_eq_ok.mp h
  obtain ⟨hcount, rfl⟩ := Build.attempt_eq_ok.mp h₀
  cases Shape.numElements_eq_prod (checked_eq_ok.mp hcount)
  obtain ⟨values, s₁, h₁, h⟩ := Build.bind_eq_ok.mp h
  obtain ⟨indices, s₂, h₂, h⟩ := Build.bind_eq_ok.mp h
  obtain ⟨wide, s₃, h₃, h⟩ := Build.bind_eq_ok.mp h
  obtain ⟨gather, s₄, h₄, h⟩ := Build.bind_eq_ok.mp h
  have p₁ := flatten_plain h₁
  have p₂ := flatten_plain h₂
  have p₃ := widenMask_plain h₃
  have p₄ := define_adds (P := fun _ => True) h₄ fun _ _ => trivial
  have w₁ := p₁.wellTyped ht.wellTyped
  have w₂ := p₂.wellTyped w₁
  have w₃ := p₃.wellTyped w₂
  have w₄ := p₄.wellTyped w₃
  have a₁ := Nat.lt_of_lt_of_le ht.known p₁.size_le
  have a₂ := Nat.lt_of_lt_of_le a₁ p₂.size_le
  have a₃ := Nat.lt_of_lt_of_le a₂ p₃.size_le
  have hend : s₄.graph.Adds Node.IsPlain s'.graph ∧ ∀ X, s'.graph.SatisfiesBut a X →
      ∀ k < type.shape.prod, (X v).lane k = (X gather).lane k := by
    split at h
    · obtain ⟨rfl, rfl⟩ := Build.pure_eq_ok.mp h
      exact ⟨.refl, fun _ _ k _ => rfl⟩
    · exact ⟨define_plain h (by rintro ⟨⟩),
        fun X hX => (define_reshape h w₄ hX (define_ne h₄ a₃)).2⟩
  obtain ⟨p₅, hresult⟩ := hend
  refine ⟨t.address.base, values, indices, wide, gather, .intro (p₁.trans (p₂.trans p₃)) h₄ p₅,
    not_mem_gather ht.base (flatten_ne h₁ ht.known ht.value) (flatten_ne h₂ a₁ ht.offset)
      (widenMask_ne h₃ a₂), ?_⟩
  intro X ptr hX hptr hleads
  have x₄ := hX.of_adds p₅
  have x₃ := x₄.of_adds p₄
  have x₂ := x₃.of_adds p₃
  have x₁ := x₂.of_adds p₂
  obtain ⟨hvshape, hvlanes⟩ := flatten_lanes h₁ ht.wellTyped x₁ ht.value
  obtain ⟨_, hilanes⟩ := flatten_lanes h₂ w₁ x₂ ht.offset
  have henabled := widenMask_enabled h₃ w₂ x₃ a₂ ht.mask
  rw [List.prod_singleton] at hvlanes hilanes henabled
  have hgather : (X gather).shape = [type.shape.prod] := by
    rw [define_gather_shape h₄ w₃ x₄, hvshape]
  refine ⟨⟨?_, hvlanes, henabled⟩, hgather, hresult X hX⟩
  intro k hk
  rw [hilanes k hk, Tensor.lane, Tensor.lane, hleads.1]
  exact (hleads.2 _ (Shape.contains_position (hptr ▸ hk))).symm

/-! ### Whole updates -/

theorem target_eq_ok {t : Target} (h : target a s = .ok t s') :
    ∃ op ptr value mask type address,
      s.graph.nodes[a]? = some ⟨.atomicRmw op ptr value mask, type⟩ ∧
      Address.track ptr s = .ok address s' ∧ t = ⟨a, op, value, mask, address⟩ := by
  obtain ⟨op, s₁, hinspect, h⟩ := Build.bind_eq_ok.mp h
  obtain ⟨hop, rfl⟩ := Build.inspect_eq_ok.mp hinspect
  obtain ⟨⟨_, type⟩, hnode, heq⟩ := map_eq_ok.mp hop
  have hv := element_eq_ok.mp hnode
  split at h
  · next op ptr value mask =>
    obtain ⟨address, s₁, htrack, h⟩ := Build.bind_eq_ok.mp h
    obtain ⟨rfl, rfl⟩ := Build.pure_eq_ok.mp h
    cases heq
    exact ⟨op, ptr, value, mask, type, address, hv, htrack, rfl⟩
  · cases h

theorem infer_eq_ok {settings : Settings} {inference : Inference}
    (h : infer settings s = .ok inference s') :
    s'.graph = s.graph ∧ (Inference.run s.graph .standard settings).2 = .ok inference := by
  obtain ⟨g, s₁, hg, h⟩ := Build.bind_eq_ok.mp h
  obtain ⟨rfl, rfl⟩ := Build.graph_eq_ok.mp hg
  obtain ⟨_, s₁, hemit, h⟩ := Build.bind_eq_ok.mp h
  obtain ⟨hrun, rfl⟩ := Build.attempt_eq_ok.mp h
  rw [← Build.emit_eq_ok.mp hemit]
  exact ⟨rfl, checked_eq_ok.mp hrun⟩

theorem accessPattern_eq_ok {inference : Inference} {offset : ValueId} {pattern : AccessPattern}
    (h : accessPattern inference offset s = .ok pattern s') :
    s' = s ∧ ∃ f t, inference.get offset = .ok f ∧ s.graph.typeOf? offset = some t ∧
      AccessPattern.classify f t = .ok pattern := by
  obtain ⟨hinspect, rfl⟩ := Build.inspect_eq_ok.mp h
  obtain ⟨f, hf, hclassify⟩ := bind_eq_ok.mp hinspect
  obtain ⟨t, ht, hclassify⟩ := bind_eq_ok.mp hclassify
  exact ⟨rfl, f, t, hf, Graph.type_eq_ok.mp ht, hclassify⟩

/-- The replacement is built on one of two paths, and takes over all uses. -/
theorem replace_eq_ok {t : Target} {pattern : AccessPattern} {record : LoweringRecord}
    (h : replace t pattern s = .ok record s') :
    ∃ type s₁, s.graph.typeOf? t.atomic = some type ∧
      t.op.primitive type.element = .ok record.op ∧
      (type.shape = [] ∧ record.path = .scalar ∧
          lowerScalar t record.op type s = .ok record.replacement s₁ ∨
        type.shape ≠ [] ∧ record.path = .scattered ∧
          lowerScattered t record.op type s = .ok record.replacement s₁) ∧
      record.atomic = t.atomic ∧ record.pattern = pattern ∧
      s'.graph = s₁.graph.redirectUses t.atomic record.replacement := by
  obtain ⟨type, _, htypeOf, h⟩ := Build.bind_eq_ok.mp h
  obtain ⟨htype, rfl⟩ := typeOf_eq_ok htypeOf
  obtain ⟨op, _, hattempt, h⟩ := Build.bind_eq_ok.mp h
  obtain ⟨hop, rfl⟩ := Build.attempt_eq_ok.mp hattempt
  have hend {path : LoweringPath} {replacement : ValueId} {s₁ : Session} (h : (do
      Build.emit [.lowered ⟨t.atomic, replacement, op, path, pattern⟩]
      Build.within .graph (Build.replaceAllUses t.atomic replacement)
      return ⟨t.atomic, replacement, op, path, pattern⟩ : Lowering LoweringRecord) s₁ =
        .ok record s') :
      ⟨t.atomic, replacement, op, path, pattern⟩ = record ∧
        s'.graph = s₁.graph.redirectUses t.atomic replacement := by
    obtain ⟨_, s₂, hemit, h⟩ := Build.bind_eq_ok.mp h
    obtain ⟨_, s₃, hreplace, h⟩ := Build.bind_eq_ok.mp h
    obtain ⟨rfl, rfl⟩ := Build.pure_eq_ok.mp h
    rw [(Build.replaceAllUses_eq_ok (Build.within_eq_ok.mp hreplace)).2,
      ← Build.emit_eq_ok.mp hemit]
    exact ⟨rfl, rfl⟩
  refine ⟨type, ?_⟩
  cases hscalar : type.isScalar with
  | true =>
    simp only [hscalar, if_true] at h
    obtain ⟨replacement, s₁, hlower, h⟩ := Build.bind_eq_ok.mp h
    obtain ⟨rfl, hgraph⟩ := hend h
    have hnil : type.shape = [] := by simpa [ValueType.isScalar] using hscalar
    exact ⟨s₁, htype, hop, .inl ⟨hnil, rfl, hlower⟩, rfl, rfl, hgraph⟩
  | false =>
    simp only [hscalar, Bool.false_eq_true, if_false] at h
    obtain ⟨replacement, s₁, hlower, h⟩ := Build.bind_eq_ok.mp h
    obtain ⟨rfl, hgraph⟩ := hend h
    have hne : type.shape ≠ [] := by simpa [ValueType.isScalar] using hscalar
    exact ⟨s₁, htype, hop, .inr ⟨hne, rfl, hlower⟩, rfl, rfl, hgraph⟩

/-- Both paths gather the lanes of the update. -/
theorem replace_gathers {t : Target} {op : AtomicOp} {type : ValueType} {path : LoweringPath}
    (h : type.shape = [] ∧ path = .scalar ∧ lowerScalar t op type s = .ok v s' ∨
      type.shape ≠ [] ∧ path = .scattered ∧ lowerScattered t op type s = .ok v s')
    (ht : t.Avoids a s) :
    ∃ base values indices wide gather, Gathered op s s' base values indices wide gather ∧
      a ∉ (Op.gatherAtomicRmw op base values indices wide).operands ∧
      ∀ X ptr, s'.graph.SatisfiesBut a X → (X ptr).shape = type.shape →
        Address.Leads X t.address.base t.address.offset ptr →
        Gathers X type.shape.prod ptr t.value t.mask base values indices wide ∧
        (X gather).shape = [type.shape.prod] ∧
        ∀ k < type.shape.prod,
          (path = .scalar ∧ ¬ Enabled X t.mask k → (X v).lane k = 0) ∧
          (¬ (path = .scalar ∧ ¬ Enabled X t.mask k) → (X v).lane k = (X gather).lane k) := by
  rcases h with ⟨hnil, rfl, h⟩ | ⟨_, rfl, h⟩
  · obtain ⟨base, values, indices, wide, gather, hgathered, hreads, hlanes⟩ :=
      lowerScalar_gathers h ht
    rw [hnil]
    refine ⟨base, values, indices, wide, gather, hgathered, hreads, fun X ptr hX hptr hleads => ?_⟩
    obtain ⟨hgathers, hshape, hresult⟩ := hlanes X ptr hX hptr hleads
    refine ⟨hgathers, hshape, fun k hk => ⟨fun hoff => (hresult k hk).2 hoff.2, fun hon => ?_⟩⟩
    exact (hresult k hk).1 (not_not.mp fun hoff => hon ⟨rfl, hoff⟩)
  · obtain ⟨base, values, indices, wide, gather, hgathered, hreads, hlanes⟩ :=
      lowerScattered_gathers h ht
    refine ⟨base, values, indices, wide, gather, hgathered, hreads, fun X ptr hX hptr hleads => ?_⟩
    obtain ⟨hgathers, hshape, hresult⟩ := hlanes X ptr hX hptr hleads
    refine ⟨hgathers, hshape, fun k hk => ⟨fun hoff => ?_, fun _ => hresult k hk⟩⟩
    cases hoff.1

/-- Nothing that an update depends on reads it, nor does what its pointer is split into. -/
theorem target_avoids {g : Graph} (hg : g.WellTyped) (hcausal : g.Causal) {ptr value : ValueId}
    {op : RmwOp} {mask : Option ValueId} {type : ValueType}
    (ha : g.nodes[a]? = some ⟨.atomicRmw op ptr value mask, type⟩) {log : List Event}
    {address : Address} {s₁ : Session} (htrack : Address.track ptr ⟨g, log⟩ = .ok address s₁)
    (hplain : g.Adds Node.IsPlain s.graph) :
    Target.Avoids ⟨a, op, value, mask, address⟩ a s := by
  have hlt : a < g.size := (List.getElem?_eq_some_iff.mp ha).1
  have hdep (u : ValueId) (hu : u ∈ (Op.atomicRmw op ptr value mask).operands) :
      g.DependsOn a u := .of_operand ha (by rintro ⟨⟩) hu
  obtain ⟨hbase, hoffset⟩ := Address.track_ne hcausal hlt (hdep ptr (by simp [Op.operands])) htrack
  exact {
    wellTyped := hplain.wellTyped hg
    known := Nat.lt_of_lt_of_le hlt hplain.size_le
    base := hbase
    offset := hoffset
    value := hcausal.ne (hdep value (by simp [Op.operands]))
    mask := fun m hm => hcausal.ne (hdep m (by simp_all [Op.operands])) }

/-- A lowered update was split, looked at, and replaced. -/
theorem one_eq_ok {settings : Settings} {record : LoweringRecord}
    (h : one settings a s = .ok record s') :
    ∃ t s₁ inference pattern s₂, target a s = .ok t s₁ ∧ infer settings s₁ = .ok inference s₂ ∧
      accessPattern inference t.address.offset s₂ = .ok pattern s₂ ∧
      replace t pattern s₂ = .ok record s' := by
  obtain ⟨t, s₁, ht, h⟩ := Build.bind_eq_ok.mp h
  obtain ⟨inference, s₂, hinfer, h⟩ := Build.bind_eq_ok.mp h
  obtain ⟨pattern, s₃, hpattern, hreplace⟩ := Build.bind_eq_ok.mp h
  obtain ⟨rfl, _⟩ := accessPattern_eq_ok hpattern
  exact ⟨t, s₁, inference, pattern, _, ht, hinfer, hpattern, hreplace⟩

end Lowering

/-- Whatever tensors the values of the resulting graph have, lowering an update leaves one new
gathered update. Its lanes are the elements of the update, in the order of rows: each has the
address of its pointer and its value, and is enabled where the mask is on. The replacement has the
result of the gathered update; for a single element whose mask is off it is zero. -/
theorem Lowering.one_preserves_update {g : Graph} (hg : g.WellTyped) (hcausal : g.Causal)
    {a ptr value : ValueId} {op : RmwOp} {mask : Option ValueId} {type : ValueType}
    (ha : g.nodes[a]? = some ⟨.atomicRmw op ptr value mask, type⟩) {settings : Settings}
    {log : List Event} {record : LoweringRecord} {s : Session}
    (h : Lowering.one settings a ⟨g, log⟩ = .ok record s) {X : ValueId → Tensor}
    (hX : s.graph.Satisfies X) :
    ∃ gather base values indices wide t,
      (∀ v node, g.size ≤ v → s.graph.nodes[v]? = some node →
        (node.op.kind = .gatherAtomicRmw ↔ v = gather)) ∧
      g.size ≤ gather ∧
      s.graph.nodes[gather]? = some ⟨.gatherAtomicRmw record.op base values indices wide, t⟩ ∧
      t.shape = [(X value).shape.prod] ∧
      Gathers X (X value).shape.prod ptr value mask base values indices wide ∧
      ∀ k < (X value).shape.prod,
        (record.path = .scalar ∧ ¬ Enabled X mask k → (X record.replacement).lane k = 0) ∧
        (¬ (record.path = .scalar ∧ ¬ Enabled X mask k) →
          (X record.replacement).lane k = (X gather).lane k) := by
  obtain ⟨target, s₁, inference, pattern, s₂, htarget, hinfer, _, hreplace⟩ := one_eq_ok h
  obtain ⟨_, _, _, _, _, address, hnode, htrack, rfl⟩ := target_eq_ok htarget
  rw [ha] at hnode
  cases hnode
  obtain ⟨hs₂, _⟩ := infer_eq_ok hinfer
  obtain ⟨_, s₃, htype, _, hpath, _, _, hgraph⟩ := replace_eq_ok hreplace
  have hplain : g.Adds Node.IsPlain s₂.graph := by
    rw [hs₂]
    exact (Address.track_adds htrack (Address.shaped_true g)).mono fun node hnode => hnode.isPlain
  have hatype : s₂.graph.typeOf? a = some type :=
    hplain.typeOf? (by rw [Graph.typeOf?, ha]; rfl)
  rw [hatype] at htype
  cases htype
  rw [hgraph] at hX ⊢
  have hbut := hX.of_redirectUses
  have havoids := target_avoids hg hcausal ha htrack hplain
  obtain ⟨base, values, indices, wide, gather, hgathered, hreads, hlanes⟩ :=
    replace_gathers hpath havoids
  have hadds := hplain.mono (Q := fun _ => True) (fun _ _ => trivial) |>.trans hgathered.adds
  have hleads := Address.track_leads hg hcausal (List.getElem?_eq_some_iff.mp ha).1
    (.of_operand ha (by rintro ⟨⟩) (by simp [Op.operands])) htrack
    (hs₂ ▸ hbut.of_adds hgathered.adds)
  obtain ⟨hvalue, hptr⟩ : (X value).shape = type.shape ∧ (X ptr).shape = type.shape := by
    cases (hg a _ ha).op with
    | atomicRmw hptr hvalue _ hshape _ =>
      exact ⟨hbut.shape value _ (hadds.typeOf? hvalue),
        (hbut.shape ptr _ (hadds.typeOf? hptr)).trans hshape⟩
  obtain ⟨hgathers, hshape, hresult⟩ := hlanes X ptr hbut hptr hleads
  have hall : Gathered record.op ⟨g, log⟩ s₃ base values indices wide gather :=
    hgathered.prepend hplain
  obtain ⟨hnew, t, hgather⟩ := hall.node
  refine ⟨gather, base, values, indices, wide, t, ?_, hnew, Graph.node_redirectUses hgather hreads,
    ?_, hvalue ▸ hgathers, hvalue ▸ hresult⟩
  · intro v node hv hnode
    obtain ⟨node', hnode', hkind⟩ := Graph.exists_kind_of_redirectUses hnode
    rw [← hkind]
    exact hall.kind_iff hv hnode'
  · rw [hvalue, ← hshape]
    exact (hbut.shape gather t (by rw [Graph.typeOf?, hgather]; rfl)).symm

/-- A masked update of two rows of two. -/
def Graph.masked : Graph :=
  ⟨[⟨.arg 0, .scalar (.pointer .i32 .global)⟩, ⟨.splat 0, ⟨.pointer .i32 .global, [2, 2]⟩⟩,
    ⟨.arg 1, ⟨.i32, [2, 2]⟩⟩, ⟨.addPtr 1 2, ⟨.pointer .i32 .global, [2, 2]⟩⟩,
    ⟨.arg 2, ⟨.i32, [2, 2]⟩⟩, ⟨.arg 3, ⟨.bool, [2, 2]⟩⟩,
    ⟨.atomicRmw .add 3 4 (some 5), ⟨.i32, [2, 2]⟩⟩]⟩

theorem Graph.masked_built : Graph.masked.Built :=
  .of_requests [.define (.arg 0 (.scalar (.pointer .i32 .global))), .define (.splat 0 [2, 2]),
    .define (.arg 1 ⟨.i32, [2, 2]⟩), .define (.addPtr 1 2), .define (.arg 2 ⟨.i32, [2, 2]⟩),
    .define (.arg 3 ⟨.bool, [2, 2]⟩), .define (.atomicRmw .add 3 4 (some 5))] .empty (by decide)

/-- What is left of it: three operands are laid out flat, and the result is laid out in rows. -/
def Graph.maskedFlat : Graph :=
  ⟨Graph.masked.nodes ++ [⟨.reshape 4, ⟨.i32, [4]⟩⟩, ⟨.reshape 2, ⟨.i32, [4]⟩⟩,
    ⟨.reshape 5, ⟨.bool, [4]⟩⟩, ⟨.cast .extS 9, ⟨.i8, [4]⟩⟩,
    ⟨.gatherAtomicRmw .addI 0 7 8 (some 10), ⟨.i32, [4]⟩⟩, ⟨.reshape 11, ⟨.i32, [2, 2]⟩⟩]⟩

/-- Elements numbered from a start, in rows of two. -/
def Tensor.rows (start : Int64) : Tensor :=
  ⟨[2, 2], fun i => start + .ofNat (2 * i.headD 0 + i.getD 1 0)⟩

/-- Elements numbered from a start, in one row. -/
def Tensor.row (start : Int64) : Tensor := ⟨[4], fun i => start + .ofNat (i.headD 0)⟩

/-- Values that are found behind pointer 100, in rows before and in one row after. -/
def Graph.maskedTensors : ValueId → Tensor
  | 0 => ⟨[], fun _ => 100⟩
  | 1 => ⟨[2, 2], fun _ => 100⟩
  | 2 | 5 | 6 | 12 => .rows 0
  | 3 => .rows 100
  | 4 => .rows 50
  | 7 => .row 50
  | _ => .row 0

theorem Graph.maskedFlat_satisfies : Graph.maskedFlat.Satisfies Graph.maskedTensors where
  shape v t ht := by
    obtain ⟨node, hv, rfl⟩ := Option.map_eq_some_iff.mp ht
    have hlt : v < 13 := (List.getElem?_eq_some_iff.mp hv).1
    match v, hlt with
    | 0, _ | 1, _ | 2, _ | 3, _ | 4, _ | 5, _ | 6, _ | 7, _ | 8, _ | 9, _ | 10, _ | 11, _ | 12, _ =>
      cases hv
      rfl
  holds v node hv := by
    have hlt : v < 13 := (List.getElem?_eq_some_iff.mp hv).1
    match v, hlt with
    | 0, _ | 2, _ | 4, _ | 5, _ | 6, _ | 11, _ =>
      cases hv
      exact ⟨by rintro ⟨⟩, by rintro _ ⟨⟩⟩
    | 1, _ =>
      cases hv
      exact ⟨fun _ _ => .splat fun _ _ => rfl, by rintro _ ⟨⟩⟩
    | 3, _ =>
      cases hv
      refine ⟨fun _ _ => .addPtr fun i _ => ?_, by rintro _ ⟨⟩⟩
      show _ = (100 : Int64) + (0 + _)
      rw [Int64.zero_add]
      rfl
    | 10, _ =>
      cases hv
      exact ⟨fun _ _ => .cast fun _ _ => rfl, by rintro _ ⟨⟩⟩
    | 7, _ | 8, _ | 9, _ | 12, _ =>
      cases hv
      exact ⟨fun _ _ => .reshape (by decide), by rintro _ ⟨⟩⟩

theorem Lowering.one_preserves_update_masked : Graph.masked.WellTyped ∧ Graph.masked.Causal ∧
    ∃ record s, Lowering.one .standard 6 ⟨.masked, []⟩ = .ok record s ∧
      s.graph.Satisfies Graph.maskedTensors ∧
      ∃ gather base values indices wide t,
        s.graph.nodes[gather]? = some ⟨.gatherAtomicRmw record.op base values indices wide, t⟩ ∧
        t.shape = [4] ∧
        Gathers Graph.maskedTensors 4 3 4 (some 5) base values indices wide ∧
        ∀ k < 4, (Graph.maskedTensors record.replacement).lane k =
          (Graph.maskedTensors gather).lane k := by
  have hcausal : Graph.masked.Causal := Graph.causal_of_lt (by decide)
  have hresult : Build.result (Lowering.one .standard 6) ⟨.masked, []⟩ =
      some (⟨6, 12, .addI, .scattered, .gather⟩, .maskedFlat) := by decide +kernel
  obtain ⟨s, hone, hgraph⟩ := Build.exists_of_result hresult
  have hX : s.graph.Satisfies Graph.maskedTensors := hgraph ▸ Graph.maskedFlat_satisfies
  obtain ⟨gather, base, values, indices, wide, t, _, _, hgather, hshape, hgathers, hlanes⟩ :=
    Lowering.one_preserves_update Graph.masked_built.wellTyped hcausal rfl hone hX
  exact ⟨Graph.masked_built.wellTyped, hcausal, _, s, hone, hX, gather, base, values, indices, wide,
    t, hgather, hshape, hgathers, fun k hk => (hlanes k hk).2 fun hoff => absurd hoff.1 (by decide)⟩

end TileFacts

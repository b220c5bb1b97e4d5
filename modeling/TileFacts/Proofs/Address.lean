import TileFacts.Proofs.Assignment

/-! Addresses mean what the pointers meant that they were split from.

Walking a pointer back gives a path that the graph itself shows (`Graph.Points`). Following the
path forward on offsets adds values that compute offsets and nothing else (`Address.follow_adds`),
and under every assignment each pointer on the way is the base moved by the offset so far
(`Address.foldlM_leads`). Main statement: an address that is tracked leads to its pointer
(`Address.track_leads`). -/
namespace TileFacts

/-! ### Values that a lowering defines -/

namespace Lowering

variable {s s' : Session} {d : Definition} {v : ValueId} {P : Node → Prop}

theorem define_adds (h : define d s = .ok v s')
    (hP : ∀ node, s.graph.define d = .ok node → P node) :
    s.graph.Adds P s'.graph := by
  obtain ⟨node, hnode, _, hgraph⟩ := define_eq_ok h
  rw [hgraph]
  exact .define .refl hnode (hP node hnode)

theorem define_name (h : define d s = .ok v s') : v = s.graph.size := by
  obtain ⟨_, _, hv, _⟩ := define_eq_ok h
  exact hv

theorem define_ne_of_skips (h : define d s = .ok v s') {a : ValueId}
    (ha : Graph.Skips a s.graph s'.graph) : v ≠ a := by
  obtain ⟨node, _, rfl, hgraph⟩ := define_eq_ok h
  rw [Graph.Skips, hgraph, Graph.size_push] at ha
  rcases ha with hold | hbeyond
  · exact (Nat.ne_of_lt hold).symm
  · exact Nat.ne_of_lt hbeyond

theorem define_ne (h : define d s = .ok v s') {a : ValueId} (ha : a < s.graph.size) : v ≠ a :=
  define_ne_of_skips h (.inl ha)

theorem define_node (h : define d s = .ok v s') :
    ∃ node, s'.graph.nodes[v]? = some node ∧ s.graph.define d = .ok node ∧ node.op = d.op := by
  obtain ⟨node, hnode, rfl, hgraph⟩ := define_eq_ok h
  refine ⟨node, ?_, hnode, Graph.op_of_define hnode⟩
  rw [hgraph, Graph.push, Graph.size, List.getElem?_concat_length]

section Meaning

variable {a : ValueId} {X : ValueId → Tensor}

theorem define_shape (h : define d s = .ok v s') (hX : s'.graph.SatisfiesBut a X) {shape : Shape}
    (hshape : d.shape? = some shape) : (X v).shape = shape := by
  obtain ⟨node, hv, hnode, _⟩ := define_node h
  rw [← Graph.shape_of_define hnode hshape]
  exact hX.shape v node.type (by rw [Graph.typeOf?, hv]; rfl)

/-- The value is what its operation makes of the operands. -/
theorem define_computes (h : define d s = .ok v s') (hs : s.graph.WellTyped)
    (hX : s'.graph.SatisfiesBut a X) (ha : a ∉ d.op.operands) (hfree : d.op.isFree = false)
    (hmerge : d.op.kind ≠ .merge) :
    ∃ ctx : Context, ctx.op = d.op ∧
      ctx.Computes s'.graph.typeOf? (d.op.operands.map X) (X v) := by
  obtain ⟨node, hv, _, hop⟩ := define_node h
  have hs' := (define_adds (P := fun _ => True) h fun _ _ => trivial).wellTyped hs
  rw [← hop] at ha hfree hmerge ⊢
  obtain ⟨ctx, hctx, _, hcomputes⟩ := hX.computes hs' hv ha hfree hmerge
  exact ⟨ctx, hctx, hcomputes⟩

theorem define_const {value : Int64} {type : ValueType}
    (h : define (.const value type) s = .ok v s') (hs : s.graph.WellTyped)
    (hX : s'.graph.SatisfiesBut a X) : (X v).IsConstant value := by
  obtain ⟨ctx, hop, hcomputes⟩ := define_computes h hs hX
    (by simp [Definition.op, Op.operands]) rfl (by rintro ⟨⟩)
  exact hcomputes.constant hop

end Meaning

end Lowering

/-! ### Paths -/

namespace Graph

/-- The path of a pointer, as the graph shows it. -/
inductive Points (g : Graph) : ValueId → PointerPath → Prop
  | base {v : ValueId} {node : Node} (hv : g.nodes[v]? = some node)
    (hscalar : node.type.shape = []) :
    Points g v ⟨v, []⟩
  | move {v ptr offset : ValueId} {type : ValueType} {path : PointerPath}
    (hv : g.nodes[v]? = some ⟨.addPtr ptr offset, type⟩) (h : Points g ptr path) :
    Points g v (path.extend (.move offset))
  | splat {v source : ValueId} {type : ValueType} {path : PointerPath}
    (hv : g.nodes[v]? = some ⟨.splat source, type⟩) (h : Points g source path) :
    Points g v (path.extend (.splat type.shape))
  | broadcast {v source : ValueId} {type : ValueType} {path : PointerPath}
    (hv : g.nodes[v]? = some ⟨.broadcast source, type⟩) (h : Points g source path) :
    Points g v (path.extend (.broadcast type.shape))

theorem points_of_pointerPathWithin {g : Graph} {fuel : Nat} {v : ValueId} {path : PointerPath}
    (h : g.pointerPathWithin fuel v = .ok path) : g.Points v path := by
  induction fuel generalizing v path with
  | zero => cases h
  | succ fuel ih =>
    obtain ⟨⟨op, type⟩, hnode, h⟩ := bind_eq_ok.mp h
    have hv := element_eq_ok.mp (checked_eq_ok.mp hnode)
    dsimp only at h
    split at h
    · obtain ⟨rest, hrest, h⟩ := bind_eq_ok.mp h
      cases h
      exact .move hv (ih hrest)
    · obtain ⟨rest, hrest, h⟩ := bind_eq_ok.mp h
      cases h
      exact .splat hv (ih hrest)
    · obtain ⟨rest, hrest, h⟩ := bind_eq_ok.mp h
      cases h
      exact .broadcast hv (ih hrest)
    · split at h
      · next hscalar =>
        cases h
        exact .base hv (by simpa [ValueType.isScalar] using hscalar)
      · cases h

end Graph

/-! ### Values that offsets need -/

/-- Operations that offsets are built with. -/
def Op.isOffset : Op → Bool
  | .const _ | .cast .. | .binary .add _ _ | .splat _ | .broadcast _ => true
  | _ => false

/-- A value that computes offsets, of a shape with the given property. -/
def Node.IsOffset (S : Shape → Prop) (node : Node) : Prop :=
  node.op.isOffset = true ∧ S node.type.shape

/-- Every value of the graph has a shape with the given property. -/
def Graph.Shaped (g : Graph) (S : Shape → Prop) : Prop :=
  ∀ (v : ValueId) (t : ValueType), g.typeOf? v = some t → S t.shape

theorem Graph.Shaped.of_adds {g h : Graph} {S : Shape → Prop} (hg : g.Shaped S)
    (hadds : g.Adds (Node.IsOffset S) h) : h.Shaped S := by
  intro v t ht
  obtain ⟨node, hv, rfl⟩ := Option.map_eq_some_iff.mp ht
  rcases hadds.cases_node hv with hv | ⟨_, _, hS⟩
  · exact hg v node.type (by rw [typeOf?, hv]; rfl)
  · exact hS

namespace Address

variable {s s' : Session} {S : Shape → Prop} {l r v w : ValueId}

/-- An offset as it is, or widened. -/
inductive Widens (v : ValueId) (s : Session) : ValueId → Session → Prop
  | same : Widens v s v s
  | cast {element : Element} {w : ValueId} {s' : Session} (h : widen v element s = .ok w s') :
    Widens v s w s'

/-- A sum of offsets adds them as they are, or one of them widened. -/
theorem addOffsets_eq_ok (h : addOffsets l r s = .ok v s') :
    ∃ l' r' s₁ s₂, Widens l s l' s₁ ∧ Widens r s₁ r' s₂ ∧
      Lowering.define (.binary .add l' r') s₂ = .ok v s' := by
  obtain ⟨lt, s₁, hl, h⟩ := Build.bind_eq_ok.mp h
  obtain ⟨_, rfl⟩ := Lowering.typeOf_eq_ok hl
  obtain ⟨rt, s₁, hr, h⟩ := Build.bind_eq_ok.mp h
  obtain ⟨_, rfl⟩ := Lowering.typeOf_eq_ok hr
  split at h
  · exact ⟨l, r, _, _, .same, .same, h⟩
  · split at h
    · obtain ⟨l', s₁, hwiden, h⟩ := Build.bind_eq_ok.mp h
      exact ⟨l', r, s₁, s₁, .cast hwiden, .same, h⟩
    · obtain ⟨r', s₁, hwiden, h⟩ := Build.bind_eq_ok.mp h
      exact ⟨l, r', _, s₁, .same, .cast hwiden, h⟩

theorem Widens.adds (h : Widens v s w s') (hS : s.graph.Shaped S) :
    s.graph.Adds (Node.IsOffset S) s'.graph := by
  cases h with
  | same => exact .refl
  | cast h =>
    obtain ⟨type, s₁, htype, h⟩ := Build.bind_eq_ok.mp h
    obtain ⟨_, rfl⟩ := Lowering.typeOf_eq_ok htype
    refine Lowering.define_adds h fun node hnode => ⟨by rw [Graph.op_of_define hnode]; rfl, ?_⟩
    obtain ⟨t, ht, hnode⟩ := bind_eq_ok.mp hnode
    obtain ⟨_, _, hnode⟩ := bind_eq_ok.mp hnode
    cases hnode
    exact hS v t (Graph.known_eq_ok.mp ht)

theorem addOffsets_adds (h : addOffsets l r s = .ok v s') (hS : s.graph.Shaped S) :
    s.graph.Adds (Node.IsOffset S) s'.graph := by
  obtain ⟨l', r', s₁, s₂, hl, hr, h⟩ := addOffsets_eq_ok h
  have h₁ := hl.adds hS
  have h₂ := h₁.trans (hr.adds (hS.of_adds h₁))
  refine h₂.trans (Lowering.define_adds h fun node hnode => ?_)
  refine ⟨by rw [Graph.op_of_define hnode]; rfl, ?_⟩
  obtain ⟨t, ht, hnode⟩ := bind_eq_ok.mp hnode
  obtain ⟨_, _, hnode⟩ := bind_eq_ok.mp hnode
  obtain ⟨_, _, hnode⟩ := bind_eq_ok.mp hnode
  obtain ⟨_, _, hnode⟩ := bind_eq_ok.mp hnode
  cases hnode
  exact hS.of_adds h₂ l' t (Graph.known_eq_ok.mp ht)

/-- The shape that a link spreads offsets to has the given property. -/
def LinkShaped (S : Shape → Prop) : PointerLink → Prop
  | .move _ => True
  | .splat shape | .broadcast shape => S shape

theorem follow_adds {link : PointerLink} {offset offset' : Option ValueId}
    (h : follow offset link s = .ok offset' s') (hS : s.graph.Shaped S)
    (hlink : LinkShaped S link) : s.graph.Adds (Node.IsOffset S) s'.graph := by
  cases offset with
  | none =>
    cases link <;> obtain ⟨_, rfl⟩ := Build.pure_eq_ok.mp h <;> exact .refl
  | some offset =>
    cases link with
    | move delta =>
      obtain ⟨v, hv, rfl⟩ := Build.map_eq_ok.mp h
      exact addOffsets_adds hv hS
    | splat shape =>
      obtain ⟨v, hv, rfl⟩ := Build.map_eq_ok.mp h
      refine Lowering.define_adds hv fun node hnode => ⟨by rw [Graph.op_of_define hnode]; rfl, ?_⟩
      rw [Graph.shape_of_define hnode rfl]
      exact hlink
    | broadcast shape =>
      obtain ⟨v, hv, rfl⟩ := Build.map_eq_ok.mp h
      refine Lowering.define_adds hv fun node hnode => ⟨by rw [Graph.op_of_define hnode]; rfl, ?_⟩
      rw [Graph.shape_of_define hnode rfl]
      exact hlink

theorem foldlM_adds {links : List PointerLink} {offset offset' : Option ValueId}
    (h : links.foldlM follow offset s = .ok offset' s') (hS : s.graph.Shaped S)
    (hlinks : ∀ link ∈ links, LinkShaped S link) : s.graph.Adds (Node.IsOffset S) s'.graph := by
  induction links generalizing offset s with
  | nil =>
    obtain ⟨_, rfl⟩ := Build.pure_eq_ok.mp h
    exact .refl
  | cons link rest ih =>
    obtain ⟨next, s₁, hnext, h⟩ := Build.bind_eq_ok.mp h
    have hadds := follow_adds hnext hS (hlinks link (List.mem_cons_self ..))
    exact hadds.trans (ih h (hS.of_adds hadds) fun l hl => hlinks l (List.mem_cons_of_mem _ hl))

/-- The shapes along a path are shapes of values. -/
theorem linkShaped_of_points {g : Graph} (hg : g.Shaped S) {path : PointerPath}
    (h : g.Points v path) : ∀ link ∈ path.links, LinkShaped S link := by
  induction h with
  | base => rintro _ ⟨⟩
  | move hv _ ih =>
    intro link hlink
    rcases List.mem_append.mp hlink with hlink | hlink
    · exact ih link hlink
    · rw [List.mem_singleton.mp hlink]
      trivial
  | splat hv _ ih | broadcast hv _ ih =>
    intro link hlink
    rcases List.mem_append.mp hlink with hlink | hlink
    · exact ih link hlink
    · rw [List.mem_singleton.mp hlink]
      exact hg _ _ (by rw [Graph.typeOf?, hv]; rfl)

/-- How a pointer is split: the path it points along, and how the offset comes about. -/
theorem track_eq_ok {ptr : ValueId} {address : Address} (h : track ptr s = .ok address s') :
    ∃ path offset s₁, s.graph.Points ptr path ∧ path.links.foldlM follow none s = .ok offset s₁ ∧
      address.base = path.base ∧
      match offset with
      | some o => address.offset = o ∧ s'.graph = s₁.graph
      | none => ∃ t s₂, s₁.graph.typeOf? ptr = some t ∧
          Lowering.define (.const 0 (t.withElement .i32)) s₁ = .ok address.offset s₂ ∧
          s'.graph = s₂.graph := by
  unfold track at h
  obtain ⟨g, s₁, hg, h⟩ := Build.bind_eq_ok.mp h
  obtain ⟨rfl, rfl⟩ := Build.graph_eq_ok.mp hg
  obtain ⟨path, s₁, hattempt, h⟩ := Build.bind_eq_ok.mp h
  obtain ⟨hpath, rfl⟩ := Build.attempt_eq_ok.mp hattempt
  obtain ⟨offset, s₁, hfold, h⟩ := Build.bind_eq_ok.mp h
  refine ⟨path, offset, s₁, Graph.points_of_pointerPathWithin hpath, hfold, ?_⟩
  have hend {o : ValueId} {s₂ : Session} (h : (do
      Build.emit [.tracked ptr path.base o]
      return ⟨path.base, o⟩ : Lowering Address) s₂ = .ok address s') :
      ⟨path.base, o⟩ = address ∧ s'.graph = s₂.graph := by
    obtain ⟨_, _, hemit, h⟩ := Build.bind_eq_ok.mp h
    obtain ⟨rfl, rfl⟩ := Build.pure_eq_ok.mp h
    rw [← Build.emit_eq_ok.mp hemit]
    exact ⟨rfl, rfl⟩
  cases offset with
  | some offset =>
    obtain ⟨_, _, ho, h⟩ := Build.bind_eq_ok.mp h
    obtain ⟨rfl, rfl⟩ := Build.pure_eq_ok.mp ho
    obtain ⟨rfl, hgraph⟩ := hend h
    exact ⟨rfl, rfl, hgraph⟩
  | none =>
    obtain ⟨t, _, htype, h⟩ := Build.bind_eq_ok.mp h
    obtain ⟨ht, rfl⟩ := Lowering.typeOf_eq_ok htype
    obtain ⟨o, s₂, ho, h⟩ := Build.bind_eq_ok.mp h
    obtain ⟨rfl, hgraph⟩ := hend h
    exact ⟨rfl, t, s₂, ht, ho, hgraph⟩

/-- Tracking adds values that compute offsets, and nothing else. -/
theorem track_adds {ptr : ValueId} {address : Address} (h : track ptr s = .ok address s')
    (hS : s.graph.Shaped S) : s.graph.Adds (Node.IsOffset S) s'.graph := by
  obtain ⟨path, offset, s₁, hpath, hfold, _, hoffset⟩ := track_eq_ok h
  have hadds := foldlM_adds hfold hS (linkShaped_of_points hS hpath)
  cases offset with
  | some o => exact hoffset.2 ▸ hadds
  | none =>
    obtain ⟨t, s₂, ht, hzero, hgraph⟩ := hoffset
    rw [hgraph]
    refine hadds.trans (Lowering.define_adds hzero fun node hnode => ?_)
    refine ⟨by rw [Graph.op_of_define hnode]; rfl, ?_⟩
    rw [Graph.shape_of_define hnode rfl]
    exact hS.of_adds hadds ptr t ht

/-! ### Offsets are other values than what depends on them -/

section Names

variable {a ptr : ValueId} {offset offset' : Option ValueId}

theorem Widens.ne (h : Widens v s w s') (ha : Graph.Skips a s.graph s'.graph) (hv : v ≠ a) :
    w ≠ a := by
  cases h with
  | same => exact hv
  | cast h =>
    obtain ⟨type, s₁, htype, h⟩ := Build.bind_eq_ok.mp h
    obtain ⟨_, rfl⟩ := Lowering.typeOf_eq_ok htype
    exact Lowering.define_ne_of_skips h ha

theorem shaped_true (g : Graph) : g.Shaped fun _ => True := fun _ _ _ => trivial

theorem linkShaped_true (link : PointerLink) : LinkShaped (fun _ => True) link := by
  cases link <;> trivial

theorem follow_ne {link : PointerLink} (h : follow offset link s = .ok offset' s')
    (ha : Graph.Skips a s.graph s'.graph) (hoffset : ∀ o ∈ offset, o ≠ a)
    (hlink : ∀ delta, link = .move delta → delta ≠ a) : ∀ o ∈ offset', o ≠ a := by
  cases offset with
  | none =>
    cases link with
    | move delta =>
      obtain ⟨rfl, _⟩ := Build.pure_eq_ok.mp h
      simpa using hlink delta rfl
    | splat | broadcast =>
      obtain ⟨rfl, _⟩ := Build.pure_eq_ok.mp h
      rintro _ ⟨⟩
  | some offset =>
    cases link with
    | move delta =>
      obtain ⟨v, hv, rfl⟩ := Build.map_eq_ok.mp h
      obtain ⟨l, r, s₁, s₂, hl, hr, hsum⟩ := addOffsets_eq_ok hv
      have h₁ := (hl.adds (shaped_true _)).trans (hr.adds (shaped_true _))
      simpa using Lowering.define_ne_of_skips hsum (ha.tail h₁)
    | splat | broadcast =>
      obtain ⟨v, hv, rfl⟩ := Build.map_eq_ok.mp h
      simpa using Lowering.define_ne_of_skips hv ha

/-- A path is followed up to its last link, and then along that. -/
theorem foldlM_extend {path : PointerPath} {link : PointerLink}
    (h : (path.extend link).links.foldlM follow none s = .ok offset' s') :
    ∃ offset s₁, path.links.foldlM follow none s = .ok offset s₁ ∧
      follow offset link s₁ = .ok offset' s' ∧ s.graph.Adds (Node.IsOffset fun _ => True) s₁.graph ∧
      s₁.graph.Adds (Node.IsOffset fun _ => True) s'.graph := by
  rw [PointerPath.extend, List.foldlM_append, Build.bind_eq_ok] at h
  obtain ⟨offset, s₁, hfold, h⟩ := h
  obtain ⟨next, s₂, hfollow, h⟩ := Build.bind_eq_ok.mp h
  obtain ⟨rfl, rfl⟩ := Build.pure_eq_ok.mp h
  exact ⟨offset, s₁, hfold, hfollow,
    foldlM_adds hfold (shaped_true _) fun link _ => linkShaped_true link,
    follow_adds hfollow (shaped_true _) (linkShaped_true link)⟩

/-- What a value does not depend on is none of its operands, and they do not depend on it. -/
theorem not_dependsOn_operand {g : Graph} {u : ValueId} {node : Node} (hdep : ¬ g.DependsOn v a)
    (hv : g.nodes[v]? = some node) (hmerge : node.op.kind ≠ .merge) (hu : u ∈ node.op.operands) :
    u ≠ a ∧ ¬ g.DependsOn u a := by
  refine ⟨?_, fun hua => hdep (.head ⟨node, hv, hmerge, hu⟩ hua)⟩
  rintro rfl
  exact hdep (.of_operand hv hmerge hu)

theorem foldlM_ne {path : PointerPath} (ha : Graph.Skips a s.graph s'.graph)
    (hpath : s.graph.Points v path) (hdep : ¬ s.graph.DependsOn v a)
    (h : path.links.foldlM follow none s = .ok offset s') : ∀ o ∈ offset, o ≠ a := by
  induction hpath generalizing offset s' with
  | base =>
    obtain ⟨rfl, _⟩ := Build.pure_eq_ok.mp h
    rintro _ ⟨⟩
  | move hv _ ih =>
    obtain ⟨before, s₁, hbefore, hfollow, h₁, h₂⟩ := foldlM_extend h
    have hptr := not_dependsOn_operand hdep hv (by rintro ⟨⟩) (List.mem_cons_self ..)
    refine follow_ne hfollow (ha.tail h₁) (ih (ha.init h₂) hptr.2 hbefore) ?_
    rintro _ ⟨⟩
    exact (not_dependsOn_operand hdep hv (by rintro ⟨⟩) (by simp [Op.operands])).1
  | splat hv _ ih | broadcast hv _ ih =>
    obtain ⟨before, s₁, hbefore, hfollow, h₁, h₂⟩ := foldlM_extend h
    have hsource := not_dependsOn_operand hdep hv (by rintro ⟨⟩) (List.mem_cons_self ..)
    refine follow_ne hfollow (ha.tail h₁) (ih (ha.init h₂) hsource.2 hbefore) ?_
    rintro _ ⟨⟩

/-- A value depends on the base of a pointer if it depends on the pointer. -/
theorem dependsOn_base {g : Graph} {path : PointerPath} (hpath : g.Points v path)
    (hdep : g.DependsOn a v) : g.DependsOn a path.base := by
  induction hpath with
  | base => exact hdep
  | move hv _ ih | splat hv _ ih | broadcast hv _ ih =>
    exact ih (hdep.step hv (by rintro ⟨⟩) (by simp [Op.operands]))

/-- So it does on all that moves the pointer on its way. -/
theorem dependsOn_move {g : Graph} {path : PointerPath} (hpath : g.Points v path)
    (hdep : g.DependsOn a v) {delta : ValueId} (hdelta : .move delta ∈ path.links) :
    g.DependsOn a delta := by
  induction hpath with
  | base => cases hdelta
  | move hv _ ih =>
    rcases List.mem_append.mp hdelta with hdelta | hdelta
    · exact ih (hdep.step hv (by rintro ⟨⟩) (by simp [Op.operands])) hdelta
    · cases List.mem_singleton.mp hdelta
      exact hdep.step hv (by rintro ⟨⟩) (by simp [Op.operands])
  | splat hv _ ih | broadcast hv _ ih =>
    rcases List.mem_append.mp hdelta with hdelta | hdelta
    · exact ih (hdep.step hv (by rintro ⟨⟩) (by simp [Op.operands])) hdelta
    · cases List.mem_singleton.mp hdelta

theorem track_ne {address : Address} (hcausal : s.graph.Causal) (ha : a < s.graph.size)
    (hdep : s.graph.DependsOn a ptr) (h : track ptr s = .ok address s') :
    address.base ≠ a ∧ address.offset ≠ a := by
  obtain ⟨path, offset, s₁, hpath, hfold, hbase, hoffset⟩ := track_eq_ok h
  refine ⟨hbase ▸ hcausal.ne (dependsOn_base hpath hdep), ?_⟩
  cases offset with
  | some o =>
    rw [hoffset.1]
    exact foldlM_ne (.inl ha) hpath (hcausal.not_dependsOn hdep) hfold o rfl
  | none =>
    obtain ⟨_, _, _, hzero, _⟩ := hoffset
    have hadds := foldlM_adds hfold (shaped_true _) fun link _ => linkShaped_true link
    exact Lowering.define_ne hzero (Nat.lt_of_lt_of_le ha hadds.size_le)

end Names

/-! ### What offsets mean -/

/-- A pointer is the base moved by an offset; no offset stands for zero. -/
def Leads (X : ValueId → Tensor) (base : ValueId) (offset : Option ValueId) (v : ValueId) : Prop :=
  match offset with
  | none => ∀ i, (X v).shape.Contains i → X v i = X base []
  | some o => (X o).shape = (X v).shape ∧ ∀ i, (X v).shape.Contains i → X v i = X base [] + X o i

section Meaning

variable {a base ptr source : ValueId} {X : ValueId → Tensor} {offset offset' : Option ValueId}

theorem Widens.copies (h : Widens v s w s') (hs : s.graph.WellTyped)
    (hX : s'.graph.SatisfiesBut a X) (hv : v ≠ a) :
    (X w).shape = (X v).shape ∧ ∀ i, (X v).shape.Contains i → X w i = X v i := by
  cases h with
  | same => exact ⟨rfl, fun i _ => rfl⟩
  | cast h =>
    obtain ⟨type, s₁, htype, h⟩ := Build.bind_eq_ok.mp h
    obtain ⟨_, rfl⟩ := Lowering.typeOf_eq_ok htype
    obtain ⟨ctx, hop, hcomputes⟩ := Lowering.define_computes h hs hX
      (by simpa [Definition.op, Op.operands] using hv.symm) rfl (by rintro ⟨⟩)
    obtain ⟨hshape, hcopy⟩ := hcomputes.cast hop
    exact ⟨hshape.symm, fun i hi => hcopy i (hshape ▸ hi)⟩

theorem addOffsets_combines (h : addOffsets l r s = .ok v s') (hs : s.graph.WellTyped)
    (hX : s'.graph.SatisfiesBut a X) (ha : Graph.Skips a s.graph s'.graph) (hl : l ≠ a)
    (hr : r ≠ a) : Tensor.Combines .add (X l) (X r) (X v) := by
  obtain ⟨l', r', s₁, s₂, hwl, hwr, h⟩ := addOffsets_eq_ok h
  have h₁ := hwl.adds (shaped_true _)
  have h₂ := hwr.adds (shaped_true _)
  have hs₁ := h₁.wellTyped hs
  have h₃ := Lowering.define_adds (P := fun _ => True) h fun _ _ => trivial
  have hX₂ := hX.of_adds h₃
  obtain ⟨hlshape, hlcopy⟩ := hwl.copies hs (hX₂.of_adds h₂) hl
  obtain ⟨hrshape, hrcopy⟩ := hwr.copies hs₁ hX₂ hr
  have hl' := hwl.ne ((ha.init h₃).init h₂) hl
  have hr' := hwr.ne ((ha.init h₃).tail h₁) hr
  obtain ⟨ctx, hop, hcomputes⟩ := Lowering.define_computes h (h₂.wellTyped hs₁) hX
    (by simp [Definition.op, Op.operands, hl'.symm, hr'.symm]) rfl (by rintro ⟨⟩)
  have hbinary : ctx.binaryOp = .ok .add := by
    rw [Context.binaryOp, hop]
    rfl
  have hsum := hcomputes.combines hbinary
  refine ⟨hlshape ▸ hsum.left, hrshape ▸ hsum.right, fun i hi => ?_⟩
  rw [← hlcopy i (by rw [← hlshape, hsum.left]; exact hi),
    ← hrcopy i (by rw [← hrshape, hsum.right]; exact hi)]
  exact hsum.elements i hi

/-- Moving a pointer adds to its offset. -/
theorem follow_move {delta : ValueId} (h : follow offset (.move delta) s = .ok offset' s')
    (hs : s.graph.WellTyped) (hX : s'.graph.SatisfiesBut a X) (ha : Graph.Skips a s.graph s'.graph)
    (hdelta : delta ≠ a) (hoffset : ∀ o ∈ offset, o ≠ a) (hleads : Leads X base offset ptr)
    (hv : Tensor.Combines .add (X ptr) (X delta) (X v)) : Leads X base offset' v := by
  have hadd : ∀ i, (X v).shape.Contains i → X v i = X ptr i + X delta i := fun i hi =>
    (Option.some.inj (hv.elements i hi)).symm
  cases offset with
  | none =>
    obtain ⟨rfl, _⟩ := Build.pure_eq_ok.mp h
    refine ⟨hv.right, fun i hi => ?_⟩
    rw [hadd i hi, hleads i (hv.left ▸ hi)]
  | some o =>
    obtain ⟨sum, hsum, rfl⟩ := Build.map_eq_ok.mp h
    have hcombines := addOffsets_combines hsum hs hX ha (hoffset o rfl) hdelta
    have hshape : (X sum).shape = (X v).shape := by rw [← hcombines.right, hv.right]
    refine ⟨hshape, fun i hi => ?_⟩
    have hsum : X sum i = X o i + X delta i :=
      (Option.some.inj (hcombines.elements i (hshape ▸ hi))).symm
    rw [hadd i hi, hleads.2 i (hv.left ▸ hi), hsum, Int64.add_assoc]

/-- Spreading a pointer spreads its offset. -/
theorem follow_splat {shape : Shape} (h : follow offset (.splat shape) s = .ok offset' s')
    (hs : s.graph.WellTyped) (hX : s'.graph.SatisfiesBut a X) (hoffset : ∀ o ∈ offset, o ≠ a)
    (hleads : Leads X base offset source) (hshape : (X v).shape = shape)
    (hsource : (X source).shape = []) (hv : ∀ i, (X v).shape.Contains i → X v i = X source []) :
    Leads X base offset' v := by
  have hnil : (X source).shape.Contains [] := by simp [hsource]
  cases offset with
  | none =>
    obtain ⟨rfl, _⟩ := Build.pure_eq_ok.mp h
    intro i hi
    rw [hv i hi, hleads [] hnil]
  | some o =>
    obtain ⟨u, hu, rfl⟩ := Build.map_eq_ok.mp h
    obtain ⟨ctx, hop, hcomputes⟩ := Lowering.define_computes hu hs hX
      (by simpa [Definition.op, Op.operands] using (hoffset o rfl).symm) rfl (by rintro ⟨⟩)
    obtain ⟨_, hspread⟩ := hcomputes.splat hop
    have hushape : (X u).shape = (X v).shape := by
      rw [Lowering.define_shape hu hX rfl, hshape]
    refine ⟨hushape, fun i hi => ?_⟩
    rw [hv i hi, hleads.2 [] hnil, hspread i (hushape ▸ hi)]

theorem follow_broadcast {shape : Shape} (h : follow offset (.broadcast shape) s = .ok offset' s')
    (hs : s.graph.WellTyped) (hX : s'.graph.SatisfiesBut a X) (hoffset : ∀ o ∈ offset, o ≠ a)
    (hleads : Leads X base offset source) (hshape : (X v).shape = shape)
    (hsource : (X source).shape = [] ∨ (X source).shape.length = (X v).shape.length ∧
      ∀ d, (X source).shape.getD d 1 = (X v).shape.getD d 1 ∨ (X source).shape.getD d 1 = 1)
    (hv : ∀ i, (X v).shape.Contains i → X v i = X source ((X source).shape.stretched i)) :
    Leads X base offset' v := by
  have hin : ∀ i, (X v).shape.Contains i →
      (X source).shape.Contains ((X source).shape.stretched i) := by
    intro i hi
    rcases hsource with hnil | ⟨hlen, hstretch⟩
    · simp [hnil, Shape.stretched]
    · exact Shape.contains_stretched hi hlen hstretch
  cases offset with
  | none =>
    obtain ⟨rfl, _⟩ := Build.pure_eq_ok.mp h
    intro i hi
    rw [hv i hi, hleads _ (hin i hi)]
  | some o =>
    obtain ⟨u, hu, rfl⟩ := Build.map_eq_ok.mp h
    obtain ⟨ctx, hop, hcomputes⟩ := Lowering.define_computes hu hs hX
      (by simpa [Definition.op, Op.operands] using (hoffset o rfl).symm) rfl (by rintro ⟨⟩)
    obtain ⟨_, hstretched⟩ := hcomputes.broadcast hop
    have hushape : (X u).shape = (X v).shape := by
      rw [Lowering.define_shape hu hX rfl, hshape]
    refine ⟨hushape, fun i hi => ?_⟩
    rw [hv i hi, hleads.2 _ (hin i hi), hstretched i (hushape ▸ hi), hleads.1]

/-- Every pointer on a path is the base moved by the offset that the path so far amounts to. The
equations on the way hold since nothing that the pointer depends on reads `a`. -/
theorem foldlM_leads {path : PointerPath} (hs : s.graph.WellTyped)
    (ha : Graph.Skips a s.graph s'.graph) (hpath : s.graph.Points v path)
    (hdep : ¬ s.graph.DependsOn v a) (h : path.links.foldlM follow none s = .ok offset s')
    (hX : s'.graph.SatisfiesBut a X) : Leads X path.base offset v := by
  induction hpath generalizing offset s' with
  | @base v node hv hscalar =>
    obtain ⟨rfl, rfl⟩ := Build.pure_eq_ok.mp h
    intro i hi
    have hshape := hX.shape v node.type (by rw [Graph.typeOf?, hv]; rfl)
    rw [hshape, hscalar, Shape.contains_nil] at hi
    rw [hi]
  | @move v ptr delta type path hv hpath ih =>
    obtain ⟨before, s₁, hbefore, hfollow, h₁, h₂⟩ := foldlM_extend h
    have hX₁ := hX.of_adds h₂
    have ha₁ := ha.init h₂
    obtain ⟨_, hdep'⟩ := not_dependsOn_operand hdep hv (by rintro ⟨⟩) (List.mem_cons_self ..)
    obtain ⟨ctx, hop, _, hcomputes⟩ := (hX₁.of_adds h₁).computes hs hv
      (fun hmem => hdep (.of_operand hv (by rintro ⟨⟩) hmem)) rfl (by rintro ⟨⟩)
    have hbinary : ctx.binaryOp = .ok .add := by rw [Context.binaryOp, hop]
    exact follow_move hfollow (h₁.wellTyped hs) hX (ha.tail h₁)
      (not_dependsOn_operand hdep hv (by rintro ⟨⟩) (by simp [Op.operands])).1
      (foldlM_ne ha₁ hpath hdep' hbefore) (ih ha₁ hdep' hbefore hX₁)
      (hcomputes.combines hbinary)
  | @splat v source type path hv hpath ih =>
    obtain ⟨before, s₁, hbefore, hfollow, h₁, h₂⟩ := foldlM_extend h
    have hX₁ := hX.of_adds h₂
    have ha₁ := ha.init h₂
    obtain ⟨_, hdep'⟩ := not_dependsOn_operand hdep hv (by rintro ⟨⟩) (List.mem_cons_self ..)
    obtain ⟨ctx, hop, htype, hcomputes⟩ := (hX₁.of_adds h₁).computes hs hv
      (fun hmem => hdep (.of_operand hv (by rintro ⟨⟩) hmem)) rfl (by rintro ⟨⟩)
    obtain ⟨hsource, hspread⟩ := hcomputes.splat hop
    exact follow_splat hfollow (h₁.wellTyped hs) hX (foldlM_ne ha₁ hpath hdep' hbefore)
      (ih ha₁ hdep' hbefore hX₁) (hcomputes.shape.trans (by rw [htype])) hsource hspread
  | @broadcast v source type path hv hpath ih =>
    obtain ⟨before, s₁, hbefore, hfollow, h₁, h₂⟩ := foldlM_extend h
    have hX₁ := hX.of_adds h₂
    have ha₁ := ha.init h₂
    obtain ⟨_, hdep'⟩ := not_dependsOn_operand hdep hv (by rintro ⟨⟩) (List.mem_cons_self ..)
    obtain ⟨ctx, hop, htype, hcomputes⟩ := (hX₁.of_adds h₁).computes hs hv
      (fun hmem => hdep (.of_operand hv (by rintro ⟨⟩) hmem)) rfl (by rintro ⟨⟩)
    obtain ⟨hsource, hstretched⟩ := hcomputes.broadcast hop
    exact follow_broadcast hfollow (h₁.wellTyped hs) hX (foldlM_ne ha₁ hpath hdep' hbefore)
      (ih ha₁ hdep' hbefore hX₁) (hcomputes.shape.trans (by rw [htype])) hsource hstretched

/-- A pointer that does not depend on `a` is split into a base and an offset that lead back to it,
whatever `a` is. -/
theorem track_leads_of_skips {address : Address} (hs : s.graph.WellTyped)
    (ha : Graph.Skips a s.graph s'.graph) (hdep : ¬ s.graph.DependsOn ptr a)
    (h : track ptr s = .ok address s') (hX : s'.graph.SatisfiesBut a X) :
    Leads X address.base address.offset ptr := by
  obtain ⟨path, offset, s₁, hpath, hfold, hbase, hoffset⟩ := track_eq_ok h
  rw [hbase]
  cases offset with
  | some o =>
    obtain ⟨ho, hgraph⟩ := hoffset
    rw [hgraph] at hX ha
    rw [ho]
    exact foldlM_leads hs ha hpath hdep hfold hX
  | none =>
    obtain ⟨t, s₂, ht, hzero, hgraph⟩ := hoffset
    rw [hgraph] at hX ha
    have hadds := foldlM_adds hfold (shaped_true _) fun link _ => linkShaped_true link
    have hlast := Lowering.define_adds (P := fun _ => True) hzero fun _ _ => trivial
    have hX₁ := hX.of_adds hlast
    have hleads := foldlM_leads hs (ha.init hlast) hpath hdep hfold hX₁
    have hconstant := Lowering.define_const hzero (hadds.wellTyped hs) hX
    have hshape : (X address.offset).shape = (X ptr).shape := by
      rw [Lowering.define_shape hzero hX rfl, hX₁.shape ptr t ht]
      rfl
    refine ⟨hshape, fun i hi => ?_⟩
    rw [hconstant i (hshape ▸ hi), hleads i hi, Int64.add_zero]

/-- A pointer that `a` depends on is split into a base and an offset that lead back to it. -/
theorem track_leads {address : Address} (hs : s.graph.WellTyped) (hcausal : s.graph.Causal)
    (ha : a < s.graph.size) (hdep : s.graph.DependsOn a ptr) (h : track ptr s = .ok address s')
    (hX : s'.graph.SatisfiesBut a X) : Leads X address.base address.offset ptr :=
  track_leads_of_skips hs (.inl ha) (hcausal.not_dependsOn hdep) h hX

end Meaning

end Address

end TileFacts

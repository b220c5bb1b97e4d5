import TileFacts.Proofs.Build
import TileFacts.Proofs.Rule.Context

/-! Nodes as their definitions make them.

The checks of a definition are exactly the rules of types: what is typed can be defined
(`Graph.define_definition`), as what is defined is typed (`Graph.WellTyped.define`). Main statement:
after any requests, those that failed included, every node is what its definition makes of the graph
as it stands, with the types that its operands have now. -/
namespace TileFacts

/-- The definition that makes a node. A merge is made with its first input. -/
def Node.definition (node : Node) : Definition :=
  match node.op with
  | .const value => .const value node.type
  | .constFloat bits => .constFloat bits node.type
  | .arg index => .arg index node.type
  | .cast op source => .cast op source node.type.element
  | .binary op lhs rhs => .binary op lhs rhs
  | .addPtr ptr offset => .addPtr ptr offset
  | .cmp predicate lhs rhs => .cmp predicate lhs rhs
  | .select cond onTrue onFalse => .select cond onTrue onFalse
  | .range start stop => .range start stop
  | .splat source => .splat source node.type.shape
  | .broadcast source => .broadcast source node.type.shape
  | .expandDims source axis => .expandDims source axis
  | .reshape source => .reshape source node.type.shape
  | .merge inputs => .merge (inputs.headD 0)
  | .atomicRmw op ptr value mask => .atomicRmw op ptr value mask
  | .gatherAtomicRmw op base values indices mask => .gatherAtomicRmw op base values indices mask

namespace Graph

variable {g : Graph}

/-! ### Checks that succeed -/

theorem known_of_typeOf? {v : ValueId} {t : ValueType} (h : g.typeOf? v = some t) :
    g.known v = .ok t :=
  known_eq_ok.mpr h

theorem requireSame_self (kind : Kind) (t : ValueType) : requireSame kind t t = .ok () :=
  requireSame_eq_ok.mpr rfl

theorem replaceAllUses_eq {old new : ValueId} {t : ValueType} (hold : g.typeOf? old = some t)
    (hnew : g.typeOf? new = some t) :
    g.replaceAllUses old new = .ok (g.redirectUses old new) := by
  simp only [replaceAllUses, known_of_typeOf? hold, known_of_typeOf? hnew, ok_bind,
    requireSame_self]
  rfl

theorem requireMask_of_typed {shape : Shape} {mask : Option ValueId}
    (h : ∀ m ∈ mask, ∃ s, g.typeOf? m = some s ∧ s.element.isBool = true ∧ s.shape = shape) :
    g.requireMask shape mask = .ok () := by
  cases mask with
  | none => rfl
  | some m =>
    obtain ⟨s, hs, hbool, rfl⟩ := h m rfl
    simp only [requireMask, known_of_typeOf? hs, ok_bind, hbool, require, beq_self_eq_true]
    rfl

theorem requireGatherMask_of_typed {shape : Shape} {mask : Option ValueId}
    (h : ∀ m ∈ mask, ∃ s, g.typeOf? m = some s ∧ s.element.isInt = true ∧ s.shape = shape) :
    g.requireGatherMask shape mask = .ok () := by
  cases mask with
  | none => rfl
  | some m =>
    obtain ⟨s, hs, hint, rfl⟩ := h m rfl
    simp only [requireGatherMask, known_of_typeOf? hs, ok_bind, hint, require, beq_self_eq_true]
    rfl

/-- What is typed can be defined: its definition makes the very node. -/
theorem define_definition {node : Node} (h : NodeTyped g.typeOf? node)
    (hkind : node.op.kind ≠ .merge) : g.define node.definition = .ok node := by
  obtain ⟨op, type⟩ := node
  obtain ⟨hop, hextents⟩ := h
  have hvalid : type.shape.validate = .ok type.shape := validate_eq_ok.mpr ⟨hextents, rfl⟩
  have holds {c : Bool} (hc : c = true) {reason : Refusal} : require c reason = .ok () :=
    require_eq_ok.mpr hc
  cases hop with
  | arg =>
    simp only [Node.definition, define, hvalid]
    rfl
  | const hint =>
    simp only [Node.definition, define, hvalid, holds hint]
    rfl
  | constFloat hfloat =>
    simp only [Node.definition, define, hvalid, holds hfloat]
    rfl
  | cast hsource haccepts =>
    simp only [Node.definition, define, known_of_typeOf? hsource, ok_bind, ValueType.withElement,
      holds haccepts]
    rfl
  | binary hlhs hrhs hint =>
    simp only [Node.definition, define, known_of_typeOf? hlhs, known_of_typeOf? hrhs, ok_bind,
      requireSame_self, holds hint]
    rfl
  | addPtr hptr hoffset hpointer hint hshape =>
    simp only [Node.definition, define, known_of_typeOf? hptr, known_of_typeOf? hoffset, ok_bind,
      holds hpointer, holds hint, holds (beq_iff_eq.mpr hshape)]
    rfl
  | cmp hlhs hrhs =>
    simp only [Node.definition, define, known_of_typeOf? hlhs, known_of_typeOf? hrhs, ok_bind,
      requireSame_self]
    rfl
  | select hcond honTrue honFalse hbool hshape =>
    simp only [Node.definition, define, known_of_typeOf? hcond, known_of_typeOf? honTrue,
      known_of_typeOf? honFalse, ok_bind, requireSame_self, holds hbool]
    rw [holds (by simpa [ValueType.isScalar] using hshape)]
    rfl
  | range horder hcount =>
    simp only [Node.definition, define, holds (decide_eq_true horder), checked_eq_ok.mpr hcount]
    rfl
  | splat hsource hscalar =>
    simp only [Node.definition, define, known_of_typeOf? hsource, ok_bind, hvalid]
    rw [holds (by simpa [ValueType.isScalar] using hscalar)]
    rfl
  | broadcast hsource hstretches =>
    simp only [Node.definition, define, known_of_typeOf? hsource, ok_bind, hvalid]
    rw [Shape.requireStretch, holds hstretches]
    rfl
  | expandDims hsource haxis =>
    simp only [Node.definition, define, known_of_typeOf? hsource, ok_bind,
      holds (decide_eq_true haxis)]
    rfl
  | reshape hsource hinput houtput =>
    simp only [Node.definition, define, known_of_typeOf? hsource, ok_bind, hvalid,
      checked_eq_ok.mpr hinput]
    rw [checked_eq_ok.mpr houtput, ok_bind, holds (beq_self_eq_true _)]
    rfl
  | merge => exact absurd rfl hkind
  | atomicRmw hptr hvalue hpointee hshape hmask =>
    simp only [Node.definition, define, known_of_typeOf? hptr, known_of_typeOf? hvalue, ok_bind,
      hpointee, holds (beq_self_eq_true _), holds (beq_iff_eq.mpr hshape),
      requireMask_of_typed hmask]
    rfl
  | gatherAtomicRmw hbase hvalues hindices hpointer hscalar hint hshape hmask =>
    simp only [Node.definition, define, known_of_typeOf? hbase, known_of_typeOf? hvalues,
      known_of_typeOf? hindices, ok_bind, holds hpointer, holds hint,
      holds (beq_iff_eq.mpr hshape), requireGatherMask_of_typed hmask]
    rw [holds (by simpa [ValueType.isScalar] using hscalar)]
    rfl

theorem define_merge {u : ValueId} {t : ValueType} (h : g.typeOf? u = some t) :
    g.define (.merge u) = .ok ⟨.merge [u], t⟩ := by
  simp only [define, known_of_typeOf? h]
  rfl

/-! ### Graphs that were built -/

/-- A merge is defined with an input, and loses none. -/
theorem Built.operands_ne_nil (hg : g.Built) {v : ValueId} {node : Node}
    (hv : g.nodes[v]? = some node) (hkind : node.op.kind = .merge) : node.op.operands ≠ [] := by
  induction hg generalizing v node with
  | empty => cases hv
  | @define g d new hg hd ih =>
    have hadds : g.Adds (· = new) (g.push new) := .define .refl hd rfl
    rcases hadds.cases_node hv with hold | ⟨_, rfl⟩
    · exact ih hold hkind
    · obtain ⟨u, hu⟩ := exists_operand_of_merge hd hkind
      exact List.ne_nil_of_mem hu
  | @addMergeInput g g' merge input hg h ih =>
    obtain ⟨inputs, type, hmerge, _, rfl⟩ := addMergeInput_eq_ok h
    rcases node_set hv with ⟨_, rfl⟩ | ⟨_, hold⟩
    · exact List.append_ne_nil_of_right_ne_nil _ (List.cons_ne_nil _ _)
    · exact ih hold hkind
  | @replaceAllUses g g' old new hg h ih =>
    obtain ⟨_, rfl⟩ := replaceAllUses_eq_ok h
    obtain ⟨before, hbefore, ⟨_, rfl⟩ | ⟨_, rfl⟩⟩ := node_of_redirectUses hv
    · exact ih hbefore hkind
    · rw [Op.kind_mapOperands] at hkind
      rw [Op.operands_mapOperands]
      exact fun hnil => ih hbefore hkind (List.map_eq_nil_iff.mp hnil)

/-- A node is what its definition makes of the graph as it stands: its operands are values of the
graph, its type is the one that follows from their types, and every check of its definition holds.
A merge could be defined from any of its inputs. -/
structure Derives (g : Graph) (node : Node) : Prop where
  operands : ∀ u ∈ node.op.operands, u < g.size
  extents : ∀ extent ∈ node.type.shape, 0 < extent
  typed : node.op.HasType g.typeOf? node.type
  defined : node.op.kind ≠ .merge → g.define node.definition = .ok node
  merged : node.op.kind = .merge → node.op.operands ≠ [] ∧
    ∀ u ∈ node.op.operands, g.define (.merge u) = .ok ⟨.merge [u], node.type⟩

theorem Built.derives (hg : g.Built) {v : ValueId} {node : Node} (hv : g.nodes[v]? = some node) :
    g.Derives node := by
  have htyped := hg.wellTyped v node hv
  refine ⟨fun u hu => ?_, fun extent hextent => ?_, htyped.op, define_definition htyped, ?_⟩
  · obtain ⟨t, ht⟩ := htyped.op.operand hu
    obtain ⟨operand, hoperand, _⟩ := Option.map_eq_some_iff.mp ht
    exact (List.getElem?_eq_some_iff.mp hoperand).1
  · exact Nat.pos_of_ne_zero fun hzero => htyped.extents (hzero ▸ hextent)
  · intro hkind
    refine ⟨hg.operands_ne_nil hv hkind, fun u hu => ?_⟩
    obtain ⟨op, type⟩ := node
    cases htyped.op with
    | merge hinputs => exact define_merge (hinputs u hu)
    | _ => cases hkind

/-- Every graph is typed by its own definitions. Whatever definitions, inputs added to merges and
redirected uses made it, those that failed included: every node is what its definition makes of the
graph as it stands. -/
theorem ofRequests_derives (requests : List Request) {v : ValueId} {node : Node}
    (hv : (ofRequests requests).nodes[v]? = some node) : (ofRequests requests).Derives node :=
  (ofRequests_built requests).derives hv

/-- A masked update in a loop. Its value is a merge that first takes a constant and then the result
of the update; redirecting the constant and the mask changes operands of the merge and of the
update. Two requests fail on the way. -/
def looping : List Request :=
  [.define (.arg 0 (.scalar (.pointer .i32 .global))), .define (.const 1 (.scalar .i32)),
    .define (.merge 1), .define (.cmp .ne 1 1), .define (.atomicRmw .add 0 2 (some 3)),
    .addMergeInput 2 4, .addMergeInput 2 3, .define (.const 5 (.scalar .i32)),
    .replaceAllUses 1 5, .define (.arg 1 (.scalar .bool)), .replaceAllUses 3 6,
    .replaceAllUses 3 0]

theorem ofRequests_derives_looping :
    (ofRequests looping).nodes[2]? = some ⟨.merge [5, 4], .scalar .i32⟩ ∧
      (ofRequests looping).Derives ⟨.merge [5, 4], .scalar .i32⟩ ∧
      (ofRequests looping).nodes[4]? = some ⟨.atomicRmw .add 0 2 (some 6), .scalar .i32⟩ ∧
      (ofRequests looping).Derives ⟨.atomicRmw .add 0 2 (some 6), .scalar .i32⟩ := by
  have hmerge : (ofRequests looping).nodes[2]? = some ⟨.merge [5, 4], .scalar .i32⟩ := by decide
  have hupdate : (ofRequests looping).nodes[4]? =
      some ⟨.atomicRmw .add 0 2 (some 6), .scalar .i32⟩ := by decide
  exact ⟨hmerge, ofRequests_derives looping hmerge, hupdate, ofRequests_derives looping hupdate⟩

end Graph

end TileFacts

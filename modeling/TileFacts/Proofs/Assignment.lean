import TileFacts.Proofs.Build
import TileFacts.Proofs.Possible
import Mathlib.Logic.Relation

/-! Tensors assigned to all values of a graph at once.

An assignment satisfies a graph (`Graph.Satisfies`) if every value that is computed is what its
operation makes of the operands; what comes from outside, and what a merge takes, may be anything.
When the uses of a value are redirected, an assignment of the new graph still satisfies every
equation of the old one that does not read that value (`Graph.SatisfiesBut`), and in a graph that
is causal (`Graph.Causal`) nothing that a value is computed from reads it. -/
namespace TileFacts

/-- An assignment satisfies the equation of a value. A float stands for its bits. -/
structure Node.Holds (X : ValueId → Tensor) (v : ValueId) (node : Node) : Prop where
  computed : node.op.isFree = false → node.op.kind ≠ .merge →
    node.op.Means (node.op.operands.map X) (X v)
  float : ∀ bits, node.op = .constFloat bits → (X v).IsConstant bits.toInt64

namespace Graph

/-- Every value has a tensor of its shape, and every equation holds. -/
structure Satisfies (g : Graph) (X : ValueId → Tensor) : Prop where
  shape : ∀ (v : ValueId) (t : ValueType), g.typeOf? v = some t → (X v).shape = t.shape
  holds : ∀ (v : ValueId) (node : Node), g.nodes[v]? = some node → node.Holds X v

/-- Every value has a tensor of its shape, and every equation that does not read `a` holds. -/
structure SatisfiesBut (g : Graph) (a : ValueId) (X : ValueId → Tensor) : Prop where
  shape : ∀ (v : ValueId) (t : ValueType), g.typeOf? v = some t → (X v).shape = t.shape
  holds : ∀ (v : ValueId) (node : Node), g.nodes[v]? = some node → a ∉ node.op.operands →
    node.Holds X v

theorem Satisfies.but {g : Graph} {X : ValueId → Tensor} (h : g.Satisfies X) (a : ValueId) :
    g.SatisfiesBut a X :=
  ⟨h.shape, fun v node hv _ => h.holds v node hv⟩

theorem mapOperands_of_fixed {op : Op} {f : ValueId → ValueId} (h : ∀ u ∈ op.operands, f u = u) :
    op.mapOperands f = op := by
  cases op with
  | atomicRmw _ _ _ mask => cases mask <;> simp_all [Op.mapOperands, Op.operands]
  | gatherAtomicRmw _ _ _ _ mask => cases mask <;> simp_all [Op.mapOperands, Op.operands]
  | merge inputs =>
    simp only [Op.mapOperands, Op.operands] at h ⊢
    rw [List.map_congr_left h, List.map_id']
  | _ => simp_all [Op.mapOperands, Op.operands]

/-- A value that does not read `a` is defined as before when the uses of `a` are redirected. -/
theorem node_redirectUses {g : Graph} {a r v : ValueId} {node : Node} (hv : g.nodes[v]? = some node)
    (ha : a ∉ node.op.operands) : (g.redirectUses a r).nodes[v]? = some node := by
  rw [redirectUses, List.getElem?_mapIdx, hv, Option.map_some]
  split
  · rfl
  · have hfixed : ∀ u ∈ node.op.operands, redirect a r u = u := by
      intro u hu
      have hne : u ≠ a := fun heq => ha (heq ▸ hu)
      simp [redirect, hne]
    rw [mapOperands_of_fixed hfixed]

/-- Redirecting uses changes what is used, not what kind of operation uses it. -/
theorem exists_kind_of_redirectUses {g : Graph} {a r v : ValueId} {node : Node}
    (hv : (g.redirectUses a r).nodes[v]? = some node) :
    ∃ node', g.nodes[v]? = some node' ∧ node'.op.kind = node.op.kind := by
  rw [redirectUses, List.getElem?_mapIdx] at hv
  obtain ⟨node', hnode', rfl⟩ := Option.map_eq_some_iff.mp hv
  refine ⟨node', hnode', ?_⟩
  split
  · rfl
  · exact (Op.kind_mapOperands _ _).symm

theorem Satisfies.of_redirectUses {g : Graph} {a r : ValueId} {X : ValueId → Tensor}
    (h : (g.redirectUses a r).Satisfies X) : g.SatisfiesBut a X where
  shape v t ht := h.shape v t (by rw [typeOf?_redirectUses, ht])
  holds v node hv ha := h.holds v node (node_redirectUses hv ha)

namespace SatisfiesBut

variable {g k : Graph} {a : ValueId} {X : ValueId → Tensor} {P : Node → Prop}

theorem of_adds (h : k.SatisfiesBut a X) (hadds : g.Adds P k) : g.SatisfiesBut a X where
  shape v t ht := h.shape v t (hadds.typeOf? ht)
  holds v node hv := h.holds v node (hadds.node hv)

/-- What a satisfied equation says, with the shapes of the operands. -/
theorem computes (h : g.SatisfiesBut a X) (hg : g.WellTyped) {v : ValueId} {node : Node}
    (hv : g.nodes[v]? = some node) (ha : a ∉ node.op.operands) (hfree : node.op.isFree = false)
    (hmerge : node.op.kind ≠ .merge) :
    ∃ ctx : Context, ctx.op = node.op ∧ ctx.type = node.type ∧
      ctx.Computes g.typeOf? (node.op.operands.map X) (X v) := by
  obtain ⟨ctx, _, hop, htype, htyped⟩ := hg.context hv
  refine ⟨ctx, hop, htype, htyped, ?_, hop ▸ (h.holds v node hv ha).computed hfree hmerge, ?_⟩
  · rw [List.forall₂_map_right_iff, ← hop]
    exact htyped.forall₂_types.flip.imp fun t u ht => h.shape u t ht
  · rw [htype]
    exact h.shape v _ (by rw [typeOf?, hv]; rfl)

end SatisfiesBut

/-- No value that is added between two graphs is called `a`. -/
def Skips (a : ValueId) (g k : Graph) : Prop := a < g.size ∨ k.size ≤ a

theorem Skips.tail {g h k : Graph} {a : ValueId} {P : Node → Prop} (hskips : Skips a g k)
    (hadds : g.Adds P h) : Skips a h k :=
  hskips.imp_left fun ha => Nat.lt_of_lt_of_le ha hadds.size_le

theorem Skips.init {g h k : Graph} {a : ValueId} {P : Node → Prop} (hskips : Skips a g k)
    (hadds : h.Adds P k) : Skips a g h :=
  hskips.imp_right fun ha => Nat.le_trans hadds.size_le ha

/-! ### Causality -/

/-- `v` is computed from `u`, other than by a merge. -/
def Reads (g : Graph) (v u : ValueId) : Prop :=
  ∃ node, g.nodes[v]? = some node ∧ node.op.kind ≠ .merge ∧ u ∈ node.op.operands

/-- `v` is computed from `u` in one step or several, none of them a merge. -/
def DependsOn (g : Graph) : ValueId → ValueId → Prop := Relation.TransGen g.Reads

/-- Nothing depends on itself: every loop goes through a merge. -/
def Causal (g : Graph) : Prop := ∀ v, ¬ g.DependsOn v v

theorem Causal.ne {g : Graph} (h : g.Causal) {a u : ValueId} (hau : g.DependsOn a u) : u ≠ a := by
  rintro rfl
  exact h u hau

/-- What depends on a value is not among what the value depends on. -/
theorem Causal.not_dependsOn {g : Graph} (h : g.Causal) {a v : ValueId} (hav : g.DependsOn a v) :
    ¬ g.DependsOn v a :=
  fun hva => h a (hav.trans hva)

theorem DependsOn.of_operand {g : Graph} {v u : ValueId} {node : Node}
    (hv : g.nodes[v]? = some node) (hmerge : node.op.kind ≠ .merge) (hu : u ∈ node.op.operands) :
    g.DependsOn v u :=
  .single ⟨node, hv, hmerge, hu⟩

theorem DependsOn.step {g : Graph} {a v u : ValueId} {node : Node} (hav : g.DependsOn a v)
    (hv : g.nodes[v]? = some node) (hop : node.op.kind ≠ .merge) (hu : u ∈ node.op.operands) :
    g.DependsOn a u :=
  hav.tail ⟨node, hv, hop, hu⟩

/-- A graph is causal if merges alone read values that are defined later. -/
theorem causal_of_lt {g : Graph} (h : ∀ p ∈ g.nodes.zipIdx, p.1.op.kind ≠ .merge →
    ∀ u ∈ p.1.op.operands, u < p.2) : g.Causal := by
  have hreads : ∀ v u, g.Reads v u → u < v := by
    rintro v u ⟨node, hv, hop, hu⟩
    exact h (node, v) (List.mk_mem_zipIdx_iff_getElem?.mpr hv) hop u hu
  have hlt : ∀ v u, g.DependsOn v u → u < v := by
    intro v u huv
    induction huv with
    | single hr => exact hreads _ _ hr
    | tail _ hr ih => exact Nat.lt_trans (hreads _ _ hr) ih
  exact fun v hv => Nat.lt_irrefl v (hlt v v hv)

end Graph

end TileFacts

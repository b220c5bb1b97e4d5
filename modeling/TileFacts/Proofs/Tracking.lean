import TileFacts.Proofs.Causality

/-! Where a pointer is split, and what its parts say.

A pointer is walked back to the value where it starts (`Graph.StartsAt`). A scalar there is the base
of the address; a tensor is named in the refusal. The offset has an integer for every element of the
pointer, and the values that it needs restrict nothing: an assignment of the graph before extends to
the graph after (`Graph.Adds.exists_satisfies`). Main statement: in a graph whose cycles go through
merges, a pointer is split if and only if it starts at a scalar, and under every assignment it is
that scalar moved by the offset. -/
namespace TileFacts

/-! ### Assignments of more values -/

/-- An offset can be computed whatever the operands are. -/
theorem Op.exists_means_of_isOffset {op : Op} (hop : op.isOffset = true) (X : ValueId → Tensor)
    (shape : Shape) : ∃ z : Tensor, z.shape = shape ∧ op.Means (op.operands.map X) z := by
  cases op with
  | const value => exact ⟨⟨shape, fun _ => value⟩, rfl, .const fun _ _ => rfl⟩
  | cast cast u => exact ⟨⟨shape, X u⟩, rfl, .cast fun _ _ => rfl⟩
  | binary op u v =>
    cases op with
    | add => exact ⟨⟨shape, fun i => X u i + X v i⟩, rfl, .binary fun _ _ => rfl⟩
    | _ => cases hop
  | splat u => exact ⟨⟨shape, fun _ => X u []⟩, rfl, .splat fun _ _ => rfl⟩
  | broadcast u =>
    exact ⟨⟨shape, fun i => X u ((X u).shape.stretched i)⟩, rfl, .broadcast fun _ _ => rfl⟩
  | _ => cases hop

/-- The equation of a value is about the value and its operands. -/
theorem Node.Holds.congr {X Y : ValueId → Tensor} {v : ValueId} {node : Node} (h : node.Holds X v)
    (hv : Y v = X v) (hoperands : ∀ u ∈ node.op.operands, Y u = X u) : node.Holds Y v where
  computed hfree hmerge := by
    rw [List.map_congr_left hoperands, hv]
    exact h.computed hfree hmerge
  float bits hop := by
    rw [hv]
    exact h.float bits hop

namespace Graph

variable {g h : Graph} {X : ValueId → Tensor}

/-- The step: a tensor is found for a new offset, and all others stay. -/
theorem Satisfies.push {new : Node} (hX : g.Satisfies X) (hg : g.WellTyped)
    (hnew : NodeTyped g.typeOf? new) (hoffset : new.op.isOffset = true) :
    ∃ Y, (g.push new).Satisfies Y ∧ ∀ v < g.size, Y v = X v := by
  obtain ⟨z, hz, hmeans⟩ := Op.exists_means_of_isOffset hoffset X new.type.shape
  have hold : ∀ v < g.size, Function.update X g.size z v = X v := fun v hv =>
    Function.update_of_ne (Nat.ne_of_lt hv) z X
  refine ⟨Function.update X g.size z, ⟨fun v t ht => ?_, fun v node hv => ?_⟩, hold⟩
  · obtain ⟨node, hv, rfl⟩ := Option.map_eq_some_iff.mp ht
    rcases node_push hv with hv | ⟨rfl, rfl⟩
    · rw [hold v (List.getElem?_eq_some_iff.mp hv).1]
      exact hX.shape v _ (typeOf?_of_node hv)
    · rw [Function.update_self]
      exact hz
  · rcases node_push hv with hv | ⟨rfl, rfl⟩
    · exact (hX.holds v node hv).congr (hold v (List.getElem?_eq_some_iff.mp hv).1)
        fun u hu => hold u (hg.lt_size_of_uses ⟨node, hv, hu⟩)
    · refine ⟨fun _ _ => ?_, fun bits hop => ?_⟩
      · rw [Function.update_self, List.map_congr_left fun u hu => ?_]
        · exact hmeans
        · obtain ⟨t, ht⟩ := hnew.op.operand hu
          exact hold u (lt_size_of_typeOf? ht)
      · rw [hop] at hoffset
        cases hoffset

/-- Values that compute offsets restrict no assignment. -/
theorem Adds.exists_satisfies {S : Shape → Prop} (hadds : g.Adds (Node.IsOffset S) h)
    (hg : g.WellTyped) (hX : g.Satisfies X) :
    ∃ Y, h.Satisfies Y ∧ ∀ v < g.size, Y v = X v :=
  hadds.exists_extension hg (fun _ _ _ hk hnew hoffset hX => hX.push hk hnew hoffset.1) hX

end Graph

/-! ### Split pointers -/

namespace Address

variable {s s' : Session} {ptr : ValueId} {t : ValueType} {address : Address}

/-- A pointer of a graph is split in a larger one: what there was stays as it was, and the pointer
is the base moved by the offset, in every assignment of the larger graph. Each assignment of the
graph is part of one. -/
structure Splits (address : Address) (ptr : ValueId) (t : ValueType) (g k : Graph) : Prop where
  nodes : ∀ (v : ValueId) (node : Node), g.nodes[v]? = some node → k.nodes[v]? = some node
  offset : k.IntTensor address.offset t.shape
  leads : ∀ X, k.Satisfies X → ∀ i, t.shape.Contains i →
    X ptr i = X address.base [] + X address.offset i
  satisfiable : ∀ X, g.Satisfies X → ∃ Y, k.Satisfies Y ∧ ∀ v < g.size, Y v = X v

/-- Nothing reads a name that is not given out yet, so every equation may be used. -/
theorem leads_of_satisfies {X : ValueId → Tensor} (hs : s.graph.WellTyped)
    (h : track ptr s = .ok address s') (hX : s'.graph.Satisfies X) :
    Leads X address.base address.offset ptr := by
  have hle : s.graph.size ≤ s'.graph.size := (track_adds h (shaped_true _)).size_le
  refine track_leads_of_skips hs (.inr (Nat.le_refl _)) (fun hdep => ?_) h (hX.but s'.graph.size)
  exact Nat.not_lt.mpr hle (hs.lt_size_of_dependsOn hdep)

theorem splits_of_track (hs : s.graph.WellTyped) (hptr : s.graph.typeOf? ptr = some t)
    (h : track ptr s = .ok address s') (hoffset : s'.graph.IntTensor address.offset t.shape) :
    address.Splits ptr t s.graph s'.graph := by
  have hadds := track_adds h (shaped_true s.graph)
  refine ⟨fun _ _ hv => hadds.node hv, hoffset, fun X hX i hi => ?_,
    fun X hX => hadds.exists_satisfies hs hX⟩
  refine (leads_of_satisfies hs h hX).2 i ?_
  rwa [hX.shape ptr t (hadds.typeOf? hptr)]

end Address

/-- In a graph whose cycles go through merges every pointer starts at one value. If that is a
scalar, the pointer is split into it and an offset; if it is a tensor, it is refused by name, and
the graph stays as it is. -/
theorem Address.track_exact {s : Session} {ptr : ValueId} {t : ValueType}
    (hs : s.graph.WellTyped) (hcycles : s.graph.CyclesMerge)
    (hptr : s.graph.typeOf? ptr = some t) (hpointer : t.element.isPointer = true) :
    ∃ (e : ValueId) (node : Node), (∀ u, s.graph.StartsAt ptr u ↔ u = e) ∧
      s.graph.nodes[e]? = some node ∧
      (node.type.shape = [] → ∃ address s', track ptr s = .ok address s' ∧ address.base = e ∧
        address.Splits ptr t s.graph s'.graph) ∧
      (node.type.shape ≠ [] → ∃ s',
        track ptr s = .error (.refused (.untracked e node.op.kind)) s' ∧ s'.graph = s.graph) := by
  have hcausal := Graph.causal_iff_cyclesMerge.mpr hcycles
  have hends := track_progress hs hcausal hptr hpointer
  have hunique {e : ValueId} (he : s.graph.StartsAt ptr e) (u : ValueId) :
      s.graph.StartsAt ptr u ↔ u = e :=
    ⟨fun hu => hu.unique he, fun hu => hu ▸ he⟩
  cases hrun : track ptr s with
  | ok address s' =>
    obtain ⟨hadds, hstart, ⟨b, hb, _, hscalar⟩, hoffset⟩ := hends.of_ok hrun
    obtain ⟨node, hnode⟩ := hstart.node
    cases (hadds.typeOf? (Graph.typeOf?_of_node hnode)).symm.trans hb
    exact ⟨address.base, node, hunique hstart, hnode,
      fun _ => ⟨address, s', rfl, rfl, splits_of_track hs hptr hrun hoffset⟩,
      fun htensor => absurd hscalar htensor⟩
  | error failure s' =>
    obtain ⟨hgraph, e, kind, hstart, ⟨node, hnode, rfl, htensor, _⟩, rfl⟩ := hends.of_error hrun
    exact ⟨e, node, hunique hstart, hnode, fun hscalar => absurd hscalar htensor,
      fun _ => ⟨s', rfl, hgraph⟩⟩

/-- A pointer that is moved, spread and moved again, and one that is moved from a tensor. -/
def Graph.twiceMoved : Graph :=
  ⟨[⟨.arg 0, .scalar (.pointer .i32 .global)⟩, ⟨.arg 1, .scalar (.scalar (.signed .w64))⟩,
    ⟨.addPtr 0 1, .scalar (.pointer .i32 .global)⟩, ⟨.splat 2, ⟨.pointer .i32 .global, [4]⟩⟩,
    ⟨.range 0 4, ⟨.i32, [4]⟩⟩, ⟨.addPtr 3 4, ⟨.pointer .i32 .global, [4]⟩⟩,
    ⟨.arg 2, ⟨.pointer .i32 .global, [4]⟩⟩, ⟨.addPtr 6 4, ⟨.pointer .i32 .global, [4]⟩⟩]⟩

theorem Graph.twiceMoved_built : Graph.twiceMoved.Built :=
  .of_requests [.define (.arg 0 (.scalar (.pointer .i32 .global))),
    .define (.arg 1 (.scalar (.scalar (.signed .w64)))), .define (.addPtr 0 1),
    .define (.splat 2 [4]), .define (.range 0 4), .define (.addPtr 3 4),
    .define (.arg 2 ⟨.pointer .i32 .global, [4]⟩), .define (.addPtr 6 4)] .empty (by decide)

/-- Pointer 100 is moved by 7, and spread and moved by 0 to 3 from there. -/
def Graph.twiceMovedTensors : ValueId → Tensor
  | 0 => ⟨[], fun _ => 100⟩
  | 1 => ⟨[], fun _ => 7⟩
  | 2 => ⟨[], fun _ => 107⟩
  | 3 => ⟨[4], fun _ => 107⟩
  | 4 => .row 0
  | 5 => .row 107
  | 6 => ⟨[4], fun _ => 0⟩
  | _ => ⟨[4], fun i => 0 + Tensor.row 0 i⟩

theorem Graph.twiceMoved_satisfies : Graph.twiceMoved.Satisfies Graph.twiceMovedTensors where
  shape v t ht := by
    obtain ⟨node, hv, rfl⟩ := Option.map_eq_some_iff.mp ht
    have hlt : v < 8 := (List.getElem?_eq_some_iff.mp hv).1
    match v, hlt with
    | 0, _ | 1, _ | 2, _ | 3, _ | 4, _ | 5, _ | 6, _ | 7, _ =>
      cases hv
      rfl
  holds v node hv := by
    have hlt : v < 8 := (List.getElem?_eq_some_iff.mp hv).1
    match v, hlt with
    | 0, _ | 1, _ | 6, _ =>
      cases hv
      exact ⟨by rintro ⟨⟩, by rintro _ ⟨⟩⟩
    | 2, _ | 7, _ =>
      cases hv
      exact ⟨fun _ _ => .addPtr fun _ _ => rfl, by rintro _ ⟨⟩⟩
    | 3, _ =>
      cases hv
      exact ⟨fun _ _ => .splat fun _ _ => rfl, by rintro _ ⟨⟩⟩
    | 4, _ =>
      cases hv
      exact ⟨fun _ _ => .range fun _ _ => rfl, by rintro _ ⟨⟩⟩
    | 5, _ =>
      cases hv
      refine ⟨fun _ _ => .addPtr fun i _ => ?_, by rintro _ ⟨⟩⟩
      show _ = (107 : Int64) + (0 + _)
      rw [Int64.zero_add]
      rfl

theorem Address.track_exact_twiceMoved :
    Graph.twiceMoved.WellTyped ∧ Graph.twiceMoved.CyclesMerge ∧
    Graph.twiceMoved.Satisfies Graph.twiceMovedTensors ∧
    (∃ address s, track 5 ⟨.twiceMoved, []⟩ = .ok address s ∧ address.base = 0 ∧
      address.Splits 5 ⟨.pointer .i32 .global, [4]⟩ .twiceMoved s.graph ∧
      ∃ X, s.graph.Satisfies X ∧ ∀ i, Shape.Contains [4] i →
        Tensor.row 107 i = 100 + X address.offset i) ∧
    ∃ s, track 7 ⟨.twiceMoved, []⟩ = .error (.refused (.untracked 6 .arg)) s ∧
      s.graph = .twiceMoved := by
  have hg := Graph.twiceMoved_built.wellTyped
  have hcycles : Graph.twiceMoved.CyclesMerge :=
    Graph.causal_iff_cyclesMerge.mp (Graph.causal_of_lt (by decide))
  have hsatisfies := Graph.twiceMoved_satisfies
  refine ⟨hg, hcycles, hsatisfies, ?_, ?_⟩
  · obtain ⟨e, node, hunique, hnode, hsplit, _⟩ :=
      track_exact (s := ⟨.twiceMoved, []⟩) hg hcycles (rfl : Graph.twiceMoved.typeOf? 5 = _) rfl
    obtain rfl : 0 = e := (hunique 0).mp
      (.back rfl rfl (.back rfl rfl (.back rfl rfl (.here rfl rfl))))
    cases hnode
    obtain ⟨address, s, hrun, hbase, hsplits⟩ := hsplit rfl
    obtain ⟨X, hX, hagree⟩ := hsplits.satisfiable _ hsatisfies
    refine ⟨address, s, hrun, hbase, hsplits, X, hX, fun i hi => ?_⟩
    have hleads := hsplits.leads X hX i hi
    rwa [hbase, hagree 5 (by decide), hagree 0 (by decide)] at hleads
  · obtain ⟨e, node, hunique, hnode, _, hrefuse⟩ :=
      track_exact (s := ⟨.twiceMoved, []⟩) hg hcycles (rfl : Graph.twiceMoved.typeOf? 7 = _) rfl
    obtain rfl : 6 = e := (hunique 6).mp (.back rfl rfl (.here rfl rfl))
    cases hnode
    exact hrefuse (by decide)

end TileFacts

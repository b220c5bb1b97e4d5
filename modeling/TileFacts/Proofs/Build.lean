import TileFacts.Lowering
import TileFacts.Proofs.Typing

/-! Constructions that succeed, and the graphs they leave.

A construction that succeeds has run its parts in turn (`Build.bind_eq_ok`), and each part has one
equation that says what it did to the session. Constructions only ever add defined values:
`Graph.Adds` relates a graph to what it has grown to, with a property of every value that was
added, and keeps whatever definitions keep. -/
namespace TileFacts

namespace Build

variable {ε δ α β : Type} {s s' : Session}

theorem bind_eq_ok {x : Build ε α} {f : α → Build ε β} {b : β} :
    (x >>= f) s = .ok b s' ↔ ∃ a s₁, x s = .ok a s₁ ∧ f a s₁ = .ok b s' := by
  show EStateM.bind x f s = _ ↔ _
  unfold EStateM.bind
  cases x s <;> simp

theorem pure_eq_ok {a b : α} : (pure a : Build ε α) s = .ok b s' ↔ a = b ∧ s = s' := by
  show EStateM.Result.ok a s = _ ↔ _
  simp

theorem map_eq_ok {x : Build ε α} {f : α → β} {b : β} :
    (f <$> x) s = .ok b s' ↔ ∃ a, x s = .ok a s' ∧ f a = b := by
  show EStateM.map f x s = _ ↔ _
  unfold EStateM.map
  cases x s with
  | ok a s₁ => aesop
  | error => simp

theorem graph_eq_ok {g : Graph} :
    (graph : Build ε Graph) s = .ok g s' ↔ s.graph = g ∧ s = s' := by
  show EStateM.Result.ok s.graph s = _ ↔ _
  simp

theorem attempt_eq_ok {x : Attempt ε α} {a : α} :
    attempt x s = .ok a s' ↔ x = .ok a ∧ s = s' := by
  unfold attempt
  cases x <;> simp

theorem inspect_eq_ok {f : Graph → Checked α} {a : α} :
    (inspect f : Build ε α) s = .ok a s' ↔ f s.graph = .ok a ∧ s = s' := by
  unfold inspect
  rw [bind_eq_ok]
  constructor
  · rintro ⟨g, s₁, hg, h⟩
    obtain ⟨rfl, rfl⟩ := graph_eq_ok.mp hg
    obtain ⟨hf, rfl⟩ := attempt_eq_ok.mp h
    exact ⟨checked_eq_ok.mp hf, rfl⟩
  · rintro ⟨h, rfl⟩
    exact ⟨_, _, graph_eq_ok.mpr ⟨rfl, rfl⟩, attempt_eq_ok.mpr ⟨checked_eq_ok.mpr h, rfl⟩⟩

theorem emit_eq_ok {events : List Event} {u : Unit} :
    (emit events : Build ε Unit) s = .ok u s' ↔ { s with log := s.log ++ events } = s' := by
  show EStateM.Result.ok () { s with log := s.log ++ events } = _ ↔ _
  simp

theorem within_eq_ok {f : ε → δ} {x : Build ε α} {a : α} :
    within f x s = .ok a s' ↔ x s = .ok a s' := by
  unfold within EStateM.adaptExcept
  cases x s <;> simp

theorem define_eq_ok {d : Definition} {v : ValueId} :
    define d s = .ok v s' ↔ ∃ node, s.graph.define d = .ok node ∧ v = s.graph.size ∧
      s' = ⟨s.graph.push node, s.log ++ [.created s.graph.size node.op.kind node.type]⟩ := by
  unfold define
  simp only [bind_eq_ok, graph_eq_ok, attempt_eq_ok, emit_eq_ok, pure_eq_ok]
  constructor
  · rintro ⟨_, _, ⟨rfl, rfl⟩, node, _, ⟨hnode, rfl⟩, _, _, hmodify, _, _, rfl, rfl, rfl⟩
    cases hmodify
    exact ⟨node, hnode, rfl, rfl⟩
  · rintro ⟨node, hnode, rfl, rfl⟩
    exact ⟨_, _, ⟨rfl, rfl⟩, node, _, ⟨hnode, rfl⟩, (), _, rfl, (), _, rfl, rfl, rfl⟩

theorem replaceAllUses_eq_ok {old new : ValueId} {u : Unit}
    (h : replaceAllUses old new s = .ok u s') :
    s.graph.typeOf? old = s.graph.typeOf? new ∧ s'.graph = s.graph.redirectUses old new := by
  unfold replaceAllUses at h
  simp only [bind_eq_ok, graph_eq_ok, attempt_eq_ok, emit_eq_ok] at h
  obtain ⟨_, _, ⟨rfl, rfl⟩, g, _, ⟨hg, rfl⟩, _, _, hmodify, rfl⟩ := h
  cases hmodify
  exact Graph.replaceAllUses_eq_ok hg

/-- What a construction gives and the graph it leaves, if it succeeds. -/
def result (x : Build ε α) (s : Session) : Option (α × Graph) :=
  match x s with
  | .ok a s' => some (a, s'.graph)
  | .error .. => none

theorem exists_of_result {x : Build ε α} {a : α} {g : Graph} (h : x.result s = some (a, g)) :
    ∃ s', x s = .ok a s' ∧ s'.graph = g := by
  unfold result at h
  split at h
  · next a' s' hx =>
    cases h
    exact ⟨s', hx, rfl⟩
  · cases h

end Build

namespace Lowering

variable {s s' : Session}

/-- A value is defined under the next free name. -/
theorem define_eq_ok {d : Definition} {v : ValueId} (h : define d s = .ok v s') :
    ∃ node, s.graph.define d = .ok node ∧ v = s.graph.size ∧ s'.graph = s.graph.push node := by
  obtain ⟨node, hnode, hv, rfl⟩ := Build.define_eq_ok.mp (Build.within_eq_ok.mp h)
  exact ⟨node, hnode, hv, rfl⟩

theorem typeOf_eq_ok {v : ValueId} {t : ValueType} (h : typeOf v s = .ok t s') :
    s.graph.typeOf? v = some t ∧ s = s' := by
  obtain ⟨ht, rfl⟩ := Build.inspect_eq_ok.mp h
  exact ⟨Graph.type_eq_ok.mp ht, rfl⟩

end Lowering

/-! ### Definitions -/

/-- The operation of the value that a definition describes. -/
def Definition.op : Definition → Op
  | .arg index _ => .arg index
  | .const value _ => .const value
  | .constFloat bits _ => .constFloat bits
  | .cast op source _ => .cast op source
  | .binary op lhs rhs => .binary op lhs rhs
  | .addPtr ptr offset => .addPtr ptr offset
  | .cmp predicate lhs rhs => .cmp predicate lhs rhs
  | .select cond onTrue onFalse => .select cond onTrue onFalse
  | .range start stop => .range start stop
  | .splat source _ => .splat source
  | .broadcast source _ => .broadcast source
  | .expandDims source axis => .expandDims source axis
  | .reshape source _ => .reshape source
  | .merge init => .merge [init]
  | .atomicRmw op ptr value mask => .atomicRmw op ptr value mask
  | .gatherAtomicRmw op base values indices mask => .gatherAtomicRmw op base values indices mask

/-- The shape that a definition asks for, if it does. -/
def Definition.shape? : Definition → Option Shape
  | .arg _ type | .const _ type | .constFloat _ type => some type.shape
  | .splat _ shape | .broadcast _ shape | .reshape _ shape => some shape
  | _ => none

namespace Graph

variable {g : Graph} {d : Definition} {node : Node}

theorem op_of_define (h : g.define d = .ok node) : node.op = d.op := by
  cases d with
  | atomicRmw op ptr value mask =>
    obtain ⟨p, _, h⟩ := bind_eq_ok.mp h
    obtain ⟨t, _, h⟩ := bind_eq_ok.mp h
    split at h
    · cases h
    · simp only [bind_eq_ok] at h
      obtain ⟨_, _, _, _, _, _, h⟩ := h
      cases h
      rfl
  | _ =>
    simp only [define, bind_eq_ok, pure, Except.pure] at h
    grind [Definition.op]

theorem exists_operand_of_merge (h : g.define d = .ok node) (hkind : node.op.kind = .merge) :
    ∃ u, u ∈ node.op.operands := by
  rw [op_of_define h] at hkind ⊢
  cases d with
  | merge init => exact ⟨init, List.mem_singleton_self init⟩
  | _ => cases hkind

theorem shape_of_define (h : g.define d = .ok node) {shape : Shape}
    (hshape : d.shape? = some shape) : node.type.shape = shape := by
  cases d <;> simp only [Definition.shape?, Option.some.injEq, reduceCtorEq] at hshape <;>
    simp only [define, bind_eq_ok, pure, Except.pure, validate_eq_ok] at h <;>
    grind [ValueType.withShape]

/-- A node of a graph with redirected uses: it reads `new` for `old`, unless it defines `new`. -/
theorem node_of_redirectUses {old new v : ValueId}
    (hv : (g.redirectUses old new).nodes[v]? = some node) :
    ∃ before, g.nodes[v]? = some before ∧ (v = new ∧ node = before ∨
      v ≠ new ∧ node = { before with op := before.op.mapOperands (redirect old new) }) := by
  simp only [redirectUses, List.getElem?_mapIdx] at hv
  obtain ⟨before, hbefore, heq⟩ := Option.map_eq_some_iff.mp hv
  refine ⟨before, hbefore, ?_⟩
  split at heq
  · next hnew => exact .inl ⟨hnew, heq.symm⟩
  · next hnew => exact .inr ⟨hnew, heq.symm⟩

end Graph

/-! ### Growing graphs -/

namespace Graph

/-- A graph that has grown by defined values, each of which has a property. -/
inductive Adds (P : Node → Prop) (g : Graph) : Graph → Prop
  | refl : Adds P g g
  | define {h : Graph} {d : Definition} {node : Node} (hadds : Adds P g h)
    (hd : h.define d = .ok node) (hnode : P node) : Adds P g (h.push node)

namespace Adds

variable {P Q : Node → Prop} {g h k : Graph}

theorem trans (hgh : Adds P g h) (hhk : Adds P h k) : Adds P g k := by
  induction hhk with
  | refl => exact hgh
  | define _ hd hnode ih => exact ih.define hd hnode

theorem mono (hgh : Adds P g h) (hPQ : ∀ node, P node → Q node) : Adds Q g h := by
  induction hgh with
  | refl => exact .refl
  | define _ hd hnode ih => exact ih.define hd (hPQ _ hnode)

/-- What a definition keeps stays. -/
theorem keeps {I : Graph → Prop} (hgh : Adds P g h) (hg : I g)
    (hI : ∀ k d node, I k → k.define d = .ok node → P node → I (k.push node)) : I h := by
  induction hgh with
  | refl => exact hg
  | define _ hd hnode ih => exact hI _ _ _ ih hd hnode

theorem wellTyped (hgh : Adds P g h) (hg : g.WellTyped) : h.WellTyped :=
  hgh.keeps hg fun _ _ _ hk hd _ => hk.push (hk.define hd)

theorem built (hgh : Adds P g h) (hg : g.Built) : h.Built :=
  hgh.keeps hg fun _ _ _ hk hd _ => hk.define hd

theorem defined (hgh : Adds P g h) (hg : g.Defined) : h.Defined :=
  hgh.keeps hg fun _ _ _ hk hd _ => hk.define hd

theorem size_le (hgh : Adds P g h) : g.size ≤ h.size := by
  refine hgh.keeps (I := fun k => g.size ≤ k.size) (Nat.le_refl _) fun k _ node hk _ _ => ?_
  rw [size_push]
  exact Nat.le_succ_of_le hk

/-- Nodes stay under their names. -/
theorem node (hgh : Adds P g h) {v : ValueId} {node : Node} (hv : g.nodes[v]? = some node) :
    h.nodes[v]? = some node := by
  refine hgh.keeps (I := fun k => k.nodes[v]? = some node) hv fun k _ _ hk _ _ => ?_
  have hlt := (List.getElem?_eq_some_iff.mp hk).1
  rw [push, List.getElem?_append_left hlt]
  exact hk

theorem typeOf? (hgh : Adds P g h) {v : ValueId} {t : ValueType} (hv : g.typeOf? v = some t) :
    h.typeOf? v = some t :=
  hgh.keeps (I := fun k => k.typeOf? v = some t) hv fun _ _ _ hk _ _ => typeOf?_push hk

/-- A node is an old one under its old name, or was added. -/
theorem cases_node (hgh : Adds P g h) {v : ValueId} {node : Node} (hv : h.nodes[v]? = some node) :
    g.nodes[v]? = some node ∨ g.size ≤ v ∧ P node := by
  induction hgh with
  | refl => exact .inl hv
  | @define h d new hadds hd hnew ih =>
    rw [push, List.getElem?_append] at hv
    split at hv
    · exact ih hv
    · next hge =>
      have hle := hadds.size_le
      simp only [size] at hle
      rw [List.getElem?_singleton] at hv
      split at hv
      · cases hv
        exact .inr ⟨by simp only [size]; omega, hnew⟩
      · cases hv

/-- What can be found for one more value, while the others keep theirs, can be found for all values
of a grown graph. -/
theorem exists_extension {α : Type} {S : Graph → (ValueId → α) → Prop} (hgh : Adds P g h)
    (hg : g.WellTyped) (hpush : ∀ (k : Graph) (node : Node) (X : ValueId → α), k.WellTyped →
      NodeTyped k.typeOf? node → P node → S k X →
      ∃ Y, S (k.push node) Y ∧ ∀ v < k.size, Y v = X v) {X : ValueId → α} (hX : S g X) :
    ∃ Y, S h Y ∧ ∀ v < g.size, Y v = X v := by
  induction hgh with
  | refl => exact ⟨X, hX, fun _ _ => rfl⟩
  | define hadds hd hnode ih =>
    obtain ⟨Y, hY, hYX⟩ := ih
    have hk := hadds.wellTyped hg
    obtain ⟨Z, hZ, hZY⟩ := hpush _ _ Y hk (hk.define hd) hnode hY
    refine ⟨Z, hZ, fun v hv => ?_⟩
    rw [hZY v (Nat.lt_of_lt_of_le hv hadds.size_le), hYX v hv]

end Adds

end Graph

end TileFacts

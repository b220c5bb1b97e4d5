import TileFacts.Proofs.Operands
import TileFacts.Proofs.Solution

/-! The tensors a value can be, and facts that are true of all of them.

A value can be whatever its operation makes of tensors that its operands can be, a merge whatever
one of its inputs can be (`Graph.Possible`). What comes from outside can be anything once it is
worked out at all: a value is *grounded* if its operands are, a merge if one of its inputs is.

Facts mean something of tensors, and a meaning that no rule and no join breaks (`Meaning`) is true
of every possible tensor under every solution (`Meaning.sound`), loops and given up values
included. -/
namespace TileFacts

/-- Operations whose result comes from outside the graph. -/
def Op.isFree : Op → Bool
  | .arg _ | .constFloat _ | .atomicRmw .. | .gatherAtomicRmw .. => true
  | _ => false

namespace Graph

/-- The values that can be worked out: an operation once all of its operands are, a merge as soon
as one of its inputs is. -/
inductive Grounded (g : Graph) : ValueId → Prop
  | op {v : ValueId} {node : Node} (hv : g.nodes[v]? = some node) (hop : node.op.kind ≠ .merge)
    (h : ∀ u ∈ node.op.operands, Grounded g u) : Grounded g v
  | merge {v u : ValueId} {node : Node} (hv : g.nodes[v]? = some node)
    (hop : node.op.kind = .merge) (hu : u ∈ node.op.operands) (h : Grounded g u) : Grounded g v

theorem Grounded.operands {g : Graph} {v : ValueId} (h : g.Grounded v) {node : Node}
    (hv : g.nodes[v]? = some node) (hop : node.op.kind ≠ .merge) :
    ∀ u ∈ node.op.operands, g.Grounded u := by
  cases h with
  | op hv' _ hall =>
    rw [hv] at hv'
    cases hv'
    exact hall
  | merge hv' hop' _ _ =>
    rw [hv] at hv'
    cases hv'
    exact absurd hop' hop

theorem Grounded.input {g : Graph} {v : ValueId} (h : g.Grounded v) {node : Node}
    (hv : g.nodes[v]? = some node) (hop : node.op.kind = .merge) :
    ∃ u ∈ node.op.operands, g.Grounded u := by
  cases h with
  | op hv' hop' _ =>
    rw [hv] at hv'
    cases hv'
    exact absurd hop hop'
  | merge hv' _ hu hground =>
    rw [hv] at hv'
    cases hv'
    exact ⟨_, hu, hground⟩

/-- What is grounded stays so when values are added and merges get more inputs. -/
theorem Grounded.mono {g h : Graph}
    (hop : ∀ (v : ValueId) (node : Node), g.nodes[v]? = some node → node.op.kind ≠ .merge →
      h.nodes[v]? = some node)
    (hmerge : ∀ (v : ValueId) (node : Node), g.nodes[v]? = some node → node.op.kind = .merge →
      ∃ node', h.nodes[v]? = some node' ∧ node'.op.kind = .merge ∧
        node.op.operands ⊆ node'.op.operands)
    {v : ValueId} (hv : g.Grounded v) : h.Grounded v := by
  induction hv with
  | op hv hkind _ ih => exact .op (hop _ _ hv hkind) hkind ih
  | merge hv hkind hu _ ih =>
    obtain ⟨node', hv', hkind', hsub⟩ := hmerge _ _ hv hkind
    exact .merge hv' hkind' (hsub hu) ih

/-- The tensors a value can be. What comes from outside can be any tensor of its shape, if it
`runs`. -/
inductive Possible (g : Graph) (runs : ValueId → Prop) : ValueId → Tensor → Prop
  | free {v : ValueId} {node : Node} {x : Tensor} (hv : g.nodes[v]? = some node)
    (hop : node.op.isFree = true) (hruns : runs v) (hx : x.shape = node.type.shape) :
    Possible g runs v x
  | merge {v u : ValueId} {node : Node} {x : Tensor} (hv : g.nodes[v]? = some node)
    (hop : node.op.kind = .merge) (hu : u ∈ node.op.operands) (hx : Possible g runs u x) :
    Possible g runs v x
  | computed {v : ValueId} {node : Node} {xs : List Tensor} {x : Tensor}
    (hv : g.nodes[v]? = some node)
    (hxs : ∀ (k : Nat) (u : ValueId) (y : Tensor), node.op.operands[k]? = some u →
      xs[k]? = some y → Possible g runs u y)
    (hmeans : node.op.Means xs x) (hx : x.shape = node.type.shape) : Possible g runs v x

theorem Possible.of_operands {g : Graph} {runs : ValueId → Prop} {v : ValueId} {node : Node}
    {xs : List Tensor} {x : Tensor} (hv : g.nodes[v]? = some node)
    (hxs : List.Forall₂ (g.Possible runs) node.op.operands xs) (hmeans : node.op.Means xs x)
    (hx : x.shape = node.type.shape) : g.Possible runs v x := by
  refine .computed hv (fun k u y hu hy => ?_) hmeans hx
  obtain ⟨hk, rfl⟩ := List.getElem?_eq_some_iff.mp hu
  obtain ⟨hk', rfl⟩ := List.getElem?_eq_some_iff.mp hy
  exact (List.forall₂_iff_get.mp hxs).2 k hk hk'

/-- More of what comes from outside makes more possible. -/
theorem Possible.mono {g : Graph} {runs runs' : ValueId → Prop}
    (hruns : ∀ v < g.size, runs v → runs' v) {v : ValueId} {x : Tensor}
    (h : g.Possible runs v x) : g.Possible runs' v x := by
  induction h with
  | free hv hop hrun hx =>
    exact .free hv hop (hruns _ (List.getElem?_eq_some_iff.mp hv).1 hrun) hx
  | merge hv hop hu _ ih => exact .merge hv hop hu ih
  | computed hv _ hmeans hx ih => exact .computed hv ih hmeans hx

/-- A possible tensor has the shape of its value. -/
theorem Possible.shape {g : Graph} (hg : g.WellTyped) {runs : ValueId → Prop} {v : ValueId}
    {x : Tensor} (h : g.Possible runs v x) : ∃ t, g.typeOf? v = some t ∧ x.shape = t.shape := by
  induction h with
  | free hv _ _ hx => exact ⟨_, by rw [typeOf?, hv]; rfl, hx⟩
  | computed hv _ _ hx => exact ⟨_, by rw [typeOf?, hv]; rfl, hx⟩
  | @merge v u node x hv hop hu _ ih =>
    obtain ⟨t, ht, hx⟩ := ih
    rw [hg.typeOf?_of_merge hv hop hu] at ht
    cases ht
    exact ⟨node.type, by rw [typeOf?, hv]; rfl, hx⟩

end Graph

/-! ### Meanings -/

/-- A meaning of facts that holds of whatever the rules of a graph answer, as long as it holds of
the facts of the operands, and that a join takes over from either side. -/
structure Meaning (g : Graph) (holds : Fact → Tensor → Prop) : Prop where
  top : ∀ {t : ValueType} {x : Tensor}, x.shape = t.shape → holds (.top t.factRank) x
  join_left : ∀ {a b c : Fact} {x : Tensor}, holds a x → a.join b = .ok c → holds c x
  join_right : ∀ {a b c : Fact} {x : Tensor}, holds b x → a.join b = .ok c → holds c x
  answer : ∀ {v : ValueId} {node : Node} {ctx : Context} {facts : List Fact} {f : Fact}
    {xs : List Tensor} {x : Tensor}, g.nodes[v]? = some node → ctx.op = node.op →
    ctx.type = node.type → Answer ctx facts f → f.rank = ctx.rank →
    List.Forall₂ holds facts xs → ctx.Computes g.typeOf? xs x → holds f x

namespace Meaning

variable {g : Graph} {holds : Fact → Tensor → Prop}

/-- What a fact says of a tensor, a join takes over. -/
theorem inherited (h : Meaning g holds) (x : Tensor) : Fact.Inherited (holds · x) :=
  ⟨fun hc hx => h.join_left hx hc, fun hc hx => h.join_right hx hc⟩

end Meaning

/-! ### Solutions -/

namespace Inference.Solution

variable {g : Graph} {fact : ValueId → Option Fact} {v : ValueId} {node : Node}

/-- An operation whose operands have facts has one: it is given up, or a rule answers it. -/
theorem op (hsol : Solution g fact) (hg : g.WellTyped) (hv : g.nodes[v]? = some node)
    (hop : node.op.kind ≠ .merge) (hoperands : ∀ u ∈ node.op.operands, ∃ f, fact u = some f) :
    ∃ f, fact v = some f ∧ (f = .top node.type.factRank ∨ ∃ ctx facts, ctx.op = node.op ∧
      ctx.type = node.type ∧ ctx.Typed g.typeOf? ∧ Answer ctx facts f ∧
      List.Forall₂ (fun u f => fact u = some f) node.op.operands facts) := by
  rcases hsol.solves v node hv with htop | ⟨before, found, hbefore, heval, hfound⟩
  · exact ⟨_, htop, .inl rfl⟩
  · cases evaluated_of_eq_ok hv heval with
    | merged hmerge => exact absurd hmerge hop
    | waiting _ hu hnone =>
      obtain ⟨f, hf⟩ := hoperands _ hu
      rw [hbefore _ hu, hf] at hnone
      cases hnone
    | @answered facts ctx f _ hfacts hctx hf =>
      have hall : List.Forall₂ (fun u f => fact u = some f) node.op.operands facts := by
        refine ((List.forall₂_and_left _ _).mpr ⟨hbefore, hfacts⟩).imp ?_
        rintro u f ⟨hu, hf⟩
        rw [hu] at hf
        exact Except.ok.inj hf
      obtain ⟨ctx', hctx', hctxop, hctxtype, htyped⟩ := hg.context hv
      rw [hctx] at hctx'
      cases hctx'
      have hranked : ctx.Ranked facts :=
        ranked_of_operands htyped hctxop (hall.imp fun u f hf => hsol.fits u f hf)
      obtain ⟨f', hf', hanswer⟩ := Rulebook.standard_answers htyped hranked
      rw [hf] at hf'
      cases hf'
      exact ⟨f, hfound f rfl, .inr ⟨ctx, facts, hctxop, hctxtype, htyped, hanswer, hall⟩⟩

/-- A merge one of whose inputs has a fact is given up, or joins what is known of its inputs. -/
theorem merge (hsol : Solution g fact) (hv : g.nodes[v]? = some node)
    (hop : node.op.kind = .merge) {u : ValueId} (hu : u ∈ node.op.operands) {f : Fact}
    (hf : fact u = some f) : fact v = some (.top node.type.factRank) ∨
      ∃ known previous found, some f ∈ known ∧ mergeFact known previous = .ok found ∧
        ∀ j, found = some j → fact v = some j := by
  rcases hsol.solves v node hv with htop | ⟨before, found, hbefore, heval, hfound⟩
  · exact .inl htop
  · cases evaluated_of_eq_ok hv heval with
    | waiting hno => exact absurd hop hno
    | answered hno => exact absurd hop hno
    | @merged known previous _ _ hknown _ hmerge =>
      refine .inr ⟨known, previous, found, ?_, hmerge, hfound⟩
      obtain ⟨k, hk, hbk⟩ := exists_of_forall₂ hknown hu
      rw [hbefore u hu, hf] at hbk
      cases hbk
      exact hk

/-- A grounded value has a fact. -/
theorem exists_fact (hsol : Solution g fact) (hg : g.WellTyped) (h : g.Grounded v) :
    ∃ f, fact v = some f := by
  induction h with
  | op hv hop _ ih =>
    obtain ⟨f, hf, _⟩ := hsol.op hg hv hop ih
    exact ⟨f, hf⟩
  | merge hv hop hu _ ih =>
    obtain ⟨f, hf⟩ := ih
    rcases hsol.merge hv hop hu hf with htop | ⟨known, previous, found, hmem, hmerge, hfound⟩
    · exact ⟨_, htop⟩
    · obtain ⟨j, hj⟩ := found_of_mergeFact hmerge hmem
      exact ⟨j, hfound j hj⟩

end Inference.Solution

/-- Nothing is known of what comes from outside. -/
theorem Answer.eq_top_of_isFree {ctx : Context} {facts : List Fact} {f : Fact}
    (h : Answer ctx facts f) (hfree : ctx.op.isFree = true) : f = .top ctx.rank := by
  have hbinary : ∀ op, ctx.binaryOp ≠ .ok op := by
    intro op hop
    unfold Context.binaryOp at hop
    split at hop <;> simp_all [Op.isFree]
  cases h with
  | unknown => rfl
  | policy hop | dividend hop | quotient hop | noRemainder hop | remainder hop | folded hop
  | extremumLeft hop | extremumRight hop => exact absurd hop (hbinary _)
  | constant hop | identity hop | compared hop | comparison hop | decided hop | choice hop
  | range hop | splat hop | broadcastScalar hop | broadcast hop | expandScalar hop
  | expandDims hop => simp [hop, Op.isFree] at hfree

/-- Two lists that are related to a third. -/
theorem forall₂_of_common {α β γ : Type} {R : α → β → Prop} {S : α → γ → Prop} {T : β → γ → Prop}
    {xs : List α} {ys : List β} {zs : List γ} (hR : List.Forall₂ R xs ys)
    (hS : List.Forall₂ S xs zs) (h : ∀ x y z, R x y → S x z → T y z) : List.Forall₂ T ys zs := by
  induction hR generalizing zs with
  | nil =>
    cases hS
    exact .nil
  | cons hxy _ ih =>
    cases hS with
    | cons hxz hS => exact .cons (h _ _ _ hxy hxz) (ih hS)

/-- What a meaning says under a solution is true of every possible tensor. -/
theorem Meaning.sound {g : Graph} {holds : Fact → Tensor → Prop} (h : Meaning g holds)
    (hg : g.WellTyped) {fact : ValueId → Option Fact} (hsol : Inference.Solution g fact)
    {v : ValueId} {x : Tensor} (hx : g.Possible g.Grounded v x) :
    ∃ f, fact v = some f ∧ holds f x := by
  induction hx with
  | @free v node x hv hfree hruns hx =>
    have hop : node.op.kind ≠ .merge := by
      cases hnode : node.op <;> simp_all [Op.isFree, Op.kind]
    have hoperands := hruns.operands hv hop
    obtain ⟨f, hf, rfl | ⟨ctx, facts, hctxop, hctxtype, _, hanswer, _⟩⟩ :=
      hsol.op hg hv hop fun u hu => hsol.exists_fact hg (hoperands u hu)
    · exact ⟨_, hf, h.top hx⟩
    · refine ⟨f, hf, ?_⟩
      rw [hanswer.eq_top_of_isFree (hctxop ▸ hfree)]
      exact h.top (hctxtype ▸ hx)
  | @merge v u node x hv hop hu hx ih =>
    obtain ⟨f, hf, hholds⟩ := ih
    rcases hsol.merge hv hop hu hf with htop | ⟨known, previous, found, hmem, hmerge, hfound⟩
    · obtain ⟨t, ht, hshape⟩ := (Graph.Possible.merge hv hop hu hx).shape hg
      rw [Graph.typeOf?, hv] at ht
      cases ht
      exact ⟨_, htop, h.top hshape⟩
    · obtain ⟨j, hj, hjx⟩ := (h.inherited x).mergeFact hmerge hmem hholds
      exact ⟨j, hfound j hj, hjx⟩
  | @computed v node xs x hv hxs hmeans hx ih =>
    have hall : List.Forall₂
        (fun u y => g.Possible g.Grounded u y ∧ ∃ f, fact u = some f ∧ holds f y)
        node.op.operands xs := by
      refine List.forall₂_iff_get.mpr ⟨hmeans.length_eq.symm, fun k hu hy => ?_⟩
      have hk : node.op.operands[k]? = some node.op.operands[k] := List.getElem?_eq_getElem hu
      have hk' : xs[k]? = some xs[k] := List.getElem?_eq_getElem hy
      exact ⟨hxs k _ _ hk hk', ih k _ _ hk hk'⟩
    obtain ⟨f, hf, rfl | ⟨ctx, facts, hctxop, hctxtype, htyped, hanswer, hfacts⟩⟩ :=
      hsol.op hg hv hmeans.kind_ne_merge fun u hu => by
        obtain ⟨_, _, _, f, hf, _⟩ := exists_of_forall₂ hall hu
        exact ⟨f, hf⟩
    · exact ⟨_, hf, h.top hx⟩
    · have hrank : f.rank = ctx.rank := by
        obtain ⟨t, ht, hrank⟩ := hsol.fits v f hf
        rw [Graph.typeOf?, hv] at ht
        cases ht
        rw [hrank, Context.rank, hctxtype]
      refine ⟨f, hf, h.answer hv hctxop hctxtype hanswer hrank ?_
        ⟨htyped, ?_, hctxop ▸ hmeans, hctxtype ▸ hx⟩⟩
      · refine forall₂_of_common hfacts hall ?_
        rintro u f y hf ⟨_, f', hf', hholds⟩
        rw [hf] at hf'
        cases hf'
        exact hholds
      · refine forall₂_of_common (hctxop ▸ htyped.forall₂_types) hall ?_
        rintro u t y ht ⟨hy, _⟩
        obtain ⟨t', ht', hshape⟩ := hy.shape hg
        rw [ht] at ht'
        cases ht'
        exact hshape

end TileFacts

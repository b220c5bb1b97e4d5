import TileFacts.Inference
import TileFacts.Proofs.Users
import TileFacts.Proofs.Rule.Answer
import Mathlib.Data.List.ReduceOption

/-! The inference solves the equations of its graph.

In a well-typed graph the table of users is complete (`Graph.WellTyped.users`), and no equation
faults on facts of the right ranks (`equations_total`). So the inference always ends with an
answer, and its facts are a *solution* (`Inference.Solution`): each value is given up, or has the
fact that its operation gives for the facts of its operands. -/
namespace TileFacts

/-! ### Contexts -/

namespace Graph

theorem typeOf?_of_node {g : Graph} {v : ValueId} {node : Node} (h : g.nodes[v]? = some node) :
    g.typeOf? v = some node.type := by
  rw [typeOf?, h]
  rfl

/-- The inputs of a merge have its type. -/
theorem WellTyped.typeOf?_of_merge {g : Graph} (hg : g.WellTyped) {v : ValueId} {node : Node}
    (hnode : g.nodes[v]? = some node) (hop : node.op.kind = .merge) {u : ValueId}
    (hu : u ∈ node.op.operands) : g.typeOf? u = some node.type := by
  obtain ⟨op, type⟩ := node
  cases (hg v _ hnode).op with
  | merge hinputs => exact hinputs u hu
  | _ => cases hop

theorem op_eq_ok {g : Graph} {v : ValueId} {node : Node} (h : g.nodes[v]? = some node) :
    g.op v = .ok node.op := by
  simp [Graph.op, Graph.node, element, h, Functor.map, Except.map]

theorem map_typeOf?_of_mapM {g : Graph} {operands : List ValueId} {types : List ValueType}
    (h : operands.mapM g.type = .ok types) : operands.map g.typeOf? = types.map some := by
  have hall := mapM_eq_ok.mp h
  induction hall with
  | nil => rfl
  | cons hu hrest ih =>
    rw [List.map_cons, List.map_cons, type_eq_ok.mp hu, ih (mapM_eq_ok.mpr hrest)]

/-- The context of a value of a well-typed graph is typed. -/
theorem WellTyped.context {g : Graph} (hg : g.WellTyped) {v : ValueId} {node : Node}
    (h : g.nodes[v]? = some node) :
    ∃ ctx, g.context v = .ok ctx ∧ ctx.op = node.op ∧ ctx.type = node.type ∧
      ctx.Typed g.typeOf? := by
  have htyped := hg v node h
  obtain ⟨types, htypes⟩ := exists_mapM_eq_ok (f := g.type) fun u hu =>
    (htyped.op.operand hu).imp fun _ => type_eq_ok.mpr
  refine ⟨⟨v, node.op, node.type, types⟩, ?_, rfl, rfl, ⟨htyped.op, ?_, htyped.extents⟩⟩
  · unfold Graph.context
    rw [h]
    exact bind_eq_ok.mpr ⟨types, htypes, rfl⟩
  · exact map_typeOf?_of_mapM htypes

theorem WellTyped.typed_of_context {g : Graph} (hg : g.WellTyped) {v : ValueId} {ctx : Context}
    (h : g.context v = .ok ctx) : ctx.Typed g.typeOf? := by
  cases hnode : g.nodes[v]? with
  | none =>
    unfold Graph.context at h
    rw [hnode] at h
    cases h
  | some node =>
    obtain ⟨ctx', hctx', _, _, htyped⟩ := hg.context hnode
    rw [h] at hctx'
    cases hctx'
    exact htyped

end Graph

/-! ### Equations -/

namespace Inference

/-- A fact has the rank of its value in fact space. -/
def Fits (g : Graph) (v : ValueId) (f : Fact) : Prop :=
  ∃ t, g.typeOf? v = some t ∧ f.rank = t.factRank

theorem exists_join {a b : Fact} {n : Nat} (ha : a.rank = n) (hb : b.rank = n) :
    ∃ c, a.join b = .ok c ∧ c.rank = n := by
  refine ⟨_, if_pos (ha.trans hb.symm), ?_⟩
  have := Fact.rank_of_join (if_pos (ha.trans hb.symm))
  exact this.1.symm.trans ha

theorem exists_joinAll {facts : List Fact} {n : Nat} (h : ∀ f ∈ facts, f.rank = n) :
    ∃ joined, joinAll facts = .ok joined ∧ ∀ f, joined = some f → f.rank = n := by
  cases facts with
  | nil => exact ⟨none, rfl, nofun⟩
  | cons first rest =>
    have hfold : ∃ f, rest.foldlM Fact.join first = .ok f ∧ f.rank = n := by
      have hfirst := h first (List.mem_cons_self ..)
      replace h := fun f hf => h f (List.mem_cons_of_mem _ hf)
      induction rest generalizing first with
      | nil => exact ⟨first, rfl, hfirst⟩
      | cons f rest ih =>
        obtain ⟨next, hnext, hrank⟩ := exists_join hfirst (h f (List.mem_cons_self ..))
        obtain ⟨result, hresult, hrank'⟩ :=
          ih next hrank fun f hf => h f (List.mem_cons_of_mem _ hf)
        exact ⟨result, bind_eq_ok.mpr ⟨next, hnext, hresult⟩, hrank'⟩
    obtain ⟨f, hf, hrank⟩ := hfold
    refine ⟨some f, map_eq_ok.mpr ⟨f, hf, rfl⟩, ?_⟩
    rintro _ ⟨rfl⟩
    exact hrank

theorem exists_mergeFact {inputs : List (Option Fact)} {previous : Option Fact} {n : Nat}
    (hinputs : ∀ f, some f ∈ inputs → f.rank = n)
    (hprevious : ∀ f, previous = some f → f.rank = n) :
    ∃ found, mergeFact inputs previous = .ok found ∧ ∀ f, found = some f → f.rank = n := by
  obtain ⟨joined, hjoined, hrank⟩ := exists_joinAll (n := n)
    fun f hf => hinputs f (List.reduceOption_mem_iff.mp hf)
  unfold mergeFact
  rw [hjoined, ok_bind]
  split
  · next j p =>
    obtain ⟨f, hf, hfrank⟩ := exists_join (hprevious p rfl) (hrank j rfl)
    refine ⟨some f, map_eq_ok.mpr ⟨f, hf, rfl⟩, ?_⟩
    rintro _ ⟨rfl⟩
    exact hfrank
  · exact ⟨joined, rfl, hrank⟩

/-- The fact of a merge follows from some input that is known. -/
theorem exists_of_mergeFact {known : List (Option Fact)} {previous : Option Fact} {f : Fact}
    (h : mergeFact known previous = .ok (some f)) : ∃ k, some k ∈ known := by
  cases hfacts : known.reduceOption with
  | nil =>
    unfold mergeFact at h
    rw [hfacts] at h
    cases previous <;> cases h
  | cons k rest =>
    exact ⟨k, List.reduceOption_mem_iff.mp (hfacts ▸ List.mem_cons_self ..)⟩

/-- A fact that was known before stays part of the fact of a merge. -/
theorem join_of_mergeFact {known : List (Option Fact)} {p f : Fact}
    (h : mergeFact known (some p) = .ok (some f)) : ∃ j, p.join j = .ok f := by
  obtain ⟨joined, hjoined, h⟩ := bind_eq_ok.mp h
  cases joined with
  | none => cases h
  | some j =>
    obtain ⟨c, hc, hf⟩ := map_eq_ok.mp h
    cases hf
    exact ⟨j, hc⟩

end Inference

/-- A property of facts that a join takes over from either side. -/
structure Fact.Inherited (P : Fact → Prop) : Prop where
  left : ∀ {a b c : Fact}, a.join b = .ok c → P a → P c
  right : ∀ {a b c : Fact}, a.join b = .ok c → P b → P c

namespace Fact.Inherited

variable {P : Fact → Prop}

theorem foldlM_join (h : Inherited P) {rest : List Fact} {first j : Fact}
    (hj : rest.foldlM Fact.join first = .ok j) (hP : P first ∨ ∃ f ∈ rest, P f) : P j := by
  induction rest generalizing first with
  | nil =>
    cases hj
    simpa using hP
  | cons second rest ih =>
    obtain ⟨next, hnext, hj⟩ := bind_eq_ok.mp hj
    refine ih hj ?_
    rcases hP with hP | ⟨f, hf, hP⟩
    · exact .inl (h.left hnext hP)
    · rcases List.mem_cons.mp hf with rfl | hf
      · exact .inl (h.right hnext hP)
      · exact .inr ⟨f, hf, hP⟩

theorem joinAll (h : Inherited P) {facts : List Fact} {joined : Option Fact}
    (hjoined : Inference.joinAll facts = .ok joined) {f : Fact} (hf : f ∈ facts) (hP : P f) :
    ∃ j, joined = some j ∧ P j := by
  cases facts with
  | nil => cases hf
  | cons first rest =>
    obtain ⟨j, hj, rfl⟩ := map_eq_ok.mp hjoined
    refine ⟨j, rfl, h.foldlM_join hj ?_⟩
    rcases List.mem_cons.mp hf with rfl | hf
    · exact .inl hP
    · exact .inr ⟨f, hf, hP⟩

/-- What holds of one known input holds of the fact of a merge. -/
theorem mergeFact (h : Inherited P) {known : List (Option Fact)} {previous found : Option Fact}
    (hfound : Inference.mergeFact known previous = .ok found) {f : Fact} (hf : some f ∈ known)
    (hP : P f) : ∃ j, found = some j ∧ P j := by
  obtain ⟨joined, hjoined, hfound⟩ := bind_eq_ok.mp hfound
  obtain ⟨j, rfl, hj⟩ := h.joinAll hjoined (List.reduceOption_mem_iff.mpr hf) hP
  cases previous with
  | none =>
    cases hfound
    exact ⟨j, rfl, hj⟩
  | some p =>
    obtain ⟨c, hc, rfl⟩ := map_eq_ok.mp hfound
    exact ⟨c, rfl, h.right hc hj⟩

end Fact.Inherited

namespace Inference

/-- A merge has a fact once one of its inputs has. -/
theorem found_of_mergeFact {known : List (Option Fact)} {previous found : Option Fact}
    (h : mergeFact known previous = .ok found) {f : Fact} (hf : some f ∈ known) :
    ∃ j, found = some j := by
  have hany : Fact.Inherited fun _ => True := ⟨fun _ _ => trivial, fun _ _ => trivial⟩
  obtain ⟨j, hj, _⟩ := hany.mergeFact h hf trivial
  exact ⟨j, hj⟩

/-! ### Evaluation -/

theorem mapM_id_eq_some {known : List (Option Fact)} {facts : List Fact} :
    known.mapM id = some facts ↔ known = facts.map some := by
  induction known generalizing facts with
  | nil => cases facts <;> simp
  | cons o rest ih =>
    cases o with
    | none => cases facts <;> simp
    | some f =>
      have hcons : (some f :: rest).mapM id = (rest.mapM id).map (f :: ·) := by
        rw [List.mapM_cons]
        cases rest.mapM id <;> rfl
      rw [hcons, Option.map_eq_some_iff]
      constructor
      · rintro ⟨tail, htail, rfl⟩
        rw [ih.mp htail, List.map_cons]
      · intro h
        obtain ⟨_, tail, rfl, hf, htail⟩ := List.map_eq_cons_iff.mp h.symm
        cases hf
        exact ⟨tail, ih.mpr htail.symm, rfl⟩

section Evaluate

variable {g : Graph} (book : Rulebook) {fact : ValueId → Checked (Option Fact)} {v : ValueId}

theorem evaluate_merge {inputs : List ValueId} {type : ValueType}
    (hv : g.nodes[v]? = some ⟨.merge inputs, type⟩) {known : List (Option Fact)}
    (hknown : inputs.mapM fact = .ok known) {previous : Option Fact}
    (hprevious : fact v = .ok previous) : evaluate g book fact v = mergeFact known previous := by
  simp only [evaluate, Graph.op_eq_ok hv, ok_bind, hknown, hprevious]

theorem evaluate_known {node : Node} (hv : g.nodes[v]? = some node) (hop : node.op.kind ≠ .merge)
    {facts : List Fact} (hfacts : node.op.operands.mapM fact = .ok (facts.map some))
    {ctx : Context} (hctx : g.context v = .ok ctx) :
    evaluate g book fact v = some <$> book.transfer ctx facts := by
  have hid : (facts.map some).mapM id = some facts := mapM_id_eq_some.mpr rfl
  simp only [evaluate, Graph.op_eq_ok hv, ok_bind]
  split
  · next heq =>
    rw [heq] at hop
    exact absurd rfl hop
  · simp only [hfacts, ok_bind, hid, hctx]

theorem evaluate_unknown {node : Node} (hv : g.nodes[v]? = some node)
    (hop : node.op.kind ≠ .merge) {known : List (Option Fact)}
    (hknown : node.op.operands.mapM fact = .ok known) (hnone : known.mapM id = none) :
    evaluate g book fact v = .ok none := by
  simp only [evaluate, Graph.op_eq_ok hv, ok_bind]
  split
  · next heq =>
    rw [heq] at hop
    exact absurd rfl hop
  · simp only [hknown, ok_bind, hnone]
    rfl

/-- What the fact of a value rests on when it is worked out. -/
inductive Evaluated (g : Graph) (book : Rulebook) (fact : ValueId → Checked (Option Fact))
    (v : ValueId) (node : Node) : Option Fact → Prop
  | merged {known : List (Option Fact)} {previous found : Option Fact}
    (hop : node.op.kind = .merge)
    (hknown : List.Forall₂ (fun u k => fact u = .ok k) node.op.operands known)
    (hprevious : fact v = .ok previous) (hfound : mergeFact known previous = .ok found) :
    Evaluated g book fact v node found
  | waiting {u : ValueId} (hop : node.op.kind ≠ .merge) (hu : u ∈ node.op.operands)
    (hnone : fact u = .ok none) : Evaluated g book fact v node none
  | answered {facts : List Fact} {ctx : Context} {f : Fact} (hop : node.op.kind ≠ .merge)
    (hfacts : List.Forall₂ (fun u f => fact u = .ok (some f)) node.op.operands facts)
    (hctx : g.context v = .ok ctx) (hf : book.transfer ctx facts = .ok f) :
    Evaluated g book fact v node (some f)

theorem exists_none_of_mapM_id {known : List (Option Fact)} (h : known.mapM id = none) :
    none ∈ known := by
  by_contra hno
  obtain ⟨facts, hfacts⟩ : ∃ facts, List.Forall₂ (fun k f => k = some f) known facts := by
    refine exists_forall₂ fun k hk => Option.ne_none_iff_exists'.mp ?_
    rintro rfl
    exact hno hk
  have hall : known = facts.map some := by
    rw [← List.forall₂_eq_eq_eq, List.forall₂_map_right_iff]
    exact hfacts
  rw [mapM_id_eq_some.mpr hall] at h
  cases h

variable {book} in
theorem evaluated_of_eq_ok {node : Node} (hv : g.nodes[v]? = some node) {found : Option Fact}
    (h : evaluate g book fact v = .ok found) : Evaluated g book fact v node found := by
  simp only [evaluate, Graph.op_eq_ok hv, ok_bind] at h
  split at h
  · next inputs hop =>
    obtain ⟨known, hknown, h⟩ := bind_eq_ok.mp h
    obtain ⟨previous, hprevious, h⟩ := bind_eq_ok.mp h
    refine .merged (by rw [hop]; rfl) ?_ hprevious h
    rw [hop]
    exact mapM_eq_ok.mp hknown
  · next hmerge =>
    have hop : node.op.kind ≠ .merge := by
      intro hkind
      cases hnode : node.op with
      | merge inputs => exact hmerge inputs hnode
      | _ => simp [hnode, Op.kind] at hkind
    obtain ⟨known, hknown, h⟩ := bind_eq_ok.mp h
    have hall := mapM_eq_ok.mp hknown
    cases hfacts : known.mapM id with
    | none =>
      rw [hfacts] at h
      cases h
      obtain ⟨u, hu, hnone⟩ := exists_of_forall₂ hall.flip (exists_none_of_mapM_id hfacts)
      exact .waiting hop hu hnone
    | some facts =>
      rw [hfacts] at h
      obtain ⟨ctx, hctx, h⟩ := bind_eq_ok.mp h
      obtain ⟨f, hf, rfl⟩ := map_eq_ok.mp h
      rw [mapM_id_eq_some.mp hfacts, List.forall₂_map_right_iff] at hall
      exact .answered hop hall hctx hf

end Evaluate

theorem ranked_of_fits {g : Graph} {operands : List ValueId} {facts : List Fact}
    {types : List ValueType} (htypes : operands.map g.typeOf? = types.map some)
    (hfits : List.Forall₂ (Fits g) operands facts) :
    facts.map Fact.rank = types.map ValueType.factRank := by
  induction hfits generalizing types with
  | nil =>
    cases types with
    | nil => rfl
    | cons => cases htypes
  | cons hu _ ih =>
    cases types with
    | nil => cases htypes
    | cons t types =>
      obtain ⟨t', ht', hrank⟩ := hu
      rw [List.map_cons, List.map_cons, ht'] at htypes
      obtain ⟨hhead, htail⟩ := List.cons.inj htypes
      cases hhead
      rw [List.map_cons, List.map_cons, hrank, ih htail]

end Inference

/-- Events that tell of a fact that was worked out, or given up. -/
def Event.isNews : Event → Bool
  | .pinned .. | .updated .. => true
  | _ => false

/-! ### Reliable rules -/

namespace Rulebook

/-- The rules that serve the values of a graph always give a fact, of the rank of the result. -/
def Reliable (book : Rulebook) (g : Graph) : Prop :=
  ∀ (v : ValueId) (ctx : Context) (rule : Rule) (facts : List Fact), g.context v = .ok ctx →
    book.rule ctx.kind = some rule → ctx.Ranked facts →
    ∃ f, rule ctx facts = .ok f ∧ f.rank = ctx.rank

theorem Reliable.transfer {book : Rulebook} {g : Graph} (h : book.Reliable g) {v : ValueId}
    {ctx : Context} (hctx : g.context v = .ok ctx) {facts : List Fact} (hfacts : ctx.Ranked facts) :
    ∃ f, book.transfer ctx facts = .ok f := by
  cases hrule : book.rule ctx.kind with
  | none => exact ⟨_, transfer_of_none hrule⟩
  | some rule =>
    obtain ⟨f, hf, hrank⟩ := h v ctx rule facts hctx hrule hfacts
    exact ⟨f, transfer_eq_ok hrule hf hrank⟩

theorem standard_reliable {g : Graph} (hg : g.WellTyped) : standard.Reliable g := by
  intro v ctx rule facts hctx hrule hfacts
  obtain ⟨f, hf, _⟩ := standard_answers (hg.typed_of_context hctx) hfacts
  exact ⟨f, rule_of_transfer hrule hf, rank_of_transfer hf⟩

end Rulebook

namespace Inference

section Total

variable {g : Graph} {book : Rulebook} {v : ValueId} {fact : ValueId → Checked (Option Fact)}
  {known : List (Option Fact)}

/-- The fact of a merge can be worked out from facts of the right rank. -/
theorem exists_evaluate_merge (hg : g.WellTyped) {inputs : List ValueId} {type : ValueType}
    (hnode : g.nodes[v]? = some ⟨.merge inputs, type⟩) (hknown : inputs.mapM fact = .ok known)
    (hgood : List.Forall₂ (fun u k => ∀ f, k = some f → Fits g u f) inputs known)
    {previous : Option Fact} (hprevious : fact v = .ok previous)
    (hprev : ∀ f, previous = some f → Fits g v f) :
    ∃ found, evaluate g book fact v = .ok found ∧ ∀ f, found = some f → Fits g v f := by
  have htype : g.typeOf? v = some type := by simp [Graph.typeOf?, hnode]
  have hinputs : ∀ f, some f ∈ known → f.rank = type.factRank := by
    intro f hf
    obtain ⟨u, hu, hfits⟩ := exists_of_forall₂ hgood.flip hf
    obtain ⟨t, ht, hrank⟩ := hfits f rfl
    rw [hg.typeOf?_of_merge hnode rfl hu] at ht
    cases ht
    exact hrank
  obtain ⟨found, hfound, hrank⟩ := exists_mergeFact hinputs fun f hf => by
    obtain ⟨t, ht, hrank⟩ := hprev f hf
    rw [htype] at ht
    cases ht
    exact hrank
  exact ⟨found, (evaluate_merge book hnode hknown hprevious).trans hfound,
    fun f hf => ⟨type, htype, hrank f hf⟩⟩

theorem ranked_of_operands {node : Node} {ctx : Context} (htyped : ctx.Typed g.typeOf?)
    (hop : ctx.op = node.op) {facts : List Fact}
    (hfits : List.Forall₂ (Fits g) node.op.operands facts) : ctx.Ranked facts :=
  ranked_of_fits htyped.operands (hop ▸ hfits)

/-- So can the fact of any other operation, if it is not put off. -/
theorem exists_evaluate_op (hg : g.WellTyped) (hbook : book.Reliable g) {node : Node}
    (hnode : g.nodes[v]? = some node) (hop : node.op.kind ≠ .merge)
    (hknown : node.op.operands.mapM fact = .ok known)
    (hgood : List.Forall₂ (fun u k => ∀ f, k = some f → Fits g u f) node.op.operands known) :
    ∃ found, evaluate g book fact v = .ok found ∧ ∀ f, found = some f → Fits g v f := by
  cases hfacts : known.mapM id with
  | none => exact ⟨none, evaluate_unknown book hnode hop hknown hfacts, by rintro _ ⟨⟩⟩
  | some facts =>
    cases mapM_id_eq_some.mp hfacts
    obtain ⟨ctx, hctx, hctxop, hctxtype, hctxtyped⟩ := hg.context hnode
    have hranked : ctx.Ranked facts := ranked_of_operands hctxtyped hctxop
      ((List.forall₂_map_right_iff.mp hgood).imp fun u f h => h f rfl)
    obtain ⟨f, hf⟩ := hbook.transfer hctx hranked
    refine ⟨some f, (evaluate_known book hnode hop hknown hctx).trans
      (map_eq_ok.mpr ⟨f, hf, rfl⟩), ?_⟩
    rintro _ ⟨rfl⟩
    have hrank := Rulebook.rank_of_transfer hf
    exact ⟨node.type, by simp [Graph.typeOf?, hnode], hrank.trans (by rw [← hctxtype]; rfl)⟩

end Total

section Trace

variable {g : Graph} {book : Rulebook} {settings : Settings} {users : List (List ValueId)}
  {final : Worklist Fact}

theorem top_eq_ok (book : Rulebook) (settings : Settings) (users : List (List ValueId))
    {v : ValueId} {node : Node} (hnode : g.nodes[v]? = some node) :
    (equations g book settings users).top v = .ok (.top node.type.factRank) := by
  have htype : g.type v = .ok node.type := Graph.type_eq_ok.mpr (by simp [Graph.typeOf?, hnode])
  simp only [equations, htype, ok_bind]
  rfl

/-- The equations of a well-typed graph never fault on facts of the right ranks. -/
theorem equations_total (hg : g.WellTyped) (hbook : book.Reliable g) (settings : Settings)
    (husers : users.length = g.size) :
    (equations g book settings users).Total g.size (Fits g) := by
  refine ⟨husers, ?_, ?_⟩
  · intro fact hfact v hv
    obtain ⟨node, hnode⟩ : ∃ node, g.nodes[v]? = some node := ⟨_, List.getElem?_eq_getElem hv⟩
    have hrange : ∀ u ∈ node.op.operands, u < g.size := fun u hu =>
      hg.lt_size_of_uses ⟨node, hnode, hu⟩
    obtain ⟨known, hknown⟩ := exists_mapM_eq_ok (f := fact) fun u hu =>
      (hfact u (hrange u hu)).imp fun _ h => h.1
    have hgood : List.Forall₂ (fun u k => ∀ f, k = some f → Fits g u f) node.op.operands known := by
      refine ((List.forall₂_and_left _ _).mpr ⟨hrange, mapM_eq_ok.mp hknown⟩).imp ?_
      rintro u k ⟨hu, hk⟩
      obtain ⟨k', hk', hfits⟩ := hfact u hu
      rw [hk] at hk'
      cases hk'
      exact hfits
    by_cases hop : node.op.kind = .merge
    · obtain ⟨op, type⟩ := node
      cases op with
      | merge inputs =>
        obtain ⟨previous, hprevious, hprev⟩ := hfact v hv
        exact exists_evaluate_merge hg hnode hknown hgood hprevious hprev
      | _ => cases hop
    · exact exists_evaluate_op hg hbook hnode hop hknown hgood
  · intro v hv
    obtain ⟨node, hnode⟩ : ∃ node, g.nodes[v]? = some node := ⟨_, List.getElem?_eq_getElem hv⟩
    exact ⟨_, top_eq_ok book settings users hnode, fun _ _ =>
      ⟨node.type, by simp [Graph.typeOf?, hnode], Fact.rank_top _⟩⟩

/-! ### Runs -/

theorem mem_visitEvents_pinned {visit : Visit Fact} {v : ValueId} {count : Nat} :
    Event.pinned v count ∈ visitEvents g book visit ↔
      visit.pinned = true ∧ v = visit.value ∧ count = visit.count := by
  have hmissing : ∀ kind, Event.pinned v count ∉ book.report visit.value kind := by
    intro kind
    simp [Rulebook.report]
  unfold visitEvents
  split <;> simp [hmissing]

theorem mem_visitEvents_updated {visit : Visit Fact} {v : ValueId} {f : Fact} :
    Event.updated v f ∈ visitEvents g book visit ↔
      visit.changed = true ∧ v = visit.value ∧ f = visit.fact := by
  have hmissing : ∀ kind, Event.updated v f ∉ book.report visit.value kind := by
    intro kind
    simp [Rulebook.report]
  unfold visitEvents
  split <;> simp [hmissing]

/-- What a worklist has come to, as an inference. -/
def ofWorklist (g : Graph) (final : Worklist Fact) : Inference :=
  ⟨final.cells.map Cell.fact, g.nodes.map fun node => node.type.factRank, final.history.length⟩

theorem lookup_ofWorklist (g : Graph) (final : Worklist Fact) (v : ValueId) :
    (ofWorklist g final).lookup v = final.cells[v]?.bind Cell.fact := by
  rw [lookup, ofWorklist, List.getElem?_map]
  cases final.cells[v]? <;> rfl

/-- How a run came about: the users that were noted, and what the worklist ended with. -/
structure Trace (g : Graph) (book : Rulebook) (settings : Settings) (users : List (List ValueId))
    (final : Worklist Fact) : Prop where
  table : g.users = .ok users
  length : users.length = g.size
  notes : ∀ u v, Notes users u v ↔ g.Uses v u
  run : (Worklist.start g.size).run (equations g book settings users) = (final, none)

/-- Reliable rules let every run end. -/
theorem exists_trace (hg : g.WellTyped) (hbook : book.Reliable g) (settings : Settings) :
    ∃ users final, Trace g book settings users final := by
  obtain ⟨users, husers, hlen, hnotes⟩ := hg.users
  obtain ⟨final, hrun, _⟩ := (equations_total hg hbook settings hlen).run
  exact ⟨users, final, husers, hlen, hnotes, hrun⟩

namespace Trace

theorem of_run (hg : g.WellTyped) (htable : g.users = .ok users)
    (hrun : (Worklist.start g.size).run (equations g book settings users) = (final, none)) :
    Trace g book settings users final := by
  obtain ⟨_, husers, hlength, hnotes⟩ := hg.users
  rw [htable] at husers
  cases husers
  exact ⟨htable, hlength, hnotes, hrun⟩

theorem result (h : Trace g book settings users final) :
    (Inference.run g book settings).2 = .ok (ofWorklist g final) := by
  simp only [Inference.run, h.table, h.run]
  rfl

theorem consistent (h : Trace g book settings users final) {Good : ValueId → Fact → Prop}
    (htotal : (equations g book settings users).Total g.size Good) :
    final.Consistent (equations g book settings users) g.size Good [] := by
  obtain ⟨final', hrun, hconsistent⟩ := htotal.run
  rw [h.run] at hrun
  cases hrun
  exact hconsistent

/-- What holds of all that an inference can work out holds of what it ends with. -/
theorem good (h : Trace g book settings users final) {Good : ValueId → Fact → Prop}
    (htotal : (equations g book settings users).Total g.size Good) {v : ValueId} {f : Fact}
    (hf : (ofWorklist g final).lookup v = some f) : Good v f := by
  rw [lookup_ofWorklist] at hf
  obtain ⟨cell, hcell, hfact⟩ := Option.bind_eq_some_iff.mp hf
  exact (h.consistent htotal).good v cell f hcell hfact

/-- All that is reported. -/
theorem events (h : Trace g book settings users final) :
    (Inference.run g book settings).1 =
      .inferenceStarted g.size :: final.history.reverse.flatMap (visitEvents g book) ++
        .converged final.history.length ((final.cells.map Cell.fact).countP Option.isSome) ::
          if settings.dumpFacts then factEvents g (final.cells.map Cell.fact) else [] := by
  simp only [Inference.run, h.table, h.run]

/-- What is reported of a fact while a run goes on is reported of one of its visits. -/
theorem mem_events (h : Trace g book settings users final) {event : Event}
    (hnews : event.isNews = true) : event ∈ (Inference.run g book settings).1 ↔
      ∃ visit ∈ final.history, event ∈ visitEvents g book visit := by
  have hstart : event ≠ .inferenceStarted g.size := by
    rintro rfl
    cases hnews
  have hend : ∀ n m, event ≠ .converged n m := by
    rintro n m rfl
    cases hnews
  have hfacts : event ∉ factEvents g (final.cells.map Cell.fact) := by
    intro hmem
    simp only [factEvents, List.mem_filterMap, Option.map_eq_some_iff] at hmem
    obtain ⟨_, _, _, _, rfl⟩ := hmem
    cases hnews
  have hdump : event ∉
      if settings.dumpFacts then factEvents g (final.cells.map Cell.fact) else [] := by
    split
    · exact hfacts
    · exact List.not_mem_nil
  simp only [h.events, List.mem_append, List.mem_cons, List.mem_flatMap, List.mem_reverse, hstart,
    hend, hdump, false_or, or_false]

/-- Each value is given up, as reported, or has the fact that its operation gives for the facts
that its operands have ended with. -/
theorem solves (h : Trace g book settings users final) (hg : g.WellTyped)
    (hbook : book.Reliable g) {v : ValueId} {node : Node} (hnode : g.nodes[v]? = some node) :
    ((ofWorklist g final).lookup v = some (.top node.type.factRank) ∧
      ∃ count, settings.maxVisits < count ∧
        Event.pinned v count ∈ (Inference.run g book settings).1) ∨
    ∃ before found, (∀ u ∈ node.op.operands, before u = .ok ((ofWorklist g final).lookup u)) ∧
      evaluate g book before v = .ok found ∧
      ∀ f, found = some f → (ofWorklist g final).lookup v = some f := by
  have hconsistent := h.consistent (equations_total hg hbook settings h.length)
  have hcells : ∀ u < g.size, ∃ cell, final.cells[u]? = some cell ∧
      (ofWorklist g final).lookup u = cell.fact := fun u hu =>
    ⟨_, List.getElem?_eq_getElem (hconsistent.length.symm ▸ hu), by
      rw [lookup_ofWorklist, List.getElem?_eq_getElem (hconsistent.length.symm ▸ hu)]
      rfl⟩
  obtain ⟨cell, hcell, hlook⟩ := hcells v (List.getElem?_eq_some_iff.mp hnode).1
  rw [hlook]
  rcases hconsistent.settled_of_nil hcell with hp | ⟨before, found, hbefore, heval, hfound⟩
  · obtain ⟨⟨t, ht, hfact⟩, visit, hvisit, rfl, hpinned, hcount⟩ :=
      hconsistent.pinned v cell hcell hp
    rw [top_eq_ok book settings users hnode] at ht
    cases ht
    exact .inl ⟨hfact, visit.count, hcount,
      (h.mem_events rfl).mpr ⟨visit, hvisit, mem_visitEvents_pinned.mpr ⟨hpinned, rfl, rfl⟩⟩⟩
  · refine .inr ⟨before, found, fun u hu => ?_, heval, hfound⟩
    obtain ⟨c, hc, hlook⟩ := hcells u (hg.lt_size_of_uses ⟨node, hnode, hu⟩)
    rw [hbefore u ((h.notes u v).mpr ⟨node, hnode, hu⟩), Worklist.fact_of_cell hc, hlook]

end Trace

end Trace

/-- Facts that solve the equations of a graph: each value is given up, or has the fact that its
operation gives. What was known of the value itself may have changed since. -/
structure Solution (g : Graph) (fact : ValueId → Option Fact) : Prop where
  fits : ∀ v f, fact v = some f → Fits g v f
  solves : ∀ v node, g.nodes[v]? = some node → fact v = some (.top node.type.factRank) ∨
    ∃ before found, (∀ u ∈ node.op.operands, before u = .ok (fact u)) ∧
      evaluate g .standard before v = .ok found ∧ ∀ f, found = some f → fact v = some f

theorem Trace.solution {g : Graph} {settings : Settings} {users : List (List ValueId)}
    {final : Worklist Fact} (h : Trace g .standard settings users final) (hg : g.WellTyped) :
    Solution g (ofWorklist g final).lookup := by
  have hbook := Rulebook.standard_reliable hg
  constructor
  · intro v f hf
    exact h.good (equations_total hg hbook settings h.length) hf
  · intro v node hnode
    exact (h.solves hg hbook hnode).imp_left And.left

/-- The inference of a well-typed graph ends with a solution. -/
theorem run_solution {g : Graph} (hg : g.WellTyped) (settings : Settings) :
    ∃ inference, (run g .standard settings).2 = .ok inference ∧ Solution g inference.lookup := by
  obtain ⟨users, final, htrace⟩ := exists_trace hg (Rulebook.standard_reliable hg) settings
  exact ⟨_, htrace.result, htrace.solution hg⟩

section Seen

variable {g : Graph} {book : Rulebook} {settings : Settings} {inference : Inference}
  (hrun : (run g book settings).2 = .ok inference)
include hrun

/-- What a run is seen to end with. -/
theorem read_of_run {α : Type} (read : Inference → α) {x : α}
    (h : (run g book settings).2.toOption.map read = some x) : read inference = x := by
  rw [hrun] at h
  exact Option.some.inj h

theorem lookup_of_run {v : ValueId} {fact : Option Fact}
    (h : (run g book settings).2.toOption.map (lookup · v) = some fact) :
    inference.lookup v = fact :=
  read_of_run hrun (lookup · v) h

end Seen

end Inference

end TileFacts

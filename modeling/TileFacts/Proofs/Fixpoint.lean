import TileFacts.Proofs.Precision
import TileFacts.Proofs.WellFormed

/-! What a run comes to.

Only grounded values are worked out (`Inference.equations_grounded`), and all of them are. When the
inference ends, nothing is left to do (`Inference.Rests`): each value was given up, or its fact is
what its operation gives for the facts of its operands, or it is a merge that says no more than any
of its inputs. And the inference always ends: no request that failed on the way to a graph, no
budget and no operation brings it to a fault. -/
namespace TileFacts

/-! ### Grounded values -/

namespace Inference

variable {g : Graph} {book : Rulebook} {settings : Settings} {users : List (List ValueId)}
  {final : Worklist Fact}

/-- What is worked out from grounded values is grounded. -/
theorem evaluate_grounded (hg : g.WellTyped) {fact : ValueId → Checked (Option Fact)}
    (hfact : ∀ u < g.size, ∀ f, fact u = .ok (some f) → g.Grounded u) {v : ValueId} {node : Node}
    (hnode : g.nodes[v]? = some node) {f : Fact} (hf : evaluate g book fact v = .ok (some f)) :
    g.Grounded v := by
  have hoperand : ∀ u ∈ node.op.operands, u < g.size := fun u hu =>
    hg.lt_size_of_uses ⟨node, hnode, hu⟩
  cases evaluated_of_eq_ok hnode hf with
  | merged hop hknown _ hfound =>
    obtain ⟨k, hk⟩ := exists_of_mergeFact hfound
    obtain ⟨u, hu, huk⟩ := exists_of_forall₂ hknown.flip hk
    exact .merge hnode hop hu (hfact u (hoperand u hu) k huk)
  | answered hop hfacts _ _ =>
    refine .op hnode hop fun u hu => ?_
    obtain ⟨k, _, huk⟩ := exists_of_forall₂ hfacts hu
    exact hfact u (hoperand u hu) k huk

/-- Only grounded values are ever worked out. -/
theorem equations_grounded (hg : g.WellTyped) (hbook : book.Reliable g) (settings : Settings)
    (husers : users.length = g.size) : (equations g book settings users).Total g.size
      fun v f => Fits g v f ∧ g.Grounded v := by
  apply (equations_total hg hbook settings husers).and
  · intro fact hfact v hv f hf
    exact evaluate_grounded hg (fun u hu k hk => (hfact u hu k hk).2)
      (List.getElem?_eq_getElem hv) hf
  · intro v t f _ h
    exact h

end Inference

/-! ### Weaker facts -/

namespace Fact

theorem WellFormed.positive {a : Fact} {shape : Shape} (h : a.WellFormed shape) :
    a.Positive a.rank := by
  refine ⟨rfl, fun x hx => ?_⟩
  obtain ⟨d, hd⟩ := List.mem_iff_getElem?.mp hx
  exact ⟨(h.axes d x hd).power.pos, (h.axes d x hd).run.pos⟩

/-- A join says no more than either side. -/
theorem below_inherited (b : Fact) : Fact.Inherited fun f => f.Below b :=
  ⟨fun hc h => h.join_left hc, fun hc h => h.join_right hc⟩

end Fact

/-! ### The end of a run -/

namespace Inference

variable {g : Graph} {settings : Settings} {users : List (List ValueId)} {final : Worklist Fact}

/-- What accounts for a value when a run has ended: it was given up after more visits than allowed;
it has the fact that its rule gives for the facts of its operands; it is a merge, and says no more
than any of its inputs; or it has no fact, for want of one. -/
inductive Rests (g : Graph) (settings : Settings) (events : List Event)
    (fact : ValueId → Option Fact) (v : ValueId) (node : Node) : Prop
  | givenUp {count : Nat} (hcount : settings.maxVisits < count)
    (hevent : Event.pinned v count ∈ events) (hfact : fact v = some (.top node.type.factRank))
  | computed {facts : List Fact} {ctx : Context} {f : Fact} (hop : node.op.kind ≠ .merge)
    (hfacts : List.Forall₂ (fun u f => fact u = some f) node.op.operands facts)
    (hctx : g.context v = .ok ctx) (htransfer : Rulebook.standard.transfer ctx facts = .ok f)
    (hfact : fact v = some f)
  | joined {f : Fact} (hop : node.op.kind = .merge)
    (hinput : ∃ u ∈ node.op.operands, ∃ k, fact u = some k) (hfact : fact v = some f)
    (hweaker : ∀ u ∈ node.op.operands, ∀ k, fact u = some k → f.weakerOrEqual k = .ok true)
  | unreached (hfact : fact v = none)
    (hoperand : node.op.kind ≠ .merge → ∃ u ∈ node.op.operands, fact u = none)
    (hinputs : node.op.kind = .merge → ∀ u ∈ node.op.operands, fact u = none)

/-- The values without a fact are those that are not grounded. -/
theorem Trace.lookup_eq_none_iff (h : Trace g .standard settings users final) (hg : g.WellTyped)
    {v : ValueId} : (ofWorklist g final).lookup v = none ↔ ¬ g.Grounded v := by
  constructor
  · intro hnone hground
    obtain ⟨f, hf⟩ := (h.solution hg).exists_fact hg hground
    rw [hnone] at hf
    cases hf
  · intro hno
    have htotal := equations_grounded hg (Rulebook.standard_reliable hg) settings h.length
    exact Option.eq_none_iff_forall_ne_some.mpr fun f hf => hno (h.good htotal hf).2

/-- A merge that was worked out says no more than any input that has a fact. -/
theorem Trace.weakerOrEqual_of_merge (h : Trace g .standard settings users final)
    (hg : g.WellTyped) (hfit : g.ExtentsFit) {known : List (Option Fact)}
    {previous : Option Fact} {f : Fact} (hmerge : mergeFact known previous = .ok (some f))
    {u : ValueId} {k : Fact} (hu : (ofWorklist g final).lookup u = some k) (hk : some k ∈ known) :
    f.weakerOrEqual k = .ok true := by
  obtain ⟨_, t, _, hwf⟩ := h.good (equations_wellFormed hg hfit settings h.length) hu
  obtain ⟨j, hj, hbelow⟩ := (Fact.below_inherited k).mergeFact hmerge hk hwf.positive.below_self
  cases hj
  exact hbelow.weakerOrEqual

theorem Trace.rests (h : Trace g .standard settings users final) (hg : g.WellTyped)
    (hfit : g.ExtentsFit) {v : ValueId} {node : Node} (hnode : g.nodes[v]? = some node) :
    Rests g settings (Inference.run g .standard settings).1 (ofWorklist g final).lookup v node := by
  rcases h.solves hg (Rulebook.standard_reliable hg) hnode with
    ⟨htop, count, hcount, hevent⟩ | ⟨before, found, hbefore, heval, hfound⟩
  · exact .givenUp hcount hevent htop
  generalize hlook : (ofWorklist g final).lookup = fact at *
  cases evaluated_of_eq_ok hnode heval with
  | @waiting u hop hu hnone =>
    have hunknown : fact u = none := by
      rw [hbefore u hu] at hnone
      exact Except.ok.inj hnone
    refine .unreached ?_ (fun _ => ⟨u, hu, hunknown⟩) fun hmerge => absurd hmerge hop
    rw [← hlook, h.lookup_eq_none_iff hg]
    intro hground
    exact (h.lookup_eq_none_iff hg).mp (hlook ▸ hunknown) (hground.operands hnode hop u hu)
  | answered hop hfacts hctx htransfer =>
    refine .computed hop ?_ hctx htransfer (hfound _ rfl)
    refine ((List.forall₂_and_left _ _).mpr ⟨hbefore, hfacts⟩).imp ?_
    intro u f hu
    rw [hu.1] at hu
    exact Except.ok.inj hu.2
  | @merged known previous _ hop hknown _ hmerge =>
    have hlookups : List.Forall₂ (fun u k => fact u = k) node.op.operands known := by
      refine ((List.forall₂_and_left _ _).mpr ⟨hbefore, hknown⟩).imp ?_
      intro u k hu
      rw [hu.1] at hu
      exact Except.ok.inj hu.2
    cases found with
    | some f =>
      obtain ⟨k, hk⟩ := exists_of_mergeFact hmerge
      obtain ⟨u, hu, huk⟩ := exists_of_forall₂ hlookups.flip hk
      refine .joined hop ⟨u, hu, k, huk⟩ (hfound f rfl) fun w hw k hwk => ?_
      obtain ⟨k', hk', hwk'⟩ := exists_of_forall₂ hlookups hw
      rw [hwk] at hwk'
      subst hwk'
      exact h.weakerOrEqual_of_merge hg hfit hmerge (hlook ▸ hwk) hk'
    | none =>
      have hinputs : ∀ u ∈ node.op.operands, fact u = none := by
        intro u hu
        obtain ⟨k, hk, huk⟩ := exists_of_forall₂ hlookups hu
        cases k with
        | none => exact huk
        | some k =>
          obtain ⟨j, hj⟩ := found_of_mergeFact hmerge hk
          cases hj
      refine .unreached ?_ (fun hno => absurd hop hno) fun _ => hinputs
      rw [← hlook, h.lookup_eq_none_iff hg]
      intro hground
      obtain ⟨u, hu, hground⟩ := hground.input hnode hop
      exact (h.lookup_eq_none_iff hg).mp (hlook ▸ hinputs u hu) hground

/-- The inference ends in a post-fixpoint. Whatever graph is built, as long as its extents fit
words, and however often a value may be looked at: the inference ends, and every value is accounted
for by the facts it ends with. -/
theorem run_rests (hg : g.Built) (hfit : g.ExtentsFit) (settings : Settings) :
    ∃ inference, (run g .standard settings).2 = .ok inference ∧
      ∀ v node, g.nodes[v]? = some node →
        Rests g settings (run g .standard settings).1 inference.lookup v node := by
  obtain ⟨users, final, htrace⟩ :=
    exists_trace hg.wellTyped (Rulebook.standard_reliable hg.wellTyped) settings
  exact ⟨_, htrace.result, fun v node hnode => htrace.rests hg.wellTyped hfit hnode⟩

end Inference

/-- A sum in a loop, a merge of two constants, and two sums that are defined by each other. -/
def Graph.loops : Graph :=
  ⟨[⟨.const 8, .scalar .i32⟩, ⟨.const 4, .scalar .i32⟩, ⟨.merge [0, 3], .scalar .i32⟩,
    ⟨.binary .add 2 1, .scalar .i32⟩, ⟨.merge [0, 1], .scalar .i32⟩, ⟨.const 1, .scalar .i32⟩,
    ⟨.binary .add 7 7, .scalar .i32⟩, ⟨.binary .add 6 6, .scalar .i32⟩]⟩

theorem Graph.loops_built : Graph.loops.Built :=
  .of_requests [.define (.const 8 (.scalar .i32)), .define (.const 4 (.scalar .i32)),
    .define (.merge 0), .define (.binary .add 2 1), .addMergeInput 2 3, .define (.merge 0),
    .addMergeInput 4 1, .define (.const 1 (.scalar .i32)), .define (.binary .add 5 5),
    .define (.binary .add 6 6), .replaceAllUses 5 7] .empty (by decide)

/-- With one visit allowed the loop is given up, the other merge joins its constants, and the sums
that are defined by each other have no fact. -/
theorem Inference.run_rests_loops : Graph.loops.Built ∧ Graph.loops.ExtentsFit ∧
    ∃ inference, (Inference.run .loops .standard ⟨1, false⟩).2 = .ok inference ∧
      inference.lookup 2 = some (.top 1) ∧ inference.lookup 4 = some ⟨[⟨4, 1, 0⟩], none⟩ ∧
      inference.lookup 6 = none ∧ ∀ v node, Graph.loops.nodes[v]? = some node →
        Inference.Rests .loops ⟨1, false⟩ (Inference.run .loops .standard ⟨1, false⟩).1
          inference.lookup v node := by
  have hfit : Graph.loops.ExtentsFit := by decide
  obtain ⟨inference, hrun, hall⟩ := Inference.run_rests Graph.loops_built hfit ⟨1, false⟩
  exact ⟨Graph.loops_built, hfit, inference, hrun,
    Inference.lookup_of_run hrun (by decide +kernel),
    Inference.lookup_of_run hrun (by decide +kernel),
    Inference.lookup_of_run hrun (by decide +kernel), hall⟩

namespace Inference

/-- The inference never faults: no position is out of bounds, no ranks or arities disagree, no sum
or difference overflows, nothing is divided by zero, no shift is too long and no logarithm is
missing. Whatever requests made the graph, those that failed included, and whatever the settings:
the users that may come to wait are values of the graph, the inference ends, and every fact that it
notes on the way, or ends with, has the rank of its value. -/
theorem run_ofRequests_fits (requests : List Graph.Request) (settings : Settings) :
    ∃ users inference, (Graph.ofRequests requests).users = .ok users ∧
      (∀ known ∈ users, ∀ u ∈ known, u < (Graph.ofRequests requests).size) ∧
      (run (.ofRequests requests) .standard settings).2 = .ok inference ∧
      (∀ v f, Event.updated v f ∈ (run (.ofRequests requests) .standard settings).1 →
        Fits (.ofRequests requests) v f) ∧
      ∀ v f, inference.lookup v = some f → Fits (.ofRequests requests) v f := by
  generalize hrequests : Graph.ofRequests requests = g
  have hg : g.WellTyped := hrequests ▸ (Graph.ofRequests_built requests).wellTyped
  have hbook := Rulebook.standard_reliable hg
  obtain ⟨users, final, htrace⟩ := exists_trace hg hbook settings
  have htotal := equations_total hg hbook settings htrace.length
  refine ⟨users, _, htrace.table, ?_, htrace.result, ?_, fun v f => htrace.good htotal⟩
  · intro known hknown v hv
    obtain ⟨u, hu⟩ := List.mem_iff_getElem?.mp hknown
    obtain ⟨node, hnode, _⟩ := (htrace.notes u v).mp ⟨known, hu, hv⟩
    exact (List.getElem?_eq_some_iff.mp hnode).1
  · intro v f hevent
    obtain ⟨visit, hvisit, hnews⟩ := (htrace.mem_events rfl).mp hevent
    obtain ⟨_, rfl, rfl⟩ := mem_visitEvents_updated.mp hnews
    exact (htrace.consistent htotal).history visit hvisit

end Inference

end TileFacts

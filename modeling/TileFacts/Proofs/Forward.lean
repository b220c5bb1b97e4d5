import TileFacts.Proofs.Definition
import TileFacts.Proofs.Solution

/-! Graphs without back-edges.

If every unknown is worked out from earlier ones, then those that read it still wait when it gets
its fact, so that nothing is queued a second time (`Worklist.visit_passed`). A run is then one pass
(`Worklist.run_passed`), and the queue, the visits and the budget leave no trace in what it comes
to. Main statement: the inference of such a graph is a fold over its values. -/
namespace TileFacts

variable {α : Type}

/-- One pass: each of the `left` unknowns that are missing is worked out from those before it. -/
def pass (next : List α → Checked α) : Nat → List α → Checked (List α)
  | 0, facts => .ok facts
  | left + 1, facts => do pass next left (facts ++ [← next facts])

namespace Worklist

/-- Every unknown worked out once, in order. -/
def firstVisits (facts : List α) : List (Visit α) :=
  facts.mapIdx fun v fact => ⟨v, 1, fact, false, true⟩

/-- The first unknowns have been worked out, once each, and `left` more have not. -/
def passed (facts : List α) (left : Nat) : Worklist α where
  cells := facts.map (fun fact => ⟨some fact, 1, false, false⟩) ++ List.replicate left {}
  queue := List.range' facts.length left
  history := (firstVisits facts).reverse

theorem passed_nil (size : Nat) : (passed [] size : Worklist α) = start size := by
  simp [passed, start, firstVisits, List.range_eq_range']

theorem length_passed (facts : List α) (left : Nat) :
    (passed facts left).cells.length = facts.length + left := by
  simp [passed]

/-- What has not been worked out is as it was. -/
theorem cell_passed {facts : List α} {left : Nat} {u : ValueId} (hu : facts.length ≤ u)
    {cell : Cell α} (hcell : (passed facts left).cells[u]? = some cell) : cell = {} := by
  rw [passed, List.getElem?_append_right (by simpa using hu)] at hcell
  exact List.eq_of_mem_replicate (List.mem_of_getElem? hcell)

theorem fact_passed (facts : List α) {left : Nat} {u : ValueId} (hu : u < facts.length + left) :
    (passed facts left).fact u = .ok facts[u]? := by
  rw [← length_passed] at hu
  have hcell := List.getElem?_eq_getElem hu
  rw [fact_of_cell hcell]
  by_cases hknown : u < facts.length
  · rw [List.getElem?_eq_getElem hknown]
    simp [passed, List.getElem_append_left, hknown]
  · rw [cell_passed (Nat.le_of_not_lt hknown) hcell,
      List.getElem?_eq_none (Nat.le_of_not_lt hknown)]

/-- Users that wait already are not queued. -/
theorem enqueueAll_of_queued {users : List ValueId} {w : Worklist α}
    (h : ∀ u ∈ users, ∀ cell, w.cells[u]? = some cell → cell.queued = true) :
    users.foldl enqueue w = w := by
  induction users with
  | nil => rfl
  | cons u rest ih =>
    obtain ⟨hu, hrest⟩ := List.forall_mem_cons.mp h
    have hsame : w.enqueue u = w := by
      unfold enqueue
      cases hcell : w.cells[u]? with
      | none => rfl
      | some cell => simp [hu cell hcell]
    rw [List.foldl_cons, hsame]
    exact ih hrest

variable {eqs : Equations α} {facts : List α} {left : Nat}

/-- Noting the next fact of a pass makes none of its users wait: they do so already. -/
theorem record_passed (fact : α) {users : List ValueId} (hlater : ∀ u ∈ users, facts.length < u) :
    (({ passed facts (left + 1) with queue := List.range' (facts.length + 1) left }).leave
      facts.length {}).record ⟨facts.length, 1, fact, false, true⟩ users =
      passed (facts ++ [fact]) left := by
  have hcells : ((passed facts (left + 1)).cells.set facts.length { queued := false }).set
      facts.length ⟨some fact, 1, false, false⟩ = (passed (facts ++ [fact]) left).cells := by
    simp [passed, List.replicate_succ]
  have hqueue : List.range' (facts.length + 1) left = (passed (facts ++ [fact]) left).queue := by
    simp [passed]
  have hhistory : ⟨facts.length, 1, fact, false, true⟩ :: (passed facts (left + 1)).history =
      (passed (facts ++ [fact]) left).history := by
    simp [passed, firstVisits]
  unfold record leave
  rw [if_pos rfl]
  simp only [hcells, hqueue, hhistory]
  apply enqueueAll_of_queued
  intro u hu cell hcell
  have hle : (facts ++ [fact]).length ≤ u := by
    rw [List.length_append]
    exact hlater u hu
  rw [cell_passed hle hcell]

variable [DecidableEq α]

theorem visit_passed {fact : α} {users : List ValueId} (hbudget : 1 ≤ eqs.budget)
    (husers : eqs.users[facts.length]? = some users) (hlater : ∀ u ∈ users, facts.length < u)
    (hfound : eqs.evaluate (passed facts (left + 1)).fact facts.length = .ok (some fact)) :
    ({ passed facts (left + 1) with queue := List.range' (facts.length + 1) left }).visit eqs
      facts.length = .ok (passed (facts ++ [fact]) left) := by
  have hcell : (passed facts (left + 1)).cells[facts.length]? = some {} := by
    simp [passed]
  have hwithin : decide (eqs.budget < 0 + 1) = false :=
    decide_eq_false (Nat.not_lt.mpr hbudget)
  have hfact : settle eqs facts.length (decide (eqs.budget < 0 + 1)) fact = .ok fact := by
    rw [hwithin]
    rfl
  rw [← record_passed fact hlater]
  have hvisit := visit_of_found (w := { passed facts (left + 1) with
    queue := List.range' (facts.length + 1) left }) hcell rfl hfound hfact husers
  rw [hvisit, hwithin]
  rfl

/-- A run that starts with a pass goes on with it. -/
theorem run_passed {next : List α → Checked α} (hbudget : 1 ≤ eqs.budget)
    (hlater : ∀ (v : ValueId) users, eqs.users[v]? = some users → ∀ u ∈ users, v < u)
    (hnext : ∀ facts left fact, facts.length + left + 1 = eqs.users.length →
      next facts = .ok fact →
      eqs.evaluate (passed facts (left + 1)).fact facts.length = .ok (some fact))
    (hlength : facts.length + left = eqs.users.length) {final : List α}
    (h : pass next left facts = .ok final) :
    (passed facts left).run eqs = (passed final 0, none) := by
  induction left generalizing facts with
  | zero =>
    cases h
    exact run_of_nil eqs rfl
  | succ left ih =>
    obtain ⟨fact, hfact, h⟩ := bind_eq_ok.mp h
    have hv : facts.length < eqs.users.length := by omega
    have husers := List.getElem?_eq_getElem hv
    rw [run_of_visit rfl (visit_passed hbudget husers (hlater _ _ husers)
      (hnext facts left fact hlength hfact))]
    exact ih (by simp; omega) h

end Worklist

/-- A pass ends if every fact that it asks for can be worked out. -/
theorem exists_pass (Good : ValueId → α → Prop) {next : List α → Checked α} {size : Nat}
    (hnext : ∀ facts, facts.length < size → (∀ (v : Nat) f, facts[v]? = some f → Good v f) →
      ∃ f, next facts = .ok f ∧ Good facts.length f) {facts : List α} {left : Nat}
    (hlength : facts.length + left = size) (hgood : ∀ (v : Nat) f, facts[v]? = some f → Good v f) :
    ∃ final, pass next left facts = .ok final ∧ final.length = size := by
  induction left generalizing facts with
  | zero => exact ⟨facts, rfl, hlength⟩
  | succ left ih =>
    obtain ⟨f, hf, hnew⟩ := hnext facts (by omega) hgood
    have hgood' : ∀ (v : Nat) k, (facts ++ [f])[v]? = some k → Good v k := by
      intro v k hk
      rw [List.getElem?_append] at hk
      split at hk
      · exact hgood v k hk
      · next hv =>
        rw [List.getElem?_singleton] at hk
        split at hk
        · have hlast : v = facts.length := by omega
          cases hk
          rw [hlast]
          exact hnew
        · cases hk
    have hlength' : (facts ++ [f]).length + left = size := by
      rw [List.length_append]
      exact (Nat.succ_add_eq_add_succ ..).trans hlength
    obtain ⟨final, hfinal, hsize⟩ := ih hlength' hgood'
    exact ⟨final, bind_eq_ok.mpr ⟨f, hf, hfinal⟩, hsize⟩

/-! ### Graphs -/

/-- Every value is defined after all that it uses. -/
def Graph.Forward (g : Graph) : Prop :=
  ∀ p ∈ g.nodes.zipIdx, ∀ u ∈ p.1.op.operands, u < p.2

instance (g : Graph) : Decidable g.Forward :=
  inferInstanceAs (Decidable (∀ p ∈ g.nodes.zipIdx, ∀ u ∈ p.1.op.operands, u < p.2))

theorem Graph.Forward.lt_of_uses {g : Graph} (h : g.Forward) {v u : ValueId} (huses : g.Uses v u) :
    u < v := by
  obtain ⟨node, hnode, hu⟩ := huses
  exact h (node, v) (List.mem_zipIdx_iff_getElem?.mpr hnode) u hu

namespace Inference

/-- The fact of the next value, given the facts of all values before it. -/
def nextFact (g : Graph) (book : Rulebook) (facts : List Fact) : Checked Fact := do
  let ctx ← g.context facts.length
  match ctx.op, ← ctx.op.operands.mapM (element facts) with
  | .merge _, first :: rest => rest.foldlM Fact.join first
  | _, operands => book.transfer ctx operands

/-- The facts of all values from one pass, in the order of their definition. -/
def forwardPass (g : Graph) (book : Rulebook) : Checked (List Fact) :=
  pass (nextFact g book) g.size []

variable {g : Graph} {book : Rulebook} {settings : Settings}

/-- A merge whose inputs are all known when it is first worked out. -/
theorem mergeFact_of_known (first : Fact) (rest : List Fact) :
    mergeFact ((first :: rest).map some) none = some <$> rest.foldlM Fact.join first := by
  have hinputs : ((first :: rest).map some).reduceOption = first :: rest := by
    simp [List.reduceOption]
  unfold mergeFact
  rw [hinputs, joinAll]
  cases rest.foldlM Fact.join first <;> rfl

/-- What a worklist works out is what a pass does, once all earlier values are known. -/
theorem evaluate_eq_nextFact (hg : g.Built) (hforward : g.Forward) {facts : List Fact}
    (hv : facts.length < g.size) {known : ValueId → Checked (Option Fact)}
    (hknown : ∀ u ≤ facts.length, known u = .ok facts[u]?) :
    evaluate g book known facts.length = some <$> nextFact g book facts := by
  have hnode : g.nodes[facts.length]? = some g.nodes[facts.length] := List.getElem?_eq_getElem hv
  generalize g.nodes[facts.length] = node at hnode
  obtain ⟨ctx, hctx, hctxop, _, _⟩ := hg.wellTyped.context hnode
  have hearlier : ∀ u ∈ node.op.operands, u < facts.length := fun u hu =>
    hforward.lt_of_uses ⟨node, hnode, hu⟩
  obtain ⟨operands, hoperands⟩ : ∃ operands, node.op.operands.mapM (element facts) = .ok operands :=
    exists_mapM_eq_ok fun u hu => ⟨_, element_eq_ok.mpr (List.getElem?_eq_getElem (hearlier u hu))⟩
  have hall : node.op.operands.mapM known = .ok (operands.map some) := by
    rw [mapM_eq_ok, List.forall₂_map_right_iff]
    refine (mapM_eq_ok.mp hoperands).imp fun u f hf => ?_
    have hu := element_eq_ok.mp hf
    rw [hknown u (Nat.le_of_lt (List.getElem?_eq_some_iff.mp hu).1), hu]
  unfold nextFact
  simp only [hctx, ok_bind, hctxop, hoperands]
  by_cases hop : node.op.kind = .merge
  · have hne := hg.operands_ne_nil hnode hop
    obtain ⟨op, type⟩ := node
    cases op with
    | merge inputs =>
      rw [evaluate_merge book hnode hall (hknown _ (Nat.le_refl _)),
        List.getElem?_eq_none (Nat.le_refl _)]
      cases mapM_eq_ok.mp hoperands with
      | nil => exact absurd rfl hne
      | @cons _ first _ rest _ _ =>
        exact mergeFact_of_known first rest
    | _ => cases hop
  · rw [evaluate_known book hnode hop hall hctx]
    split
    · next heq =>
      rw [heq] at hop
      exact absurd rfl hop
    · rfl

theorem exists_forwardPass (hg : g.Built) (hforward : g.Forward) (hbook : book.Reliable g)
    (settings : Settings) : ∃ facts, forwardPass g book = .ok facts ∧ facts.length = g.size := by
  have htotal := equations_total hg.wellTyped hbook settings (Graph.length_usersOf g)
  refine exists_pass (Fits g) (fun facts hv hfits => ?_) (Nat.zero_add _) (by rintro _ _ ⟨⟩)
  obtain ⟨found, hfound, hgood⟩ := htotal.evaluate (fun u => .ok facts[u]?)
    (fun u _ => ⟨_, rfl, hfits u⟩) facts.length hv
  have hnext : evaluate g book (fun u => .ok facts[u]?) facts.length =
      some <$> nextFact g book facts := evaluate_eq_nextFact hg hforward hv fun _ _ => rfl
  obtain ⟨f, hf, rfl⟩ := map_eq_ok.mp (hnext.symm.trans hfound)
  exact ⟨f, hf, hgood f rfl⟩

/-- A run on a graph without back-edges comes about by its pass. -/
theorem trace_of_forwardPass (hg : g.Built) (hforward : g.Forward)
    (hvisits : 1 ≤ settings.maxVisits) {facts : List Fact}
    (hfacts : forwardPass g book = .ok facts) :
    Trace g book settings (g.values.map g.usersOf) (.passed facts 0) := by
  apply Trace.of_run hg.wellTyped hg.wellTyped.users_eq
  rw [← Worklist.passed_nil]
  apply Worklist.run_passed hvisits _ _ _ hfacts
  · intro v users husers u hu
    obtain ⟨_, rfl⟩ := Graph.users_of_value.mp husers
    exact hforward.lt_of_uses (Graph.mem_usersOf.mp hu)
  · intro facts left fact hleft hfact
    replace hleft : facts.length + left + 1 = g.size := hleft.trans (Graph.length_usersOf g)
    have hknown : ∀ u ≤ facts.length, (Worklist.passed facts (left + 1)).fact u = .ok facts[u]? :=
      fun u hu => Worklist.fact_passed facts (Nat.lt_of_le_of_lt hu (by omega))
    show evaluate g book _ _ = _
    rw [evaluate_eq_nextFact hg hforward (by omega) hknown, hfact]
    rfl
  · exact (Nat.zero_add _).trans (Graph.length_usersOf g).symm

/-- A graph without back-edges takes one pass. Whatever rules serve it, as long as they give facts
of the right ranks, and whatever budget of visits it has, as long as it has one: the inference works
out every value once, in the order of definition, each time with a new fact that is not given up.
These facts are those of a fold over the values, in which a merge joins the facts of its inputs from
left to right, and any other operation follows its rule. -/
theorem run_forward (hg : g.Built) (hforward : g.Forward) (hbook : book.Reliable g)
    (settings : Settings) (hvisits : 1 ≤ settings.maxVisits) :
    ∃ facts, forwardPass g book = .ok facts ∧ facts.length = g.size ∧
      (run g book settings).2 =
        .ok ⟨facts.map some, g.nodes.map fun node => node.type.factRank, g.size⟩ ∧
      (run g book settings).1 =
        .inferenceStarted g.size :: (Worklist.firstVisits facts).flatMap (visitEvents g book) ++
          .converged g.size g.size ::
            (if settings.dumpFacts then factEvents g (facts.map some) else []) ∧
      ∀ v count, Event.pinned v count ∉ (run g book settings).1 := by
  obtain ⟨facts, hfacts, hlength⟩ := exists_forwardPass hg hforward hbook settings
  have htrace := trace_of_forwardPass hg hforward hvisits hfacts
  have hcells : (Worklist.passed facts 0).cells.map Cell.fact = facts.map some := by
    simp [Worklist.passed]
  have hvisited : (Worklist.passed facts 0).history.reverse = Worklist.firstVisits facts :=
    List.reverse_reverse _
  have hcount : (Worklist.passed facts 0).history.length = g.size := by
    simp [Worklist.passed, Worklist.firstVisits, hlength]
  have hknown : (facts.map some).countP Option.isSome = g.size := by
    rw [List.countP_eq_length.mpr (by simp), List.length_map, hlength]
  refine ⟨facts, hfacts, hlength, ?_, ?_, ?_⟩
  · rw [htrace.result, ofWorklist, hcells, hcount]
  · rw [htrace.events, hcells, hvisited, hcount, hknown]
  · intro v count hpinned
    obtain ⟨visit, hvisit, hevent⟩ := (htrace.mem_events rfl).mp hpinned
    rw [← List.mem_reverse, hvisited] at hvisit
    obtain ⟨_, _, rfl⟩ := List.mem_mapIdx.mp hvisit
    cases (mem_visitEvents_pinned.mp hevent).1

end Inference

/-- A merge of a sum with the constants it is made of, in a graph without back-edges. -/
def Graph.sumMerged : Graph :=
  ⟨[⟨.const 8, .scalar .i32⟩, ⟨.const 4, .scalar .i32⟩, ⟨.binary .add 0 1, .scalar .i32⟩,
    ⟨.merge [2, 0, 1], .scalar .i32⟩, ⟨.binary .mul 3 3, .scalar .i32⟩]⟩

theorem Graph.sumMerged_built : Graph.sumMerged.Built :=
  .of_requests [.define (.const 8 (.scalar .i32)), .define (.const 4 (.scalar .i32)),
    .define (.binary .add 0 1), .define (.merge 2), .addMergeInput 3 0, .addMergeInput 3 1,
    .define (.binary .mul 3 3)] .empty (by decide)

/-- One visit each is enough, although the merge is used, and has three inputs that change. -/
theorem Inference.run_forward_sumMerged : Graph.sumMerged.Forward ∧
    ∃ facts, forwardPass .sumMerged .standard = .ok facts ∧
      facts[3]? = some ⟨[⟨4, 1, 0⟩], none⟩ ∧ facts[4]? = some ⟨[⟨16, 1, -1⟩], none⟩ ∧
      (run .sumMerged .standard ⟨1, false⟩).2 = .ok ⟨facts.map some, [1, 1, 1, 1, 1], 5⟩ ∧
      ∀ v count, Event.pinned v count ∉ (run .sumMerged .standard ⟨1, false⟩).1 := by
  have hforward : Graph.sumMerged.Forward := by decide
  obtain ⟨facts, hfacts, _, hrun, _, hpinned⟩ := run_forward Graph.sumMerged_built hforward
    (Rulebook.standard_reliable Graph.sumMerged_built.wellTyped) ⟨1, false⟩ (Nat.le_refl 1)
  have hpass : forwardPass .sumMerged .standard = .ok [⟨[⟨8, 1, 0⟩], some 8⟩, ⟨[⟨4, 1, 0⟩], some 4⟩,
      ⟨[⟨4, 1, 0⟩], some 12⟩, ⟨[⟨4, 1, 0⟩], none⟩, ⟨[⟨16, 1, -1⟩], none⟩] := by decide +kernel
  have heq := Except.ok.inj (hfacts.symm.trans hpass)
  exact ⟨hforward, facts, hfacts, by rw [heq]; rfl, by rw [heq]; rfl, hrun, hpinned⟩

end TileFacts

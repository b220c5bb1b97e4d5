import TileFacts.Proofs.Fixpoint

/-! More values at the end of a graph.

A worklist can be restricted to its first unknowns (`Worklist.restrict`). If those are worked out
from each other alone, then a visit to one of them commutes with the restriction, and a visit to any
other does not show in it. So the restriction of a run is the run of the restriction: the first
unknowns leave the queue in the same order, are worked out as often, and are given up at the same
visit (`Worklist.restrict_run`). Main statement: values added to a graph change nothing that is
inferred of the values it had. -/
namespace TileFacts

variable {α : Type}

theorem mapM_congr {β γ : Type} {f f' : β → Checked γ} {xs : List β} (h : ∀ x ∈ xs, f x = f' x) :
    xs.mapM f = xs.mapM f' := by
  induction xs with
  | nil => rfl
  | cons x rest ih =>
    obtain ⟨hx, hrest⟩ := List.forall_mem_cons.mp h
    rw [List.mapM_cons, List.mapM_cons, hx, ih hrest]

namespace Worklist

/-- What a worklist knows of the first `size` unknowns. -/
def restrict (size : Nat) (w : Worklist α) : Worklist α where
  cells := w.cells.take size
  queue := w.queue.filter (· < size)
  history := w.history.filter (·.value < size)

variable {size : Nat} {v : ValueId} {w next final : Worklist α}

theorem cells_restrict (w : Worklist α) (hv : v < size) :
    (w.restrict size).cells[v]? = w.cells[v]? :=
  List.getElem?_take_of_lt hv

theorem restrict_eq_self (hcells : w.cells.length ≤ size) : (w.restrict size).cells = w.cells :=
  List.take_of_length_le hcells

theorem fact_restrict (w : Worklist α) (hv : v < size) : (w.restrict size).fact v = w.fact v := by
  cases hcell : w.cells[v]? with
  | some cell =>
    rw [fact_of_cell hcell, fact_of_cell ((cells_restrict w hv).trans hcell)]
  | none =>
    have hlen : w.cells.length ≤ v := List.getElem?_eq_none_iff.mp hcell
    unfold fact
    rw [restrict_eq_self (hlen.trans (Nat.le_of_lt hv))]

/-- The restriction keeps the visits to the first unknowns. -/
theorem exists_visit_restrict {P : Visit α → Prop} (hP : ∀ visit, P visit → visit.value < size) :
    (∃ visit ∈ (w.restrict size).history, P visit) ↔ ∃ visit ∈ w.history, P visit := by
  simp only [restrict, List.mem_filter, decide_eq_true_eq]
  constructor
  · rintro ⟨visit, hvisit, h⟩
    exact ⟨visit, hvisit.1, h⟩
  · rintro ⟨visit, hvisit, h⟩
    exact ⟨visit, ⟨hvisit, hP visit h⟩, h⟩

theorem restrict_leave (w : Worklist α) (v : ValueId) (cell : Cell α) :
    (w.leave v cell).restrict size = (w.restrict size).leave v cell := by
  simp [restrict, leave, List.take_set]

/-- An unknown that is out of range is not queued. -/
theorem enqueue_of_le (hv : w.cells.length ≤ v) : w.enqueue v = w := by
  simp [enqueue, List.getElem?_eq_none hv]

theorem length_cells_restrict (w : Worklist α) : (w.restrict size).cells.length ≤ size :=
  List.length_take_le ..

theorem restrict_enqueue (w : Worklist α) (v : ValueId) :
    (w.enqueue v).restrict size = (w.restrict size).enqueue v := by
  by_cases hv : v < size
  · unfold enqueue
    rw [cells_restrict w hv]
    cases w.cells[v]? with
    | none => rfl
    | some cell =>
      cases hq : cell.queued with
      | true => simp [hq]
      | false => simp [hq, restrict, List.take_set, hv]
  · rw [enqueue_of_le ((length_cells_restrict w).trans (Nat.le_of_not_lt hv))]
    unfold enqueue
    split
    · rfl
    · split
      · rfl
      · simp [restrict, hv, List.take_set, List.set_eq_of_length_le, Nat.le_of_not_lt hv]

theorem restrict_enqueueAll (users : List ValueId) (w : Worklist α) :
    (users.foldl enqueue w).restrict size = users.foldl enqueue (w.restrict size) := by
  induction users generalizing w with
  | nil => rfl
  | cons u rest ih => rw [List.foldl_cons, List.foldl_cons, ih, restrict_enqueue]

/-- Users that are out of range make no difference. -/
theorem enqueueAll_filter (users : List ValueId) (hcells : w.cells.length ≤ size) :
    (users.filter (· < size)).foldl enqueue w = users.foldl enqueue w := by
  induction users generalizing w with
  | nil => rfl
  | cons u rest ih =>
    rw [List.foldl_cons]
    by_cases hu : u < size
    · rw [List.filter_cons_of_pos (by simpa using hu), List.foldl_cons]
      exact ih ((length_enqueueAll [u] w).trans_le hcells)
    · rw [List.filter_cons_of_neg (by simpa using hu),
        enqueue_of_le (hcells.trans (Nat.le_of_not_lt hu))]
      exact ih hcells

theorem restrict_record (w : Worklist α) (visit : Visit α) (users : List ValueId)
    (hv : visit.value < size) : (w.record visit users).restrict size =
      (w.restrict size).record visit (users.filter (· < size)) := by
  unfold record
  split
  · rw [restrict_enqueueAll, enqueueAll_filter]
    · simp [restrict, List.take_set, hv]
    · simp [restrict]
  · simp [restrict, List.take_set, hv]

theorem restrict_record_of_le (w : Worklist α) (visit : Visit α) (users : List ValueId)
    (hv : size ≤ visit.value) (husers : ∀ u ∈ users, size ≤ u) :
    (w.record visit users).restrict size = w.restrict size := by
  have hnone : users.filter (· < size) = [] :=
    List.filter_eq_nil_iff.mpr fun u hu => by simpa using husers u hu
  unfold record
  split
  · rw [restrict_enqueueAll, ← enqueueAll_filter users (length_cells_restrict _), hnone]
    simp [restrict, List.take_set, List.set_eq_of_length_le, hv]
  · simp [restrict, List.take_set, List.set_eq_of_length_le, hv]

theorem restrict_start {n : Nat} (h : size ≤ n) :
    (start n : Worklist α).restrict size = start size := by
  obtain ⟨k, rfl⟩ := Nat.exists_eq_add_of_le h
  have hqueue : (List.range (size + k)).filter (· < size) = List.range size := by
    rw [List.range_add, List.filter_append, List.filter_eq_self.mpr (by simp),
      List.filter_eq_nil_iff.mpr (by simp), List.append_nil]
  simp [restrict, start, hqueue]

end Worklist

/-- The first `size` unknowns of some equations are worked out from each other alone, and as others
work them out. -/
structure Equations.Extends (large small : Equations α) (size : Nat) : Prop where
  budget : large.budget = small.budget
  top : ∀ v < size, large.top v = small.top v
  evaluate : ∀ (fact known : ValueId → Checked (Option α)), (∀ u < size, fact u = known u) →
    ∀ v < size, large.evaluate fact v = small.evaluate known v
  users : ∀ v < size, ∀ users, large.users[v]? = some users →
    small.users[v]? = some (users.filter (· < size))
  later : ∀ v, size ≤ v → ∀ users, large.users[v]? = some users → ∀ u ∈ users, size ≤ u

namespace Worklist

variable [DecidableEq α] {large small : Equations α} {size : Nat} {v : ValueId}
  {w next final : Worklist α}

/-- A visit to one of the first unknowns is the visit that the restriction makes. -/
theorem restrict_visit (heqs : large.Extends small size) (hv : v < size)
    (h : w.visit large v = .ok next) :
    (w.restrict size).visit small v = .ok (next.restrict size) := by
  have hfacts : large.evaluate w.fact v = small.evaluate (w.restrict size).fact v :=
    heqs.evaluate _ _ (fun u hu => (fact_restrict w hu).symm) v hv
  cases visited_of_visit h with
  | @left cell hcell hidle =>
    rw [restrict_leave]
    rw [← cells_restrict w hv] at hcell
    cases hp : cell.pinned with
    | true => exact visit_of_pinned small hcell hp
    | false =>
      have hfound := hidle.resolve_left (by simp [hp])
      exact visit_of_unknown hcell hp (hfacts.symm.trans hfound)
  | recorded hcell hp hfound hfact husers =>
    rw [restrict_record _ _ _ hv, restrict_leave]
    rw [← cells_restrict w hv] at hcell
    rw [heqs.budget] at hfact ⊢
    refine visit_of_found hcell hp (hfacts.symm.trans hfound) ?_ (heqs.users v hv _ husers)
    unfold settle at hfact ⊢
    rw [← heqs.top v hv]
    exact hfact

/-- A visit to any other does not show. -/
theorem restrict_visit_of_le (heqs : large.Extends small size) (hv : size ≤ v)
    (h : w.visit large v = .ok next) : next.restrict size = w.restrict size := by
  have hleave (cell : Cell α) : (w.leave v cell).restrict size = w.restrict size := by
    simp [restrict, leave, List.take_set, List.set_eq_of_length_le, hv]
  cases visited_of_visit h with
  | @left cell hcell hidle => exact hleave cell
  | @recorded cell found fact users hcell hp hfound hfact husers =>
    rw [restrict_record_of_le _ _ _ hv (heqs.later v hv _ husers)]
    exact hleave cell

/-- The restriction of a run is the run of the restriction. -/
theorem restrict_run (heqs : large.Extends small size) (w : Worklist α)
    (h : w.run large = (final, none)) :
    (w.restrict size).run small = (final.restrict size, none) := by
  induction w using Worklist.run.induct large with
  | case1 w hq =>
    rw [run_of_nil large hq] at h
    cases h
    exact run_of_nil small (by simp [restrict, hq])
  | case2 w v rest hq fault hfault =>
    rw [run_of_fault hq hfault] at h
    cases h
  | case3 w v rest hq next hnext ih =>
    rw [run_of_visit hq hnext] at h
    by_cases hv : v < size
    · have hq' : (w.restrict size).queue = v :: rest.filter (· < size) := by
        simp [restrict, hq, hv]
      rw [run_of_visit hq' (restrict_visit heqs hv hnext)]
      exact ih h
    · have hsame : next.restrict size = w.restrict size := by
        rw [restrict_visit_of_le heqs (Nat.le_of_not_lt hv) hnext]
        simp [restrict, hq, hv]
      rw [← hsame]
      exact ih h

end Worklist

/-! ### Graphs -/

namespace Graph

variable {g h : Graph} {v : ValueId}

theorem nodes_of_append (hmore : g.nodes <+: h.nodes) (hv : v < g.size) :
    h.nodes[v]? = g.nodes[v]? := by
  obtain ⟨rest, hrest⟩ := hmore
  rw [← hrest, List.getElem?_append_left hv]

theorem node_of_append (hmore : g.nodes <+: h.nodes) (hv : v < g.size) : h.node v = g.node v := by
  unfold node element
  rw [nodes_of_append hmore hv, List.getElem?_eq_getElem hv]

/-- A value looks the same to rules, whatever is added. -/
theorem WellTyped.context_of_append (hg : g.WellTyped) (hmore : g.nodes <+: h.nodes)
    (hv : v < g.size) : h.context v = g.context v := by
  unfold Graph.context
  rw [nodes_of_append hmore hv]
  cases hnode : g.nodes[v]? with
  | none => rfl
  | some node =>
    have htypes : node.op.operands.mapM h.type = node.op.operands.mapM g.type := by
      apply mapM_congr
      intro u hu
      unfold type
      rw [node_of_append hmore (hg.lt_size_of_uses ⟨_, hnode, hu⟩)]
    simp only [htypes]

end Graph

namespace Inference

open TileFacts.Graph (nodes_of_append users_of_value filter_usersOf mem_usersOf)

variable {g h : Graph} {book : Rulebook}

theorem evaluate_of_append (hg : g.WellTyped) (hmore : g.nodes <+: h.nodes)
    {fact known : ValueId → Checked (Option Fact)} (hfact : ∀ u < g.size, fact u = known u)
    {v : ValueId} (hv : v < g.size) : evaluate h book fact v = evaluate g book known v := by
  have hnode : g.nodes[v]? = some g.nodes[v] := List.getElem?_eq_getElem hv
  have hop : h.op v = .ok g.nodes[v].op :=
    Graph.op_eq_ok ((nodes_of_append hmore hv).trans hnode)
  have hoperands : g.nodes[v].op.operands.mapM fact = g.nodes[v].op.operands.mapM known :=
    mapM_congr fun u hu => hfact u (hg.lt_size_of_uses ⟨_, hnode, hu⟩)
  unfold evaluate
  rw [hop, Graph.op_eq_ok hnode, hg.context_of_append hmore hv, hfact v hv]
  simp only [ok_bind]
  split
  · next inputs hmerge =>
    have hinputs : inputs.mapM fact = inputs.mapM known := by
      rw [hmerge] at hoperands
      exact hoperands
    rw [hinputs]
  · rw [hoperands]

/-- The equations of a graph work out the values it had before as that graph did. -/
theorem equations_extends (hg : g.WellTyped) (hmore : g.nodes <+: h.nodes) (settings : Settings) :
    (equations h book settings (h.values.map h.usersOf)).Extends
      (equations g book settings (g.values.map g.usersOf)) g.size := by
  constructor
  · rfl
  · intro v hv
    have hnode : g.nodes[v]? = some g.nodes[v] := List.getElem?_eq_getElem hv
    rw [top_eq_ok book settings _ hnode,
      top_eq_ok book settings _ ((nodes_of_append hmore hv).trans hnode)]
  · intro fact known hfact v hv
    exact evaluate_of_append hg hmore hfact hv
  · intro v hv users husers
    obtain ⟨_, rfl⟩ := users_of_value.mp husers
    exact users_of_value.mpr ⟨hv, (filter_usersOf hmore v).symm⟩
  · intro v hv users husers u hu
    obtain ⟨_, rfl⟩ := users_of_value.mp husers
    obtain ⟨node, hnode, hmem⟩ := mem_usersOf.mp hu
    by_contra hlt
    rw [nodes_of_append hmore (Nat.lt_of_not_le hlt)] at hnode
    exact absurd (hg.lt_size_of_uses ⟨node, hnode, hmem⟩) (Nat.not_lt.mpr hv)

variable {settings : Settings} {users : List (List ValueId)} {final : Worklist Fact}

/-- A run on the larger graph, restricted, is how a run on the smaller one came about. -/
theorem Trace.restrict (htrace : Trace h book settings users final) (hg : g.WellTyped)
    (hh : h.WellTyped) (hmore : g.nodes <+: h.nodes) :
    Trace g book settings (g.values.map g.usersOf) (final.restrict g.size) := by
  have hsize : g.size ≤ h.size := hmore.length_le
  have htable := htrace.table
  rw [hh.users_eq] at htable
  cases htable
  apply Trace.of_run hg hg.users_eq
  rw [← Worklist.restrict_start hsize]
  exact Worklist.restrict_run (equations_extends hg hmore settings) _ htrace.run

/-- More values change nothing of what is inferred. Whatever follows the values of a well-typed
graph in a larger one: both inferences end, with the same facts for the values that were there
before, and with none for the same of them. On the way these get the same facts, and are given up at
the same visits. -/
theorem run_of_append (hg : g.WellTyped) (hh : h.WellTyped) (hmore : g.nodes <+: h.nodes)
    (hbook : book.Reliable h) (settings : Settings) :
    ∃ before after, (run g book settings).2 = .ok before ∧ (run h book settings).2 = .ok after ∧
      ∀ v < g.size, after.lookup v = before.lookup v ∧
        (∀ count, .pinned v count ∈ (run h book settings).1 ↔
          .pinned v count ∈ (run g book settings).1) ∧
        ∀ f, .updated v f ∈ (run h book settings).1 ↔ .updated v f ∈ (run g book settings).1 := by
  obtain ⟨users, final, htrace⟩ := exists_trace hh hbook settings
  have hbefore := htrace.restrict hg hh hmore
  refine ⟨_, _, hbefore.result, htrace.result, fun v hv => ⟨?_, fun count => ?_, fun f => ?_⟩⟩
  · rw [lookup_ofWorklist, lookup_ofWorklist, Worklist.cells_restrict final hv]
  · rw [htrace.mem_events rfl, hbefore.mem_events rfl]
    simp only [mem_visitEvents_pinned]
    refine (Worklist.exists_visit_restrict fun visit hvisit => ?_).symm
    rwa [← hvisit.2.1]
  · rw [htrace.mem_events rfl, hbefore.mem_events rfl]
    simp only [mem_visitEvents_updated]
    refine (Worklist.exists_visit_restrict fun visit hvisit => ?_).symm
    rwa [← hvisit.2.1]

end Inference

/-- The loops, and two values that use them: a sum, and a merge of the sum with the loop. -/
def Graph.loopsUsed : Graph :=
  ⟨Graph.loops.nodes ++
    [⟨.binary .add 2 4, .scalar .i32⟩, ⟨.merge [3, 8], .scalar .i32⟩]⟩

theorem Graph.loopsUsed_built : Graph.loopsUsed.Built :=
  .of_requests [.define (.binary .add 2 4), .define (.merge 3), .addMergeInput 9 8]
    Graph.loops_built (by decide)

/-- The loop is given up at its second visit, with the new users and without them, and what had no
fact gets none. -/
theorem Inference.run_of_append_loops : Graph.loops.nodes <+: Graph.loopsUsed.nodes ∧
    ∃ before after, (run .loops .standard ⟨1, false⟩).2 = .ok before ∧
      (run .loopsUsed .standard ⟨1, false⟩).2 = .ok after ∧
      before.lookup 2 = some (.top 1) ∧ after.lookup 2 = some (.top 1) ∧
      before.lookup 6 = none ∧ after.lookup 6 = none ∧
      Event.pinned 2 2 ∈ (run .loopsUsed .standard ⟨1, false⟩).1 := by
  have hmore : Graph.loops.nodes <+: Graph.loopsUsed.nodes := List.prefix_append ..
  have hused := Graph.loopsUsed_built.wellTyped
  obtain ⟨before, after, hbefore, hafter, hall⟩ := run_of_append Graph.loops_built.wellTyped hused
    hmore (Rulebook.standard_reliable hused) ⟨1, false⟩
  have hgivenUp : before.lookup 2 = some (.top 1) := lookup_of_run hbefore (by decide +kernel)
  have hnone : before.lookup 6 = none := lookup_of_run hbefore (by decide +kernel)
  have hpinned : Event.pinned 2 2 ∈ (run .loops .standard ⟨1, false⟩).1 := by decide +kernel
  obtain ⟨hlookup, hpins, _⟩ := hall 2 (by decide)
  exact ⟨hmore, before, after, hbefore, hafter, hgivenUp, hlookup.trans hgivenUp, hnone,
    (hall 6 (by decide)).1.trans hnone, (hpins 2).mpr hpinned⟩

end TileFacts

import TileFacts.Proofs.Fixpoint
import TileFacts.Proofs.Visits
import Mathlib.Algebra.BigOperators.Ring.Finset

/-! How long a run takes.

An unknown is in the queue at most once, and exactly if its cell says so (`Worklist.Flagged`). It is
worked out at most `budget + 1` times, and the last of these sets it to the top
(`Reached.charged`). Only an unknown that is worked out makes others wait, and no more of them than
it has users; so the turns of the loop are bounded too, those that work nothing out included
(`Turns.le`). Nothing is asked of the equations for this: they may lose and gain knowledge from one
visit to the next. -/
namespace TileFacts

variable {α : Type}

namespace Worklist

/-! ### The queue -/

/-- Those listed are the cells that wait, each of them once. -/
structure Flagged (cells : List (Cell α)) (waiting : List ValueId) : Prop
    extends Listed cells waiting where
  nodup : waiting.Nodup
  flag : ∀ v ∈ waiting, ∀ cell, cells[v]? = some cell → cell.queued = true

theorem Flagged.mem_iff {cells : List (Cell α)} {waiting : List ValueId}
    (h : Flagged cells waiting) (v : ValueId) :
    v ∈ waiting ↔ ∃ cell, cells[v]? = some cell ∧ cell.queued = true := by
  constructor
  · intro hv
    have hcell := List.getElem?_eq_getElem (h.range v hv)
    exact ⟨_, hcell, h.flag v hv _ hcell⟩
  · rintro ⟨cell, hcell, hq⟩
    exact h.queued v cell hcell hq

theorem flagged_start (size : Nat) :
    Flagged (start size : Worklist α).cells (start size : Worklist α).queue := by
  refine ⟨listed_start size, List.nodup_range, fun v _ cell hcell => ?_⟩
  rw [cell_of_start hcell]

/-- The first that waits is put back as one that does not. -/
theorem Flagged.set {cells : List (Cell α)} {v : ValueId} {waiting : List ValueId}
    (h : Flagged cells (v :: waiting)) {new : Cell α} (hnew : new.queued = false) :
    Flagged (cells.set v new) waiting := by
  obtain ⟨hv, hnodup⟩ := List.nodup_cons.mp h.nodup
  refine ⟨h.toListed.set hnew, hnodup, fun u hu cell hcell => ?_⟩
  have hne : v ≠ u := by
    rintro rfl
    exact hv hu
  rw [List.getElem?_set_ne hne] at hcell
  exact h.flag u (List.mem_cons_of_mem v hu) cell hcell

theorem Flagged.enqueue {w : Worklist α} (h : Flagged w.cells w.queue) (v : ValueId) :
    Flagged (w.enqueue v).cells (w.enqueue v).queue := by
  have hlisted := h.toListed.enqueue v
  have hcells := cells_enqueue w v
  by_cases hidle : ∃ cell, w.cells[v]? = some cell ∧ cell.queued = false
  · obtain ⟨cell, hcell, hq⟩ := hidle
    have hqueue : (w.enqueue v).queue = w.queue ++ [v] := by
      simp [Worklist.enqueue, hcell, hq]
    -- Its flag is not set, so it is not in the queue yet.
    have hnew : v ∉ w.queue := by
      intro hv
      rw [h.flag v hv cell hcell] at hq
      cases hq
    refine ⟨hlisted, ?_, fun u hu c hc => ?_⟩
    · rw [hqueue, ← List.concat_eq_append]
      exact h.nodup.concat hnew
    · rw [hcells] at hc
      obtain ⟨c', hc', rfl⟩ := Option.map_eq_some_iff.mp hc
      rw [hqueue] at hu
      rcases List.mem_append.mp hu with hu | hu
      · simp [queueIf, h.flag u hu c' hc']
      · simp [queueIf, List.mem_singleton.mp hu]
  · have hsame : w.enqueue v = w := by
      unfold Worklist.enqueue
      split
      · rfl
      · next cell hcell =>
        have hq : cell.queued = true := by
          by_contra hno
          exact hidle ⟨cell, hcell, by simpa using hno⟩
        rw [if_pos hq]
    rw [hsame]
    exact h

theorem Flagged.enqueueAll {w : Worklist α} (h : Flagged w.cells w.queue) (users : List ValueId) :
    Flagged (users.foldl Worklist.enqueue w).cells (users.foldl Worklist.enqueue w).queue := by
  induction users generalizing w with
  | nil => exact h
  | cons v rest ih => exact ih (h.enqueue v)

/-! ### The budget -/

/-- The visits of an unknown that are on record. Turns at which it was not worked out, for want of
an operand or because it is pinned, are not among them. -/
def evaluations (w : Worklist α) (v : ValueId) : Nat :=
  w.history.countP fun visit => visit.value == v

/-- A cell has had no more visits than it may have, and the last of them pinned it to the top. -/
structure Charged (eqs : Equations α) (v : ValueId) (cell : Cell α) : Prop where
  visits_le : cell.visits ≤ eqs.budget + 1
  pinned : cell.pinned = decide (cell.visits = eqs.budget + 1)
  top : cell.pinned = true → ∃ t, eqs.top v = .ok t ∧ cell.fact = some t

/-- One more visit of a cell that is not pinned. -/
theorem Charged.record {eqs : Equations α} {v : ValueId} {cell : Cell α} (h : Charged eqs v cell)
    (hp : cell.pinned = false) {found fact : α}
    (hfact : settle eqs v (decide (eqs.budget < cell.visits + 1)) found = .ok fact)
    (waits : Bool) : Charged eqs v (queueIf waits
      ⟨some fact, cell.visits + 1, decide (eqs.budget < cell.visits + 1), false⟩) := by
  have hne : cell.visits ≠ eqs.budget + 1 := of_decide_eq_false (h.pinned ▸ hp)
  have hle := h.visits_le
  refine ⟨?_, ?_, fun hpinned => ⟨fact, ?_, rfl⟩⟩
  · show cell.visits + 1 ≤ eqs.budget + 1
    omega
  · show decide (eqs.budget < cell.visits + 1) = decide (cell.visits + 1 = eqs.budget + 1)
    exact decide_eq_decide.mpr (by omega)
  · have hpinned : decide (eqs.budget < cell.visits + 1) = true := hpinned
    rw [hpinned] at hfact
    exact hfact

/-! ### One turn -/

section Visit

variable [DecidableEq α] {eqs : Equations α} {w next : Worklist α} {v : ValueId}

theorem Visited.flagged (hv : Visited eqs w v next) (h : Flagged w.cells (v :: w.queue)) :
    Flagged next.cells next.queue := by
  cases hv with
  | left _ _ => exact h.set rfl
  | @recorded cell found fact users _ _ _ _ _ =>
    have hnew : Flagged ((w.leave v cell).cells.set v
        ⟨some fact, cell.visits + 1, decide (eqs.budget < cell.visits + 1), false⟩) w.queue := by
      rw [leave, List.set_set]
      exact h.set rfl
    unfold record
    split
    · exact Flagged.enqueueAll hnew users
    · exact hnew

theorem Visited.charged (hv : Visited eqs w v next)
    (h : ∀ u cell, w.cells[u]? = some cell → Charged eqs u cell) {u : ValueId} {cell : Cell α}
    (hcell : next.cells[u]? = some cell) : Charged eqs u cell := by
  cases hv with
  | @left old hold _ =>
    rcases cell_of_leave hold hcell with ⟨rfl, rfl⟩ | hcell
    · have hbefore := h u old hold
      exact ⟨hbefore.visits_le, hbefore.pinned, hbefore.top⟩
    · exact h u cell hcell
  | @recorded old found fact users hold hp _ hfact _ =>
    obtain ⟨c, ⟨rfl, rfl⟩ | ⟨_, hc⟩, rfl⟩ := cell_of_record hold rfl hcell
    · exact (h u old hold).record hp hfact _
    · have hbefore := h u c hc
      exact ⟨hbefore.visits_le, hbefore.pinned, hbefore.top⟩

/-- What a turn adds to the record is what it adds to the count, and it makes no more wait than the
unknown has users. -/
theorem Visited.accounted (hv : Visited eqs w v next) : ∃ worked,
    (∀ u, next.visits u = w.visits u + if u = v then worked else 0) ∧
    (∀ u, next.evaluations u = w.evaluations u + if u = v then worked else 0) ∧
    next.history.length = w.history.length + worked ∧
    next.queue.length ≤ w.queue.length + (eqs.users[v]?.getD []).length * worked := by
  cases hv with
  | left hcell _ =>
    refine ⟨0, (counted_leave eqs hcell).visits, fun u => ?_, rfl, Nat.le_add_right _ _⟩
    rw [ite_self]
    rfl
  | @recorded cell found fact users hcell _ _ _ husers =>
    refine ⟨1, (counted_record hcell husers).visits, fun u => ?_, ?_, ?_⟩
    · rw [evaluations, history_record, List.countP_cons]
      simp only [beq_iff_eq, eq_comm (a := v)]
      rfl
    · rw [history_record]
      rfl
    · rw [husers, Nat.mul_one]
      unfold record
      split
      · exact length_queue_enqueueAll users _
      · exact Nat.le_add_right _ _

end Visit

/-! ### States of a run -/

section Reached

variable [DecidableEq α] {eqs : Equations α} {size : Nat} {w final : Worklist α}

theorem Reached.flagged (h : Reached eqs size w) : Flagged w.cells w.queue := by
  induction h with
  | start => exact flagged_start size
  | @visit w next v rest _ hq hv ih =>
    rw [hq] at ih
    exact (visited_of_visit hv).flagged ih

theorem Reached.charged (h : Reached eqs size w) :
    ∀ v cell, w.cells[v]? = some cell → Charged eqs v cell := by
  induction h with
  | start =>
    intro v cell hcell
    rw [cell_of_start hcell]
    exact ⟨Nat.zero_le _, rfl, by rintro ⟨⟩⟩
  | visit _ _ hv ih =>
    intro v cell hcell
    exact (visited_of_visit hv).charged ih hcell

theorem Reached.visits_le_budget (h : Reached eqs size w) (v : ValueId) :
    w.visits v ≤ eqs.budget + 1 := by
  cases hcell : w.cells[v]? with
  | none => simp [visits, hcell]
  | some cell =>
    rw [visits_of_cell hcell]
    exact (h.charged v cell hcell).visits_le

theorem Reached.evaluations_eq (h : Reached eqs size w) (v : ValueId) :
    w.evaluations v = w.visits v := by
  induction h with
  | start => exact (visits_start size v).symm
  | visit _ _ hv ih =>
    obtain ⟨worked, hvisits, hevaluations, _⟩ := (visited_of_visit hv).accounted
    rw [hvisits, hevaluations]
    exact congrArg (· + _) ih

/-- An unknown that has used up its visits is at the top. -/
theorem Reached.top_of_evaluations (h : Reached eqs size w) {v : ValueId}
    (hv : w.evaluations v = eqs.budget + 1) :
    ∃ cell t, w.cells[v]? = some cell ∧ eqs.top v = .ok t ∧ cell.fact = some t := by
  rw [h.evaluations_eq] at hv
  cases hcell : w.cells[v]? with
  | none => simp [visits, hcell] at hv
  | some cell =>
    rw [visits_of_cell hcell] at hv
    have hcharged := h.charged v cell hcell
    have hpinned : cell.pinned = true := hcharged.pinned.trans (decide_eq_true hv)
    obtain ⟨t, ht, hfact⟩ := hcharged.top hpinned
    exact ⟨cell, t, rfl, ht, hfact⟩

/-- A visit is one of some unknown. -/
theorem Reached.length_history (h : Reached eqs size w) :
    w.history.length = ∑ v ∈ Finset.range size, w.visits v := by
  induction h with
  | start => exact (Finset.sum_eq_zero fun v _ => visits_start size v).symm
  | @visit w next v rest hw _ hv ih =>
    have hlt : v < size := hw.length ▸ (visited_of_visit hv).lt_length
    obtain ⟨worked, hvisits, _, hlength, _⟩ := (visited_of_visit hv).accounted
    have hsum := sum_mul_add_ite hlt (fun _ => 1) w.visits worked
    simp only [Nat.one_mul] at hsum
    rw [hlength, Finset.sum_congr rfl fun u _ => hvisits u]
    exact (congrArg (· + worked) ih).trans hsum.symm

theorem Reached.sum_mul_visits_le (h : Reached eqs size w) (weight : ValueId → Nat) :
    ∑ v ∈ Finset.range size, weight v * w.visits v ≤
      (eqs.budget + 1) * ∑ v ∈ Finset.range size, weight v := by
  rw [Finset.mul_sum]
  apply Finset.sum_le_sum
  intro v _
  rw [Nat.mul_comm]
  exact Nat.mul_le_mul_right _ (h.visits_le_budget v)

theorem Reached.length_history_le (h : Reached eqs size w) :
    w.history.length ≤ size * (eqs.budget + 1) := by
  have hle := h.sum_mul_visits_le fun _ => 1
  simp only [Nat.one_mul] at hle
  rw [← Finset.card_eq_sum_ones, Finset.card_range] at hle
  rw [h.length_history, Nat.mul_comm]
  exact hle

/-! ### Turns of the loop -/

/-- The states of a run, with the number of turns that lead to them: how often something was taken
off the queue. -/
inductive Turns (eqs : Equations α) (size : Nat) : Nat → Worklist α → Prop
  | start : Turns eqs size 0 (start size)
  | next {n : Nat} {w next : Worklist α} {v : ValueId} {rest : List ValueId}
    (hw : Turns eqs size n w) (hq : w.queue = v :: rest)
    (hv : Worklist.visit eqs { w with queue := rest } v = .ok next) : Turns eqs size (n + 1) next

theorem Turns.reached {n : Nat} (h : Turns eqs size n w) : Reached eqs size w := by
  induction h with
  | start => exact .start
  | next _ hq hv ih => exact ih.visit hq hv

theorem Reached.turns (h : Reached eqs size w) : ∃ n, Turns eqs size n w := by
  induction h with
  | start => exact ⟨0, .start⟩
  | visit _ hq hv ih =>
    obtain ⟨n, hn⟩ := ih
    exact ⟨n + 1, hn.next hq hv⟩

/-- Turns and places in the queue are paid for by the start, or by a visit, which pays for the
users of its unknown. -/
theorem Turns.add_length_le {n : Nat} (h : Turns eqs size n w) :
    n + w.queue.length ≤
      size + ∑ v ∈ Finset.range size, (eqs.users[v]?.getD []).length * w.visits v := by
  induction h with
  | start =>
    rw [Nat.zero_add, Worklist.start, List.length_range]
    exact Nat.le_add_right _ _
  | @next n w next v rest hw hq hv ih =>
    have hlt : v < size := hw.reached.length ▸ (visited_of_visit hv).lt_length
    obtain ⟨worked, hvisits, _, _, hqueue⟩ := (visited_of_visit hv).accounted
    have hsum : ∑ u ∈ Finset.range size, (eqs.users[u]?.getD []).length * next.visits u =
        ∑ u ∈ Finset.range size, (eqs.users[u]?.getD []).length * w.visits u +
          (eqs.users[v]?.getD []).length * worked := by
      rw [Finset.sum_congr rfl fun u _ => congrArg _ (hvisits u)]
      exact sum_mul_add_ite hlt _ _ _
    have hqueue : next.queue.length ≤ rest.length + (eqs.users[v]?.getD []).length * worked :=
      hqueue
    rw [hq, List.length_cons] at ih
    rw [hsum]
    omega

theorem Turns.le {n : Nat} (h : Turns eqs size n w) :
    n ≤ size +
      (eqs.budget + 1) * ∑ v ∈ Finset.range size, (eqs.users[v]?.getD []).length := by
  have hturns := h.add_length_le
  have hsum := h.reached.sum_mul_visits_le fun v => (eqs.users[v]?.getD []).length
  omega

theorem queue_of_run (hrun : w.run eqs = (final, none)) : final.queue = [] := by
  induction w using Worklist.run.induct eqs with
  | case1 w hq =>
    rw [run_of_nil eqs hq] at hrun
    cases hrun
    exact hq
  | case2 w v rest hq fault hfault =>
    rw [run_of_fault hq hfault] at hrun
    cases hrun
  | case3 w v rest hq next hnext ih =>
    rw [run_of_visit hq hnext] at hrun
    exact ih hrun

end Reached

/-- What holds at every turn: an unknown is in the queue at most once, and exactly if its flag is
set, and it was worked out at most `budget + 1` times. -/
structure Orderly (budget : Nat) (w : Worklist α) : Prop where
  nodup : w.queue.Nodup
  mem_queue : ∀ v, v ∈ w.queue ↔ ∃ cell, w.cells[v]? = some cell ∧ cell.queued = true
  evaluations_le : ∀ v, w.evaluations v ≤ budget + 1

theorem Reached.orderly [DecidableEq α] {eqs : Equations α} {size : Nat} {w : Worklist α}
    (h : Reached eqs size w) : w.Orderly eqs.budget where
  nodup := h.flagged.nodup
  mem_queue := h.flagged.mem_iff
  evaluations_le v := (h.evaluations_eq v).trans_le (h.visits_le_budget v)

end Worklist

/-! ### Inference -/

namespace Inference

theorem sum_length_users (g : Graph) :
    ∑ v ∈ Finset.range g.size, ((g.values.map g.usersOf)[v]?.getD []).length =
      ∑ v ∈ Finset.range g.size, (g.usersOf v).length := by
  refine Finset.sum_congr rfl fun v hv => ?_
  rw [Graph.users_of_value.mpr ⟨Finset.mem_range.mp hv, rfl⟩]
  rfl

/-- The inference ends whatever the rules say, as long as each gives a fact of the rank of its
result: they need not be monotone, nor keep within any bounds. The turns of the loop are bounded by
the size of the graph and the budget, and between them the queue and the flags agree. No value is
worked out more than `maxVisits + 1` times, and nothing is known of one that is worked out so
often. -/
theorem run_within_budget {g : Graph} (hg : g.Built) {book : Rulebook} (hbook : book.Reliable g)
    (settings : Settings) :
    ∃ users final inference, g.users = .ok users ∧
      (Worklist.start g.size).run (equations g book settings users) = (final, none) ∧
      final.queue = [] ∧
      (∃ turns, Worklist.Turns (equations g book settings users) g.size turns final) ∧
      (run g book settings).2 = .ok inference ∧
      inference.iterations = final.history.length ∧
      inference.iterations ≤ g.size * (settings.maxVisits + 1) ∧
      (∀ turns w, Worklist.Turns (equations g book settings users) g.size turns w →
        turns ≤ g.size +
          (settings.maxVisits + 1) * ∑ v ∈ Finset.range g.size, (g.usersOf v).length ∧
        w.Orderly settings.maxVisits) ∧
      ∀ v node, g.nodes[v]? = some node → final.evaluations v = settings.maxVisits + 1 →
        inference.lookup v = some (.top node.type.factRank) := by
  obtain ⟨users, final, htrace⟩ := exists_trace hg.wellTyped hbook settings
  have hreached : Worklist.Reached (equations g book settings users) g.size final :=
    Worklist.Reached.start.run htrace.run
  have husers : users = g.values.map g.usersOf :=
    Except.ok.inj (htrace.table.symm.trans hg.wellTyped.users_eq)
  refine ⟨users, final, ofWorklist g final, htrace.table, htrace.run,
    Worklist.queue_of_run htrace.run, hreached.turns, htrace.result, rfl,
    hreached.length_history_le, ?_, ?_⟩
  · intro turns w hturns
    refine ⟨?_, hturns.reached.orderly⟩
    rw [← sum_length_users, ← husers]
    exact hturns.le
  · intro v node hnode hv
    obtain ⟨cell, t, hcell, ht, hfact⟩ := hreached.top_of_evaluations hv
    rw [top_eq_ok book settings users hnode] at ht
    cases ht
    rw [lookup_ofWorklist, hcell]
    exact hfact

end Inference

/-- Rules that know much where their operands know nothing, and nothing where those know much. The
numbers are of no use as facts. -/
def Rulebook.contrary : Rulebook :=
  ⟨fun _ => some fun ctx facts => .ok
    (if facts.all Fact.isTop then ⟨List.replicate ctx.rank ⟨-6, 0, 5⟩, some 3⟩
    else .top ctx.rank)⟩

theorem Rulebook.contrary_reliable (g : Graph) : Rulebook.contrary.Reliable g := by
  intro v ctx rule facts _ hrule _
  cases hrule
  refine ⟨_, rfl, ?_⟩
  split
  · simp [Fact.rank]
  · exact Fact.rank_top _

/-- With one visit allowed the merge in the loop has two, and is given up. -/
theorem Inference.run_within_budget_contrary :
    Graph.loops.Built ∧ Rulebook.contrary.Reliable .loops ∧
      ∃ (final : Worklist Fact) (inference : Inference), final.queue = [] ∧
        final.evaluations 2 = 1 + 1 ∧ (run .loops .contrary ⟨1, false⟩).2 = .ok inference ∧
        inference.iterations ≤ Graph.loops.size * (1 + 1) ∧
        inference.lookup 2 = some (.top 1) := by
  obtain ⟨users, final, inference, husers, hrun, hqueue, _, hresult, _, hle, _, htop⟩ :=
    run_within_budget Graph.loops_built (Rulebook.contrary_reliable .loops) ⟨1, false⟩
  have htwice : final.evaluations 2 = 1 + 1 := by
    have htable : Graph.loops.users = .ok [[2, 4], [3, 4], [3], [2], [], [], [7], [6]] := by
      decide
    rw [husers] at htable
    cases htable
    have hfinal := congrArg (fun result => result.1.evaluations 2) hrun
    exact hfinal.symm.trans (by decide +kernel)
  exact ⟨Graph.loops_built, Rulebook.contrary_reliable .loops, final, inference, hqueue, htwice,
    hresult, hle, htop 2 _ rfl htwice⟩

end TileFacts

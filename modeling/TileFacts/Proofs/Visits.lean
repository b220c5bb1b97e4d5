import TileFacts.Proofs.Worklist
import Mathlib.Algebra.Order.BigOperators.Group.Finset
import Mathlib.Algebra.BigOperators.Group.Finset.Piecewise

/-! How often the unknowns of a worklist are worked out.

An unknown waits at the start, and again whenever one of those it is worked out from changes. So it
is worked out at most once more often than those change (`Reached.visits_le`). An unknown
that only ever goes down in some level changes no more often than the level allows
(`Reached.changes_add_level`). Where that keeps all visits within the budget nothing is pinned
(`Reached.history`), and then the run is the same under every larger budget (`run_withBudget`). -/
namespace TileFacts

variable {α : Type}

/-- How often the table lists `user` among the users of `operand`. -/
def timesUsed (table : List (List ValueId)) (operand user : ValueId) : Nat :=
  (table[operand]?.getD []).count user

theorem timesUsed_of_users {table : List (List ValueId)} {operand : ValueId}
    {users : List ValueId} (h : table[operand]? = some users) (user : ValueId) :
    timesUsed table operand user = users.count user := by
  rw [timesUsed, h]
  rfl

theorem notes_of_timesUsed {table : List (List ValueId)} {operand user : ValueId}
    (h : timesUsed table operand user ≠ 0) : Notes table operand user := by
  cases htable : table[operand]? with
  | none => simp [timesUsed, htable] at h
  | some users =>
    rw [timesUsed_of_users htable] at h
    exact ⟨users, htable, List.count_pos_iff.mp (Nat.pos_of_ne_zero h)⟩

namespace Worklist

/-! ### Counts -/

/-- How often an unknown was worked out. -/
def visits (w : Worklist α) (v : ValueId) : Nat := (w.cells[v]?.map Cell.visits).getD 0

/-- How often it got a new fact. -/
def changes (w : Worklist α) (v : ValueId) : Nat :=
  w.history.countP fun visit => visit.value == v && visit.changed

theorem visits_of_cell {w : Worklist α} {v : ValueId} {cell : Cell α}
    (h : w.cells[v]? = some cell) : w.visits v = cell.visits := by
  rw [visits, h]
  rfl

theorem visits_start (size : Nat) (v : ValueId) : (start size : Worklist α).visits v = 0 := by
  simp only [visits, start, List.getElem?_replicate]
  split <;> rfl

/-- A weighted sum of counts, one of which grows. -/
theorem sum_mul_add_ite {size v : Nat} (hv : v < size) (weight count : Nat → Nat) (extra : Nat) :
    ∑ x ∈ Finset.range size, weight x * (count x + if x = v then extra else 0) =
      ∑ x ∈ Finset.range size, weight x * count x + weight v * extra := by
  simp only [Nat.mul_add, Finset.sum_add_distrib, mul_ite, Nat.mul_zero]
  rw [Finset.sum_ite_eq', if_pos (Finset.mem_range.mpr hv)]

theorem count_queue_enqueue (w : Worklist α) (v u : ValueId) :
    (w.enqueue v).queue.count u ≤ w.queue.count u + [v].count u := by
  unfold enqueue
  split
  · exact Nat.le_add_right _ _
  · split
    · exact Nat.le_add_right _ _
    · exact (List.count_append ..).le

theorem count_queue_enqueueAll (users : List ValueId) (w : Worklist α) (u : ValueId) :
    (users.foldl enqueue w).queue.count u ≤ w.queue.count u + users.count u := by
  induction users generalizing w with
  | nil => exact Nat.le_refl _
  | cons v rest ih =>
    have hrest := ih (w.enqueue v)
    have hhead := count_queue_enqueue w v u
    have hcons : (v :: rest).count u = [v].count u + rest.count u := by
      rw [← List.count_append, List.singleton_append]
    rw [List.foldl_cons]
    omega

/-- What a visit of `v` adds to the counts, if it works `v` out, and if that is a change. -/
structure Counted (eqs : Equations α) (w : Worklist α) (v : ValueId) (next : Worklist α)
    (worked changed : Nat) : Prop where
  changed_le : changed ≤ worked
  worked_le : worked ≤ 1
  length : next.cells.length = w.cells.length
  visits : ∀ u, next.visits u = w.visits u + if u = v then worked else 0
  changes : ∀ u, next.changes u = w.changes u + if u = v then changed else 0
  queue : ∀ u, next.queue.count u ≤ w.queue.count u + timesUsed eqs.users v u * changed

section Visit

variable {eqs : Equations α} {w next : Worklist α} {v : ValueId} {cell : Cell α}

theorem counted_leave (eqs : Equations α) (hcell : w.cells[v]? = some cell) :
    Counted eqs w v (w.leave v cell) 0 0 := by
  refine ⟨Nat.le_refl _, Nat.zero_le _, List.length_set, fun u => ?_, fun u => ?_, fun u => ?_⟩
  · have hlt : v < w.cells.length := (List.getElem?_eq_some_iff.mp hcell).1
    rw [ite_self, Nat.add_zero]
    by_cases huv : v = u
    · subst huv
      have hleft : (w.leave v cell).cells[v]? = some { cell with queued := false } :=
        List.getElem?_set_self hlt
      rw [visits_of_cell hcell, visits_of_cell hleft]
    · simp only [Worklist.visits, leave, List.getElem?_set_ne huv]
  · rw [ite_self]
    rfl
  · exact Nat.le_add_right _ _

theorem counted_record (hcell : w.cells[v]? = some cell) {users : List ValueId}
    (husers : eqs.users[v]? = some users) {fact : α} {pinned changed : Bool} :
    Counted eqs w v
      ((w.leave v cell).record ⟨v, cell.visits + 1, fact, pinned, changed⟩ users) 1
      changed.toNat := by
  have hlt : v < w.cells.length := (List.getElem?_eq_some_iff.mp hcell).1
  refine ⟨Bool.toNat_le changed, Nat.le_refl _, ?_, fun u => ?_, fun u => ?_, fun u => ?_⟩
  · unfold record
    split
    · rw [length_enqueueAll]
      simp [leave]
    · simp [leave]
  · rw [Worklist.visits, cells_record, leave, List.set_set]
    by_cases huv : v = u
    · subst huv
      rw [List.getElem?_set_self hlt, if_pos rfl, visits_of_cell hcell]
      rfl
    · rw [List.getElem?_set_ne huv, if_neg (Ne.symm huv), Nat.add_zero, Option.map_map]
      rfl
  · rw [Worklist.changes, history_record, List.countP_cons]
    congr 1
    cases changed with
    | false => simp
    | true =>
      by_cases huv : v = u
      · simp [huv]
      · simp [huv, Ne.symm huv]
  · rw [timesUsed_of_users husers]
    unfold record
    cases changed with
    | false => exact Nat.le_add_right _ _
    | true =>
      rw [Bool.toNat_true, Nat.mul_one]
      exact count_queue_enqueueAll users _ u

theorem Visited.counted [DecidableEq α] (h : Visited eqs w v next) :
    ∃ worked changed, Counted eqs w v next worked changed := by
  cases h with
  | left hcell _ => exact ⟨0, 0, counted_leave eqs hcell⟩
  | recorded hcell _ _ _ husers => exact ⟨1, _, counted_record hcell husers⟩

theorem Visited.lt_length [DecidableEq α] (h : Visited eqs w v next) : v < w.cells.length := by
  cases h with
  | left hcell _ => exact (List.getElem?_eq_some_iff.mp hcell).1
  | recorded hcell _ _ _ _ => exact (List.getElem?_eq_some_iff.mp hcell).1

/-- Visits stay on record. -/
theorem Visited.history_subset [DecidableEq α] (h : Visited eqs w v next) :
    w.history ⊆ next.history := by
  cases h with
  | left => exact List.Subset.refl _
  | recorded =>
    rw [history_record]
    exact List.subset_cons_self _ _

/-- A visit that pins nothing does the same under a larger budget. -/
theorem visit_withBudget [DecidableEq α] {budget : Nat} (hle : eqs.budget ≤ budget)
    (hfree : ∀ visit ∈ next.history, visit.pinned = false) (hv : w.visit eqs v = .ok next) :
    w.visit { eqs with budget } v = .ok next := by
  cases visited_of_visit hv with
  | left hcell hidle =>
    rcases hidle with hp | hnone
    · exact visit_of_pinned _ hcell hp
    · cases hp : Cell.pinned _ with
      | true => exact visit_of_pinned _ hcell hp
      | false => exact visit_of_unknown hcell hp hnone
  | @recorded cell found kept users hcell hp hfound hkept husers =>
    rw [history_record] at hfree
    have hno : decide (eqs.budget < cell.visits + 1) = false := hfree _ (List.mem_cons_self ..)
    have hwithin := of_decide_eq_false hno
    have hno' : decide (budget < cell.visits + 1) = false := decide_eq_false (by omega)
    rw [hno] at hkept ⊢
    rw [← hno']
    apply visit_of_found hcell hp
    · exact hfound
    · rw [hno']
      exact hkept
    · exact husers

end Visit

/-! ### States of a run -/

/-- The states that a run passes through. -/
inductive Reached [DecidableEq α] (eqs : Equations α) (size : Nat) : Worklist α → Prop
  | start : Reached eqs size (start size)
  | visit {w next : Worklist α} {v : ValueId} {rest : List ValueId} (hw : Reached eqs size w)
    (hq : w.queue = v :: rest) (hv : Worklist.visit eqs { w with queue := rest } v = .ok next) :
    Reached eqs size next

section Reached

variable [DecidableEq α] {eqs : Equations α} {size : Nat} {w final : Worklist α}

/-- A run that ends without a fault ends in a state it passes through. -/
theorem Reached.run (h : Reached eqs size w) (hrun : w.run eqs = (final, none)) :
    Reached eqs size final := by
  induction w using Worklist.run.induct eqs with
  | case1 w hq =>
    rw [run_of_nil eqs hq] at hrun
    cases hrun
    exact h
  | case2 w v rest hq fault hfault =>
    rw [run_of_fault hq hfault] at hrun
    cases hrun
  | case3 w v rest hq next hnext ih =>
    rw [run_of_visit hq hnext] at hrun
    exact ih (h.visit hq hnext) hrun

theorem Reached.length (h : Reached eqs size w) : w.cells.length = size := by
  induction h with
  | start => exact List.length_replicate
  | visit _ _ hv ih =>
    obtain ⟨_, _, hcounted⟩ := (visited_of_visit hv).counted
    exact hcounted.length.trans ih

theorem Reached.changes_le_visits (h : Reached eqs size w) (u : ValueId) :
    w.changes u ≤ w.visits u := by
  induction h with
  | start => exact Nat.zero_le _
  | @visit w next v rest _ _ hv ih =>
    obtain ⟨worked, changed, hcounted⟩ := (visited_of_visit hv).counted
    have hchanges : next.changes u = w.changes u + if u = v then changed else 0 :=
      hcounted.changes u
    have hvisits : next.visits u = w.visits u + if u = v then worked else 0 := hcounted.visits u
    have hle := hcounted.changed_le
    rw [hchanges, hvisits]
    split <;> omega

/-- Every visit, and every place in the queue, comes from the start or from a change of an unknown
that the user is worked out from. -/
theorem Reached.visits_add_count (h : Reached eqs size w) (u : ValueId) :
    w.visits u + w.queue.count u ≤
      1 + ∑ x ∈ Finset.range size, timesUsed eqs.users x u * w.changes x := by
  induction h with
  | start =>
    have hvisits : (Worklist.start size : Worklist α).visits u = 0 := visits_start size u
    have hcount : (Worklist.start size : Worklist α).queue.count u ≤ 1 :=
      List.nodup_iff_count_le_one.mp List.nodup_range u
    omega
  | @visit w next v rest hw hq hv ih =>
    have hlt : v < size := by
      rw [← hw.length]
      exact (visited_of_visit hv).lt_length
    obtain ⟨worked, changed, hcounted⟩ := (visited_of_visit hv).counted
    -- A change of `v` pays for as many places in the queue as it takes.
    have hsum : ∑ x ∈ Finset.range size, timesUsed eqs.users x u * next.changes x =
        ∑ x ∈ Finset.range size, timesUsed eqs.users x u * w.changes x +
          timesUsed eqs.users v u * changed := by
      rw [Finset.sum_congr rfl fun x _ => congrArg _ (hcounted.changes x)]
      exact sum_mul_add_ite hlt _ _ _
    have hvisits : next.visits u = w.visits u + if u = v then worked else 0 := hcounted.visits u
    have hqueue : next.queue.count u ≤ rest.count u + timesUsed eqs.users v u * changed :=
      hcounted.queue u
    have hworked := hcounted.worked_le
    rw [hq, List.count_cons] at ih
    rw [hsum, hvisits]
    by_cases huv : u = v
    · subst huv
      simp only [beq_self_eq_true, if_true] at ih ⊢
      omega
    · simp only [beq_iff_eq, Ne.symm huv, huv, if_false] at ih ⊢
      omega

/-- So an unknown is worked out at most once more often than those it is worked out from change. -/
theorem Reached.visits_le (h : Reached eqs size w) {u : ValueId} {bound : ValueId → Nat}
    (hbound : ∀ x, timesUsed eqs.users x u * w.changes x ≤ bound x) :
    w.visits u ≤ 1 + ∑ x ∈ Finset.range size, bound x := by
  have hvisits := h.visits_add_count u
  have hsum := Finset.sum_le_sum fun x (_ : x ∈ Finset.range size) => hbound x
  omega

/-- Visits on record were counted, and pinned as the budget asks. -/
theorem Reached.history (h : Reached eqs size w) {visit : Visit α} (hvisit : visit ∈ w.history) :
    visit.count ≤ w.visits visit.value ∧ visit.pinned = decide (eqs.budget < visit.count) := by
  induction h with
  | start => cases hvisit
  | @visit w next v rest _ _ hv ih =>
    obtain ⟨worked, changed, hcounted⟩ := (visited_of_visit hv).counted
    have hmono : ∀ u, w.visits u ≤ next.visits u := by
      intro u
      rw [hcounted.visits u]
      exact Nat.le_add_right _ _
    have hold (hmem : visit ∈ w.history) : visit.count ≤ next.visits visit.value ∧
        visit.pinned = decide (eqs.budget < visit.count) :=
      ⟨(ih hmem).1.trans (hmono _), (ih hmem).2⟩
    cases visited_of_visit hv with
    | left => exact hold hvisit
    | recorded hcell _ _ _ husers =>
      rw [history_record] at hvisit
      rcases List.mem_cons.mp hvisit with rfl | hmem
      · refine ⟨?_, rfl⟩
        rw [(counted_record hcell husers).visits, if_pos rfl, visits_of_cell hcell]
      · exact hold hmem

theorem Reached.consistent {Good : ValueId → α → Prop} (heqs : eqs.Total size Good)
    (h : Reached eqs size w) : Consistent eqs size Good w w.queue := by
  induction h with
  | start => exact consistent_start eqs size Good
  | visit _ hq hv ih =>
    obtain ⟨next, hnext, hconsistent⟩ := (ih.pop hq).visit heqs
    rw [hv] at hnext
    cases hnext
    exact hconsistent

/-- An unknown whose new facts are always of a lower level than what they replace changes at most as
often as there are levels below that of knowing nothing. -/
theorem Reached.changes_add_level {Good : ValueId → α → Prop} (heqs : eqs.Total size Good)
    {v : ValueId} {level : Option α → Nat}
    (hlevel : ∀ fact : ValueId → Checked (Option α),
      (∀ u < size, ∃ known, fact u = .ok known ∧ ∀ f, known = some f → Good u f) →
      ∀ known found pinned kept, fact v = .ok known → eqs.evaluate fact v = .ok (some found) →
        settle eqs v pinned found = .ok kept → known ≠ some kept → level (some kept) < level known)
    (h : Reached eqs size w) {cell : Cell α} (hcell : w.cells[v]? = some cell) :
    w.changes v + level cell.fact ≤ level none := by
  induction h generalizing cell with
  | start =>
    rw [cell_of_start hcell]
    exact (Nat.zero_add _).le
  | @visit w next u rest hw hq hv ih =>
    have hknown := ((hw.consistent heqs).pop hq).known
    have ih (c : Cell α) (hc : ({ w with queue := rest } : Worklist α).cells[v]? = some c) :
        ({ w with queue := rest } : Worklist α).changes v + level c.fact ≤ level none := ih hc
    cases visited_of_visit hv with
    | @left old hold _ =>
      rw [(counted_leave eqs hold).changes, ite_self, Nat.add_zero]
      rcases cell_of_leave hold hcell with ⟨rfl, rfl⟩ | hc
      · exact ih old hold
      · exact ih cell hc
    | @recorded old found kept users hold _ hfound hkept husers =>
      rw [(counted_record hold husers).changes]
      obtain ⟨c, ⟨rfl, rfl⟩ | ⟨hne, hc⟩, rfl⟩ := cell_of_record hold rfl hcell
      · have hbefore := ih old hold
        by_cases hsame : old.fact = some kept
        · rw [hsame] at hbefore
          simpa [hsame, queueIf] using hbefore
        · have hdrop := hlevel _ hknown _ found _ kept (fact_of_cell hold) hfound hkept hsame
          simp only [hsame, queueIf, ne_eq, not_false_eq_true, decide_true, Bool.toNat_true,
            if_true]
          omega
      · rw [if_neg hne, Nat.add_zero]
        exact ih c hc

theorem history_subset_of_run (hrun : w.run eqs = (final, none)) : w.history ⊆ final.history := by
  induction w using Worklist.run.induct eqs with
  | case1 w hq =>
    rw [run_of_nil eqs hq] at hrun
    cases hrun
    exact List.Subset.refl _
  | case2 w v rest hq fault hfault =>
    rw [run_of_fault hq hfault] at hrun
    cases hrun
  | case3 w v rest hq next hnext ih =>
    rw [run_of_visit hq hnext] at hrun
    exact List.Subset.trans (visited_of_visit hnext).history_subset (ih hrun)

/-- A run that pins nothing is the same under every larger budget. -/
theorem run_withBudget (hfree : ∀ visit ∈ final.history, visit.pinned = false) {budget : Nat}
    (hle : eqs.budget ≤ budget) (hrun : w.run eqs = (final, none)) :
    w.run { eqs with budget } = (final, none) := by
  induction w using Worklist.run.induct eqs with
  | case1 w hq =>
    rw [run_of_nil eqs hq] at hrun
    rw [run_of_nil _ hq, hrun]
  | case2 w v rest hq fault hfault =>
    rw [run_of_fault hq hfault] at hrun
    cases hrun
  | case3 w v rest hq next hnext ih =>
    rw [run_of_visit hq hnext] at hrun
    have hnone : ∀ visit ∈ next.history, visit.pinned = false := fun visit hvisit =>
      hfree visit (history_subset_of_run hrun hvisit)
    rw [run_of_visit hq (visit_withBudget hle hnone hnext)]
    exact ih hrun

end Reached

end Worklist

end TileFacts

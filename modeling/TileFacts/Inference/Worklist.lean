import TileFacts.Fault

/-! A worklist with a visit budget.

The unknowns are numbered, and each can be worked out from what is known of the others; when
it changes, its users are looked at again. `Worklist.visit` takes one unknown off the queue.
An unknown that is worked out more often than the budget allows is *pinned*: it is set to the
least informative answer and never looked at again. So every unknown is worked out at most
`budget + 1` times, and the loop ends whatever the equations are (`Worklist.measure`). -/
namespace TileFacts

/-- What is known of one unknown. -/
structure Cell (α : Type) where
  fact : Option α := none
  /-- How many times it has been worked out. -/
  visits : Nat := 0
  pinned : Bool := false
  /-- Whether it waits in the queue. -/
  queued : Bool := true

/-- One time that an unknown was worked out. -/
structure Visit (α : Type) where
  value : ValueId
  /-- Which time it is, counted from one. -/
  count : Nat
  fact : α
  pinned : Bool
  changed : Bool

/-- Equations between unknowns, and what their solution may cost. -/
structure Equations (α : Type) where
  /-- For each unknown, those that are worked out from it. -/
  users : List (List ValueId)
  /-- An unknown from what is known; `none` while that is not enough. -/
  evaluate : (ValueId → Checked (Option α)) → ValueId → Checked (Option α)
  /-- The least informative answer. -/
  top : ValueId → Checked α
  budget : Nat

structure Worklist (α : Type) where
  cells : List (Cell α)
  queue : List ValueId
  /-- Visits made so far, the latest first. -/
  history : List (Visit α) := []

namespace Worklist

variable {α : Type}

/-- Nothing is known, and every unknown waits. -/
def start (size : Nat) : Worklist α where
  cells := List.replicate size {}
  queue := List.range size

/-- What is known of an unknown. -/
def fact (w : Worklist α) (v : ValueId) : Checked (Option α) := Cell.fact <$> element w.cells v

/-- Puts an unknown into the queue unless it waits already. -/
def enqueue (w : Worklist α) (v : ValueId) : Worklist α :=
  match w.cells[v]? with
  | none => w
  | some cell =>
    if cell.queued then w
    else { w with cells := w.cells.set v { cell with queued := true }, queue := w.queue ++ [v] }

/-- Notes a visit, and queues the users if it changed anything. -/
def record (w : Worklist α) (visit : Visit α) (users : List ValueId) : Worklist α :=
  let noted := { w with
    cells := w.cells.set visit.value ⟨some visit.fact, visit.count, visit.pinned, false⟩
    history := visit :: w.history }
  if visit.changed then users.foldl enqueue noted else noted

/-- Notes that an unknown no longer waits. -/
def leave (w : Worklist α) (v : ValueId) (cell : Cell α) : Worklist α :=
  { w with cells := w.cells.set v { cell with queued := false } }

/-- The answer that is kept: what was found, unless the budget is used up. -/
def settle (eqs : Equations α) (v : ValueId) (pinned : Bool) (found : α) : Checked α :=
  if pinned then eqs.top v else .ok found

/-- Works out one unknown that has just been taken off the queue. -/
def visit [DecidableEq α] (eqs : Equations α) (w : Worklist α) (v : ValueId) :
    Checked (Worklist α) := do
  let cell ← element w.cells v
  if cell.pinned then return w.leave v cell
  else
    match ← eqs.evaluate (w.leave v cell).fact v with
    | none => return w.leave v cell
    | some found =>
      let count := cell.visits + 1
      let pinned := decide (eqs.budget < count)
      let fact ← settle eqs v pinned found
      let users ← element eqs.users v
      return (w.leave v cell).record
        ⟨v, count, fact, pinned, decide (cell.fact ≠ some fact)⟩ users

/-! ### Termination -/

/-- How many more visits a cell can take, and one. -/
def credit (budget : Nat) (cell : Cell α) : Nat :=
  if cell.pinned then 0 else budget + 1 - cell.visits + 1

def potential (budget : Nat) : List (Cell α) → Nat
  | [] => 0
  | cell :: rest => credit budget cell + potential budget rest

/-- What is left to do. A visit takes from the potential, and adds no more to the queue than
there are users; anything else takes from the queue. -/
def measure (eqs : Equations α) (w : Worklist α) : Nat :=
  potential eqs.budget w.cells * (eqs.users.flatten.length + 1) + w.queue.length

theorem potential_set (budget : Nat) {cells : List (Cell α)} {v : ValueId} {cell : Cell α}
    (h : cells[v]? = some cell) (new : Cell α) :
    potential budget (cells.set v new) + credit budget cell =
      potential budget cells + credit budget new := by
  induction cells generalizing v with
  | nil => simp at h
  | cons c rest ih =>
    cases v with
    | zero =>
      simp only [List.getElem?_cons_zero, Option.some.injEq] at h
      subst h
      simp only [potential, List.set_cons_zero]
      omega
    | succ v =>
      have := ih (v := v) (by simpa using h)
      simp only [potential, List.set_cons_succ]
      omega

theorem potential_set_of_credit_eq (budget : Nat) {cells : List (Cell α)} {v : ValueId}
    {cell new : Cell α} (h : cells[v]? = some cell) (hc : credit budget new = credit budget cell) :
    potential budget (cells.set v new) = potential budget cells := by
  have := potential_set budget h new
  omega

theorem measure_leave (eqs : Equations α) {w : Worklist α} {v : ValueId} {cell : Cell α}
    (h : w.cells[v]? = some cell) : measure eqs (w.leave v cell) = measure eqs w := by
  have : potential eqs.budget (w.leave v cell).cells = potential eqs.budget w.cells :=
    potential_set_of_credit_eq eqs.budget h rfl
  simp only [measure, this]
  rfl

theorem potential_enqueue (budget : Nat) (w : Worklist α) (v : ValueId) :
    potential budget (w.enqueue v).cells = potential budget w.cells := by
  unfold enqueue
  split
  · rfl
  · next cell h =>
    split
    · rfl
    · exact potential_set_of_credit_eq budget h rfl

theorem length_queue_enqueue (w : Worklist α) (v : ValueId) :
    (w.enqueue v).queue.length ≤ w.queue.length + 1 := by
  unfold enqueue
  split
  · omega
  · split
    · omega
    · simp

theorem potential_enqueueAll (budget : Nat) (users : List ValueId) (w : Worklist α) :
    potential budget (users.foldl enqueue w).cells = potential budget w.cells := by
  induction users generalizing w with
  | nil => rfl
  | cons u rest ih => rw [List.foldl_cons, ih, potential_enqueue]

theorem length_queue_enqueueAll (users : List ValueId) (w : Worklist α) :
    (users.foldl enqueue w).queue.length ≤ w.queue.length + users.length := by
  induction users generalizing w with
  | nil => simp
  | cons u rest ih =>
    have := ih (w.enqueue u)
    have := length_queue_enqueue w u
    simp only [List.foldl_cons, List.length_cons]
    omega

theorem length_le_flatten_of_getElem? {users : List (List ValueId)} {v : ValueId}
    {us : List ValueId} (h : users[v]? = some us) : us.length ≤ users.flatten.length :=
  (List.sublist_flatten_of_mem (List.mem_of_getElem? h)).length_le

/-- A visit that follows an evaluation costs credit. -/
theorem credit_visited (budget : Nat) {cell : Cell α} (hp : cell.pinned = false) (fact : Option α)
    (queued : Bool) :
    credit budget ⟨fact, cell.visits + 1, decide (budget < cell.visits + 1), queued⟩ <
      credit budget cell := by
  simp only [credit, hp, Bool.false_eq_true, if_false]
  split
  · omega
  · next h =>
    have : ¬ budget < cell.visits + 1 := by simpa using h
    omega

theorem measure_record_lt (eqs : Equations α) {w : Worklist α} {v : ValueId} {cell : Cell α}
    {us : List ValueId} (hc : w.cells[v]? = some cell) (hp : cell.pinned = false)
    (hu : eqs.users[v]? = some us) (fact : α) (changed : Bool) :
    measure eqs (w.record ⟨v, cell.visits + 1, fact, decide (eqs.budget < cell.visits + 1), changed⟩
      us) < measure eqs w + 1 := by
  have hlen := length_le_flatten_of_getElem? hu
  have hset := potential_set eqs.budget hc
    ⟨some fact, cell.visits + 1, decide (eqs.budget < cell.visits + 1), false⟩
  have hcredit := credit_visited eqs.budget hp (some fact) false
  have hpot : potential eqs.budget (w.cells.set v
      ⟨some fact, cell.visits + 1, decide (eqs.budget < cell.visits + 1), false⟩) + 1 ≤
      potential eqs.budget w.cells := by omega
  have hmul := Nat.mul_le_mul_right (eqs.users.flatten.length + 1) hpot
  rw [Nat.add_mul] at hmul
  unfold measure record
  split
  · rw [potential_enqueueAll]
    have := length_queue_enqueueAll us { w with
      cells := w.cells.set v
        ⟨some fact, cell.visits + 1, decide (eqs.budget < cell.visits + 1), false⟩
      history := ⟨v, cell.visits + 1, fact, decide (eqs.budget < cell.visits + 1), changed⟩ ::
        w.history }
    simp only at this ⊢
    omega
  · simp only
    omega

/-- A visit leaves less to do than the queue with the unknown still in it. -/
theorem measure_visit_lt [DecidableEq α] (eqs : Equations α) {w next : Worklist α} {v : ValueId}
    (h : w.visit eqs v = .ok next) : measure eqs next < measure eqs w + 1 := by
  unfold visit at h
  obtain ⟨cell, hcell, h⟩ := bind_eq_ok.mp h
  have hc := element_eq_ok.mp hcell
  have hidle := measure_leave eqs hc
  split at h
  · cases h
    omega
  · next hp =>
    obtain ⟨found, _, h⟩ := bind_eq_ok.mp h
    split at h
    · cases h
      omega
    · obtain ⟨fact, _, h⟩ := bind_eq_ok.mp h
      obtain ⟨us, hus, h⟩ := bind_eq_ok.mp h
      cases h
      have hin : (w.leave v cell).cells[v]? = some { cell with queued := false } := by
        have : v < w.cells.length := (List.getElem?_eq_some_iff.mp hc).1
        simp [leave, this]
      rw [← hidle]
      exact measure_record_lt eqs hin (by simpa using hp) (element_eq_ok.mp hus) fact _

/-- Visits unknowns until none waits, or until a visit runs into a fault. -/
def run [DecidableEq α] (eqs : Equations α) (w : Worklist α) : Worklist α × Option Fault :=
  match _hq : w.queue with
  | [] => (w, none)
  | v :: rest =>
    match _hv : Worklist.visit eqs { w with queue := rest } v with
    | .error f => (w, some f)
    | .ok next => run eqs next
termination_by measure eqs w
decreasing_by
  have := measure_visit_lt eqs _hv
  simp only [measure, _hq, List.length_cons] at this ⊢
  omega

end Worklist

end TileFacts

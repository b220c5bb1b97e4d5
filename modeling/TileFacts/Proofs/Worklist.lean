import TileFacts.Inference.Worklist

/-! What a worklist has worked out when it ends.

An unknown is *settled* (`Worklist.Settled`) if it was given up, or if it is what its equation
gives on facts that have not changed since. Every visit keeps the unknowns that do not wait
settled (`Consistent.visit`): a change of one makes all that read it wait. So if the equations
never fault on good facts (`Equations.Total`), a run ends without a fault, and with every unknown
settled (`Total.run`, `Consistent.settled_of_nil`). -/
namespace TileFacts

variable {α : Type}

/-- The table lists `user` among the users of `operand`. -/
def Notes (table : List (List ValueId)) (operand user : ValueId) : Prop :=
  ∃ users, table[operand]? = some users ∧ user ∈ users

/-- The equations of `size` unknowns never fault, and their answers stay good, as long as what is
known is good. What can be known of an unknown at all may be nothing. -/
structure Equations.Total (eqs : Equations α) (size : Nat) (Good : ValueId → α → Prop) : Prop where
  users : eqs.users.length = size
  evaluate : ∀ fact : ValueId → Checked (Option α),
    (∀ u < size, ∃ known, fact u = .ok known ∧ ∀ f, known = some f → Good u f) →
    ∀ v < size, ∃ found, eqs.evaluate fact v = .ok found ∧ ∀ f, found = some f → Good v f
  top : ∀ v < size, ∃ t, eqs.top v = .ok t ∧ ∀ f, Good v f → Good v t

/-- A second thing to ask of facts, which needs no second look at faults. -/
theorem Equations.Total.and {eqs : Equations α} {size : Nat} {Good Also : ValueId → α → Prop}
    (h : eqs.Total size Good)
    (hevaluate : ∀ fact : ValueId → Checked (Option α),
      (∀ u < size, ∀ f, fact u = .ok (some f) → Good u f ∧ Also u f) →
      ∀ v < size, ∀ f, eqs.evaluate fact v = .ok (some f) → Also v f)
    (htop : ∀ v t f, eqs.top v = .ok t → Also v f → Also v t) :
    eqs.Total size fun v f => Good v f ∧ Also v f := by
  refine ⟨h.users, fun fact hfact v hv => ?_, fun v hv => ?_⟩
  · obtain ⟨found, hfound, hgood⟩ := h.evaluate fact
      (fun u hu => (hfact u hu).imp fun _ hk => ⟨hk.1, fun f hf => (hk.2 f hf).1⟩) v hv
    refine ⟨found, hfound, fun f hf => ⟨hgood f hf, hevaluate fact ?_ v hv f (hf ▸ hfound)⟩⟩
    intro u hu f hf
    obtain ⟨known, hknown, hall⟩ := hfact u hu
    rw [hf] at hknown
    exact hall f (Except.ok.inj hknown).symm
  · obtain ⟨t, ht, hgood⟩ := h.top v hv
    exact ⟨t, ht, fun f hf => ⟨hgood f hf.1, htop v t f ht hf.2⟩⟩

namespace Worklist

/-- An unknown that was given up: a visit over the budget is on record, and nothing is known. -/
structure GivenUp (eqs : Equations α) (w : Worklist α) (v : ValueId) (cell : Cell α) : Prop where
  top : ∃ t, eqs.top v = .ok t ∧ cell.fact = some t
  noted : ∃ visit ∈ w.history, visit.value = v ∧ visit.pinned = true ∧ eqs.budget < visit.count

/-- An unknown that needs no further visit. Its own fact may have changed by the last one. -/
def Settled (eqs : Equations α) (w : Worklist α) (v : ValueId) (cell : Cell α) : Prop :=
  cell.pinned = true ∨
    ∃ before found, (∀ u, Notes eqs.users u v → before u = w.fact u) ∧
      eqs.evaluate before v = .ok found ∧ ∀ f, found = some f → cell.fact = some f

/-- Cells that wait are among those listed, which are cells. -/
structure Listed (cells : List (Cell α)) (waiting : List ValueId) : Prop where
  queued : ∀ v cell, cells[v]? = some cell → cell.queued = true → v ∈ waiting
  range : ∀ v ∈ waiting, v < cells.length

/-- What holds between visits, given what waits. -/
structure Consistent (eqs : Equations α) (size : Nat) (Good : ValueId → α → Prop)
    (w : Worklist α) (waiting : List ValueId) : Prop where
  length : w.cells.length = size
  listed : Listed w.cells waiting
  good : ∀ v cell f, w.cells[v]? = some cell → cell.fact = some f → Good v f
  history : ∀ visit ∈ w.history, Good visit.value visit.fact
  pinned : ∀ v cell, w.cells[v]? = some cell → cell.pinned = true → w.GivenUp eqs v cell
  settled : ∀ v cell, w.cells[v]? = some cell → cell.queued = false → w.Settled eqs v cell

theorem fact_of_cell {w : Worklist α} {v : ValueId} {cell : Cell α}
    (h : w.cells[v]? = some cell) : w.fact v = .ok cell.fact := by
  simp [fact, element, h, Functor.map, Except.map]

/-! ### Queueing users -/

/-- The cell, made to wait if `waits` holds. -/
def queueIf (waits : Bool) (cell : Cell α) : Cell α := { cell with queued := cell.queued || waits }

theorem queueIf_of_queued {waits : Bool} {cell : Cell α} (h : waits = false ∨ cell.queued = true) :
    queueIf waits cell = cell := by
  obtain ⟨fact, visits, pinned, queued⟩ := cell
  rcases h with rfl | h
  · simp [queueIf]
  · simp_all [queueIf]

theorem cells_enqueue (w : Worklist α) (v u : ValueId) :
    (w.enqueue v).cells[u]? = w.cells[u]?.map (queueIf (u == v)) := by
  have hsame (h : ∀ cell, w.cells[u]? = some cell → (u == v) = false ∨ cell.queued = true) :
      w.cells[u]? = w.cells[u]?.map (queueIf (u == v)) := by
    cases hc : w.cells[u]? with
    | none => rfl
    | some cell => rw [Option.map_some, queueIf_of_queued (h cell hc)]
  by_cases huv : u = v
  · subst huv
    unfold enqueue
    split
    · next hnone => exact hsame fun cell hc => by simp [hnone] at hc
    · next cell hcell =>
      have hlt : u < w.cells.length := (List.getElem?_eq_some_iff.mp hcell).1
      split
      · next hq => exact hsame fun c hc => .inr (by rw [hcell] at hc; cases hc; exact hq)
      · rw [hcell]
        simp [queueIf, hlt]
  · have hne : v ≠ u := Ne.symm huv
    have hcells : (w.enqueue v).cells[u]? = w.cells[u]? := by
      unfold enqueue
      split
      · rfl
      · split
        · rfl
        · exact List.getElem?_set_ne hne
    rw [hcells]
    exact hsame fun _ _ => .inl (by simp [huv])

theorem cells_enqueueAll (users : List ValueId) (w : Worklist α) (u : ValueId) :
    (users.foldl enqueue w).cells[u]? = w.cells[u]?.map (queueIf (users.contains u)) := by
  induction users generalizing w with
  | nil =>
    have hid : queueIf (([] : List ValueId).contains u) = (id : Cell α → Cell α) :=
      funext fun cell => queueIf_of_queued (.inl rfl)
    rw [hid, Option.map_id]
    rfl
  | cons v rest ih =>
    rw [List.foldl_cons, ih, cells_enqueue, Option.map_map]
    congr 1
    funext cell
    simp only [Function.comp_apply, queueIf, Bool.or_assoc, List.contains_cons]

theorem length_enqueueAll (users : List ValueId) (w : Worklist α) :
    (users.foldl enqueue w).cells.length = w.cells.length := by
  induction users generalizing w with
  | nil => rfl
  | cons v rest ih =>
    rw [List.foldl_cons, ih]
    unfold enqueue
    split
    · rfl
    · split
      · rfl
      · exact List.length_set

theorem history_enqueueAll (users : List ValueId) (w : Worklist α) :
    (users.foldl enqueue w).history = w.history := by
  induction users generalizing w with
  | nil => rfl
  | cons v rest ih =>
    rw [List.foldl_cons, ih]
    unfold enqueue
    split
    · rfl
    · split <;> rfl

/-- A cell that is put in the place of one that waits, and does not wait itself. -/
theorem Listed.set {cells : List (Cell α)} {v : ValueId} {waiting : List ValueId}
    (h : Listed cells (v :: waiting)) {new : Cell α} (hnew : new.queued = false) :
    Listed (cells.set v new) waiting := by
  constructor
  · intro u c hc hq
    rw [List.getElem?_set] at hc
    split at hc
    · split at hc
      · cases hc
        rw [hnew] at hq
        cases hq
      · cases hc
    · next hne => exact (List.mem_cons.mp (h.queued u c hc hq)).resolve_left (Ne.symm hne)
  · intro u hu
    rw [List.length_set]
    exact h.range u (List.mem_cons_of_mem v hu)

theorem Listed.enqueue {w : Worklist α} (h : Listed w.cells w.queue) (v : ValueId) :
    Listed (w.enqueue v).cells (w.enqueue v).queue := by
  unfold Worklist.enqueue
  split
  · exact h
  · next cell hcell =>
    split
    · exact h
    · have hlt : v < w.cells.length := (List.getElem?_eq_some_iff.mp hcell).1
      constructor
      · intro u c hc hq
        by_cases huv : v = u
        · simp [huv]
        · rw [List.getElem?_set_ne huv] at hc
          exact List.mem_append_left _ (h.queued u c hc hq)
      · intro u hu
        rw [List.length_set]
        rcases List.mem_append.mp hu with hu | hu
        · exact h.range u hu
        · rw [List.mem_singleton.mp hu]
          exact hlt

theorem Listed.enqueueAll {w : Worklist α} (h : Listed w.cells w.queue) (users : List ValueId) :
    Listed (users.foldl Worklist.enqueue w).cells (users.foldl Worklist.enqueue w).queue := by
  induction users generalizing w with
  | nil => exact h
  | cons v rest ih => exact ih (h.enqueue v)

/-! ### Visits -/

section Visit

variable {eqs : Equations α} {size : Nat} {Good : ValueId → α → Prop} {w : Worklist α}
  {v : ValueId} {cell : Cell α}

theorem fact_leave (hcell : w.cells[v]? = some cell) : (w.leave v cell).fact = w.fact := by
  funext u
  have hlt : v < w.cells.length := (List.getElem?_eq_some_iff.mp hcell).1
  by_cases huv : v = u
  · subst huv
    have hleft : (w.leave v cell).cells[v]? = some { cell with queued := false } := by
      simp [leave, hlt]
    rw [fact_of_cell hcell, fact_of_cell hleft]
  · simp [fact, element, leave, List.getElem?_set_ne huv]

theorem cells_record (w : Worklist α) (visit : Visit α) (users : List ValueId) (u : ValueId) :
    (w.record visit users).cells[u]? =
      (w.cells.set visit.value ⟨some visit.fact, visit.count, visit.pinned, false⟩)[u]?.map
        (queueIf (visit.changed && users.contains u)) := by
  unfold record
  split
  · next hchanged => rw [cells_enqueueAll, hchanged, Bool.true_and]
  · next hsame =>
    have hid : queueIf (visit.changed && users.contains u) = (id : Cell α → Cell α) :=
      funext fun cell => queueIf_of_queued (.inl (by simp [hsame]))
    rw [hid, Option.map_id]
    rfl

theorem history_record (w : Worklist α) (visit : Visit α) (users : List ValueId) :
    (w.record visit users).history = visit :: w.history := by
  unfold record
  split
  · exact history_enqueueAll users _
  · rfl

/-- Facts that are read stay if only an unread one changes. -/
theorem Settled.congr {w' : Worklist α} {cell' : Cell α} (h : w.Settled eqs v cell)
    (hcell : cell'.fact = cell.fact) (hpinned : cell'.pinned = cell.pinned)
    (hfact : ∀ u, Notes eqs.users u v → w'.fact u = w.fact u) : w'.Settled eqs v cell' := by
  rcases h with hp | ⟨before, found, hbefore, heval, hfound⟩
  · exact .inl (hpinned.trans hp)
  · exact .inr ⟨before, found, fun u hu => (hbefore u hu).trans (hfact u hu).symm, heval,
      fun f hf => hcell.trans (hfound f hf)⟩

/-- Every cell is as before, up to the waiting of `v`. -/
theorem cell_of_leave (hcell : w.cells[v]? = some cell) {u : ValueId} {c : Cell α}
    (hc : (w.leave v cell).cells[u]? = some c) :
    (u = v ∧ c = { cell with queued := false }) ∨ w.cells[u]? = some c := by
  have hlt : v < w.cells.length := (List.getElem?_eq_some_iff.mp hcell).1
  by_cases huv : v = u
  · subst huv
    simp only [Worklist.leave, List.getElem?_set_self hlt, Option.some.injEq] at hc
    exact .inl ⟨rfl, hc.symm⟩
  · simp only [Worklist.leave, List.getElem?_set_ne huv] at hc
    exact .inr hc

/-- An unknown that keeps its fact no longer waits. -/
theorem Consistent.leave (h : Consistent eqs size Good w (v :: w.queue))
    (hcell : w.cells[v]? = some cell) (hsettled : w.Settled eqs v cell) :
    Consistent eqs size Good (w.leave v cell) w.queue := by
  refine ⟨by simpa [Worklist.leave] using h.length, h.listed.set rfl, ?_, h.history, ?_, ?_⟩
  · intro u c f hc hf
    rcases cell_of_leave hcell hc with ⟨rfl, rfl⟩ | hc
    · exact h.good u cell f hcell hf
    · exact h.good u c f hc hf
  · intro u c hc hp
    rcases cell_of_leave hcell hc with ⟨rfl, rfl⟩ | hc
    · exact ⟨(h.pinned u cell hcell hp).top, (h.pinned u cell hcell hp).noted⟩
    · exact ⟨(h.pinned u c hc hp).top, (h.pinned u c hc hp).noted⟩
  · intro u c hc hq
    rcases cell_of_leave hcell hc with ⟨rfl, rfl⟩ | hc
    · exact hsettled.congr rfl rfl fun x _ => by rw [fact_leave hcell]
    · exact (h.settled u c hc hq).congr rfl rfl fun x _ => by rw [fact_leave hcell]

section Record

variable {users : List ValueId} {fact : α} {count : Nat} {pinned changed : Bool} {next : Worklist α}

/-- A cell is the new one, or as before; it does not wait if it did not and if it is not a user of a
changed fact. -/
theorem cell_of_record (hcell : w.cells[v]? = some cell)
    (hnext : (w.leave v cell).record ⟨v, count, fact, pinned, changed⟩ users = next) {u : ValueId}
    {c : Cell α} (hc : next.cells[u]? = some c) : ∃ c',
      ((u = v ∧ c' = ⟨some fact, count, pinned, false⟩) ∨ (u ≠ v ∧ w.cells[u]? = some c')) ∧
        c = queueIf (changed && users.contains u) c' := by
  have hlt : v < w.cells.length := (List.getElem?_eq_some_iff.mp hcell).1
  rw [← hnext, cells_record, Worklist.leave, List.set_set] at hc
  obtain ⟨c', hc', rfl⟩ := Option.map_eq_some_iff.mp hc
  refine ⟨c', ?_, rfl⟩
  by_cases huv : v = u
  · subst huv
    rw [List.getElem?_set_self hlt, Option.some.injEq] at hc'
    exact .inl ⟨rfl, hc'.symm⟩
  · rw [List.getElem?_set_ne huv] at hc'
    exact .inr ⟨Ne.symm huv, hc'⟩

theorem listed_record (hlisted : Listed w.cells (v :: w.queue))
    (hnext : (w.leave v cell).record ⟨v, count, fact, pinned, changed⟩ users = next) :
    next.cells.length = w.cells.length ∧ Listed next.cells next.queue := by
  have hset : (w.leave v cell).cells.set v ⟨some fact, count, pinned, false⟩ =
      w.cells.set v ⟨some fact, count, pinned, false⟩ := by simp [Worklist.leave]
  have hnew : Listed ((w.leave v cell).cells.set v ⟨some fact, count, pinned, false⟩)
      w.queue := by
    rw [hset]
    exact hlisted.set rfl
  subst hnext
  unfold Worklist.record
  split
  · refine ⟨?_, Listed.enqueueAll hnew users⟩
    rw [length_enqueueAll, hset, List.length_set]
  · exact ⟨by rw [hset, List.length_set], hnew⟩

/-- What is known of other unknowns stays. -/
theorem fact_record_of_ne (hcell : w.cells[v]? = some cell)
    (hnext : (w.leave v cell).record ⟨v, count, fact, pinned, changed⟩ users = next)
    (hlength : next.cells.length = w.cells.length) {u : ValueId} (huv : u ≠ v) :
    next.fact u = w.fact u := by
  cases hc : next.cells[u]? with
  | some c =>
    obtain ⟨c', ⟨rfl, _⟩ | ⟨_, hc'⟩, rfl⟩ := cell_of_record hcell hnext hc
    · exact absurd rfl huv
    · rw [fact_of_cell hc, fact_of_cell hc']
      rfl
  | none =>
    have hlen := List.getElem?_eq_none_iff.mp hc
    rw [hlength] at hlen
    simp [Worklist.fact, element, hc, List.getElem?_eq_none hlen, hlength]

end Record

/-- A visit that finds a fact leaves its unknown settled, and makes its users wait if the fact
is new. -/
theorem Consistent.record [DecidableEq α] (h : Consistent eqs size Good w (v :: w.queue))
    (hcell : w.cells[v]? = some cell) {users : List ValueId} (husers : eqs.users[v]? = some users)
    {fact : α} {count : Nat} {pinned : Bool} (hgood : Good v fact)
    (hpinned : pinned = true → eqs.top v = .ok fact ∧ eqs.budget < count)
    (hfound : pinned = false → eqs.evaluate w.fact v = .ok (some fact)) :
    Consistent eqs size Good
      ((w.leave v cell).record ⟨v, count, fact, pinned, decide (cell.fact ≠ some fact)⟩ users)
      ((w.leave v cell).record ⟨v, count, fact, pinned, decide (cell.fact ≠ some fact)⟩
        users).queue := by
  generalize hchanged : decide (cell.fact ≠ some fact) = changed
  generalize hnext : (w.leave v cell).record ⟨v, count, fact, pinned, changed⟩ users = next
  obtain ⟨hlength, hlisted⟩ := listed_record h.listed hnext
  have hhistory : next.history = ⟨v, count, fact, pinned, changed⟩ :: w.history := by
    rw [← hnext, history_record]
    rfl
  have hsame : changed = false → next.fact v = w.fact v := by
    intro hno
    have hkept : cell.fact = some fact := by simpa [hno] using hchanged
    have hlt : v < w.cells.length := (List.getElem?_eq_some_iff.mp hcell).1
    obtain ⟨c, hc⟩ : ∃ c, next.cells[v]? = some c :=
      ⟨_, List.getElem?_eq_getElem (hlength ▸ hlt)⟩
    obtain ⟨c', ⟨_, rfl⟩ | ⟨hne, _⟩, rfl⟩ := cell_of_record hcell hnext hc
    · rw [fact_of_cell hc, fact_of_cell hcell, hkept]
      rfl
    · exact absurd rfl hne
  refine ⟨hlength.trans h.length, hlisted, ?_, ?_, ?_, ?_⟩
  · intro u c f hc hf
    obtain ⟨c', ⟨rfl, rfl⟩ | ⟨_, hc'⟩, rfl⟩ := cell_of_record hcell hnext hc
    · cases hf
      exact hgood
    · exact h.good u c' f hc' hf
  · rw [hhistory]
    exact List.forall_mem_cons.mpr ⟨hgood, h.history⟩
  · intro u c hc hp
    obtain ⟨c', ⟨rfl, rfl⟩ | ⟨_, hc'⟩, rfl⟩ := cell_of_record hcell hnext hc
    · obtain ⟨htop, hcount⟩ := hpinned hp
      refine ⟨⟨fact, htop, rfl⟩, ⟨_, count, fact, pinned, changed⟩, ?_, rfl, hp, hcount⟩
      rw [hhistory]
      exact List.mem_cons_self ..
    · obtain ⟨htop, visit, hvisit, hrest⟩ := h.pinned u c' hc' hp
      refine ⟨htop, visit, ?_, hrest⟩
      rw [hhistory]
      exact List.mem_cons_of_mem _ hvisit
  · intro u c hc hq
    obtain ⟨c', hold, rfl⟩ := cell_of_record hcell hnext hc
    simp only [queueIf, Bool.or_eq_false_iff, Bool.and_eq_false_iff] at hq
    obtain ⟨hq', hunread⟩ := hq
    have hread : ∀ x, Notes eqs.users x u → next.fact x = w.fact x := by
      rintro x ⟨us, hus, hmem⟩
      by_cases hxv : x = v
      · subst hxv
        rw [husers, Option.some.injEq] at hus
        subst hus
        exact hsame (hunread.resolve_right (by simp [hmem]))
      · exact fact_record_of_ne hcell hnext hlength hxv
    rcases hold with ⟨rfl, rfl⟩ | ⟨_, hc'⟩
    · cases hp : pinned with
      | true => exact .inl rfl
      | false =>
        exact .inr ⟨w.fact, some fact, fun x hx => (hread x hx).symm, hfound hp, fun _ hf => hf⟩
    · exact (h.settled u c' hc' hq').congr rfl rfl hread

theorem visit_of_pinned [DecidableEq α] (eqs : Equations α) (hcell : w.cells[v]? = some cell)
    (hp : cell.pinned = true) : w.visit eqs v = .ok (w.leave v cell) := by
  have helem : element w.cells v = .ok cell := element_eq_ok.mpr hcell
  simp [Worklist.visit, helem, hp, bind, Except.bind, pure, Except.pure]

theorem visit_of_unknown [DecidableEq α] (hcell : w.cells[v]? = some cell)
    (hp : cell.pinned = false) (hfound : eqs.evaluate w.fact v = .ok none) :
    w.visit eqs v = .ok (w.leave v cell) := by
  have helem : element w.cells v = .ok cell := element_eq_ok.mpr hcell
  simp [Worklist.visit, helem, hp, fact_leave hcell, hfound, bind, Except.bind, pure, Except.pure]

theorem visit_of_found [DecidableEq α] (hcell : w.cells[v]? = some cell)
    (hp : cell.pinned = false) {found fact : α} (hfound : eqs.evaluate w.fact v = .ok (some found))
    (hfact : settle eqs v (decide (eqs.budget < cell.visits + 1)) found = .ok fact)
    {users : List ValueId} (husers : eqs.users[v]? = some users) :
    w.visit eqs v = .ok ((w.leave v cell).record
      ⟨v, cell.visits + 1, fact, decide (eqs.budget < cell.visits + 1),
        decide (cell.fact ≠ some fact)⟩ users) := by
  have helem : element w.cells v = .ok cell := element_eq_ok.mpr hcell
  have helemu : element eqs.users v = .ok users := element_eq_ok.mpr husers
  simp only [Worklist.visit, helem, hp, fact_leave hcell, hfound, hfact, helemu, bind, Except.bind,
    pure, Except.pure, Bool.false_eq_true, if_false]

/-- What a visit can do: leave things as they are, or work its unknown out and note it. -/
inductive Visited (eqs : Equations α) [DecidableEq α] (w : Worklist α) (v : ValueId) :
    Worklist α → Prop
  | left {cell : Cell α} (hcell : w.cells[v]? = some cell)
    (hidle : cell.pinned = true ∨ eqs.evaluate w.fact v = .ok none) :
    Visited eqs w v (w.leave v cell)
  | recorded {cell : Cell α} {found fact : α} {users : List ValueId}
    (hcell : w.cells[v]? = some cell) (hp : cell.pinned = false)
    (hfound : eqs.evaluate w.fact v = .ok (some found))
    (hfact : settle eqs v (decide (eqs.budget < cell.visits + 1)) found = .ok fact)
    (husers : eqs.users[v]? = some users) :
    Visited eqs w v ((w.leave v cell).record ⟨v, cell.visits + 1, fact,
      decide (eqs.budget < cell.visits + 1), decide (cell.fact ≠ some fact)⟩ users)

theorem visited_of_visit [DecidableEq α] {next : Worklist α} (h : w.visit eqs v = .ok next) :
    Visited eqs w v next := by
  obtain ⟨cell, hcell, h⟩ := bind_eq_ok.mp h
  replace hcell := element_eq_ok.mp hcell
  split at h
  · next hp =>
    cases h
    exact .left hcell (.inl hp)
  · next hp =>
    obtain ⟨found, hfound, h⟩ := bind_eq_ok.mp h
    rw [fact_leave hcell] at hfound
    split at h
    · cases h
      exact .left hcell (.inr hfound)
    · obtain ⟨fact, hfact, h⟩ := bind_eq_ok.mp h
      obtain ⟨users, husers, h⟩ := bind_eq_ok.mp h
      cases h
      exact .recorded hcell (by simpa using hp) hfound hfact (element_eq_ok.mp husers)

/-- What is known is good. -/
theorem Consistent.known {waiting : List ValueId} (h : Consistent eqs size Good w waiting) :
    ∀ u < size, ∃ known, w.fact u = .ok known ∧ ∀ f, known = some f → Good u f := by
  intro u hu
  obtain ⟨c, hc⟩ : ∃ c, w.cells[u]? = some c :=
    ⟨_, List.getElem?_eq_getElem (h.length.symm ▸ hu)⟩
  exact ⟨c.fact, fact_of_cell hc, fun f hf => h.good u c f hc hf⟩

/-- A visit does not fault, and leaves settled all that does not wait. -/
theorem Consistent.visit [DecidableEq α] (heqs : eqs.Total size Good)
    (h : Consistent eqs size Good w (v :: w.queue)) :
    ∃ next, w.visit eqs v = .ok next ∧ Consistent eqs size Good next next.queue := by
  have hv : v < w.cells.length := h.listed.range v (List.mem_cons_self ..)
  obtain ⟨cell, hcell⟩ : ∃ cell, w.cells[v]? = some cell := ⟨_, List.getElem?_eq_getElem hv⟩
  have hsize : v < size := h.length ▸ hv
  cases hp : cell.pinned with
  | true => exact ⟨_, visit_of_pinned eqs hcell hp, h.leave hcell (.inl hp)⟩
  | false =>
    obtain ⟨found, hfound, hgood⟩ := heqs.evaluate w.fact h.known v hsize
    cases found with
    | none =>
      exact ⟨_, visit_of_unknown hcell hp hfound,
        h.leave hcell (.inr ⟨w.fact, none, fun _ _ => rfl, hfound, nofun⟩)⟩
    | some f =>
      obtain ⟨t, ht, hgoodt⟩ := heqs.top v hsize
      obtain ⟨users, husers⟩ : ∃ users, eqs.users[v]? = some users :=
        ⟨_, List.getElem?_eq_getElem (heqs.users.symm ▸ hsize)⟩
      by_cases hover : eqs.budget < cell.visits + 1
      · have hfact : settle eqs v (decide (eqs.budget < cell.visits + 1)) f = .ok t := by
          simpa [settle, hover] using ht
        exact ⟨_, visit_of_found hcell hp hfound hfact husers,
          h.record hcell husers (hgoodt f (hgood f rfl)) (fun _ => ⟨ht, hover⟩)
            fun hno => absurd hover (by simpa using hno)⟩
      · have hfact : settle eqs v (decide (eqs.budget < cell.visits + 1)) f = .ok f := by
          simp [settle, hover]
        exact ⟨_, visit_of_found hcell hp hfound hfact husers,
          h.record hcell husers (hgood f rfl) (fun hyes => absurd (by simpa using hyes) hover)
            fun _ => hfound⟩

end Visit

/-! ### Runs -/

theorem cell_of_start {size : Nat} {v : ValueId} {cell : Cell α}
    (h : (start size : Worklist α).cells[v]? = some cell) : cell = {} := by
  simp only [start, List.getElem?_replicate] at h
  split at h
  · exact (Option.some.inj h).symm
  · cases h

theorem listed_start (size : Nat) :
    Listed (start size : Worklist α).cells (start size : Worklist α).queue := by
  constructor
  · intro v cell hc _
    have hlt := (List.getElem?_eq_some_iff.mp hc).1
    simpa [start] using hlt
  · intro v hv
    simpa [start] using hv

theorem consistent_start (eqs : Equations α) (size : Nat) (Good : ValueId → α → Prop) :
    Consistent eqs size Good (start size) (start size : Worklist α).queue := by
  refine ⟨by simp [start], listed_start size, ?_, by simp [start], ?_, ?_⟩
  · intro v cell f hc hf
    rw [cell_of_start hc] at hf
    cases hf
  · intro v cell hc hp
    rw [cell_of_start hc] at hp
    cases hp
  · intro v cell hc hq
    rw [cell_of_start hc] at hq
    cases hq

theorem run_of_nil [DecidableEq α] (eqs : Equations α) {w : Worklist α} (hq : w.queue = []) :
    w.run eqs = (w, none) := by
  rw [Worklist.run]
  split
  · rfl
  · next hcons =>
    rw [hq] at hcons
    cases hcons

theorem run_of_fault [DecidableEq α] {eqs : Equations α} {w : Worklist α} {v : ValueId}
    {rest : List ValueId} (hq : w.queue = v :: rest) {fault : Fault}
    (hv : Worklist.visit eqs { w with queue := rest } v = .error fault) :
    w.run eqs = (w, some fault) := by
  rw [Worklist.run]
  split
  · next hnil =>
    rw [hq] at hnil
    cases hnil
  · next u rest' hcons =>
    rw [hq] at hcons
    cases hcons
    split
    · next herr =>
      rw [hv] at herr
      cases herr
      rfl
    · next hok =>
      rw [hv] at hok
      cases hok

theorem run_of_visit [DecidableEq α] {eqs : Equations α} {w next : Worklist α} {v : ValueId}
    {rest : List ValueId} (hq : w.queue = v :: rest)
    (hv : Worklist.visit eqs { w with queue := rest } v = .ok next) : w.run eqs = next.run eqs := by
  rw [Worklist.run]
  split
  · next hnil =>
    rw [hq] at hnil
    cases hnil
  · next u rest' hcons =>
    rw [hq] at hcons
    cases hcons
    split
    · next herr =>
      rw [hv] at herr
      cases herr
    · next next' hok =>
      rw [hv] at hok
      cases hok
      rfl

theorem Consistent.pop {eqs : Equations α} {size : Nat} {Good : ValueId → α → Prop}
    {w : Worklist α} {v : ValueId} {rest : List ValueId} (hq : w.queue = v :: rest)
    (h : Consistent eqs size Good w w.queue) :
    Consistent eqs size Good { w with queue := rest } (v :: rest) := by
  rw [hq] at h
  exact ⟨h.length, h.listed, h.good, h.history,
    fun u c hc hp => ⟨(h.pinned u c hc hp).top, (h.pinned u c hc hp).noted⟩, h.settled⟩

theorem Consistent.run [DecidableEq α] {eqs : Equations α} {size : Nat} {Good : ValueId → α → Prop}
    (heqs : eqs.Total size Good) (w : Worklist α) (h : Consistent eqs size Good w w.queue) :
    ∃ final, w.run eqs = (final, none) ∧ Consistent eqs size Good final [] := by
  induction w using Worklist.run.induct eqs with
  | case1 w hq => exact ⟨w, run_of_nil eqs hq, hq ▸ h⟩
  | case2 w v rest hq fault hfault =>
    obtain ⟨next, hnext, _⟩ := (h.pop hq).visit heqs
    rw [hfault] at hnext
    cases hnext
  | case3 w v rest hq next hnext ih =>
    obtain ⟨next', hnext', hcons⟩ := (h.pop hq).visit heqs
    rw [hnext] at hnext'
    cases hnext'
    rw [run_of_visit hq hnext]
    exact ih hcons

/-- Where nothing waits all is settled. -/
theorem Consistent.settled_of_nil {eqs : Equations α} {size : Nat} {Good : ValueId → α → Prop}
    {w : Worklist α} (h : Consistent eqs size Good w []) {v : ValueId} {cell : Cell α}
    (hcell : w.cells[v]? = some cell) : w.Settled eqs v cell := by
  apply h.settled v cell hcell
  cases hq : cell.queued with
  | false => rfl
  | true => cases h.listed.queued v cell hcell hq

end Worklist

/-- A run of equations that never fault ends without a fault, and with nothing that waits. -/
theorem Equations.Total.run [DecidableEq α] {eqs : Equations α} {size : Nat}
    {Good : ValueId → α → Prop} (heqs : eqs.Total size Good) :
    ∃ final, (Worklist.start size).run eqs = (final, none) ∧
      final.Consistent eqs size Good [] :=
  Worklist.Consistent.run heqs _ (Worklist.consistent_start eqs size Good)

end TileFacts

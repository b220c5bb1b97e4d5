import TileFacts.Proofs.Fixpoint
import TileFacts.Proofs.Visits
import Mathlib.Data.Nat.Log

/-! The visit budget is only a backstop.

Facts have a height (`Fact.height`), which a join lowers unless it changes nothing, and which is
least where nothing is known. So a merge changes a bounded number of times, whatever its inputs do.
A grounded value that is no merge changes no more often than its operands let it, and one that is
not grounded never changes. Hence all visits stay within a bound that depends on the graph alone
(`Inference.exists_visits_le`), whatever the rules are, and a budget above it is never used up. -/
namespace TileFacts

/-! ### Heights -/

/-- Nothing has changed, or it is lower than before. -/
def Descends {α : Type} (height : α → Nat) (new old : α) : Prop :=
  new = old ∨ height new < height old

theorem Descends.le {α : Type} {height : α → Nat} {new old : α} (h : Descends height new old) :
    height new ≤ height old := by
  rcases h with rfl | hlt
  · exact Nat.le_refl _
  · exact Nat.le_of_lt hlt

/-- A pair that changes is lower if each of its parts is where it changes. -/
theorem Descends.pair {α β : Type} {height : α → Nat} {height' : β → Nat} {a b : α} {c d : β}
    (hleft : Descends height a b) (hright : Descends height' c d) :
    Descends (fun p => height p.1 + height' p.2) (a, c) (b, d) := by
  have hle := hright.le
  rcases hleft with rfl | hleft
  · rcases hright with rfl | hright
    · exact .inl rfl
    · exact .inr (Nat.add_lt_add_left hright _)
  · exact .inr (Nat.add_lt_add_of_lt_of_le hleft hle)

namespace Word

/-- How many times a word can lose divisors. Zero has all of them, and a join takes the sign. -/
def height (n : Int64) : Nat :=
  if n.toInt = 0 then 65 else Nat.log 2 n.toInt.natAbs + if n.toInt < 0 then 1 else 0

theorem height_le (n : Int64) : height n ≤ 65 := by
  have hmin := n.minValue_le_toInt
  have hmax := n.toInt_le
  rw [Int64.toInt_minValue] at hmin
  rw [Int64.toInt_maxValue] at hmax
  have hlog : Nat.log 2 n.toInt.natAbs < 64 := Nat.log_lt_of_lt_pow' (by decide) (by omega)
  unfold height
  split
  · exact Nat.le_refl _
  · split <;> omega

theorem eq_one_of_height {n : Int64} (h : height n = 0) : n = 1 := by
  unfold height at h
  split at h
  · cases h
  · next hne =>
    have hlog : Nat.log 2 n.toInt.natAbs = 0 := by omega
    have hpos : ¬ n.toInt < 0 := by
      intro hneg
      rw [if_pos hneg] at h
      omega
    have hlt : n.toInt.natAbs < 2 := by
      rcases Nat.log_eq_zero_iff.mp hlog with hlt | hbase
      · exact hlt
      · exact absurd hbase (by decide)
    exact Int64.toInt_inj.mp (show n.toInt = 1 by omega)

/-- A proper divisor has at most half the bits. -/
theorem log_lt_of_dvd {d n : Nat} (hn : n ≠ 0) (hdvd : d ∣ n) (hne : d ≠ n) :
    Nat.log 2 d < Nat.log 2 n := by
  obtain ⟨k, rfl⟩ := hdvd
  have hd : d ≠ 0 := by
    rintro rfl
    simp at hn
  have hk : 2 ≤ k := by
    rcases k with _ | _ | k
    · simp at hn
    · simp at hne
    · omega
  calc Nat.log 2 d < Nat.log 2 d + 1 := Nat.lt_succ_self _
    _ = Nat.log 2 (d * 2) := (Nat.log_mul_base (by decide) hd).symm
    _ ≤ Nat.log 2 (d * k) := Nat.log_mono_right (Nat.mul_le_mul_left d hk)

theorem height_of_pos {n : Int64} (h : 0 < n.toInt) : height n = Nat.log 2 n.toInt.natAbs := by
  rw [height, if_neg (by omega), if_neg (by omega), Nat.add_zero]

/-- A common divisor has lost none of the divisors of a word, or is lower. -/
theorem gcd_descends (a b : Int64) : Descends height (gcd a b) a := by
  by_cases hsame : gcd a b = a
  · exact .inl hsame
  right
  have hne : (gcd a b).toInt ≠ a.toInt := fun h => hsame (Int64.toInt_inj.mp h)
  have hgcd := toInt_gcd a b
  have hmax := Int64.toInt_maxValue
  rcases lt_trichotomy a.toInt 0 with hneg | hzero | hpos
  · -- The sign goes, and the magnitude does not grow.
    have hle : Nat.gcd a.toInt.natAbs b.toInt.natAbs ≤ a.toInt.natAbs :=
      Nat.gcd_le_left _ (by omega)
    have hpos : 0 < Nat.gcd a.toInt.natAbs b.toInt.natAbs := Nat.gcd_pos_of_pos_left _ (by omega)
    have hlog : Nat.log 2 (gcd a b).toInt.natAbs ≤ Nat.log 2 a.toInt.natAbs :=
      Nat.log_mono_right (by omega)
    rw [height_of_pos (by omega), height, if_neg (by omega), if_pos hneg]
    omega
  · have hlog : Nat.log 2 (gcd a b).toInt.natAbs < 63 :=
      Nat.log_lt_of_lt_pow' (by decide) (by omega)
    rw [height_of_pos (by omega), height, if_pos hzero]
    omega
  · have hdvd := gcd_dvd_left (b := b) hpos
    rw [height_of_pos (gcd_pos hpos), height_of_pos hpos]
    exact log_lt_of_dvd (by omega) (Int.natAbs_dvd_natAbs.mpr hdvd) (by omega)

end Word

/-- The height of a step: it can be forgotten. -/
def stepHeight (step : Int64) : Nat := if step = unknownStep then 0 else 1

/-- How many times an axis can lose knowledge. -/
def Axis.height (a : Axis) : Nat :=
  Word.height a.divisibility + Word.height a.run + stepHeight a.step

/-- How many times a fact can lose knowledge. -/
def Fact.height (f : Fact) : Nat := (f.axes.map Axis.height).sum + f.constant.toList.length

namespace Axis

theorem height_top : top.height = 0 := by decide

theorem height_le (a : Axis) : a.height ≤ 131 := by
  have hdivisibility := Word.height_le a.divisibility
  have hrun := Word.height_le a.run
  unfold height stepHeight
  split <;> omega

theorem eq_top_of_height {a : Axis} (h : a.height = 0) : a = top := by
  obtain ⟨divisibility, run, step⟩ := a
  have hsum : Word.height divisibility + Word.height run + stepHeight step = 0 := h
  have hdivisibility : divisibility = 1 := Word.eq_one_of_height (by omega)
  have hrun : run = 1 := Word.eq_one_of_height (by omega)
  have hstep : step = unknownStep := by
    by_contra hknown
    simp [stepHeight, hknown] at hsum
  rw [hdivisibility, hrun, hstep]
  rfl

theorem step_join_descends (a b : Axis) : Descends stepHeight (a.join b).step a.step := by
  by_cases hsame : a.step = b.step
  · left
    simp [join, hsame]
  · by_cases hunknown : a.step = unknownStep
    · left
      simp [join, hunknown]
    · right
      simp [join, stepHeight, hsame, hunknown]

theorem join_descends (a b : Axis) : Descends height (a.join b) a := by
  have hparts := ((Word.gcd_descends a.divisibility b.divisibility).pair
    (Word.gcd_descends a.run b.run)).pair (step_join_descends a b)
  rcases hparts with hsame | hlt
  · left
    simp only [Prod.mk.injEq] at hsame
    obtain ⟨⟨hdivisibility, hrun⟩, hstep⟩ := hsame
    calc a.join b = ⟨Word.gcd a.divisibility b.divisibility, Word.gcd a.run b.run,
          (a.join b).step⟩ := rfl
      _ = a := by rw [hdivisibility, hrun, hstep]
  · exact .inr hlt

theorem zipWith_join_descends {xs ys : List Axis} (h : xs.length = ys.length) :
    Descends (fun axes => (axes.map height).sum) (List.zipWith join xs ys) xs := by
  induction xs generalizing ys with
  | nil => exact .inl rfl
  | cons x xs ih =>
    cases ys with
    | nil => cases h
    | cons y ys =>
      rcases (join_descends x y).pair (ih (Nat.succ.inj h)) with hsame | hlt
      · left
        rw [Prod.mk.injEq] at hsame
        rw [List.zipWith_cons_cons, hsame.1, hsame.2]
      · right
        simpa using hlt

end Axis

namespace Fact

theorem height_top (n : Nat) : (top n).height = 0 := by
  simp [height, top, Axis.height_top]

theorem height_le (f : Fact) : f.height ≤ 131 * f.rank + 1 := by
  have hsum : (f.axes.map Axis.height).sum ≤ f.axes.length * 131 := by
    have := List.sum_le_card_nsmul (f.axes.map Axis.height) 131 (by
      intro n hn
      obtain ⟨a, _, rfl⟩ := List.mem_map.mp hn
      exact a.height_le)
    simpa using this
  have hconstant : f.constant.toList.length ≤ 1 := by
    cases f.constant <;> simp
  unfold height rank
  omega

theorem eq_top_of_height {f : Fact} (h : f.height = 0) : f = top f.rank := by
  obtain ⟨axes, constant⟩ := f
  obtain ⟨hsum, hconstant⟩ := Nat.add_eq_zero_iff.mp h
  have haxes : axes = List.replicate axes.length Axis.top := by
    refine List.eq_replicate_of_mem fun a ha => Axis.eq_top_of_height ?_
    exact List.sum_eq_zero_iff.mp hsum _ (List.mem_map_of_mem ha)
  have hnone : constant = none := by
    cases constant with
    | none => rfl
    | some c => cases hconstant
  rw [top, rank, ← haxes, hnone]

theorem commonConstant_descends (a b : Option Int64) :
    Descends (fun c => c.toList.length) (commonConstant a b) a := by
  unfold commonConstant
  split
  · exact .inl rfl
  · cases a with
    | none => exact .inl rfl
    | some _ => exact .inr Nat.zero_lt_one

/-- A fact that is joined with another says the same as before, or is lower. -/
theorem descends_of_join {a b c : Fact} (h : a.join b = .ok c) : Descends height c a := by
  obtain ⟨hrank, rfl⟩ := join_eq_ok.mp h
  rcases (Axis.zipWith_join_descends hrank).pair
    (commonConstant_descends a.constant b.constant) with hsame | hlt
  · left
    rw [Prod.mk.injEq] at hsame
    rw [hsame.1, hsame.2]
  · exact .inr hlt

end Fact

/-! ### Visits -/

namespace Inference

variable {g : Graph} {book : Rulebook} {users : List (List ValueId)}

/-- The level of what is known of a value: above all facts of its rank while it is not worked
out. -/
def level (rank : Nat) (known : Option Fact) : Nat := known.elim (131 * rank + 2) Fact.height

/-- A merge that changes goes down, whether it is worked out or given up. -/
theorem level_lt_of_merge (hg : g.WellTyped) (hbook : book.Reliable g) (settings : Settings)
    (husers : users.length = g.size) {v : ValueId} {node : Node} (hnode : g.nodes[v]? = some node)
    (hop : node.op.kind = .merge) {fact : ValueId → Checked (Option Fact)}
    (hfact : ∀ u < g.size, ∃ known, fact u = .ok known ∧ ∀ f, known = some f → Fits g u f)
    {known : Option Fact} {found kept : Fact} {pinned : Bool} (hknown : fact v = .ok known)
    (hfound : evaluate g book fact v = .ok (some found))
    (hkept : Worklist.settle (equations g book settings users) v pinned found = .ok kept)
    (hne : known ≠ some kept) :
    level node.type.factRank (some kept) < level node.type.factRank known := by
  have hv : v < g.size := (List.getElem?_eq_some_iff.mp hnode).1
  have hrank : ∀ f, Fits g v f → f.rank = node.type.factRank := by
    rintro f ⟨t, ht, hf⟩
    rw [Graph.typeOf?, hnode] at ht
    cases ht
    exact hf
  cases pinned with
  | true =>
    have htop : kept = .top node.type.factRank :=
      Except.ok.inj (hkept.symm.trans (top_eq_ok book settings users hnode))
    subst htop
    show Fact.height _ < _
    rw [Fact.height_top]
    cases known with
    | none => exact Nat.succ_pos _
    | some p =>
      obtain ⟨_, hp, hfits⟩ := hfact v hv
      rw [hknown] at hp
      cases hp
      refine Nat.pos_of_ne_zero fun hzero => hne ?_
      rw [Fact.eq_top_of_height hzero, hrank p (hfits p rfl)]
  | false =>
    cases hkept
    cases known with
    | none =>
      obtain ⟨_, heval, hfits⟩ := (equations_total hg hbook settings husers).evaluate fact hfact v hv
      cases hfound.symm.trans heval
      have hle := found.height_le
      rw [hrank found (hfits found rfl)] at hle
      exact Nat.lt_succ_of_le hle
    | some p =>
      cases evaluated_of_eq_ok hnode hfound with
      | answered hno => exact absurd hop hno
      | merged _ _ hprevious hmerge =>
        cases hknown.symm.trans hprevious
        obtain ⟨j, hjoin⟩ := join_of_mergeFact hmerge
        exact (Fact.descends_of_join hjoin).resolve_left fun hsame => hne (by rw [hsame])

/-- A value changes a bounded number of times, whatever the budget is. -/
theorem exists_changes_le (hg : g.WellTyped) (hbook : book.Reliable g)
    (husers : users.length = g.size) (hnotes : ∀ u v, Notes users u v ↔ g.Uses v u) (v : ValueId) :
    ∃ bound, ∀ settings w, Worklist.Reached (equations g book settings users) g.size w →
      w.changes v ≤ bound := by
  by_cases hground : g.Grounded v
  · -- By induction on how the value is grounded: operations take their bounds from their operands,
    -- which stops at merges, whose inputs may come back to them.
    induction hground with
    | @merge v u node hnode hop hu _ _ =>
      refine ⟨level node.type.factRank none, fun settings w hw => ?_⟩
      have hv : v < w.cells.length := hw.length ▸ (List.getElem?_eq_some_iff.mp hnode).1
      have hsum := hw.changes_add_level (equations_total hg hbook settings husers)
        (fun fact hfact known found pinned kept hknown hfound hkept hne =>
          level_lt_of_merge hg hbook settings husers hnode hop hfact hknown hfound hkept hne)
        (List.getElem?_eq_getElem hv)
      omega
    | @op v node hnode hop _ ih =>
      choose! bound hbound using ih
      refine ⟨1 + ∑ x ∈ Finset.range g.size, timesUsed users x v * bound x, fun settings w hw => ?_⟩
      refine (hw.changes_le_visits v).trans (hw.visits_le fun x => ?_)
      show timesUsed users x v * _ ≤ timesUsed users x v * _
      by_cases hunused : timesUsed users x v = 0
      · rw [hunused, Nat.zero_mul, Nat.zero_mul]
      · obtain ⟨node', hnode', hx⟩ := (hnotes x v).mp (notes_of_timesUsed hunused)
        cases hnode.symm.trans hnode'
        exact Nat.mul_le_mul_left _ (hbound x hx settings w hw)
  · refine ⟨0, fun settings w hw => ?_⟩
    have hconsistent := hw.consistent (equations_grounded hg hbook settings husers)
    refine (List.countP_eq_zero.mpr fun visit hvisit => ?_).le
    intro hchanged
    simp only [Bool.and_eq_true, beq_iff_eq] at hchanged
    obtain ⟨rfl, _⟩ := hchanged
    exact hground (hconsistent.history visit hvisit).2

/-- No value is worked out more often than some bound, whatever the budget is. -/
theorem exists_visits_le (hg : g.WellTyped) (hbook : book.Reliable g)
    (husers : users.length = g.size) (hnotes : ∀ u v, Notes users u v ↔ g.Uses v u) :
    ∃ bound, ∀ settings w, Worklist.Reached (equations g book settings users) g.size w →
      ∀ v, w.visits v ≤ bound := by
  choose changes hchanges using exists_changes_le hg hbook husers hnotes
  refine ⟨1 + ∑ x ∈ Finset.range g.size, (users[x]?.getD []).length * changes x, ?_⟩
  intro settings w hw v
  exact hw.visits_le fun x => Nat.mul_le_mul List.count_le_length (hchanges x settings w hw)

/-- Nothing is given up unless a visit says so. -/
theorem Trace.not_pinned {settings : Settings} {final : Worklist Fact}
    (h : Trace g book settings users final) : (∀ v count, Event.pinned v count ∉
      (Inference.run g book settings).1) ↔ ∀ visit ∈ final.history, visit.pinned = false := by
  constructor
  · intro hnone visit hvisit
    by_contra hpinned
    refine hnone visit.value visit.count ((h.mem_events rfl).mpr ⟨visit, hvisit, ?_⟩)
    exact mem_visitEvents_pinned.mpr ⟨Bool.not_eq_false _ ▸ hpinned, rfl, rfl⟩
  · intro hfree v count hevent
    obtain ⟨visit, hvisit, hevent⟩ := (h.mem_events rfl).mp hevent
    obtain ⟨hpinned, _, _⟩ := mem_visitEvents_pinned.mp hevent
    rw [hfree visit hvisit] at hpinned
    cases hpinned

/-- A budget under which nothing is given up is ample: a larger one changes nothing. -/
theorem run_of_not_pinned (hg : g.WellTyped) (hbook : book.Reliable g) {settings : Settings}
    (hnone : ∀ v count, Event.pinned v count ∉ (run g book settings).1) (larger : Settings)
    (hle : settings.maxVisits ≤ larger.maxVisits) :
    (run g book larger).2 = (run g book settings).2 ∧
      ∀ v count, Event.pinned v count ∉ (run g book larger).1 := by
  obtain ⟨users, final, htrace⟩ := exists_trace hg hbook settings
  have hfree := htrace.not_pinned.mp hnone
  have hlarger : Trace g book larger users final :=
    ⟨htrace.table, htrace.length, htrace.notes, Worklist.run_withBudget hfree hle htrace.run⟩
  exact ⟨hlarger.result.trans htrace.result.symm, hlarger.not_pinned.mpr hfree⟩

/-- A budget that is large enough for a graph is never used up: no value is given up, and what is
inferred does not depend on the budget, nor how often values are worked out. This holds of every
graph that can be built, loops of merges and values defined by each other included, and whatever
the rules are, as long as they give facts of the right ranks. -/
theorem exists_ample_budget (hg : g.Built) (hbook : book.Reliable g) :
    ∃ bound inference, ∀ settings : Settings, bound ≤ settings.maxVisits →
      (run g book settings).2 = .ok inference ∧
      ∀ v count, Event.pinned v count ∉ (run g book settings).1 := by
  obtain ⟨users, htable, hlength, hnotes⟩ := hg.wellTyped.users
  obtain ⟨bound, hbound⟩ := exists_visits_le hg.wellTyped hbook hlength hnotes
  obtain ⟨final, hrun, _⟩ := (equations_total hg.wellTyped hbook ⟨bound, false⟩ hlength).run
  have htrace : Trace g book ⟨bound, false⟩ users final := ⟨htable, hlength, hnotes, hrun⟩
  have hfree : ∀ visit ∈ final.history, visit.pinned = false := by
    intro visit hvisit
    have hreached := Worklist.Reached.start.run hrun
    obtain ⟨hcount, hpinned⟩ := hreached.history hvisit
    rw [hpinned]
    exact decide_eq_false (hcount.trans (hbound ⟨bound, false⟩ final hreached visit.value)).not_gt
  refine ⟨bound, ofWorklist g final, fun settings hle => ?_⟩
  obtain ⟨hsame, hnone⟩ :=
    run_of_not_pinned hg.wellTyped hbook (htrace.not_pinned.mpr hfree) settings hle
  exact ⟨hsame.trans htrace.result, hnone⟩

/-- The loop of sums takes three visits of its merge. A budget of two gives it up, and every larger
one leaves it with the multiples of four, after nine visits in all. -/
theorem exists_ample_budget_loops : Graph.loops.Built ∧ Rulebook.standard.Reliable .loops ∧
    Event.pinned 2 3 ∈ (run .loops .standard ⟨2, false⟩).1 ∧
    ∃ inference : Inference, inference.facts = [some ⟨[⟨8, 1, 0⟩], some 8⟩,
        some ⟨[⟨4, 1, 0⟩], some 4⟩, some ⟨[⟨4, 1, 0⟩], none⟩, some ⟨[⟨4, 1, 0⟩], none⟩,
        some ⟨[⟨4, 1, 0⟩], none⟩, some ⟨[⟨1, 1, 0⟩], some 1⟩, none, none] ∧
      inference.iterations = 9 ∧
      (∀ settings : Settings, 3 ≤ settings.maxVisits →
        (run .loops .standard settings).2 = .ok inference ∧
        ∀ v count, Event.pinned v count ∉ (run .loops .standard settings).1) ∧
      ∃ bound, ∀ settings : Settings, bound ≤ settings.maxVisits →
        (run .loops .standard settings).2 = .ok inference ∧
        ∀ v count, Event.pinned v count ∉ (run .loops .standard settings).1 := by
  have hbook := Rulebook.standard_reliable Graph.loops_built.wellTyped
  have hnone : ∀ v count, Event.pinned v count ∉ (run .loops .standard ⟨3, false⟩).1 := by
    have hall : (run .loops .standard ⟨3, false⟩).1.all
        (fun event => match event with | .pinned .. => false | _ => true) = true := by
      decide +kernel
    intro v count hevent
    exact Bool.false_ne_true (List.all_eq_true.mp hall _ hevent)
  have hlarger (settings : Settings) (hle : 3 ≤ settings.maxVisits) :=
    run_of_not_pinned Graph.loops_built.wellTyped hbook hnone settings hle
  obtain ⟨bound, inference, hample⟩ := exists_ample_budget Graph.loops_built hbook
  have hrun : (run .loops .standard ⟨3, false⟩).2 = .ok inference :=
    (hlarger ⟨max bound 3, false⟩ (Nat.le_max_right ..)).1.symm.trans
      (hample ⟨max bound 3, false⟩ (Nat.le_max_left ..)).1
  refine ⟨Graph.loops_built, hbook, by decide +kernel, inference,
    read_of_run hrun Inference.facts (by decide +kernel),
    read_of_run hrun Inference.iterations (by decide +kernel), fun settings hle => ?_,
    bound, hample⟩
  exact ⟨(hlarger settings hle).1.trans hrun, (hlarger settings hle).2⟩

end Inference

end TileFacts

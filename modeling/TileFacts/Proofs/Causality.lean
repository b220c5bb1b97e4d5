import TileFacts.Proofs.Progress

/-! Every cycle that a lowering leaves goes through a merge.

Redirecting uses makes old values read new ones, so names do not show that a graph is causal. Levels
do: a value of the graph that the lowering began with has the level of its depth there, and what is
added for an update has the level of the update (`Graph.raise`). All values read lower levels,
except that new values read older new values of their own level (`Graph.Leveled`). Redirecting a use
keeps this, since the replacement of an update has its level. Main statement: if every cycle of a
well-typed graph goes through a merge, the same holds of what a lowering of it leaves, also if it
fails. -/
namespace TileFacts

namespace Graph

variable {g h k : Graph} {u v : ValueId}

/-! ### Cycles -/

def IsMerge (g : Graph) (v : ValueId) : Prop :=
  ∃ node, g.nodes[v]? = some node ∧ node.op.kind = .merge

/-- A walk from each value to one of its operands, from the last one back to the first. -/
def Cycle (g : Graph) : List ValueId → Prop
  | [] => False
  | v :: walk => (v :: (walk ++ [v])).IsChain g.Uses

instance : Decidable (g.Uses v u) := decidable_of_iff _ mem_usersOf

instance : DecidablePred g.Cycle
  | [] => inferInstanceAs (Decidable False)
  | v :: walk => inferInstanceAs (Decidable ((v :: (walk ++ [v])).IsChain g.Uses))

/-- Every cycle goes through a merge. -/
def CyclesMerge (g : Graph) : Prop := ∀ cycle, g.Cycle cycle → ∃ v ∈ cycle, g.IsMerge v

theorem reads_iff : g.Reads v u ↔ g.Uses v u ∧ ¬ g.IsMerge v := by
  constructor
  · intro h
    obtain ⟨node, hnode, hkind, hu⟩ := h
    refine ⟨⟨node, hnode, hu⟩, fun hmerge => ?_⟩
    obtain ⟨node', hnode', hkind'⟩ := hmerge
    rw [hnode] at hnode'
    cases hnode'
    exact hkind hkind'
  · intro h
    obtain ⟨⟨node, hnode, hu⟩, hmerge⟩ := h
    exact ⟨node, hnode, fun hkind => hmerge ⟨node, hnode, hkind⟩, hu⟩

/-- Dependence is a walk that starts at no merge and goes through none. -/
theorem dependsOn_iff : g.DependsOn v u ↔
    ∃ walk, (v :: (walk ++ [u])).IsChain g.Uses ∧ ∀ w ∈ v :: walk, ¬ g.IsMerge w := by
  constructor
  · intro h
    induction h using Relation.TransGen.head_induction_on with
    | @single v h =>
      obtain ⟨huses, hmerge⟩ := reads_iff.mp h
      exact ⟨[], by simpa using huses, by simpa using hmerge⟩
    | @head v w h _ ih =>
      obtain ⟨walk, hwalk, hmerges⟩ := ih
      obtain ⟨huses, hmerge⟩ := reads_iff.mp h
      exact ⟨w :: walk, .cons_cons huses hwalk, List.forall_mem_cons.mpr ⟨hmerge, hmerges⟩⟩
  · intro h
    obtain ⟨walk, hwalk, hmerges⟩ := h
    induction walk generalizing v with
    | nil => exact .single (reads_iff.mpr ⟨by simpa using hwalk, hmerges v (by simp)⟩)
    | cons w walk ih =>
      rw [List.forall_mem_cons] at hmerges
      rw [List.cons_append, List.isChain_cons_cons] at hwalk
      exact .head (reads_iff.mpr ⟨hwalk.1, hmerges.1⟩) (ih hwalk.2 hmerges.2)

theorem causal_iff_cyclesMerge : g.Causal ↔ g.CyclesMerge := by
  constructor
  · intro hcausal cycle hcycle
    cases cycle with
    | nil => exact hcycle.elim
    | cons v walk =>
      by_contra hmerge
      push Not at hmerge
      exact hcausal v (dependsOn_iff.mpr ⟨walk, hcycle, hmerge⟩)
  · intro hcycles v hv
    obtain ⟨walk, hwalk, hmerges⟩ := dependsOn_iff.mp hv
    obtain ⟨w, hw, hmerge⟩ := hcycles (v :: walk) hwalk
    exact hmerges w hw hmerge

/-! ### Levels -/

/-- `u` lies below `v`: on a lower level, or on the same level as an older one of the values from
`base` on. -/
def Below (base : Nat) (level : ValueId → Nat) (u v : Nat) : Prop :=
  level u < level v ∨ level u = level v ∧ base ≤ u ∧ u < v

/-- `u` may serve to build new values of a level. -/
def Serves (base : Nat) (level : ValueId → Nat) (top u : Nat) : Prop :=
  level u < top ∨ level u = top ∧ base ≤ u

/-- The levels with all values from `size` on raised to the level `top`. -/
def raise (size top : Nat) (level : ValueId → Nat) (v : Nat) : Nat :=
  if v < size then level v else top

section Raise

variable {size top v : Nat} {level : ValueId → Nat}

theorem raise_of_lt (h : v < size) : raise size top level v = level v := if_pos h

theorem raise_of_le (h : size ≤ v) : raise size top level v = top := if_neg (Nat.not_lt.mpr h)

end Raise

/-- A graph whose values read only what lies below them. -/
structure Leveled (base : Nat) (level : ValueId → Nat) (k : Graph) : Prop where
  wellTyped : k.WellTyped
  size : base ≤ k.size
  reads : ∀ v u, k.Reads v u → Below base level u v

variable {base top : Nat} {level : ValueId → Nat}

theorem WellTyped.lt_size_of_dependsOn (hg : g.WellTyped) (h : g.DependsOn v u) : u < g.size := by
  obtain ⟨w, _, node, hnode, _, hu⟩ := Relation.TransGen.tail'_iff.mp h
  exact hg.lt_size_of_uses ⟨node, hnode, hu⟩

/-- Depths are levels. -/
theorem Causal.leveled (hg : g.WellTyped) (hcausal : g.Causal) : Leveled g.size g.depth g where
  wellTyped := hg
  size := Nat.le_refl _
  reads _ _ h := .inl (hcausal.depth_lt (hg.lt_size_of_dependsOn (.single h)) (.single h))

namespace Leveled

theorem dependsOn (hk : Leveled base level k) (h : k.DependsOn v u) : Below base level u v := by
  induction h with
  | single h => exact hk.reads _ _ h
  | tail _ h ih =>
    have hstep := hk.reads _ _ h
    unfold Below at hstep ih ⊢
    omega

theorem causal (hk : Leveled base level k) : k.Causal := by
  intro v h
  have hbelow := hk.dependsOn h
  unfold Below at hbelow
  omega

/-- What an old value depends on lies on lower levels. -/
theorem level_lt (hk : Leveled base level k) {v : Nat} (hv : v < base) (h : k.DependsOn v u) :
    level u < level v := by
  have hbelow := hk.dependsOn h
  unfold Below at hbelow
  omega

end Leveled

/-- New values read older ones. -/
theorem Adds.operand_lt {P : Node → Prop} (hadds : g.Adds P h) (hg : g.WellTyped) {node : Node}
    (hv : h.nodes[v]? = some node) (hnew : g.size ≤ v) (hu : u ∈ node.op.operands) : u < v := by
  induction hadds with
  | refl => exact absurd (List.getElem?_eq_some_iff.mp hv).1 (Nat.not_lt.mpr hnew)
  | define hadds hd _ ih =>
    rcases node_push hv with hold | ⟨rfl, rfl⟩
    · exact ih hold
    · obtain ⟨t, ht⟩ := ((hadds.wellTyped hg).define hd).op.operand hu
      exact lt_size_of_typeOf? ht

namespace Leveled

/-- Values are added on a level, built from what may serve it. -/
theorem of_adds {given : ValueId → Prop} (hk : Leveled base level k)
    (hadds : k.Adds (Node.Draws k given) h) (hgiven : ∀ u, given u → Serves base level top u) :
    Leveled base (raise k.size top level) h where
  wellTyped := hadds.wellTyped hk.wellTyped
  size := Nat.le_trans hk.size hadds.size_le
  reads v u hreads := by
    obtain ⟨node, hv, hkind, hu⟩ := hreads
    rcases hadds.cases_node hv with hold | ⟨hnew, hdraws⟩
    · have hlt : v < k.size := (List.getElem?_eq_some_iff.mp hold).1
      have hbelow := hk.reads v u ⟨node, hold, hkind, hu⟩
      unfold Below at hbelow ⊢
      rwa [raise_of_lt hlt, raise_of_lt (hk.wellTyped.lt_size_of_uses ⟨node, hold, hu⟩)]
    · have hlt : u < v := hadds.operand_lt hk.wellTyped hv hnew hu
      unfold Below
      rw [raise_of_le hnew]
      rcases Nat.lt_or_ge u k.size with hold | hle
      · have hserves := hgiven u ((hdraws.operands u hu).resolve_right (Nat.not_le.mpr hold))
        rw [raise_of_lt hold]
        exact hserves.imp_right fun hsame => ⟨hsame.1, hsame.2, hlt⟩
      · rw [raise_of_le hle]
        exact .inr ⟨rfl, Nat.le_trans hk.size hle, hlt⟩

/-- The uses of an old value are redirected to a value of its level. -/
theorem redirect {old new : ValueId} (hk : Leveled base level k) (hold : old < base)
    (hlevel : level new = level old) (hsame : k.typeOf? old = k.typeOf? new) :
    Leveled base level (k.redirectUses old new) where
  wellTyped := hk.wellTyped.redirectUses hsame
  size := by
    rw [size_redirectUses]
    exact hk.size
  reads v u hreads := by
    obtain ⟨node, hv, hkind, hu⟩ := hreads
    obtain ⟨before, hbefore, ⟨_, rfl⟩ | ⟨_, rfl⟩⟩ := node_of_redirectUses hv
    · exact hk.reads v u ⟨_, hbefore, hkind, hu⟩
    · rw [Op.kind_mapOperands] at hkind
      rw [Op.operands_mapOperands] at hu
      obtain ⟨w, hw, rfl⟩ := List.mem_map.mp hu
      have hreads : k.Reads v w := ⟨before, hbefore, hkind, hw⟩
      unfold Graph.redirect
      split
      · -- What reads an old value lies strictly above it, and so above its replacement.
        next heq =>
        rw [heq] at hreads
        refine .inl ?_
        rw [hlevel]
        rcases hk.reads v old hreads with hlt | ⟨_, hle, _⟩
        · exact hlt
        · exact absurd hold (Nat.not_lt.mpr hle)
      · exact hk.reads v w hreads

end Leveled

end Graph

namespace Lowering

open Build
open TileFacts.Graph (Leveled Serves raise raise_of_lt raise_of_le)

variable {g h k : Graph} {a : ValueId} {t : Target} {s s' : Session} {base size : Nat}
  {level : ValueId → Nat} {settings : Settings} {inference : Inference}
  {done : List LoweringRecord}

/-! ### Targets -/

/-- The target of an old update, with values of a graph that may serve to build its replacement. -/
structure Target.Served (t : Target) (base : Nat) (level : ValueId → Nat) (size : Nat) : Prop where
  atomic : t.atomic < base
  given : t.Given fun u => u < size ∧ Serves base level (level t.atomic) u

theorem Target.Served.congr {size' : Nat} {level' : ValueId → Nat}
    (ht : t.Served base level size) (hbase : base ≤ size) (hsize : size ≤ size')
    (hlevel : ∀ v < size, level' v = level v) : t.Served base level' size' := by
  refine ⟨ht.atomic, ht.given.imp fun u hu => ?_⟩
  unfold Serves
  rw [hlevel u hu.1, hlevel t.atomic (Nat.lt_of_lt_of_le ht.atomic hbase)]
  exact ⟨Nat.lt_of_lt_of_le hu.1 hsize, hu.2⟩

/-- Replacements have the levels of what they replace, so they may serve in its place. -/
theorem Target.Served.rename (ht : t.Served base level h.size) (hbase : base ≤ h.size)
    (hk : Replaced h done k) (hdone : ∀ r ∈ done, level r.replacement = level r.atomic) :
    (t.rename (resolve done)).Given (Serves base level (level t.atomic)) := by
  refine .rename (ht.given.imp fun u hu => ?_)
  rcases resolve_cases done u with ⟨_, heq⟩ | ⟨r, hr, rfl, heq⟩
  · rw [heq]
    exact hu.2
  · rw [heq, Serves, hdone r hr]
    exact hu.2.imp_right fun hsame => ⟨hsame.1, Nat.le_trans hbase (hk.fresh r hr)⟩

/-- A target is built from values of the graph. -/
theorem target_lt_size (hs : s.graph.WellTyped) (hcausal : s.graph.Causal)
    (hrun : target a s = .ok t s') : t.Given (· < s'.graph.size) := by
  obtain ⟨op, ptr, value, mask, type, address, ha, htrack, rfl⟩ := target_eq_ok hrun
  cases (hs a _ ha).op with
  | atomicRmw hptr hvalue hpointee _ hmask =>
    obtain ⟨hadds, _, ⟨b, hbase, _⟩, o, hoffset, _⟩ := (Address.track_progress hs hcausal hptr
      (Element.isPointer_of_pointee? hpointee)).of_ok htrack
    refine ⟨Graph.lt_size_of_typeOf? hbase, Graph.lt_size_of_typeOf? hoffset,
      Graph.lt_size_of_typeOf? (hadds.typeOf? hvalue), fun m hm => ?_⟩
    obtain ⟨b, hb, _⟩ := hmask m hm
    exact Graph.lt_size_of_typeOf? (hadds.typeOf? hb)

/-- Splitting the pointer of an update adds values on its level, and gives a target that may serve
it. -/
theorem target_leveled (hs : Leveled base level s.graph) (ha : a < base)
    (hrun : target a s = .ok t s') :
    Leveled base (raise s.graph.size (level a) level) s'.graph ∧
      t.Served base (raise s.graph.size (level a) level) s'.graph.size := by
  obtain ⟨hadds, rfl, hgiven⟩ := (target_ends a).of_ok hrun
  have hlt {u : ValueId} (hu : s.graph.DependsOn t.atomic u) : level u < level t.atomic :=
    hs.level_lt ha hu
  refine ⟨hs.of_adds hadds fun u hu => .inl (hlt hu), ha, ?_⟩
  refine ((target_lt_size hs.wellTyped hs.causal hrun).and hgiven).imp fun u hu => ⟨hu.1, ?_⟩
  rw [Serves, raise_of_lt (Nat.lt_of_lt_of_le ha hs.size)]
  rcases hu.2 with hdep | hnew
  · rw [raise_of_lt (hs.wellTyped.lt_size_of_dependsOn hdep)]
    exact .inl (hlt hdep)
  · rw [raise_of_le hnew]
    exact .inr ⟨rfl, Nat.le_trans hs.size hnew⟩

theorem mapM_target_leveled {updates : List ValueId} {targets : List Target}
    (hs : Leveled base level s.graph) (hupdates : ∀ a ∈ updates, a < base)
    (hrun : updates.mapM target s = .ok targets s') :
    ∃ level' : ValueId → Nat, (∀ v < s.graph.size, level' v = level v) ∧
      Leveled base level' s'.graph ∧ ∀ t ∈ targets, t.Served base level' s'.graph.size := by
  induction updates generalizing s level targets with
  | nil =>
    obtain ⟨rfl, rfl⟩ := Build.pure_eq_ok.mp hrun
    exact ⟨level, fun _ _ => rfl, hs, by rintro _ ⟨⟩⟩
  | cons a rest ih =>
    rw [List.forall_mem_cons] at hupdates
    rw [List.mapM_cons] at hrun
    obtain ⟨t, s₁, ht, hrun⟩ := Build.bind_eq_ok.mp hrun
    obtain ⟨more, s₂, hmore, hrun⟩ := Build.bind_eq_ok.mp hrun
    obtain ⟨rfl, rfl⟩ := Build.pure_eq_ok.mp hrun
    obtain ⟨hs₁, hserved⟩ := target_leveled hs hupdates.1 ht
    obtain ⟨level', hagree, hs₂, hmore'⟩ := ih hs₁ hupdates.2 hmore
    have hsize : s.graph.size ≤ s₁.graph.size := ((target_ends a).of_ok ht).1.size_le
    have hsize₁ := ((draws_mapM target_draws rest s₁ .refl).of_ok hmore).1.size_le
    refine ⟨level', fun v hv => ?_, hs₂, List.forall_mem_cons.mpr ⟨?_, hmore'⟩⟩
    · rw [hagree v (Nat.lt_of_lt_of_le hv hsize), raise_of_lt hv]
    · exact hserved.congr hs₁.size hsize₁ hagree

/-! ### Replacements -/

/-- A replacement is added on the level of its update and takes over its uses. -/
theorem replace_leveled {pattern : AccessPattern} (hs : Leveled base level s.graph)
    (hatomic : t.atomic < base) (ht : t.Given (Serves base level (level t.atomic))) :
    (replace t pattern).Ends s
      (fun record k => record.atomic = t.atomic ∧ s.graph.size ≤ record.replacement ∧
        Leveled base (raise s.graph.size (level t.atomic) level) k)
      (fun _ k => k.Causal) := by
  refine (replace_ends ht).imp (fun record k hrecord => ?_) fun _ k hadds =>
    (hs.of_adds hadds fun _ hu => hu).causal
  obtain ⟨hrecord, @⟨grown, hadds, hnew, hsame⟩⟩ := hrecord
  refine ⟨hrecord, hnew, (hs.of_adds hadds fun _ hu => hu).redirect hatomic ?_ hsame⟩
  rw [raise_of_le hnew, raise_of_lt (Nat.lt_of_lt_of_le hatomic hs.size)]

theorem accessPattern_keeps (offset : ValueId) {I : Graph → Prop} (hs : I s.graph) :
    (accessPattern inference offset).Ends s (fun _ k => k = s.graph) fun _ k => I k :=
  ends_inspect (fun _ _ => rfl) fun _ _ => hs

/-- The step: the next replacement is added on the level of its update. -/
theorem replaceNext_leveled (ht : Tracked h a t) (hserved : t.Served base level h.size)
    (hbase : base ≤ h.size) (hreplaced : Replaced h done s.graph)
    (hs : Leveled base level s.graph)
    (hdone : ∀ r ∈ done, level r.replacement = level r.atomic) :
    (replaceNext inference done t).Ends s
      (fun record k => record.atomic = t.atomic ∧ s.graph.size ≤ record.replacement ∧
        Leveled base (raise s.graph.size (level t.atomic) level) k)
      (fun _ k => k.Causal) := by
  refine (accessPattern_keeps _ hs.causal).bind fun _ s₁ hs₁ => ?_
  rw [← hs₁] at hreplaced hs ⊢
  refine ends_bind_of_ok (refresh_eq ht hreplaced) ?_
  exact replace_leveled hs hserved.atomic (hserved.rename hbase hreplaced hdone)

/-- The run. -/
theorem replaceAll_causal {updates : List ValueId} {targets : List Target} (hcausal : h.Causal)
    (hbase : base ≤ h.size) (htargets : List.Forall₂ (Tracked h) updates targets)
    (hserved : ∀ t ∈ targets, t.Served base level h.size) (hreplaced : Replaced h done s.graph)
    (hs : Leveled base level s.graph)
    (hdone : ∀ r ∈ done, level r.replacement = level r.atomic) :
    (replaceAll inference done targets).Ends s (fun _ k => k.Causal) (fun _ k => k.Causal) := by
  induction htargets generalizing done s level with
  | nil => exact ends_pure hs.causal
  | @cons a t updates targets ht _ ih =>
    rw [List.forall_mem_cons] at hserved
    rw [replaceAll_cons]
    refine Ends.bind (((replaceNext_leveled ht hserved.1 hbase hreplaced hs hdone).and
      (replaceNext_ends ht hcausal hreplaced)).imp (fun _ _ hk => hk) fun _ _ hk => hk.1)
        fun record s₁ hs₁ => ?_
    obtain ⟨⟨hatomic, hnew, hs₁⟩, _, hreplaced₁⟩ := hs₁
    have hagree : ∀ v < h.size, raise s.graph.size (level t.atomic) level v = level v :=
      fun v hv => raise_of_lt (Nat.lt_of_lt_of_le hv hreplaced.size)
    refine ih (fun t' ht' => (hserved.2 t' ht').congr hbase (Nat.le_refl _) hagree) hreplaced₁ hs₁
      fun r hr => ?_
    rcases List.mem_append.mp hr with hr | hr
    · obtain ⟨type, hold, htype⟩ := hreplaced.typed r hr
      rw [raise_of_lt (Graph.lt_size_of_typeOf? htype), hagree _ (Graph.lt_size_of_typeOf? hold),
        hdone r hr]
    · cases List.mem_singleton.mp hr
      rw [raise_of_le hnew, hatomic, hagree _ (Nat.lt_of_lt_of_le hserved.1.atomic hbase)]

/-! ### Whole updates -/

theorem one_causal (hg : g.WellTyped) (hcausal : g.Causal) (settings : Settings)
    (log : List Event) (a : ValueId) :
    (one settings a).Ends ⟨g, log⟩ (fun _ k => k.Causal) (fun _ k => k.Causal) := by
  cases hrun : target a ⟨g, log⟩ with
  | error failure s₁ =>
    have hadds := (target_ends a).of_error hrun
    exact ends_of_error (bind_of_error hrun) (hadds.causal hg hcausal)
  | ok t s₁ =>
    obtain ⟨_, _, _, _, _, _, ha, _⟩ := target_eq_ok hrun
    obtain ⟨hs₁, hserved⟩ := target_leveled (s := ⟨g, log⟩) (hcausal.leveled hg)
      (List.getElem?_eq_some_iff.mp ha).1 hrun
    obtain ⟨inference, s₂, hinfer, hs₂⟩ := exists_infer hs₁.wellTyped settings
    rw [← hs₂] at hs₁
    refine ends_bind_of_ok hrun (ends_bind_of_ok hinfer ?_)
    refine (accessPattern_keeps _ hs₁.causal).bind fun _ s₃ hs₃ => ?_
    rw [← hs₃] at hs₁
    exact (replace_leveled hs₁ hserved.atomic (hserved.given.imp fun _ hu => hu.2)).imp
      (fun _ _ hk => hk.2.2.causal) fun _ _ hk => hk

theorem all_causal (hg : g.WellTyped) (hcausal : g.Causal) (settings : Settings)
    (log : List Event) :
    (all settings).Ends ⟨g, log⟩ (fun _ k => k.Causal) (fun _ k => k.Causal) := by
  cases hatomics : atomics g with
  | nil => exact ends_of_ok (all_of_nil (s := ⟨g, log⟩) settings hatomics) hcausal
  | cons first rest =>
    refine ends_congr (all_of_cons (s := ⟨g, log⟩) settings hatomics) ?_
    cases hrun : (atomics g).mapM target (started ⟨g, log⟩) with
    | error failure s₁ =>
      have hadds := (draws_mapM target_draws _ (started ⟨g, log⟩) .refl).of_error hrun
      exact ends_of_error (bind_of_error hrun) (hadds.causal hg hcausal)
    | ok targets s₁ =>
      have hupdates : ∀ a ∈ atomics g, a < g.size := by
        intro a ha
        obtain ⟨node, hnode, _⟩ := mem_atomics.mp ha
        exact (List.getElem?_eq_some_iff.mp hnode).1
      obtain ⟨level, _, hs₁, hserved⟩ := mapM_target_leveled (s := started ⟨g, log⟩)
        (hcausal.leveled hg) hupdates hrun
      have htracked := mapM_target_tracked (s := started ⟨g, log⟩) hg hcausal hrun
      obtain ⟨inference, s₂, hinfer, hs₂⟩ := exists_infer hs₁.wellTyped settings
      have hstart : Replaced s₁.graph [] s₂.graph := by
        rw [hs₂]
        exact .refl hs₁.wellTyped
      refine ends_bind_of_ok hrun (ends_bind_of_ok hinfer ?_)
      refine (replaceAll_causal hs₁.causal hs₁.size htracked hserved hstart (hs₂ ▸ hs₁)
        (by rintro _ ⟨⟩)).bind fun records s₃ hs₃ => ?_
      exact ends_bind_of_ok (emit_eq _) (ends_pure hs₃)

end Lowering

/-- If every cycle of a graph goes through a merge, so does every cycle of the graph that a lowering
leaves, of one update or of all, whether it succeeds or fails. -/
theorem Lowering.keeps_cyclesMerge {g : Graph} (hg : g.WellTyped) (hcycles : g.CyclesMerge)
    (settings : Settings) (log : List Event) :
    (∀ a : ValueId, (one settings a).Ends ⟨g, log⟩ (fun _ k => k.CyclesMerge)
      (fun _ k => k.CyclesMerge)) ∧
    (all settings).Ends ⟨g, log⟩ (fun _ k => k.CyclesMerge) (fun _ k => k.CyclesMerge) := by
  have hcausal := Graph.causal_iff_cyclesMerge.mpr hcycles
  have hmerge {k : Graph} (hk : k.Causal) : k.CyclesMerge := Graph.causal_iff_cyclesMerge.mp hk
  exact ⟨fun a => (one_causal hg hcausal settings log a).imp (fun _ _ => hmerge) fun _ _ => hmerge,
    (all_causal hg hcausal settings log).imp (fun _ _ => hmerge) fun _ _ => hmerge⟩

theorem Lowering.keeps_cyclesMerge_chained :
    (∀ op, (Graph.chained op).WellTyped ∧ (Graph.chained op).CyclesMerge) ∧
    (∃ records s, Lowering.all .standard ⟨.chained .max, []⟩ = .ok records s ∧
      s.graph.Cycle [2, 17, 16, 14, 12, 11, 9] ∧ s.graph.CyclesMerge) ∧
    ∃ failure s, Lowering.all .standard ⟨.chained .fadd, []⟩ = .error failure s ∧
      s.graph.Cycle [2, 4, 12, 11, 9] ∧ s.graph.CyclesMerge := by
  have hg (op : RmwOp) := (Graph.chained_built op).wellTyped
  have hcycles (op : RmwOp) := Graph.causal_iff_cyclesMerge.mp (Graph.chained_causal op)
  have hends (op : RmwOp) := (Lowering.keeps_cyclesMerge (hg op) (hcycles op) .standard []).2
  have hresult : (Build.result (Lowering.all .standard) ⟨.chained .max, []⟩).any
      (fun r => r.2.Cycle [2, 17, 16, 14, 12, 11, 9]) = true := by decide +kernel
  have hfailure : (Build.failure? (Lowering.all .standard) ⟨.chained .fadd, []⟩).any
      (fun r => r.2.Cycle [2, 4, 12, 11, 9]) = true := by decide +kernel
  obtain ⟨⟨records, k⟩, hrun, hcycle⟩ := Option.any_eq_true _ _ |>.mp hresult
  obtain ⟨⟨failure, k'⟩, hrun', hcycle'⟩ := Option.any_eq_true _ _ |>.mp hfailure
  obtain ⟨s, hall, rfl⟩ := Build.exists_of_result hrun
  obtain ⟨s', hall', rfl⟩ := Build.exists_of_failure? hrun'
  exact ⟨fun op => ⟨hg op, hcycles op⟩,
    ⟨records, s, hall, of_decide_eq_true hcycle, (hends .max).of_ok hall⟩,
    failure, s', hall', of_decide_eq_true hcycle', (hends .fadd).of_error hall'⟩

end TileFacts

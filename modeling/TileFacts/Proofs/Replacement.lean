import TileFacts.Proofs.Outcome

/-! Lowering all updates of a graph, one after another.

First all pointers are split, which leaves every node as it is. Then each update in turn is
replaced, and after each replacement the graph is the old one with its operands renamed
(`Replaced`): what read an update that is done reads its replacement. Both main statements follow by
induction over the updates. After success nothing reads an update any more; after failure the graph
is that of the replacements made until then. -/
namespace TileFacts

theorem Op.mapOperands_mapOperands (f f' : ValueId → ValueId) (op : Op) :
    (op.mapOperands f).mapOperands f' = op.mapOperands fun v => f' (f v) := by
  cases op <;> simp [Op.mapOperands, Function.comp_def]

namespace Graph

/-- What a graph with one more value has under a name: what it had, or the new node. -/
theorem node_push {g : Graph} {v : ValueId} {new node : Node}
    (h : (g.push new).nodes[v]? = some node) :
    g.nodes[v]? = some node ∨ v = g.size ∧ node = new := by
  rw [push, List.getElem?_append] at h
  split at h
  · exact .inl h
  · next hge =>
    rw [List.getElem?_singleton] at h
    split at h
    · next hzero =>
      cases h
      exact .inr ⟨Nat.le_antisymm (Nat.sub_eq_zero_iff_le.mp hzero) (Nat.not_lt.mp hge), rfl⟩
    · cases h

/-- A new value is read by none, so it closes no loop. -/
theorem Causal.push {g : Graph} (hg : g.WellTyped) (hcausal : g.Causal) {node : Node}
    (hnode : NodeTyped g.typeOf? node) : (g.push node).Causal := by
  have hlt : ∀ v u, (g.push node).Reads v u → u < g.size := by
    rintro v u ⟨n, hv, _, hu⟩
    have htyped : NodeTyped g.typeOf? n := by
      rcases node_push hv with hv | ⟨_, rfl⟩
      · exact hg v n hv
      · exact hnode
    obtain ⟨t, ht⟩ := htyped.op.operand hu
    exact lt_size_of_typeOf? ht
  have hold : ∀ v u, v < g.size → (g.push node).Reads v u → g.Reads v u := by
    rintro v u hv ⟨n, hn, hop, hu⟩
    rcases node_push hn with hn | ⟨rfl, _⟩
    · exact ⟨n, hn, hop, hu⟩
    · exact absurd hv (Nat.lt_irrefl _)
  have hdepends : ∀ v u, v < g.size → (g.push node).DependsOn v u → g.DependsOn v u := by
    intro v u hv h
    induction h with
    | single h => exact .single (hold _ _ hv h)
    | tail hvb h ih =>
      obtain ⟨b, _, hb⟩ := Relation.TransGen.tail'_iff.mp hvb
      exact ih.tail (hold _ _ (hlt _ _ hb) h)
  intro v hv
  obtain ⟨b, _, hb⟩ := Relation.TransGen.tail'_iff.mp hv
  exact hcausal v (hdepends v v (hlt _ _ hb) hv)

theorem Adds.causal {g h : Graph} {P : Node → Prop} (hadds : g.Adds P h) (hg : g.WellTyped)
    (hcausal : g.Causal) : h.Causal := by
  induction hadds with
  | refl => exact hcausal
  | define hadds hd _ ih =>
    have hwell := hadds.wellTyped hg
    exact ih.push hwell (hwell.define hd)

end Graph

namespace Lowering

open Build

variable {g h k : Graph} {a : ValueId} {done : List LoweringRecord} {settings : Settings}
  {inference : Inference} {s s' : Session}

/-! ### Updates of a graph -/

theorem mem_atomics {v : ValueId} :
    v ∈ atomics g ↔ ∃ node, g.nodes[v]? = some node ∧ node.op.kind = .atomicRmw := by
  simp only [atomics, List.mem_map, List.mem_filter, beq_iff_eq, Prod.exists, exists_eq_right,
    List.mk_mem_zipIdx_iff_getElem?]

theorem pairwise_atomics (g : Graph) : (atomics g).Pairwise (· < ·) := by
  have hsub : (atomics g).Sublist (g.nodes.zipIdx.map Prod.snd) := List.filter_sublist.map _
  rw [List.zipIdx_map_snd] at hsub
  exact List.Pairwise.sublist hsub List.pairwise_lt_range'

/-! ### Splitting all pointers -/

/-- A target whose pointer was split in a graph that has grown since. -/
structure Tracked (h : Graph) (a : ValueId) (t : Target) : Prop where
  atomic : t.atomic = a
  node : ∃ ptr type, h.nodes[a]? = some ⟨.atomicRmw t.op ptr t.value t.mask, type⟩
  base : t.address.base ≠ a
  offset : t.address.offset ≠ a

theorem Tracked.typeOf? {t : Target} (ht : Tracked h a t) : ∃ type, h.typeOf? a = some type := by
  obtain ⟨ptr, type, hnode⟩ := ht.node
  exact ⟨type, Graph.typeOf?_of_node hnode⟩

theorem target_tracked {t : Target} (hcausal : s.graph.Causal) (h : target a s = .ok t s') :
    Tracked s'.graph a t := by
  obtain ⟨op, ptr, value, mask, type, address, ha, htrack, rfl⟩ := target_eq_ok h
  have hadds := Address.track_adds htrack (Address.shaped_true _)
  obtain ⟨hbase, hoffset⟩ := Address.track_ne hcausal (List.getElem?_eq_some_iff.mp ha).1
    (.of_operand ha (by rintro ⟨⟩) (by simp [Op.operands])) htrack
  exact ⟨rfl, ⟨ptr, type, hadds.node ha⟩, hbase, hoffset⟩

theorem Tracked.of_adds {t : Target} {P : Node → Prop} (ht : Tracked g a t) (hadds : g.Adds P h) :
    Tracked h a t := by
  obtain ⟨ptr, type, hnode⟩ := ht.node
  exact ⟨ht.atomic, ⟨ptr, type, hadds.node hnode⟩, ht.base, ht.offset⟩

theorem mapM_target_tracked {updates : List ValueId} {targets : List Target}
    (hs : s.graph.WellTyped) (hcausal : s.graph.Causal)
    (h : updates.mapM target s = .ok targets s') :
    List.Forall₂ (Tracked s'.graph) updates targets := by
  induction updates generalizing s targets with
  | nil =>
    obtain ⟨rfl, rfl⟩ := Build.pure_eq_ok.mp h
    exact .nil
  | cons update rest ih =>
    rw [List.mapM_cons] at h
    obtain ⟨t, s₁, ht, h⟩ := Build.bind_eq_ok.mp h
    obtain ⟨more, s₂, hmore, h⟩ := Build.bind_eq_ok.mp h
    obtain ⟨rfl, rfl⟩ := Build.pure_eq_ok.mp h
    obtain ⟨hadds, _⟩ := (target_draws update s .refl).of_ok ht
    obtain ⟨hrest, _⟩ := (draws_mapM target_draws rest s₁ .refl).of_ok hmore
    exact .cons ((target_tracked hcausal ht).of_adds hrest)
      (ih (hadds.wellTyped hs) (hadds.causal hs hcausal) hmore)

/-! ### Names after replacements -/

theorem find?_eq_none {v : ValueId} : (done.find? fun r => r.atomic == v) = none ↔
    v ∉ done.map LoweringRecord.atomic := by
  simp [List.find?_eq_none]

/-- A value that was not lowered keeps its name; one that was is renamed to its replacement. -/
theorem resolve_cases (done : List LoweringRecord) (v : ValueId) :
    v ∉ done.map LoweringRecord.atomic ∧ resolve done v = v ∨
      ∃ r ∈ done, r.atomic = v ∧ resolve done v = r.replacement := by
  unfold resolve
  cases hfind : done.find? fun r => r.atomic == v with
  | none => exact .inl ⟨find?_eq_none.mp hfind, rfl⟩
  | some r =>
    exact .inr ⟨r, List.mem_of_find?_eq_some hfind, by simpa using List.find?_some hfind, rfl⟩

@[simp] theorem resolve_nil : resolve [] = fun v => v := rfl

/-- One more replacement renames one more value. -/
theorem redirect_resolve {record : LoweringRecord}
    (hfresh : ∀ r ∈ done, r.replacement ≠ record.atomic) (v : ValueId) :
    Graph.redirect record.atomic record.replacement (resolve done v) =
      resolve (done ++ [record]) v := by
  simp only [resolve, List.find?_append]
  cases hfind : done.find? fun r => r.atomic == v with
  | some r =>
    have hne := hfresh r (List.mem_of_find?_eq_some hfind)
    simp [Graph.redirect, hne]
  | none =>
    by_cases hv : record.atomic = v
    · simp [Graph.redirect, hv]
    · simp [Graph.redirect, hv, Ne.symm hv]

/-! ### What replacements leave -/

/-- The graph `k` that the replacements so far have made of `h`. Values of `h` stay what they were,
but for the names of what was replaced; a replacement is a new value of the type of its update; and
no new value is an update. -/
structure Replaced (h : Graph) (done : List LoweringRecord) (k : Graph) : Prop where
  wellTyped : k.WellTyped
  size : h.size ≤ k.size
  frame : ∀ (v : ValueId) (node : Node), h.nodes[v]? = some node →
    k.nodes[v]? = some { node with op := node.op.mapOperands (resolve done) }
  fresh : ∀ r ∈ done, h.size ≤ r.replacement
  typed : ∀ r ∈ done, ∃ t, h.typeOf? r.atomic = some t ∧ k.typeOf? r.replacement = some t
  added : ∀ (v : ValueId) (node : Node), k.nodes[v]? = some node → h.size ≤ v →
    node.op.kind ≠ .atomicRmw
  unread : ∀ (v : ValueId) (node : Node), k.nodes[v]? = some node →
    ∀ u ∈ node.op.operands, u ∉ done.map LoweringRecord.atomic

namespace Replaced

theorem refl (hh : h.WellTyped) : Replaced h [] h where
  wellTyped := hh
  size := Nat.le_refl _
  frame v node hv := by simpa using hv
  fresh := by rintro _ ⟨⟩
  typed := by rintro _ ⟨⟩
  added v node hv hle := absurd (List.getElem?_eq_some_iff.mp hv).1 (Nat.not_lt.mpr hle)
  unread _ _ _ _ _ := List.not_mem_nil

theorem lt_size (hk : Replaced h done k) {v : ValueId}
    (hv : v ∈ done.map LoweringRecord.atomic) : v < h.size := by
  obtain ⟨r, hr, rfl⟩ := List.mem_map.mp hv
  obtain ⟨t, ht, _⟩ := hk.typed r hr
  exact Graph.lt_size_of_typeOf? ht

/-- A name that replacements give is not that of something replaced. -/
theorem resolve_not_mem (hk : Replaced h done k) (v : ValueId) :
    resolve done v ∉ done.map LoweringRecord.atomic := by
  rcases resolve_cases done v with ⟨hv, heq⟩ | ⟨r, hr, _, heq⟩
  · rwa [heq]
  · intro hmem
    have hlt := hk.lt_size hmem
    rw [heq] at hlt
    exact Nat.not_lt.mpr (hk.fresh r hr) hlt

theorem resolve_ne (hk : Replaced h done k) {v : ValueId} (ha : a < h.size) (hv : v ≠ a) :
    resolve done v ≠ a := by
  rcases resolve_cases done v with ⟨_, heq⟩ | ⟨r, hr, _, heq⟩
  · rwa [heq]
  · rw [heq]
    exact Nat.ne_of_gt (Nat.lt_of_lt_of_le ha (hk.fresh r hr))

theorem resolve_resolve (hk : Replaced h done k) (v : ValueId) :
    resolve done (resolve done v) = resolve done v := by
  rcases resolve_cases done (resolve done v) with ⟨_, heq⟩ | ⟨r, hr, hatomic, _⟩
  · exact heq
  · exact absurd (List.mem_map.mpr ⟨r, hr, hatomic⟩) (hk.resolve_not_mem v)

/-- More values that are no updates and read nothing that was replaced. -/
theorem of_adds {k' : Graph} (hk : Replaced h done k)
    (hadds : k.Adds (Node.Draws k (· ∉ done.map LoweringRecord.atomic)) k') :
    Replaced h done k' where
  wellTyped := hadds.wellTyped hk.wellTyped
  size := Nat.le_trans hk.size hadds.size_le
  frame v node hv := hadds.node (hk.frame v node hv)
  fresh := hk.fresh
  typed r hr := by
    obtain ⟨t, ht, hreplacement⟩ := hk.typed r hr
    exact ⟨t, ht, hadds.typeOf? hreplacement⟩
  added v node hv hle := by
    rcases hadds.cases_node hv with hv | ⟨_, hdraws⟩
    · exact hk.added v node hv hle
    · exact hdraws.kind
  unread v node hv u hu := by
    rcases hadds.cases_node hv with hv | ⟨_, hdraws⟩
    · exact hk.unread v node hv u hu
    · rcases hdraws.operands u hu with hgiven | hnew
      · exact hgiven
      · exact fun hmem => Nat.not_lt.mpr (Nat.le_trans hk.size hnew) (hk.lt_size hmem)

/-- Replacements keep the types of values. -/
theorem typeOf? (hk : Replaced h done k) {v : ValueId} {t : ValueType} (hv : h.typeOf? v = some t) :
    k.typeOf? v = some t := by
  obtain ⟨node, hnode, rfl⟩ := Option.map_eq_some_iff.mp hv
  rw [Graph.typeOf?_of_node (hk.frame v node hnode)]

section Redirect

variable {record : LoweringRecord}

theorem not_mem_append {u : ValueId} : u ∉ (done ++ [record]).map LoweringRecord.atomic ↔
    u ∉ done.map LoweringRecord.atomic ∧ u ≠ record.atomic := by
  rw [List.map_append, List.mem_append, List.map_singleton, List.mem_singleton, not_or]

theorem not_mem_of_size_le (hk : Replaced h done k) (ha : record.atomic < h.size) {u : ValueId}
    (hu : h.size ≤ u) : u ∉ done.map LoweringRecord.atomic ∧ u ≠ record.atomic :=
  ⟨fun hmem => Nat.not_lt.mpr hu (hk.lt_size hmem), Nat.ne_of_gt (Nat.lt_of_lt_of_le ha hu)⟩

/-- Redirecting the uses of an update leaves it unread, if the values that were added for it read
neither it nor what was replaced before. -/
theorem unread_redirectUses {grown : Graph} (hk : Replaced h done k)
    (hgrown : Replaced h done grown) (ha : record.atomic < h.size)
    (hnew : k.size ≤ record.replacement)
    (hadds : k.Adds (Node.Draws k fun u => u ∉ done.map LoweringRecord.atomic ∧ u ≠ record.atomic)
      grown) {v : ValueId} {node : Node}
    (hv : (grown.redirectUses record.atomic record.replacement).nodes[v]? = some node) :
    ∀ u ∈ node.op.operands, u ∉ (done ++ [record]).map LoweringRecord.atomic := by
  intro u hu
  rw [not_mem_append]
  obtain ⟨before, hbefore, ⟨rfl, rfl⟩ | ⟨_, rfl⟩⟩ := Graph.node_of_redirectUses hv
  · -- The replacement keeps its operands, which were given or are new.
    rcases hadds.cases_node hbefore with hold | ⟨_, hdraws⟩
    · exact absurd (List.getElem?_eq_some_iff.mp hold).1 (Nat.not_lt.mpr hnew)
    · rcases hdraws.operands u hu with hgiven | hle
      · exact hgiven
      · exact hk.not_mem_of_size_le ha (Nat.le_trans hk.size hle)
  · rw [Op.operands_mapOperands] at hu
    obtain ⟨w, hw, rfl⟩ := List.mem_map.mp hu
    unfold Graph.redirect
    split
    · exact hk.not_mem_of_size_le ha (Nat.le_trans hk.size hnew)
    · next hne => exact ⟨hgrown.unread v before hbefore w hw, hne⟩

/-- One more replacement. -/
theorem redirect {k' : Graph} {t : ValueType} (hk : Replaced h done k)
    (ha : h.typeOf? record.atomic = some t)
    (hk' : Redirected k (fun u => u ∉ done.map LoweringRecord.atomic ∧ u ≠ record.atomic)
      record.atomic record.replacement k') : Replaced h (done ++ [record]) k' := by
  obtain @⟨grown, hadds, hnew, hsame⟩ := hk'
  have hlt := Graph.lt_size_of_typeOf? ha
  have hle : h.size ≤ record.replacement := Nat.le_trans hk.size hnew
  have hgrown : Replaced h done grown := hk.of_adds (hadds.mono fun node hnode =>
    ⟨hnode.kind, fun u hu => (hnode.operands u hu).imp_left And.left⟩)
  have hatomic := hgrown.typeOf? ha
  constructor
  · exact hgrown.wellTyped.redirectUses hsame
  · rw [Graph.size_redirectUses]
    exact hgrown.size
  · intro v node hv
    have hne : v ≠ record.replacement :=
      Nat.ne_of_lt (Nat.lt_of_lt_of_le (List.getElem?_eq_some_iff.mp hv).1 hle)
    have hfresh : ∀ r ∈ done, r.replacement ≠ record.atomic := fun r hr =>
      Nat.ne_of_gt (Nat.lt_of_lt_of_le hlt (hk.fresh r hr))
    simp only [Graph.redirectUses, List.getElem?_mapIdx, hgrown.frame v node hv, Option.map_some,
      if_neg hne, Op.mapOperands_mapOperands, redirect_resolve hfresh]
  · simpa [or_imp, forall_and] using ⟨hk.fresh, hle⟩
  · rw [Graph.typeOf?_redirectUses]
    simpa [or_imp, forall_and] using ⟨hgrown.typed, t, ha, hsame ▸ hatomic⟩
  · intro v node hv hle
    obtain ⟨before, hbefore, hkind⟩ := Graph.exists_kind_of_redirectUses hv
    exact hkind ▸ hgrown.added v before hbefore hle
  · intro v node hv
    exact hk.unread_redirectUses hgrown hlt hnew hadds hv

end Redirect

end Replaced

/-! ### Replacing in turn -/

/-- Replaces the next target, given the updates that are done. -/
def replaceNext (inference : Inference) (done : List LoweringRecord) (t : Target) :
    Lowering LoweringRecord := do
  let pattern ← accessPattern inference t.address.offset
  let fresh ← refresh done t
  replace fresh pattern

theorem replaceAll_cons (inference : Inference) (done : List LoweringRecord) (t : Target)
    (rest : List Target) : replaceAll inference done (t :: rest) =
      replaceNext inference done t >>= fun record =>
        replaceAll inference (done ++ [record]) rest := by
  simp only [replaceAll, replaceNext, bind_assoc]

/-- A target with its operands renamed. -/
def Target.rename (t : Target) (f : ValueId → ValueId) : Target :=
  { t with value := f t.value, mask := t.mask.map f, address := t.address.map f }

theorem Target.Given.rename {t : Target} {P : ValueId → Prop} {f : ValueId → ValueId}
    (ht : t.Given fun u => P (f u)) : (t.rename f).Given P where
  base := ht.base
  offset := ht.offset
  value := ht.value
  mask m hm := by
    obtain ⟨m', hm', rfl⟩ := Option.map_eq_some_iff.mp hm
    exact ht.mask m' hm'

/-- A target is refreshed by renaming what was replaced. The update as it stands has been renamed
already, and renaming it again does nothing. -/
theorem refresh_eq {t : Target} (ht : Tracked h a t) (hs : Replaced h done s.graph) :
    refresh done t s = .ok (t.rename (resolve done)) s := by
  obtain ⟨ptr, type, hnode⟩ := ht.node
  have hop : s.graph.op t.atomic = .ok
      (.atomicRmw t.op (resolve done ptr) (resolve done t.value) (t.mask.map (resolve done))) := by
    rw [ht.atomic]
    exact Graph.op_eq_ok (hs.frame a _ hnode)
  have hmask : (t.mask.map (resolve done)).map (resolve done) = t.mask.map (resolve done) := by
    rw [Option.map_map]
    exact congrArg (Option.map · t.mask) (funext hs.resolve_resolve)
  rw [refresh, bind_of_ok (inspect_eq_ok.mpr ⟨hop, rfl⟩)]
  show EStateM.Result.ok { t with
    value := resolve done (resolve done t.value)
    mask := (t.mask.map (resolve done)).map (resolve done)
    address := t.address.map (resolve done) } s = _
  rw [hs.resolve_resolve, hmask]
  rfl

/-- A renamed target is built from neither what was replaced nor its own update. -/
theorem Tracked.given_rename {t : Target} (ht : Tracked h a t) (hcausal : h.Causal)
    (hk : Replaced h done k) :
    (t.rename (resolve done)).Given fun u => u ∉ done.map LoweringRecord.atomic ∧ u ≠ a := by
  obtain ⟨ptr, type, hnode⟩ := ht.node
  have hgiven {u : ValueId} (hu : u ≠ a) :
      resolve done u ∉ done.map LoweringRecord.atomic ∧ resolve done u ≠ a :=
    ⟨hk.resolve_not_mem u, hk.resolve_ne (List.getElem?_eq_some_iff.mp hnode).1 hu⟩
  have hne {u : ValueId} (hu : u ∈ (Op.atomicRmw t.op ptr t.value t.mask).operands) : u ≠ a :=
    hcausal.ne (.of_operand hnode (by rintro ⟨⟩) hu)
  refine .rename ⟨hgiven ht.base, hgiven ht.offset, ?_, fun m hm => ?_⟩
  · exact hgiven (hne (by simp [Op.operands]))
  · have hmask : t.mask = some m := hm
    exact hgiven (hne (by simp [Op.operands, hmask]))

/-- The step: the next update is replaced as well, or the graph stays one with the updates replaced
that were before. -/
theorem replaceNext_ends {t : Target} (ht : Tracked h a t) (hcausal : h.Causal)
    (hs : Replaced h done s.graph) :
    (replaceNext inference done t).Ends s
      (fun record k => record.atomic = a ∧ Replaced h (done ++ [record]) k)
      (fun _ k => Replaced h done k) := by
  refine Ends.bind (Q := fun _ k => Replaced h done k)
    (ends_inspect (fun _ _ => hs) fun _ _ => hs) fun pattern s₁ h₁ => ?_
  refine ends_bind_of_ok (refresh_eq ht h₁) ?_
  refine (replace_ends (ht.given_rename hcausal h₁)).imp (fun record k hrecord => ?_)
    fun _ k hadds => ?_
  · obtain ⟨hrecord, hk⟩ := hrecord
    obtain rfl : record.atomic = a := hrecord.trans ht.atomic
    obtain ⟨type, htype⟩ := ht.typeOf?
    exact ⟨rfl, h₁.redirect htype (ht.atomic ▸ hk)⟩
  · exact h₁.of_adds (hadds.mono fun node hnode =>
      ⟨hnode.kind, fun u hu => (hnode.operands u hu).imp_left And.left⟩)

/-- The run: after success all updates are replaced. -/
theorem replaceAll_replaced {updates : List ValueId} {targets : List Target}
    {records : List LoweringRecord} (hcausal : h.Causal)
    (htargets : List.Forall₂ (Tracked h) updates targets) (hs : Replaced h done s.graph)
    (hrun : replaceAll inference done targets s = .ok records s') :
    Replaced h records s'.graph ∧
      records.map LoweringRecord.atomic = done.map LoweringRecord.atomic ++ updates := by
  induction htargets generalizing done s with
  | nil =>
    obtain ⟨rfl, rfl⟩ := Build.pure_eq_ok.mp hrun
    exact ⟨hs, (List.append_nil _).symm⟩
  | @cons a t updates targets ht _ ih =>
    rw [replaceAll_cons] at hrun
    obtain ⟨record, s₁, hnext, hrun⟩ := Build.bind_eq_ok.mp hrun
    obtain ⟨hatomic, hs₁⟩ := (replaceNext_ends ht hcausal hs).of_ok hnext
    obtain ⟨hrecords, hmap⟩ := ih hs₁ hrun
    refine ⟨hrecords, ?_⟩
    rw [hmap, List.map_append, List.map_singleton, hatomic, List.append_assoc,
      List.singleton_append]

/-- After failure the updates before one that could not be replaced are. -/
theorem replaceAll_eq_error {targets : List Target} {failure : Failure LoweringRefusal}
    (hrun : replaceAll inference done targets s = .error failure s') :
    ∃ i t records s₁, targets[i]? = some t ∧
      replaceAll inference done (targets.take i) s = .ok records s₁ ∧
      replaceNext inference records t s₁ = .error failure s' := by
  induction targets generalizing done s with
  | nil => cases hrun
  | cons t rest ih =>
    rw [replaceAll_cons] at hrun
    rcases Build.bind_eq_error.mp hrun with hnext | ⟨record, s₁, hnext, hrun⟩
    · exact ⟨0, t, done, s, rfl, rfl, hnext⟩
    · obtain ⟨i, next, records, s₂, hnext', hok, hfail⟩ := ih hrun
      refine ⟨i + 1, next, records, s₂, hnext', ?_, hfail⟩
      rw [List.take_succ_cons, replaceAll_cons, Build.bind_of_ok hnext]
      exact hok

/-! ### All updates -/

/-- A session in which the lowering of all updates is announced. -/
def started (s : Session) : Session := { s with log := s.log ++ [.loweringStarted s.graph.size] }

theorem all_of_nil (settings : Settings) (hnil : atomics s.graph = []) :
    all settings s = .ok [] (started s) := by
  rw [all, bind_of_ok (graph_eq_ok.mpr ⟨rfl, rfl⟩), bind_of_ok (emit_eq _), hnil]
  rfl

/-- Pointers are split first, then facts are inferred, then updates are replaced. -/
theorem all_of_cons (settings : Settings) {first : ValueId} {rest : List ValueId}
    (hcons : atomics s.graph = first :: rest) : all settings s = (do
      let targets ← (atomics s.graph).mapM target
      let inference ← infer settings
      let records ← replaceAll inference [] targets
      Build.emit [.loweringDone records.length]
      return records : Lowering (List LoweringRecord)) (started s) := by
  rw [all, bind_of_ok (graph_eq_ok.mpr ⟨rfl, rfl⟩), bind_of_ok (emit_eq _), hcons]
  rfl

theorem all_eq_ok {records : List LoweringRecord} (hrun : all settings s = .ok records s') :
    atomics s.graph = [] ∧ records = [] ∧ s'.graph = s.graph ∨
      ∃ targets s₁ inference s₂ s₃, (atomics s.graph).mapM target (started s) = .ok targets s₁ ∧
        infer settings s₁ = .ok inference s₂ ∧
        replaceAll inference [] targets s₂ = .ok records s₃ ∧ s'.graph = s₃.graph := by
  cases hatomics : atomics s.graph with
  | nil =>
    rw [all_of_nil settings hatomics] at hrun
    cases hrun
    exact .inl ⟨rfl, rfl, rfl⟩
  | cons first rest =>
    rw [all_of_cons settings hatomics, hatomics] at hrun
    obtain ⟨targets, s₁, htargets, hrun⟩ := Build.bind_eq_ok.mp hrun
    obtain ⟨inference, s₂, hinfer, hrun⟩ := Build.bind_eq_ok.mp hrun
    obtain ⟨done, s₃, hdone, hrun⟩ := Build.bind_eq_ok.mp hrun
    obtain ⟨_, _, hemit, hrun⟩ := Build.bind_eq_ok.mp hrun
    obtain ⟨rfl, rfl⟩ := Build.pure_eq_ok.mp hrun
    refine .inr ⟨targets, s₁, inference, s₂, s₃, htargets, hinfer, hdone, ?_⟩
    rw [← Build.emit_eq_ok.mp hemit]

theorem all_eq_error {failure : Failure LoweringRefusal}
    (hrun : all settings s = .error failure s') :
    (atomics s.graph).mapM target (started s) = .error failure s' ∨
      ∃ targets s₁, (atomics s.graph).mapM target (started s) = .ok targets s₁ ∧
        (infer settings s₁ = .error failure s' ∨
          ∃ inference s₂, infer settings s₁ = .ok inference s₂ ∧
            replaceAll inference [] targets s₂ = .error failure s') := by
  cases hatomics : atomics s.graph with
  | nil =>
    rw [all_of_nil settings hatomics] at hrun
    cases hrun
  | cons first rest =>
    rw [all_of_cons settings hatomics, hatomics] at hrun
    rcases Build.bind_eq_error.mp hrun with htargets | ⟨targets, s₁, htargets, hrun⟩
    · exact .inl htargets
    · refine .inr ⟨targets, s₁, htargets, ?_⟩
      rcases Build.bind_eq_error.mp hrun with hinfer | ⟨inference, s₂, hinfer, hrun⟩
      · exact .inl hinfer
      · refine .inr ⟨inference, s₂, hinfer, ?_⟩
        rcases Build.bind_eq_error.mp hrun with hreplace | ⟨records, s₃, hreplace, hrun⟩
        · exact hreplace
        · cases hrun

/-- Facts can be inferred of every graph that is well typed. -/
theorem exists_infer (hs : s.graph.WellTyped) (settings : Settings) :
    ∃ inference s', infer settings s = .ok inference s' ∧ s'.graph = s.graph := by
  obtain ⟨inference, hrun, _⟩ := Inference.run_solution hs settings
  have hinfer : infer settings s = .ok inference
      { s with log := s.log ++ (Inference.run s.graph .standard settings).1 } := by
    rw [infer, bind_of_ok (graph_eq_ok.mpr ⟨rfl, rfl⟩)]
    dsimp only
    rw [bind_of_ok (emit_eq _), hrun]
    rfl
  exact ⟨inference, _, hinfer, rfl⟩

/-- What a lowering makes of a graph by the replacements it has done: values keep their names and
types, and their operations but for the operands that were replaced. All else is new. -/
structure Rewrites (g : Graph) (done : List LoweringRecord) (k : Graph) : Prop where
  updates : done.map LoweringRecord.atomic = (atomics g).take done.length
  size : g.size ≤ k.size
  frame : ∀ (v : ValueId) (node : Node), g.nodes[v]? = some node →
    k.nodes[v]? = some { node with op := node.op.mapOperands (resolve done) }
  replacement : ∀ r ∈ done, g.size ≤ r.replacement ∧ r.replacement < k.size ∧
    k.typeOf? r.replacement = g.typeOf? r.atomic

/-- Where the lowering of all updates stops, and the replacements it has done by then. -/
inductive Stops (settings : Settings) (s : Session) (failure : Failure LoweringRefusal)
    (s' : Session) : List LoweringRecord → Prop
  /-- A pointer cannot be split. -/
  | tracking (h : (atomics s.graph).mapM target (started s) = .error failure s') :
    Stops settings s failure s' []
  /-- An update cannot be replaced, and those before it were. -/
  | replacing {targets : List Target} {s₁ s₂ s₃ : Session} {inference : Inference}
    {done : List LoweringRecord} {t : Target}
    (htargets : (atomics s.graph).mapM target (started s) = .ok targets s₁)
    (hinfer : infer settings s₁ = .ok inference s₂)
    (hdone : replaceAll inference [] (targets.take done.length) s₂ = .ok done s₃)
    (ht : targets[done.length]? = some t)
    (hatomic : (atomics s.graph)[done.length]? = some t.atomic)
    (hnext : replaceNext inference done t s₃ = .error failure s') :
    Stops settings s failure s' done

theorem Rewrites.of_replaced (hadds : g.Adds (Node.Draws g fun _ => True) h)
    (hk : Replaced h done k)
    (hupdates : done.map LoweringRecord.atomic = (atomics g).take done.length) :
    Rewrites g done k where
  updates := hupdates
  size := Nat.le_trans hadds.size_le hk.size
  frame v node hv := hk.frame v node (hadds.node hv)
  replacement r hr := by
    obtain ⟨t, ht, hreplacement⟩ := hk.typed r hr
    have hmem : r.atomic ∈ atomics g :=
      List.mem_of_mem_take (hupdates ▸ List.mem_map.mpr ⟨r, hr, rfl⟩)
    obtain ⟨node, hnode, _⟩ := mem_atomics.mp hmem
    have hg := Graph.typeOf?_of_node hnode
    rw [hadds.typeOf? hg] at ht
    exact ⟨Nat.le_trans hadds.size_le (hk.fresh r hr), Graph.lt_size_of_typeOf? hreplacement,
      by rw [hreplacement, hg, ht]⟩

/-- What success leaves of a well-typed, causal graph. -/
theorem all_replaced {records : List LoweringRecord} (hs : s.graph.WellTyped)
    (hcausal : s.graph.Causal) (hrun : all settings s = .ok records s') :
    ∃ h, s.graph.Adds (Node.Draws s.graph fun _ => True) h ∧ Replaced h records s'.graph ∧
      records.map LoweringRecord.atomic = atomics s.graph := by
  rcases all_eq_ok hrun with ⟨hnil, rfl, hgraph⟩ | ⟨targets, s₁, inference, s₂, s₃, htargets,
    hinfer, hreplace, hgraph⟩
  · exact ⟨s.graph, .refl, by rw [hgraph]; exact .refl hs, hnil.symm⟩
  · obtain ⟨hadds, _⟩ := (draws_mapM target_draws _ (started s) .refl).of_ok htargets
    have htracked := mapM_target_tracked (s := started s) hs hcausal htargets
    obtain ⟨hs₂, _⟩ := infer_eq_ok hinfer
    have hstart : Replaced s₁.graph [] s₂.graph := by
      rw [hs₂]
      exact .refl (hadds.wellTyped hs)
    obtain ⟨hrecords, hmap⟩ :=
      replaceAll_replaced (hadds.causal hs hcausal) htracked hstart hreplace
    exact ⟨s₁.graph, hadds, hgraph ▸ hrecords, hmap⟩

/-- What failure leaves of it. -/
theorem all_stops {failure : Failure LoweringRefusal} (hs : s.graph.WellTyped)
    (hcausal : s.graph.Causal) (hrun : all settings s = .error failure s') :
    ∃ h done, s.graph.Adds (Node.Draws s.graph fun _ => True) h ∧ Replaced h done s'.graph ∧
      done.map LoweringRecord.atomic = (atomics s.graph).take done.length ∧
      Stops settings s failure s' done := by
  rcases all_eq_error hrun with htargets | ⟨targets, s₁, htargets, hrun⟩
  · have hadds := (draws_mapM target_draws _ (started s) .refl).of_error htargets
    exact ⟨s'.graph, [], hadds, .refl (hadds.wellTyped hs), rfl, .tracking htargets⟩
  · obtain ⟨hadds, _⟩ := (draws_mapM target_draws _ (started s) .refl).of_ok htargets
    have hs₁ := hadds.wellTyped hs
    have hcausal₁ := hadds.causal hs hcausal
    have htracked := mapM_target_tracked (s := started s) hs hcausal htargets
    obtain ⟨inference, s₂, hinfer, hs₂⟩ := exists_infer hs₁ settings
    rcases hrun with hfault | ⟨inference', s₂', hinfer', hrun⟩
    · rw [hinfer] at hfault
      cases hfault
    · rw [hinfer] at hinfer'
      cases hinfer'
      obtain ⟨i, t, done, s₃, ht, hdone, hnext⟩ := replaceAll_eq_error hrun
      have hstart : Replaced s₁.graph [] s₂.graph := by
        rw [hs₂]
        exact .refl hs₁
      obtain ⟨hreplaced, hmap⟩ :=
        replaceAll_replaced hcausal₁ (List.forall₂_take i htracked) hstart hdone
      obtain ⟨hi, rfl⟩ := List.getElem?_eq_some_iff.mp ht
      have hi' : i < (atomics s.graph).length := htracked.length_eq ▸ hi
      have htarget := htracked.get hi' hi
      obtain rfl : i = done.length := by
        have hlength := congrArg List.length hmap
        simp only [List.length_map, List.map_nil, List.nil_append, List.length_take] at hlength
        omega
      refine ⟨s₁.graph, done, hadds, (replaceNext_ends htarget hcausal₁ hreplaced).of_error hnext,
        hmap, .replacing htargets hinfer hdone ht ?_ hnext⟩
      rw [List.getElem?_eq_getElem hi']
      exact congrArg some htarget.atomic.symm

theorem Replaced.mem_atomics_of_kind (hadds : g.Adds (Node.Draws g fun _ => True) h)
    (hk : Replaced h done k) {v : ValueId} {node : Node} (hv : k.nodes[v]? = some node)
    (hkind : node.op.kind = .atomicRmw) : v ∈ atomics g := by
  have hlt : v < h.size := Nat.not_le.mp fun hle => hk.added v node hv hle hkind
  have hold := List.getElem?_eq_getElem hlt
  rw [hk.frame v _ hold] at hv
  cases hv
  rw [Op.kind_mapOperands] at hkind
  rcases hadds.cases_node hold with hg | ⟨_, hdraws⟩
  · exact mem_atomics.mpr ⟨_, hg, hkind⟩
  · exact absurd hkind hdraws.kind

end Lowering

/-- Lowering all updates leaves no reader of one: there is one record for each, in order of
definition, its replacement is a new value of the same type and no update, and whatever any value of
the resulting graph reads is no update. -/
theorem Lowering.all_leaves_no_reader {g : Graph} (hg : g.WellTyped) (hcausal : g.Causal)
    {settings : Settings} {log : List Event} {records : List LoweringRecord} {s : Session}
    (hrun : all settings ⟨g, log⟩ = .ok records s) :
    (records.map LoweringRecord.atomic).Pairwise (· < ·) ∧
    (∀ v : ValueId, v ∈ records.map LoweringRecord.atomic ↔
      ∃ node, g.nodes[v]? = some node ∧ node.op.kind = .atomicRmw) ∧
    (∀ r ∈ records, g.size ≤ r.replacement ∧ ∃ node, s.graph.nodes[r.replacement]? = some node ∧
      g.typeOf? r.atomic = some node.type ∧ node.op.kind ≠ .atomicRmw) ∧
    ∀ (v : ValueId) (node : Node), s.graph.nodes[v]? = some node → ∀ u ∈ node.op.operands,
      ∃ operand, s.graph.nodes[u]? = some operand ∧ operand.op.kind ≠ .atomicRmw := by
  obtain ⟨h, hadds, hk, hmap⟩ := all_replaced (s := ⟨g, log⟩) hg hcausal hrun
  have hrewrites : Rewrites g records s.graph := .of_replaced hadds hk <| by
    rw [hmap, ← List.length_map LoweringRecord.atomic, hmap, List.take_length]
  refine ⟨hmap ▸ pairwise_atomics g, fun v => hmap ▸ mem_atomics, fun r hr => ?_, ?_⟩
  · obtain ⟨hnew, hlt, htype⟩ := hrewrites.replacement r hr
    have hnode := List.getElem?_eq_getElem hlt
    refine ⟨hnew, _, hnode, ?_, hk.added _ _ hnode (hk.fresh r hr)⟩
    rw [← htype, Graph.typeOf?_of_node hnode]
  · intro v node hv u hu
    obtain ⟨t, ht⟩ := (hk.wellTyped v node hv).op.operand hu
    obtain ⟨operand, hoperand, _⟩ := Option.map_eq_some_iff.mp ht
    refine ⟨operand, hoperand, fun hkind => hk.unread v node hv u hu ?_⟩
    rw [hmap]
    exact hk.mem_atomics_of_kind hadds hoperand hkind

/-- Two updates in a loop. The second takes its value from the first, which takes it from a merge
that the second closes; what both give is added up. -/
def Graph.chained (op : RmwOp) : Graph :=
  ⟨[⟨.arg 0, .scalar (.pointer .i32 .global)⟩, ⟨.const 1, .scalar .i32⟩,
    ⟨.merge [1, 4], .scalar .i32⟩, ⟨.atomicRmw .add 0 2 none, .scalar .i32⟩,
    ⟨.atomicRmw op 0 3 none, .scalar .i32⟩, ⟨.binary .add 3 4, .scalar .i32⟩]⟩

theorem Graph.chained_built (op : RmwOp) : (Graph.chained op).Built :=
  .of_requests [.define (.arg 0 (.scalar (.pointer .i32 .global))),
    .define (.const 1 (.scalar .i32)), .define (.merge 1), .define (.atomicRmw .add 0 2 none),
    .define (.atomicRmw op 0 3 none), .addMergeInput 2 4, .define (.binary .add 3 4)] .empty rfl

theorem Graph.chained_causal (op : RmwOp) : (Graph.chained op).Causal :=
  Graph.causal_of_lt (by simp [Graph.chained, Op.kind, Op.operands])

theorem Lowering.all_leaves_no_reader_chained : (Graph.chained .max).WellTyped ∧
    (Graph.chained .max).Causal ∧
    ∃ records s, Lowering.all .standard ⟨.chained .max, []⟩ = .ok records s ∧
      records.map LoweringRecord.atomic = [3, 4] ∧
      s.graph.nodes[2]? = some ⟨.merge [1, 17], .scalar .i32⟩ ∧
      ∀ (v : ValueId) (node : Node), s.graph.nodes[v]? = some node → ∀ u ∈ node.op.operands,
        ∃ operand, s.graph.nodes[u]? = some operand ∧ operand.op.kind ≠ .atomicRmw := by
  have hg := (Graph.chained_built .max).wellTyped
  have hcausal := Graph.chained_causal .max
  have hresult : (Build.result (Lowering.all .standard) ⟨.chained .max, []⟩).map
      (fun r => (r.1.map LoweringRecord.atomic, r.2.nodes[2]?)) =
        some ([3, 4], some ⟨.merge [1, 17], .scalar .i32⟩) := by decide +kernel
  obtain ⟨⟨records, k⟩, hrun, heq⟩ := Option.map_eq_some_iff.mp hresult
  obtain ⟨s, hall, rfl⟩ := Build.exists_of_result hrun
  obtain ⟨hatomics, hmerge⟩ := Prod.mk.inj heq
  obtain ⟨_, _, _, hunread⟩ := Lowering.all_leaves_no_reader hg hcausal hall
  exact ⟨hg, hcausal, records, s, hall, hatomics, hmerge, hunread⟩

/-- However a lowering of all updates ends, it leaves the graph with the replacements done so far:
all of them after success, none if a pointer cannot be split, and those of the updates before the
one that cannot be replaced. -/
theorem Lowering.all_rewrites {g : Graph} (hg : g.WellTyped) (hcausal : g.Causal)
    (settings : Settings) (log : List Event) :
    (∀ records s, all settings ⟨g, log⟩ = .ok records s →
      records.length = (atomics g).length ∧ Rewrites g records s.graph) ∧
    ∀ failure s, all settings ⟨g, log⟩ = .error failure s →
      ∃ done, Stops settings ⟨g, log⟩ failure s done ∧ Rewrites g done s.graph := by
  constructor
  · intro records s hrun
    obtain ⟨h, hadds, hk, hmap⟩ := all_replaced (s := ⟨g, log⟩) hg hcausal hrun
    have hlength : records.length = (atomics g).length := by
      rw [← hmap, List.length_map]
    exact ⟨hlength, .of_replaced hadds hk (by rw [hmap, hlength, List.take_length])⟩
  · intro failure s hrun
    obtain ⟨h, done, hadds, hk, hmap, hstops⟩ := all_stops (s := ⟨g, log⟩) hg hcausal hrun
    exact ⟨done, hstops, .of_replaced hadds hk hmap⟩

theorem Lowering.all_rewrites_chained : (Graph.chained .fadd).WellTyped ∧
    (Graph.chained .fadd).Causal ∧
    ∃ s done, Lowering.all .standard ⟨.chained .fadd, []⟩ =
        .error (.refused (.unsupported .fadd .i32)) s ∧
      s.graph.nodes[5]? = some ⟨.binary .add 12 4, .scalar .i32⟩ ∧
      Lowering.Stops .standard ⟨.chained .fadd, []⟩ (.refused (.unsupported .fadd .i32)) s done ∧
      Lowering.Rewrites (.chained .fadd) done s.graph := by
  have hg := (Graph.chained_built .fadd).wellTyped
  have hcausal := Graph.chained_causal .fadd
  have hfailure : (Build.failure? (Lowering.all .standard) ⟨.chained .fadd, []⟩).map
      (fun r => (r.1, r.2.nodes[5]?)) =
        some (.refused (.unsupported .fadd .i32), some ⟨.binary .add 12 4, .scalar .i32⟩) := by
    decide +kernel
  obtain ⟨⟨failure, k⟩, hrun, heq⟩ := Option.map_eq_some_iff.mp hfailure
  obtain ⟨s, hall, rfl⟩ := Build.exists_of_failure? hrun
  obtain ⟨rfl, hsum⟩ := Prod.mk.inj heq
  obtain ⟨done, hstops, hrewrites⟩ :=
    (Lowering.all_rewrites hg hcausal .standard []).2 _ s hall
  exact ⟨hg, hcausal, s, done, hall, hsum, hstops, hrewrites⟩

end TileFacts

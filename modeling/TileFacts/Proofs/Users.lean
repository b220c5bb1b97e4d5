import TileFacts.Proofs.Worklist
import TileFacts.Proofs.Typing

/-! The users of values.

One pass over a graph whose operands are in range notes, for every value, exactly the users that a
search for it finds, in the same order (`Graph.users_agree`). So the table of a well-typed graph is
complete (`Graph.WellTyped.users`). More values at the end put their names after those of earlier
users, and change nothing else (`Graph.filter_usersOf`). -/
namespace TileFacts

theorem element_map_range {β : Type} (f : Nat → β) {n i : Nat} (h : i < n) :
    element ((List.range n).map f) i = .ok (f i) :=
  element_eq_ok.mpr (by simp [h])

theorem set_map_range {β : Type} (f : Nat → β) (n i : Nat) (b : β) :
    ((List.range n).map f).set i b = (List.range n).map fun v => if v = i then b else f v := by
  apply List.ext_getElem
  · simp
  · intro v hv _
    simp only [List.getElem_set, List.getElem_map, List.getElem_range, eq_comm]

namespace Graph

/-- `v` is worked out from `u`, be it a merge or not. -/
def Uses (g : Graph) (v u : ValueId) : Prop :=
  ∃ node, g.nodes[v]? = some node ∧ u ∈ node.op.operands

/-! ### One pass -/

/-- What is known of the users of a value, with one more noted. -/
def noting (user : ValueId) (known : List ValueId) : List ValueId :=
  if known.contains user then known else known ++ [user]

theorem noting_noting (user : ValueId) (known : List ValueId) :
    noting user (noting user known) = noting user known := by
  unfold noting
  split <;> simp_all

theorem addUser_map_range (user : ValueId) (f : ValueId → List ValueId) {n operand : Nat}
    (h : operand < n) : addUser user ((List.range n).map f) operand =
      .ok ((List.range n).map fun v => if v = operand then noting user (f v) else f v) := by
  unfold addUser
  rw [element_map_range f h]
  show Except.ok (if (f operand).contains user then _ else _) = _
  rw [set_map_range]
  unfold noting
  split
  · next hknown =>
    congr 2
    funext v
    split
    · next hv => rw [hv, if_pos hknown]
    · rfl
  · next hnew =>
    congr 2
    funext v
    split
    · next hv => rw [hv, if_neg hnew]
    · rfl

/-- An operand that occurs again is not noted again. -/
theorem foldlM_addUser (user : ValueId) (f : ValueId → List ValueId) {n : Nat}
    {operands : List ValueId} (h : ∀ o ∈ operands, o < n) :
    operands.foldlM (addUser user) ((List.range n).map f) =
      .ok ((List.range n).map fun v => if v ∈ operands then noting user (f v) else f v) := by
  induction operands generalizing f with
  | nil => simp [pure, Except.pure]
  | cons operand rest ih =>
    obtain ⟨hoperand, hrest⟩ := List.forall_mem_cons.mp h
    rw [List.foldlM_cons, addUser_map_range user f hoperand]
    show rest.foldlM _ _ = _
    rw [ih _ hrest]
    congr 2
    funext v
    by_cases hv : v = operand
    · simp [hv, noting_noting]
    · simp [hv]

theorem foldlM_users (nodes : List Node) (f : ValueId → List ValueId) {n k : Nat}
    (hrange : ∀ node ∈ nodes, ∀ o ∈ node.op.operands, o < n) (hf : ∀ v, ∀ u ∈ f v, u < k) :
    (nodes.zipIdx k).foldlM
        (fun table (node, user) => node.op.operands.foldlM (addUser user) table)
        ((List.range n).map f) =
      .ok ((List.range n).map fun v =>
        f v ++ ((nodes.zipIdx k).filter fun (node, _) => node.op.operands.contains v).map
          Prod.snd) := by
  induction nodes generalizing f k with
  | nil => simp [pure, Except.pure]
  | cons node nodes ih =>
    obtain ⟨hnode, hnodes⟩ := List.forall_mem_cons.mp hrange
    have hnew : ∀ v, k ∉ f v := fun v hk => absurd (hf v k hk) (Nat.lt_irrefl k)
    have hstep : (fun v => if v ∈ node.op.operands then noting k (f v) else f v) =
        fun v => f v ++ if v ∈ node.op.operands then [k] else [] := by
      funext v
      split <;> simp [noting, hnew]
    rw [List.zipIdx_cons, List.foldlM_cons]
    show (node.op.operands.foldlM (addUser k) _ >>= _) = _
    rw [foldlM_addUser k f hnode, hstep]
    show (nodes.zipIdx (k + 1)).foldlM _ _ = _
    rw [ih _ hnodes]
    · congr 2
      funext v
      by_cases hv : v ∈ node.op.operands <;> simp [hv]
    · intro v u hu
      rcases List.mem_append.mp hu with hu | hu
      · exact Nat.lt_succ_of_lt (hf v u hu)
      · have huk : u = k := by
          split at hu <;> simp_all
        rw [huk]
        exact Nat.lt_succ_self k

/-- The pass finds for every value what a search for its users finds. -/
theorem users_eq {g : Graph} (h : ∀ node ∈ g.nodes, ∀ o ∈ node.op.operands, o < g.size) :
    g.users = .ok (g.values.map g.usersOf) := by
  have hempty :
      List.replicate g.size ([] : List ValueId) = (List.range g.size).map fun _ => [] := by
    rw [List.map_const', List.length_range]
  unfold users
  rw [hempty, foldlM_users g.nodes _ h (by simp)]
  rfl

theorem mem_usersOf {g : Graph} {u v : ValueId} : u ∈ g.usersOf v ↔ g.Uses u v := by
  simp [usersOf, Uses, List.mem_zipIdx_iff_getElem?]

/-- Users are listed in the order of their definition, each of them once. -/
theorem pairwise_usersOf (g : Graph) (v : ValueId) : (g.usersOf v).Pairwise (· < ·) := by
  have hall : (g.nodes.zipIdx.map Prod.snd).Pairwise (· < ·) := by
    rw [List.zipIdx_map_snd]
    exact List.pairwise_lt_range'
  exact hall.sublist (List.filter_sublist.map Prod.snd)

theorem length_usersOf (g : Graph) : (g.values.map g.usersOf).length = g.size := by
  simp [values]

theorem users_of_value {g : Graph} {v : ValueId} {users : List ValueId} :
    (g.values.map g.usersOf)[v]? = some users ↔ v < g.size ∧ g.usersOf v = users := by
  simp [values, List.getElem?_eq_some_iff]

theorem lt_size_of_typeOf? {g : Graph} {v : ValueId} {t : ValueType} (h : g.typeOf? v = some t) :
    v < g.size := by
  obtain ⟨node, hnode, _⟩ := Option.map_eq_some_iff.mp h
  exact (List.getElem?_eq_some_iff.mp hnode).1

theorem WellTyped.lt_size_of_uses {g : Graph} (hg : g.WellTyped) {v u : ValueId}
    (h : g.Uses v u) : u < g.size := by
  obtain ⟨node, hnode, hu⟩ := h
  obtain ⟨t, ht⟩ := (hg v node hnode).op.operand hu
  exact lt_size_of_typeOf? ht

theorem WellTyped.users_eq {g : Graph} (hg : g.WellTyped) :
    g.users = .ok (g.values.map g.usersOf) := by
  apply Graph.users_eq
  intro node hnode u hu
  obtain ⟨v, hv⟩ := List.mem_iff_getElem?.mp hnode
  exact hg.lt_size_of_uses ⟨node, hv, hu⟩

/-- The table of a well-typed graph lists the users of every operand, and no others. -/
theorem WellTyped.users {g : Graph} (hg : g.WellTyped) :
    ∃ users, g.users = .ok users ∧ users.length = g.size ∧
      ∀ u v, Notes users u v ↔ g.Uses v u := by
  refine ⟨_, hg.users_eq, length_usersOf g, fun u v => ?_⟩
  simp only [Notes, users_of_value]
  constructor
  · rintro ⟨_, ⟨_, rfl⟩, hv⟩
    exact mem_usersOf.mp hv
  · intro huses
    exact ⟨_, ⟨hg.lt_size_of_uses huses, rfl⟩, mem_usersOf.mpr huses⟩

/-- Both ways to list users agree on every graph whose operands are in range: loops, values that use
themselves and repeated operands included. A list is strictly increasing, so that it names no user
twice, and names those that have the value among their operands. -/
theorem users_agree {g : Graph} (hrange : ∀ node ∈ g.nodes, ∀ o ∈ node.op.operands, o < g.size) :
    ∃ table, g.users = .ok table ∧ table.length = g.size ∧
      ∀ v < g.size, table[v]? = some (g.usersOf v) ∧ (g.usersOf v).Pairwise (· < ·) ∧
        (g.usersOf v).Nodup ∧
        ∀ u, u ∈ g.usersOf v ↔ ∃ node, g.nodes[u]? = some node ∧ v ∈ node.op.operands := by
  refine ⟨_, Graph.users_eq hrange, length_usersOf g, fun v hv => ?_⟩
  have hincreasing := pairwise_usersOf g v
  refine ⟨users_of_value.mpr ⟨hv, rfl⟩, hincreasing, ?_, fun u => mem_usersOf⟩
  exact hincreasing.imp Nat.ne_of_lt

/-- A merge that takes the constant, itself, and twice the sum that is defined after it. -/
def counting : Graph :=
  ⟨[⟨.const 3, .scalar .i32⟩, ⟨.merge [0, 2, 1, 2], .scalar .i32⟩,
    ⟨.binary .add 1 1, .scalar .i32⟩]⟩

theorem users_agree_counting :
    (∀ node ∈ counting.nodes, ∀ o ∈ node.op.operands, o < counting.size) ∧
      ∃ table, counting.users = .ok table ∧ table[0]? = some [1] ∧ table[1]? = some [1, 2] ∧
        table[2]? = some [1] := by
  have hrange : ∀ node ∈ counting.nodes, ∀ o ∈ node.op.operands, o < counting.size := by decide
  obtain ⟨table, htable, _, hall⟩ := users_agree hrange
  exact ⟨hrange, table, htable, (hall 0 (by decide)).1, (hall 1 (by decide)).1,
    (hall 2 (by decide)).1⟩

/-! ### More values -/

/-- Of the users of a value, those that are older than what was added are the users it had. -/
theorem filter_usersOf {g h : Graph} (hmore : g.nodes <+: h.nodes) (v : ValueId) :
    (h.usersOf v).filter (· < g.size) = g.usersOf v := by
  obtain ⟨rest, hrest⟩ := hmore
  have hold : ∀ u ∈ g.usersOf v, u < g.size := by
    intro u hu
    obtain ⟨node, hnode, _⟩ := mem_usersOf.mp hu
    exact (List.getElem?_eq_some_iff.mp hnode).1
  have hnew : ∀ u ∈ ((rest.zipIdx g.size).filter fun (node, _) =>
      node.op.operands.contains v).map Prod.snd, ¬ u < g.size := by
    intro u hu
    obtain ⟨p, hp, rfl⟩ := List.mem_map.mp hu
    exact Nat.not_lt.mpr (List.le_snd_of_mem_zipIdx (List.mem_filter.mp hp).1)
  have happend : h.usersOf v = g.usersOf v ++
      ((rest.zipIdx g.size).filter fun (node, _) => node.op.operands.contains v).map Prod.snd := by
    unfold usersOf
    rw [← hrest, List.zipIdx_append, List.filter_append, List.map_append, Nat.zero_add]
    rfl
  rw [happend, List.filter_append,
    List.filter_eq_self.mpr fun u hu => decide_eq_true (hold u hu),
    List.filter_eq_nil_iff.mpr fun u hu => by simpa using hnew u hu, List.append_nil]

end Graph

end TileFacts

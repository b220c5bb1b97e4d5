import TileFacts.Proofs.Users
import TileFacts.Proofs.Outcome
import TileFacts.Proofs.Definition
import Mathlib.Data.List.Sort

/-! Redirected uses.

An operation is its kind, its payload and its operands, and nothing else (`Op.eq_of_parts`).
Redirecting the uses of one value to another renames operands and leaves the definition of the new
value alone; `Graph.Moves` says so node by node, and says who the users are afterwards. Main
statement: a request to redirect uses between two values of one type succeeds and leaves the only
graph of that description; every other request is refused, and changes nothing
(`Build.replaceAllUses_moves`). -/
namespace TileFacts

/-! ### Parts of an operation -/

/-- What an operation holds besides its kind and its operands. -/
inductive Payload where
  | nothing
  | word (value : Int64)
  | float (bits : UInt64)
  | number (n : Nat)
  | bounds (start stop : Int64)
  | predicate (p : Comparison)
  | rmw (op : RmwOp)
  | atomic (op : AtomicOp)
  deriving DecidableEq

namespace Op

def payload : Op → Payload
  | const value => .word value
  | constFloat bits => .float bits
  | arg index => .number index
  | cmp p _ _ => .predicate p
  | range start stop => .bounds start stop
  | expandDims _ axis => .number axis
  | atomicRmw op _ _ _ => .rmw op
  | gatherAtomicRmw op _ _ _ _ => .atomic op
  | cast .. | binary .. | addPtr .. | select .. | splat _ | broadcast _ | reshape _ | merge _ =>
    .nothing

@[simp] theorem payload_mapOperands (f : ValueId → ValueId) (op : Op) :
    (op.mapOperands f).payload = op.payload := by
  cases op <;> rfl

/-- A mask, which may be absent, shows in the number of operands. -/
theorem eq_of_parts {a b : Op} (hkind : a.kind = b.kind) (hpayload : a.payload = b.payload)
    (hoperands : a.operands = b.operands) : a = b := by
  have hmask {m n : Option ValueId} : m.toList = n.toList ↔ m = n := by
    cases m <;> cases n <;> simp
  cases a <;> cases b <;> cases hkind <;> simp_all [payload, operands]

end Op

/-- The same node, except that it reads `new` where it read `old`. -/
structure Node.Renamed (old new : ValueId) (before after : Node) : Prop where
  type : after.type = before.type
  kind : after.op.kind = before.op.kind
  payload : after.op.payload = before.op.payload
  operands : after.op.operands = before.op.operands.map fun u => if u = old then new else u

theorem Node.Renamed.unique {old new : ValueId} {node a b : Node} (ha : node.Renamed old new a)
    (hb : node.Renamed old new b) : a = b := by
  have hop : a.op = b.op :=
    Op.eq_of_parts (ha.kind.trans hb.kind.symm) (ha.payload.trans hb.payload.symm)
      (ha.operands.trans hb.operands.symm)
  have htype : a.type = b.type := ha.type.trans hb.type.symm
  cases a
  cases b
  cases hop
  cases htype
  rfl

namespace Graph

/-! ### Users -/

section Users

variable {g h : Graph} {old new u v w x : ValueId}

/-- Two searches that find the same users list them in the same order. -/
theorem usersOf_congr (heq : ∀ u, g.Uses u v ↔ h.Uses u w) : g.usersOf v = h.usersOf w :=
  (pairwise_usersOf g v).eq_of_mem_iff (pairwise_usersOf h w) fun u => by
    rw [mem_usersOf, mem_usersOf, heq]

theorem usersOf_eq_nil (hnone : ∀ u, ¬ g.Uses u v) : g.usersOf v = [] :=
  List.eq_nil_iff_forall_not_mem.mpr fun u hu => hnone u (mem_usersOf.mp hu)

theorem usersOf_eq_singleton (hone : ∀ u, g.Uses u v ↔ u = w) : g.usersOf v = [w] :=
  (pairwise_usersOf g v).eq_of_mem_iff (List.pairwise_singleton _ w) fun u => by
    rw [mem_usersOf, hone, List.mem_singleton]

theorem uses_redirectUses : (g.redirectUses old new).Uses u x ↔
    if u = new then g.Uses u x else ∃ y, g.Uses u y ∧ redirect old new y = x := by
  simp only [Uses, redirectUses, List.getElem?_mapIdx]
  cases g.nodes[u]? with
  | none => simp
  | some node => by_cases hu : u = new <;> simp [hu]

theorem uses_redirectUses_old (hne : old ≠ new) :
    (g.redirectUses old new).Uses u old ↔ u = new ∧ g.Uses new old := by
  rw [uses_redirectUses]
  by_cases hu : u = new
  · simp [hu]
  · -- No value is renamed to `old`.
    have hnone : ∀ y, redirect old new y ≠ old := by
      intro y
      unfold redirect
      split
      · exact hne.symm
      · next hy => exact hy
    simp [hu, hnone]

theorem uses_redirectUses_new :
    (g.redirectUses old new).Uses u new ↔ g.Uses u new ∨ u ≠ new ∧ g.Uses u old := by
  rw [uses_redirectUses]
  by_cases hu : u = new
  · simp [hu]
  · grind [redirect]

theorem uses_redirectUses_other (hold : x ≠ old) (hnew : x ≠ new) :
    (g.redirectUses old new).Uses u x ↔ g.Uses u x := by
  rw [uses_redirectUses]
  by_cases hu : u = new
  · simp [hu]
  · grind [redirect]

end Users

/-! ### Moved uses -/

/-- `h` is `g` with the uses of `old` moved to `new`. -/
structure Moves (g : Graph) (old new : ValueId) (h : Graph) : Prop where
  size : h.size = g.size
  /-- The definition of `new` may be built from `old`, and stays. -/
  definition : h.nodes[new]? = g.nodes[new]?
  node : ∀ (v : ValueId) (before : Node), v ≠ new → g.nodes[v]? = some before →
    ∃ after, h.nodes[v]? = some after ∧ before.Renamed old new after
  users_old_of_uses : g.Uses new old → h.usersOf old = [new]
  users_old_of_not_uses : ¬ g.Uses new old → h.usersOf old = []
  increasing : (h.usersOf new).Pairwise (· < ·)
  users_new : ∀ u, u ∈ h.usersOf new ↔ g.Uses u new ∨ u ≠ new ∧ g.Uses u old
  users_other : ∀ x, x ≠ old → x ≠ new → h.usersOf x = g.usersOf x

theorem Moves.unique {g h k : Graph} {old new : ValueId} (hh : g.Moves old new h)
    (hk : g.Moves old new k) : k = h := by
  have hnodes : k.nodes = h.nodes := by
    apply List.ext_getElem?
    intro v
    by_cases hv : v = new
    · rw [hv, hh.definition, hk.definition]
    · cases hbefore : g.nodes[v]? with
      | none =>
        have hlt : g.size ≤ v := List.getElem?_eq_none_iff.mp hbefore
        rw [List.getElem?_eq_none (hk.size.trans_le hlt),
          List.getElem?_eq_none (hh.size.trans_le hlt)]
      | some before =>
        obtain ⟨a, ha, hrenamed⟩ := hk.node v before hv hbefore
        obtain ⟨b, hb, hrenamed'⟩ := hh.node v before hv hbefore
        rw [ha, hb, hrenamed.unique hrenamed']
  cases k
  cases h
  exact congrArg Graph.mk hnodes

theorem redirectUses_moves (g : Graph) {old new : ValueId} (hne : old ≠ new) :
    g.Moves old new (g.redirectUses old new) where
  size := size_redirectUses g old new
  definition := by
    rw [redirectUses, List.getElem?_mapIdx]
    simp
  node v before hv hbefore := by
    refine ⟨{ before with op := before.op.mapOperands (redirect old new) }, ?_, rfl, ?_, ?_, ?_⟩
    · rw [redirectUses, List.getElem?_mapIdx, hbefore, Option.map_some, if_neg hv]
    · exact Op.kind_mapOperands _ _
    · exact Op.payload_mapOperands _ _
    · exact Op.operands_mapOperands _ _
  users_old_of_uses huses :=
    usersOf_eq_singleton fun u => by simp [uses_redirectUses_old hne, huses]
  users_old_of_not_uses huses :=
    usersOf_eq_nil fun u => by simp [uses_redirectUses_old hne, huses]
  increasing := pairwise_usersOf _ new
  users_new u := by rw [mem_usersOf, uses_redirectUses_new]
  users_other x hold hnew := usersOf_congr fun u => uses_redirectUses_other hold hnew

/-! ### Refusals -/

/-- Why uses of `old` cannot be redirected to `new`. The old value is looked up first, and elements
are compared before shapes. -/
inductive Refuses (g : Graph) (old new : ValueId) : Refusal → Prop
  | unknownOld (hold : g.typeOf? old = none) : Refuses g old new (.unknownValue old g.size)
  | unknownNew {o : ValueType} (hold : g.typeOf? old = some o) (hnew : g.typeOf? new = none) :
    Refuses g old new (.unknownValue new g.size)
  | element {o n : ValueType} (hold : g.typeOf? old = some o) (hnew : g.typeOf? new = some n)
    (helement : o.element ≠ n.element) :
    Refuses g old new (.elementMismatch .merge o.element n.element)
  | shape {o n : ValueType} (hold : g.typeOf? old = some o) (hnew : g.typeOf? new = some n)
    (helement : o.element = n.element) (hshape : o.shape ≠ n.shape) :
    Refuses g old new (.shapeMismatch .merge o.shape n.shape)

theorem known_of_none {g : Graph} {v : ValueId} (h : g.typeOf? v = none) :
    g.known v = .error (.refused (.unknownValue v g.size)) := by
  rw [known, Option.map_eq_none_iff.mp h]

theorem Refuses.eq_error {g : Graph} {old new : ValueId} {reason : Refusal}
    (h : g.Refuses old new reason) : g.replaceAllUses old new = .error (.refused reason) := by
  unfold replaceAllUses
  cases h with
  | unknownOld hold =>
    rw [known_of_none hold]
    rfl
  | unknownNew hold hnew =>
    rw [known_of_typeOf? hold, known_of_none hnew]
    rfl
  | element hold hnew helement =>
    simp only [known_of_typeOf? hold, known_of_typeOf? hnew, ok_bind, requireSame, require,
      beq_eq_false_iff_ne.mpr helement]
    rfl
  | shape hold hnew helement hshape =>
    simp only [known_of_typeOf? hold, known_of_typeOf? hnew, ok_bind, requireSame, require,
      beq_iff_eq.mpr helement, beq_eq_false_iff_ne.mpr hshape]
    rfl

/-- Values of one type, or a reason to refuse. -/
theorem same_or_refuses (g : Graph) (old new : ValueId) :
    (∃ t, g.typeOf? old = some t ∧ g.typeOf? new = some t) ∨
      ∃ reason, g.Refuses old new reason := by
  cases hold : g.typeOf? old with
  | none => exact .inr ⟨_, .unknownOld hold⟩
  | some o =>
    cases hnew : g.typeOf? new with
    | none => exact .inr ⟨_, .unknownNew hold hnew⟩
    | some n =>
      by_cases helement : o.element = n.element
      · by_cases hshape : o.shape = n.shape
        · cases o
          cases n
          cases helement
          cases hshape
          exact .inl ⟨_, rfl, rfl⟩
        · exact .inr ⟨_, .shape hold hnew helement hshape⟩
      · exact .inr ⟨_, .element hold hnew helement⟩

theorem replaceAllUses_eq_error {g : Graph} {old new : ValueId} {failure : Failure Refusal} :
    g.replaceAllUses old new = .error failure ↔
      ∃ reason, failure = .refused reason ∧ g.Refuses old new reason := by
  constructor
  · intro h
    rcases g.same_or_refuses old new with ⟨t, hold, hnew⟩ | ⟨reason, hreason⟩
    · rw [replaceAllUses_eq hold hnew] at h
      cases h
    · rw [hreason.eq_error] at h
      cases h
      exact ⟨reason, rfl, hreason⟩
  · rintro ⟨reason, rfl, hreason⟩
    exact hreason.eq_error

end Graph

namespace Build

variable {s : Session} {old new : ValueId}

theorem replaceAllUses_of_ok {k : Graph} (h : s.graph.replaceAllUses old new = .ok k) :
    replaceAllUses old new s = .ok () ⟨k, s.log ++ [.redirected old new]⟩ := by
  rw [replaceAllUses, bind_of_ok (graph_eq_ok.mpr ⟨rfl, rfl⟩), h]
  rfl

theorem replaceAllUses_of_error {failure : Failure Refusal}
    (h : s.graph.replaceAllUses old new = .error failure) :
    replaceAllUses old new s = .error failure s := by
  rw [replaceAllUses, bind_of_ok (graph_eq_ok.mpr ⟨rfl, rfl⟩), h]
  exact bind_of_error rfl

/-- Between two values of one type, exactly the uses of the old value move to the new one, those in
the definition of the new one excepted. A request fails exactly for a stated reason, and then leaves
the session as it was. -/
theorem replaceAllUses_moves (s : Session) (old new : ValueId) (hne : old ≠ new) :
    (∀ t, s.graph.typeOf? old = some t → s.graph.typeOf? new = some t →
      ∃ s', replaceAllUses old new s = .ok () s' ∧ s.graph.Moves old new s'.graph ∧
        ∀ k, s.graph.Moves old new k → k = s'.graph) ∧
    ∀ failure s', replaceAllUses old new s = .error failure s' ↔
      s' = s ∧ ∃ reason, failure = .refused reason ∧ s.graph.Refuses old new reason := by
  constructor
  · intro t hold hnew
    have hmoves := s.graph.redirectUses_moves hne
    exact ⟨_, replaceAllUses_of_ok (Graph.replaceAllUses_eq hold hnew), hmoves,
      fun k hk => hmoves.unique hk⟩
  · intro failure s'
    rw [← Graph.replaceAllUses_eq_error]
    cases h : s.graph.replaceAllUses old new with
    | ok k => simp [replaceAllUses_of_ok h]
    | error failure' => simp [replaceAllUses_of_error h, and_comm, eq_comm]

end Build

/-- A sum of a value with itself, and later readers of the two: a loop that reads the value twice, a
product, and an update with the value for indices and mask. The last value has another type. -/
def Graph.doubling : Graph :=
  ⟨[⟨.arg 0, .scalar .i32⟩, ⟨.binary .add 0 0, .scalar .i32⟩, ⟨.merge [0, 1, 0], .scalar .i32⟩,
    ⟨.binary .mul 1 0, .scalar .i32⟩, ⟨.arg 1, .scalar (.pointer .i32 .global)⟩,
    ⟨.gatherAtomicRmw .addI 4 2 0 (some 0), .scalar .i32⟩, ⟨.arg 2, .scalar .i8⟩]⟩

theorem Build.replaceAllUses_moves_doubling :
    (∃ s', replaceAllUses 0 1 ⟨.doubling, []⟩ = .ok () s' ∧ s'.graph.usersOf 0 = [1] ∧
      (∀ u, u ∈ s'.graph.usersOf 1 ↔ Graph.doubling.Uses u 1 ∨ u ≠ 1 ∧ Graph.doubling.Uses u 0) ∧
      s'.graph.nodes[1]? = some ⟨.binary .add 0 0, .scalar .i32⟩ ∧
      ∃ node, s'.graph.nodes[5]? = some node ∧ node.op.operands = [4, 2, 1, 1]) ∧
    replaceAllUses 0 6 ⟨.doubling, []⟩ =
      .error (.refused (.elementMismatch .merge .i32 .i8)) ⟨.doubling, []⟩ := by
  constructor
  · obtain ⟨s', hs', hmoves, _⟩ :=
      (replaceAllUses_moves ⟨.doubling, []⟩ 0 1 (by decide)).1 (.scalar .i32) rfl rfl
    obtain ⟨node, hnode, hrenamed⟩ := hmoves.node 5 _ (by decide) rfl
    exact ⟨s', hs', hmoves.users_old_of_uses ⟨_, rfl, by decide⟩, hmoves.users_new,
      hmoves.definition, node, hnode, hrenamed.operands⟩
  · have helement : (ValueType.scalar .i32).element ≠ (ValueType.scalar .i8).element := by decide
    exact ((replaceAllUses_moves ⟨.doubling, []⟩ 0 6 (by decide)).2 _ _).mpr
      ⟨rfl, _, rfl, .element rfl rfl helement⟩

end TileFacts

import TileFacts.Graph.Definition
import TileFacts.Proofs.Word

/-! Types of values, and the graphs that can be built.

`Op.HasType` says which type an operation has, given the types of its operands. Every graph that
is built by definitions, by inputs added to merges and by redirected uses (`Graph.Built`) is well
typed: each node has the type of its operation, and no extent is zero (`Built.wellTyped`). -/
namespace TileFacts

theorem Shape.all_zip_iff {source target : Shape} (hlen : source.length = target.length) :
    ((source.zip target).all fun (s, t) => s == t || s == 1) = true ↔
      ∀ d, source.getD d 1 = target.getD d 1 ∨ source.getD d 1 = 1 := by
  induction source generalizing target with
  | nil =>
    cases target with
    | nil => simp
    | cons => cases hlen
  | cons s rest ih =>
    cases target with
    | nil => cases hlen
    | cons t limits =>
      have hrest := @ih limits (by simpa using hlen)
      rw [List.zip_cons_cons, List.all_cons, Bool.and_eq_true, hrest, Bool.or_eq_true, beq_iff_eq,
        beq_iff_eq]
      constructor
      · rintro ⟨h0, h⟩ d
        cases d with
        | zero => exact h0
        | succ d => exact h d
      · intro h
        exact ⟨h 0, fun d => h (d + 1)⟩

/-- A shape stretches to another if it is a scalar's, or if it agrees with the other wherever it is
not one. -/
theorem Shape.stretchesTo_iff {source target : Shape} :
    source.stretchesTo target = true ↔ source = [] ∨ source.length = target.length ∧
      ∀ d, source.getD d 1 = target.getD d 1 ∨ source.getD d 1 = 1 := by
  cases source with
  | nil => simp [stretchesTo]
  | cons s rest =>
    simp only [stretchesTo, Bool.and_eq_true, beq_iff_eq, reduceCtorEq, false_or]
    constructor
    · rintro ⟨hlen, hall⟩
      exact ⟨hlen, (all_zip_iff hlen).mp hall⟩
    · rintro ⟨hlen, hall⟩
      exact ⟨hlen, (all_zip_iff hlen).mpr hall⟩

/-- The type of a value, if it is part of the graph. -/
def Graph.typeOf? (g : Graph) (v : ValueId) : Option ValueType := g.nodes[v]?.map Node.type

/-- The type of an operation, from the types of its operands. -/
inductive Op.HasType (types : ValueId → Option ValueType) : Op → ValueType → Prop
  | const {value : Int64} {t : ValueType} (hint : t.element.isInt = true) :
    HasType types (.const value) t
  | constFloat {bits : UInt64} {t : ValueType} (hfloat : t.element.isFloat = true) :
    HasType types (.constFloat bits) t
  | arg {index : Nat} {t : ValueType} : HasType types (.arg index) t
  | cast {op : CastOp} {source : ValueId} {s : ValueType} {element : Element}
    (hsource : types source = some s) (haccepts : op.accepts s.element element = true) :
    HasType types (.cast op source) (s.withElement element)
  | binary {op : BinaryOp} {lhs rhs : ValueId} {t : ValueType} (hlhs : types lhs = some t)
    (hrhs : types rhs = some t) (hint : t.element.isInt = true) :
    HasType types (.binary op lhs rhs) t
  | addPtr {ptr offset : ValueId} {t o : ValueType} (hptr : types ptr = some t)
    (hoffset : types offset = some o) (hpointer : t.element.isPointer = true)
    (hint : o.element.isInt = true) (hshape : t.shape = o.shape) :
    HasType types (.addPtr ptr offset) t
  | cmp {predicate : Comparison} {lhs rhs : ValueId} {t : ValueType} (hlhs : types lhs = some t)
    (hrhs : types rhs = some t) : HasType types (.cmp predicate lhs rhs) (t.withElement .bool)
  | select {cond onTrue onFalse : ValueId} {c t : ValueType} (hcond : types cond = some c)
    (honTrue : types onTrue = some t) (honFalse : types onFalse = some t)
    (hbool : c.element.isBool = true) (hshape : c.shape = [] ∨ c.shape = t.shape) :
    HasType types (.select cond onTrue onFalse) t
  | range {start stop count : Int64} (horder : start < stop)
    (hcount : Word.checkedSub stop start = .ok count) :
    HasType types (.range start stop) ⟨.i32, [count.toInt.toNat]⟩
  | splat {source : ValueId} {s : ValueType} {shape : Shape} (hsource : types source = some s)
    (hscalar : s.shape = []) : HasType types (.splat source) (s.withShape shape)
  | broadcast {source : ValueId} {s : ValueType} {shape : Shape} (hsource : types source = some s)
    (hstretches : s.shape.stretchesTo shape = true) :
    HasType types (.broadcast source) (s.withShape shape)
  | expandDims {source : ValueId} {axis : Nat} {s : ValueType} (hsource : types source = some s)
    (haxis : axis ≤ s.rank) :
    HasType types (.expandDims source axis) (s.withShape (s.shape.insertIdx axis 1))
  | reshape {source : ValueId} {s : ValueType} {shape : Shape} {count : Nat}
    (hsource : types source = some s) (hinput : s.shape.numElements = .ok count)
    (houtput : shape.numElements = .ok count) : HasType types (.reshape source) (s.withShape shape)
  | merge {inputs : List ValueId} {t : ValueType} (hinputs : ∀ u ∈ inputs, types u = some t) :
    HasType types (.merge inputs) t
  | atomicRmw {op : RmwOp} {ptr value : ValueId} {mask : Option ValueId} {p t : ValueType}
    (hptr : types ptr = some p) (hvalue : types value = some t)
    (hpointee : p.element.pointee? = some t.element) (hshape : p.shape = t.shape)
    (hmask : ∀ m ∈ mask, ∃ s, types m = some s ∧ s.element.isBool = true ∧ s.shape = t.shape) :
    HasType types (.atomicRmw op ptr value mask) t
  | gatherAtomicRmw {op : AtomicOp} {base values indices : ValueId} {mask : Option ValueId}
    {b t i : ValueType} (hbase : types base = some b) (hvalues : types values = some t)
    (hindices : types indices = some i) (hpointer : b.element.isPointer = true)
    (hscalar : b.shape = []) (hint : i.element.isInt = true) (hshape : i.shape = t.shape)
    (hmask : ∀ m ∈ mask, ∃ s, types m = some s ∧ s.element.isInt = true ∧ s.shape = t.shape) :
    HasType types (.gatherAtomicRmw op base values indices mask) t

/-- Renamed operands of the same types make an operation of the same type. -/
theorem Op.HasType.mapOperands {types types' : ValueId → Option ValueType} {op : Op}
    {t : ValueType} (h : op.HasType types t) {f : ValueId → ValueId}
    (hf : ∀ u s, types u = some s → types' (f u) = some s) :
    (op.mapOperands f).HasType types' t := by
  have hmask {mask : Option ValueId} {P : ValueType → Prop}
      (hm : ∀ m ∈ mask, ∃ s, types m = some s ∧ P s) :
      ∀ m ∈ mask.map f, ∃ s, types' m = some s ∧ P s := by
    intro m hmem
    obtain ⟨m', hm', rfl⟩ := Option.map_eq_some_iff.mp hmem
    obtain ⟨s, hs, hP⟩ := hm m' hm'
    exact ⟨s, hf _ _ hs, hP⟩
  cases h with
  | const int => exact .const int
  | constFloat float => exact .constFloat float
  | arg => exact .arg
  | cast source accepts => exact .cast (hf _ _ source) accepts
  | binary lhs rhs int => exact .binary (hf _ _ lhs) (hf _ _ rhs) int
  | addPtr ptr offset pointer int shape =>
    exact .addPtr (hf _ _ ptr) (hf _ _ offset) pointer int shape
  | cmp lhs rhs => exact .cmp (hf _ _ lhs) (hf _ _ rhs)
  | select cond onTrue onFalse bool shape =>
    exact .select (hf _ _ cond) (hf _ _ onTrue) (hf _ _ onFalse) bool shape
  | range order count => exact .range order count
  | splat source scalar => exact .splat (hf _ _ source) scalar
  | broadcast source stretches => exact .broadcast (hf _ _ source) stretches
  | expandDims source axis => exact .expandDims (hf _ _ source) axis
  | reshape source input output => exact .reshape (hf _ _ source) input output
  | merge inputs =>
    refine .merge fun u hu => ?_
    obtain ⟨w, hw, rfl⟩ := List.mem_map.mp hu
    exact hf _ _ (inputs w hw)
  | atomicRmw ptr value pointee shape mask =>
    exact .atomicRmw (hf _ _ ptr) (hf _ _ value) pointee shape (hmask mask)
  | gatherAtomicRmw base values indices pointer scalar int shape mask =>
    exact .gatherAtomicRmw (hf _ _ base) (hf _ _ values) (hf _ _ indices) pointer scalar int shape
      (hmask mask)

@[simp] theorem Op.mapOperands_id (op : Op) : op.mapOperands (fun v => v) = op := by
  cases op <;> simp [Op.mapOperands]

/-- More types are known, and those that were stay. -/
theorem Op.HasType.mono {types types' : ValueId → Option ValueType} {op : Op} {t : ValueType}
    (h : op.HasType types t) (hsub : ∀ u s, types u = some s → types' u = some s) :
    op.HasType types' t := by
  simpa using h.mapOperands (f := fun v => v) hsub

/-- The operands of a typed operation have types. -/
theorem Op.HasType.operand {types : ValueId → Option ValueType} {op : Op} {t : ValueType}
    (h : op.HasType types t) {u : ValueId} (hu : u ∈ op.operands) : ∃ s, types u = some s := by
  cases h with
  | atomicRmw ptr value _ _ mask =>
    simp only [operands, List.mem_append, List.mem_cons, List.not_mem_nil, or_false,
      Option.mem_toList] at hu
    obtain (rfl | rfl) | hm := hu
    · exact ⟨_, ptr⟩
    · exact ⟨_, value⟩
    · exact (mask u hm).imp fun s hs => hs.1
  | gatherAtomicRmw base values indices _ _ _ _ mask =>
    simp only [operands, List.mem_append, List.mem_cons, List.not_mem_nil, or_false,
      Option.mem_toList] at hu
    obtain (rfl | rfl | rfl) | hm := hu
    · exact ⟨_, base⟩
    · exact ⟨_, values⟩
    · exact ⟨_, indices⟩
    · exact (mask u hm).imp fun s hs => hs.1
  | merge inputs => exact ⟨_, inputs u hu⟩
  | _ => grind [operands]

/-! ### Well-typed graphs -/

namespace Graph

/-- A node has the type of its operation, and no extent of zero. -/
structure NodeTyped (types : ValueId → Option ValueType) (node : Node) : Prop where
  op : node.op.HasType types node.type
  extents : 0 ∉ node.type.shape

def WellTyped (g : Graph) : Prop :=
  ∀ (v : ValueId) (node : Node), g.nodes[v]? = some node → NodeTyped g.typeOf? node

theorem known_eq_ok {g : Graph} {v : ValueId} {t : ValueType} :
    g.known v = .ok t ↔ g.typeOf? v = some t := by
  unfold known typeOf?
  cases g.nodes[v]? <;> simp

theorem type_eq_ok {g : Graph} {v : ValueId} {t : ValueType} :
    g.type v = .ok t ↔ g.typeOf? v = some t := by
  unfold type node element typeOf?
  cases g.nodes[v]? <;> simp [Functor.map, Except.map]

theorem requireSame_eq_ok {kind : Kind} {a b : ValueType} {u : Unit} :
    requireSame kind a b = .ok u ↔ a = b := by
  obtain ⟨_, _⟩ := a
  obtain ⟨_, _⟩ := b
  simp [requireSame, bind_eq_ok]

theorem validate_eq_ok {shape result : Shape} :
    shape.validate = .ok result ↔ 0 ∉ shape ∧ result = shape := by
  have hzero : shape.hasZero = false ↔ 0 ∉ shape := by
    simp only [Shape.hasZero, List.any_eq_false, beq_iff_eq]
    exact ⟨fun h hmem => h 0 hmem rfl, fun h x hx hx0 => h (hx0 ▸ hx)⟩
  simp only [Shape.validate, bind_eq_ok, require_eq_ok, Bool.not_eq_true', hzero]
  simp [pure, Except.pure, eq_comm]

theorem WellTyped.extents_of_typeOf? {g : Graph} (hg : g.WellTyped) {v : ValueId} {t : ValueType}
    (h : g.typeOf? v = some t) : 0 ∉ t.shape := by
  obtain ⟨node, hnode, rfl⟩ := Option.map_eq_some_iff.mp h
  exact (hg v node hnode).extents

theorem requireMask_eq_ok {g : Graph} {shape : Shape} {mask : Option ValueId} {u : Unit}
    (h : g.requireMask shape mask = .ok u) :
    ∀ m ∈ mask, ∃ s, g.typeOf? m = some s ∧ s.element.isBool = true ∧ s.shape = shape := by
  rintro m ⟨rfl⟩
  obtain ⟨s, hs, h⟩ := bind_eq_ok.mp h
  obtain ⟨_, hbool, h⟩ := bind_eq_ok.mp h
  exact ⟨s, known_eq_ok.mp hs, require_eq_ok.mp hbool,
    (beq_iff_eq.mp (require_eq_ok.mp h)).symm⟩

theorem requireGatherMask_eq_ok {g : Graph} {shape : Shape} {mask : Option ValueId} {u : Unit}
    (h : g.requireGatherMask shape mask = .ok u) :
    ∀ m ∈ mask, ∃ s, g.typeOf? m = some s ∧ s.element.isInt = true ∧ s.shape = shape := by
  rintro m ⟨rfl⟩
  obtain ⟨s, hs, h⟩ := bind_eq_ok.mp h
  obtain ⟨_, hint, h⟩ := bind_eq_ok.mp h
  exact ⟨s, known_eq_ok.mp hs, require_eq_ok.mp hint,
    (beq_iff_eq.mp (require_eq_ok.mp h)).symm⟩

/-- What is defined is typed: the checks of a definition are those of its operation's type. -/
theorem WellTyped.define {g : Graph} (hg : g.WellTyped) {d : Definition} {node : Node}
    (h : g.define d = .ok node) : NodeTyped g.typeOf? node := by
  cases d with
  | arg index type =>
    obtain ⟨_, hv, h⟩ := bind_eq_ok.mp h
    cases h
    exact ⟨.arg, (validate_eq_ok.mp hv).1⟩
  | const value type =>
    obtain ⟨_, hv, h⟩ := bind_eq_ok.mp h
    obtain ⟨_, hint, h⟩ := bind_eq_ok.mp h
    cases h
    exact ⟨.const (require_eq_ok.mp hint), (validate_eq_ok.mp hv).1⟩
  | constFloat bits type =>
    obtain ⟨_, hv, h⟩ := bind_eq_ok.mp h
    obtain ⟨_, hfloat, h⟩ := bind_eq_ok.mp h
    cases h
    exact ⟨.constFloat (require_eq_ok.mp hfloat), (validate_eq_ok.mp hv).1⟩
  | cast op source element =>
    obtain ⟨s, hs, h⟩ := bind_eq_ok.mp h
    obtain ⟨_, hacc, h⟩ := bind_eq_ok.mp h
    cases h
    exact ⟨.cast (known_eq_ok.mp hs) (require_eq_ok.mp hacc),
      show 0 ∉ s.shape from hg.extents_of_typeOf? (known_eq_ok.mp hs)⟩
  | binary op lhs rhs =>
    obtain ⟨l, hl, h⟩ := bind_eq_ok.mp h
    obtain ⟨r, hr, h⟩ := bind_eq_ok.mp h
    obtain ⟨_, hsame, h⟩ := bind_eq_ok.mp h
    obtain ⟨_, hint, h⟩ := bind_eq_ok.mp h
    cases h
    cases requireSame_eq_ok.mp hsame
    exact ⟨.binary (known_eq_ok.mp hl) (known_eq_ok.mp hr) (require_eq_ok.mp hint),
      hg.extents_of_typeOf? (known_eq_ok.mp hl)⟩
  | addPtr ptr offset =>
    obtain ⟨p, hp, h⟩ := bind_eq_ok.mp h
    obtain ⟨o, ho, h⟩ := bind_eq_ok.mp h
    obtain ⟨_, hptr, h⟩ := bind_eq_ok.mp h
    obtain ⟨_, hint, h⟩ := bind_eq_ok.mp h
    obtain ⟨_, hshape, h⟩ := bind_eq_ok.mp h
    cases h
    exact ⟨.addPtr (known_eq_ok.mp hp) (known_eq_ok.mp ho) (require_eq_ok.mp hptr)
      (require_eq_ok.mp hint) (beq_iff_eq.mp (require_eq_ok.mp hshape)),
      hg.extents_of_typeOf? (known_eq_ok.mp hp)⟩
  | cmp predicate lhs rhs =>
    obtain ⟨l, hl, h⟩ := bind_eq_ok.mp h
    obtain ⟨r, hr, h⟩ := bind_eq_ok.mp h
    obtain ⟨_, hsame, h⟩ := bind_eq_ok.mp h
    cases h
    cases requireSame_eq_ok.mp hsame
    exact ⟨.cmp (known_eq_ok.mp hl) (known_eq_ok.mp hr),
      show 0 ∉ l.shape from hg.extents_of_typeOf? (known_eq_ok.mp hl)⟩
  | select cond onTrue onFalse =>
    obtain ⟨c, hc, h⟩ := bind_eq_ok.mp h
    obtain ⟨t, ht, h⟩ := bind_eq_ok.mp h
    obtain ⟨f, hf, h⟩ := bind_eq_ok.mp h
    obtain ⟨_, hsame, h⟩ := bind_eq_ok.mp h
    obtain ⟨_, hbool, h⟩ := bind_eq_ok.mp h
    obtain ⟨_, hshape, h⟩ := bind_eq_ok.mp h
    cases h
    cases requireSame_eq_ok.mp hsame
    have hshape' : c.shape = [] ∨ c.shape = t.shape := by
      simpa [ValueType.isScalar] using require_eq_ok.mp hshape
    exact ⟨.select (known_eq_ok.mp hc) (known_eq_ok.mp ht) (known_eq_ok.mp hf)
      (require_eq_ok.mp hbool) hshape', hg.extents_of_typeOf? (known_eq_ok.mp ht)⟩
  | range start stop =>
    obtain ⟨_, horder, h⟩ := bind_eq_ok.mp h
    obtain ⟨count, hcount, h⟩ := bind_eq_ok.mp h
    cases h
    have horder' : start < stop := by simpa using require_eq_ok.mp horder
    refine ⟨.range horder' (checked_eq_ok.mp hcount), ?_⟩
    have hlt := Int64.lt_iff_toInt_lt.mp horder'
    have := Word.toInt_of_checkedSub (checked_eq_ok.mp hcount)
    simp only [List.mem_singleton]
    omega
  | splat source shape =>
    obtain ⟨s, hs, h⟩ := bind_eq_ok.mp h
    obtain ⟨_, hscalar, h⟩ := bind_eq_ok.mp h
    obtain ⟨shape', hv, h⟩ := bind_eq_ok.mp h
    cases h
    obtain ⟨hzero, rfl⟩ := validate_eq_ok.mp hv
    exact ⟨.splat (known_eq_ok.mp hs)
      (by simpa [ValueType.isScalar] using require_eq_ok.mp hscalar),
      hzero⟩
  | broadcast source shape =>
    obtain ⟨s, hs, h⟩ := bind_eq_ok.mp h
    obtain ⟨_, hstretch, h⟩ := bind_eq_ok.mp h
    obtain ⟨shape', hv, h⟩ := bind_eq_ok.mp h
    cases h
    obtain ⟨hzero, rfl⟩ := validate_eq_ok.mp hv
    exact ⟨.broadcast (known_eq_ok.mp hs) (require_eq_ok.mp hstretch), hzero⟩
  | expandDims source axis =>
    obtain ⟨s, hs, h⟩ := bind_eq_ok.mp h
    obtain ⟨_, haxis, h⟩ := bind_eq_ok.mp h
    cases h
    have haxis' : axis ≤ s.rank := by simpa using require_eq_ok.mp haxis
    refine ⟨.expandDims (known_eq_ok.mp hs) haxis', ?_⟩
    intro hmem
    rcases (List.mem_insertIdx haxis').mp hmem with hone | hmem
    · cases hone
    · exact hg.extents_of_typeOf? (known_eq_ok.mp hs) hmem
  | reshape source shape =>
    obtain ⟨s, hs, h⟩ := bind_eq_ok.mp h
    obtain ⟨shape', hv, h⟩ := bind_eq_ok.mp h
    obtain ⟨input, hin, h⟩ := bind_eq_ok.mp h
    obtain ⟨output, hout, h⟩ := bind_eq_ok.mp h
    obtain ⟨_, hsame, h⟩ := bind_eq_ok.mp h
    cases h
    obtain ⟨hzero, rfl⟩ := validate_eq_ok.mp hv
    cases beq_iff_eq.mp (require_eq_ok.mp hsame)
    exact ⟨.reshape (known_eq_ok.mp hs) (checked_eq_ok.mp hin) (checked_eq_ok.mp hout), hzero⟩
  | merge init =>
    obtain ⟨t, ht, h⟩ := bind_eq_ok.mp h
    cases h
    refine ⟨.merge fun u hu => ?_, hg.extents_of_typeOf? (known_eq_ok.mp ht)⟩
    rw [List.mem_singleton.mp hu]
    exact known_eq_ok.mp ht
  | atomicRmw op ptr value mask =>
    obtain ⟨p, hp, h⟩ := bind_eq_ok.mp h
    obtain ⟨t, ht, h⟩ := bind_eq_ok.mp h
    split at h
    · cases h
    · next pointee hpointee =>
      obtain ⟨_, hel, h⟩ := bind_eq_ok.mp h
      obtain ⟨_, hshape, h⟩ := bind_eq_ok.mp h
      obtain ⟨_, hmask, h⟩ := bind_eq_ok.mp h
      cases h
      cases beq_iff_eq.mp (require_eq_ok.mp hel)
      exact ⟨.atomicRmw (known_eq_ok.mp hp) (known_eq_ok.mp ht) hpointee
        (beq_iff_eq.mp (require_eq_ok.mp hshape)) (requireMask_eq_ok hmask),
        hg.extents_of_typeOf? (known_eq_ok.mp ht)⟩
  | gatherAtomicRmw op base values indices mask =>
    obtain ⟨b, hb, h⟩ := bind_eq_ok.mp h
    obtain ⟨t, ht, h⟩ := bind_eq_ok.mp h
    obtain ⟨i, hi, h⟩ := bind_eq_ok.mp h
    obtain ⟨_, hptr, h⟩ := bind_eq_ok.mp h
    obtain ⟨_, hscalar, h⟩ := bind_eq_ok.mp h
    obtain ⟨_, hint, h⟩ := bind_eq_ok.mp h
    obtain ⟨_, hshape, h⟩ := bind_eq_ok.mp h
    obtain ⟨_, hmask, h⟩ := bind_eq_ok.mp h
    cases h
    exact ⟨.gatherAtomicRmw (known_eq_ok.mp hb) (known_eq_ok.mp ht) (known_eq_ok.mp hi)
      (require_eq_ok.mp hptr) (by simpa [ValueType.isScalar] using require_eq_ok.mp hscalar)
      (require_eq_ok.mp hint) (beq_iff_eq.mp (require_eq_ok.mp hshape))
      (requireGatherMask_eq_ok hmask), hg.extents_of_typeOf? (known_eq_ok.mp ht)⟩

/-! ### Growing a graph -/

theorem typeOf?_push {g : Graph} {node : Node} {v : ValueId} {t : ValueType}
    (h : g.typeOf? v = some t) : (g.push node).typeOf? v = some t := by
  obtain ⟨n, hn, rfl⟩ := Option.map_eq_some_iff.mp h
  have hlt : v < g.nodes.length := (List.getElem?_eq_some_iff.mp hn).1
  simp only [typeOf?, push, List.getElem?_append_left hlt, hn, Option.map_some]

theorem NodeTyped.mono {types types' : ValueId → Option ValueType} {node : Node}
    (h : NodeTyped types node) (hsub : ∀ u s, types u = some s → types' u = some s) :
    NodeTyped types' node :=
  ⟨h.op.mono hsub, h.extents⟩

theorem WellTyped.push {g : Graph} (hg : g.WellTyped) {node : Node}
    (hnode : NodeTyped g.typeOf? node) : (g.push node).WellTyped := by
  intro v n hn
  refine NodeTyped.mono ?_ fun u s => typeOf?_push
  simp only [Graph.push, List.getElem?_append] at hn
  split at hn
  · exact hg v n hn
  · rw [List.getElem?_singleton] at hn
    split at hn
    · cases hn
      exact hnode
    · cases hn

/-- A merge gets one more input, of its own type. -/
theorem addMergeInput_eq_ok {g g' : Graph} {merge input : ValueId}
    (h : g.addMergeInput merge input = .ok g') :
    ∃ inputs type, g.nodes[merge]? = some ⟨.merge inputs, type⟩ ∧ g.typeOf? input = some type ∧
      g' = g.set merge ⟨.merge (inputs ++ [input]), type⟩ := by
  obtain ⟨m, hm, h⟩ := bind_eq_ok.mp h
  obtain ⟨i, hi, h⟩ := bind_eq_ok.mp h
  obtain ⟨_, hsame, h⟩ := bind_eq_ok.mp h
  split at h
  · next inputs type hnode =>
    cases h
    cases requireSame_eq_ok.mp hsame
    have htype := known_eq_ok.mp hm
    rw [typeOf?, hnode] at htype
    cases htype
    exact ⟨inputs, type, hnode, known_eq_ok.mp hi, rfl⟩
  · cases h

/-- What a changed graph has under a name: the new node, or what it had. -/
theorem node_set {g : Graph} {v u : ValueId} {new node : Node}
    (h : (g.set v new).nodes[u]? = some node) :
    v = u ∧ node = new ∨ v ≠ u ∧ g.nodes[u]? = some node := by
  simp only [Graph.set, List.getElem?_set] at h
  split at h
  · next heq =>
    split at h
    · cases h
      exact .inl ⟨heq, rfl⟩
    · cases h
  · next hne => exact .inr ⟨hne, h⟩

theorem WellTyped.addMergeInput {g g' : Graph} (hg : g.WellTyped) {merge input : ValueId}
    (h : g.addMergeInput merge input = .ok g') : g'.WellTyped := by
  obtain ⟨inputs, type, hnode, hinput, rfl⟩ := addMergeInput_eq_ok h
  have htypes : (g.set merge ⟨.merge (inputs ++ [input]), type⟩).typeOf? = g.typeOf? := by
    funext v
    simp only [typeOf?, Graph.set, List.getElem?_set]
    split
    · next heq =>
      subst heq
      split
      · simp [hnode]
      · next hlt => simp [List.getElem?_eq_none (Nat.le_of_not_lt hlt)]
    · rfl
  intro v n hn
  rw [htypes]
  rcases node_set hn with ⟨rfl, rfl⟩ | ⟨_, hn⟩
  · obtain ⟨hop, hext⟩ := hg merge _ hnode
    cases hop with
    | merge hinputs =>
      refine ⟨.merge fun u hu => ?_, hext⟩
      rcases List.mem_append.mp hu with hu | hu
      · exact hinputs u hu
      · rw [List.mem_singleton.mp hu]
        exact hinput
  · exact hg v n hn

theorem typeOf?_redirectUses (g : Graph) (old new : ValueId) :
    (g.redirectUses old new).typeOf? = g.typeOf? := by
  funext v
  simp only [typeOf?, redirectUses, List.getElem?_mapIdx, Option.map_map]
  congr 1
  funext node
  simp only [Function.comp_apply]
  split <;> rfl

theorem WellTyped.redirectUses {g : Graph} (hg : g.WellTyped) {old new : ValueId}
    (hsame : g.typeOf? old = g.typeOf? new) : (g.redirectUses old new).WellTyped := by
  intro v n hn
  rw [typeOf?_redirectUses]
  simp only [Graph.redirectUses, List.getElem?_mapIdx] at hn
  obtain ⟨node, hnode, rfl⟩ := Option.map_eq_some_iff.mp hn
  obtain ⟨hop, hext⟩ := hg v node hnode
  split
  · exact ⟨hop, hext⟩
  · refine ⟨hop.mapOperands fun u s hu => ?_, hext⟩
    unfold redirect
    split
    · next heq => rw [← hsame, ← heq, hu]
    · exact hu

theorem replaceAllUses_eq_ok {g g' : Graph} {old new : ValueId}
    (h : g.replaceAllUses old new = .ok g') :
    g.typeOf? old = g.typeOf? new ∧ g' = g.redirectUses old new := by
  obtain ⟨o, ho, h⟩ := bind_eq_ok.mp h
  obtain ⟨n, hn, h⟩ := bind_eq_ok.mp h
  obtain ⟨_, hsame, h⟩ := bind_eq_ok.mp h
  cases h
  cases requireSame_eq_ok.mp hsame
  exact ⟨(known_eq_ok.mp ho).trans (known_eq_ok.mp hn).symm, rfl⟩

/-- The graphs that can be built. -/
inductive Built : Graph → Prop
  | empty : Built .empty
  | define {g : Graph} {d : Definition} {node : Node} (hg : Built g) (h : g.define d = .ok node) :
    Built (g.push node)
  | addMergeInput {g g' : Graph} {merge input : ValueId} (hg : Built g)
    (h : g.addMergeInput merge input = .ok g') : Built g'
  | replaceAllUses {g g' : Graph} {old new : ValueId} (hg : Built g)
    (h : g.replaceAllUses old new = .ok g') : Built g'

/-- The graphs that can be built without redirecting uses. -/
inductive Defined : Graph → Prop
  | empty : Defined .empty
  | define {g : Graph} {d : Definition} {node : Node} (hg : Defined g) (h : g.define d = .ok node) :
    Defined (g.push node)
  | addMergeInput {g g' : Graph} {merge input : ValueId} (hg : Defined g)
    (h : g.addMergeInput merge input = .ok g') : Defined g'

theorem Defined.built {g : Graph} (h : Defined g) : g.Built := by
  induction h with
  | empty => exact .empty
  | define _ h ih => exact ih.define h
  | addMergeInput _ h ih => exact ih.addMergeInput h

/-- What a graph can be asked for. -/
inductive Request where
  | define (d : Definition)
  | addMergeInput (merge input : ValueId)
  | replaceAllUses (old new : ValueId)

/-- The graph after a request. -/
def perform (g : Graph) : Request → Attempt Refusal Graph
  | .define d => do return g.push (← g.define d)
  | .addMergeInput merge input => g.addMergeInput merge input
  | .replaceAllUses old new => g.replaceAllUses old new

theorem Built.perform {g g' : Graph} (hg : Built g) {request : Request}
    (h : g.perform request = .ok g') : Built g' := by
  cases request with
  | define d =>
    obtain ⟨node, hnode, h⟩ := bind_eq_ok.mp h
    cases h
    exact hg.define hnode
  | addMergeInput => exact hg.addMergeInput h
  | replaceAllUses => exact hg.replaceAllUses h

/-- Requests that all succeed build a graph. -/
theorem Built.of_requests (requests : List Request) {g g' : Graph} (hg : Built g)
    (h : requests.foldlM Graph.perform g = .ok g') : Built g' := by
  induction requests generalizing g with
  | nil =>
    cases h
    exact hg
  | cons request rest ih =>
    obtain ⟨next, hnext, h⟩ := bind_eq_ok.mp h
    exact ih (hg.perform hnext) h

/-- The graph after a request; a request that fails leaves it as it was. -/
def attempt (g : Graph) (request : Request) : Graph :=
  match g.perform request with
  | .ok next => next
  | .error _ => g

/-- The graph that requests make, those that fail included. -/
def ofRequests (requests : List Request) : Graph := requests.foldl attempt .empty

theorem Built.attempt {g : Graph} (hg : Built g) (request : Request) :
    Built (g.attempt request) := by
  unfold Graph.attempt
  split
  · next h => exact hg.perform h
  · exact hg

theorem ofRequests_built (requests : List Request) : (ofRequests requests).Built := by
  have hfold : ∀ g : Graph, g.Built → (requests.foldl Graph.attempt g).Built := by
    induction requests with
    | nil => exact fun _ hg => hg
    | cons request rest ih => exact fun g hg => ih (g.attempt request) (hg.attempt request)
  exact hfold .empty .empty

theorem Defined.of_definitions (definitions : List Definition) {g g' : Graph} (hg : Defined g)
    (h : definitions.foldlM (fun g d => g.perform (.define d)) g = .ok g') : Defined g' := by
  induction definitions generalizing g with
  | nil =>
    cases h
    exact hg
  | cons d rest ih =>
    obtain ⟨next, hnext, h⟩ := bind_eq_ok.mp h
    obtain ⟨node, hnode, hnext⟩ := bind_eq_ok.mp hnext
    cases hnext
    exact ih (hg.define hnode) h

theorem Built.wellTyped {g : Graph} (h : Built g) : g.WellTyped := by
  induction h with
  | empty =>
    intro v node hnode
    cases hnode
  | define _ h ih => exact ih.push (ih.define h)
  | addMergeInput _ h ih => exact ih.addMergeInput h
  | replaceAllUses _ h ih =>
    obtain ⟨hsame, rfl⟩ := replaceAllUses_eq_ok h
    exact ih.redirectUses hsame

end Graph

end TileFacts

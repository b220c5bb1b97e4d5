import TileFacts.Proofs.Update

/-! What constructions leave behind, whether they succeed or fail.

A failure ends a construction, and what was built until then stays. `Build.Ends` speaks of both
ways to end at once. Most of a lowering only adds values: none of them is an atomic update, and each
reads values that the lowering was given or has added itself (`Build.Draws`). What remains is the
last step of a replacement, which redirects uses (`Lowering.replace_ends`). -/
namespace TileFacts

namespace Build

variable {ε δ α β : Type} {s s' : Session}

/-! ### Ends -/

theorem bind_of_ok {x : Build ε α} {f : α → Build ε β} {a : α} (h : x s = .ok a s') :
    (x >>= f) s = f a s' := by
  show EStateM.bind x f s = f a s'
  rw [EStateM.bind, h]

theorem bind_of_error {x : Build ε α} {f : α → Build ε β} {failure : Failure ε}
    (h : x s = .error failure s') : (x >>= f) s = .error failure s' := by
  show EStateM.bind x f s = .error failure s'
  rw [EStateM.bind, h]

theorem bind_eq_error {x : Build ε α} {f : α → Build ε β} {failure : Failure ε} :
    (x >>= f) s = .error failure s' ↔
      x s = .error failure s' ∨ ∃ a s₁, x s = .ok a s₁ ∧ f a s₁ = .error failure s' := by
  cases h : x s with
  | ok a s₁ => simp [bind_of_ok h]
  | error e s₁ => simp [bind_of_error h]

theorem inspect_of_error {f : Graph → Checked α} {fault : Fault} (h : f s.graph = .error fault) :
    (inspect f : Build ε α) s = .error (.fault fault) s := by
  show attempt (checked (f s.graph)) s = _
  rw [h]
  rfl

theorem emit_eq (events : List Event) :
    (emit events : Build ε Unit) s = .ok () { s with log := s.log ++ events } := rfl

/-- How a construction ends, with a result or with a failure, and which graph it leaves. -/
def Ends (x : Build ε α) (s : Session) (ok : α → Graph → Prop)
    (failed : Failure ε → Graph → Prop) : Prop :=
  match x s with
  | .ok a s' => ok a s'.graph
  | .error failure s' => failed failure s'.graph

section Ends

variable {x : Build ε α} {Q Q' : α → Graph → Prop} {F F' : Failure ε → Graph → Prop}

theorem ends_of_ok {a : α} (hx : x s = .ok a s') (h : Q a s'.graph) : x.Ends s Q F := by
  rw [Ends, hx]
  exact h

theorem ends_of_error {failure : Failure ε} (hx : x s = .error failure s')
    (h : F failure s'.graph) : x.Ends s Q F := by
  rw [Ends, hx]
  exact h

theorem Ends.of_ok (h : x.Ends s Q F) {a : α} (hx : x s = .ok a s') : Q a s'.graph := by
  rw [Ends, hx] at h
  exact h

theorem Ends.of_error (h : x.Ends s Q F) {failure : Failure ε}
    (hx : x s = .error failure s') : F failure s'.graph := by
  rw [Ends, hx] at h
  exact h

theorem Ends.imp (h : x.Ends s Q F) (hok : ∀ a k, Q a k → Q' a k)
    (hfailed : ∀ failure k, F failure k → F' failure k) : x.Ends s Q' F' := by
  cases hx : x s with
  | ok a s' => exact ends_of_ok hx (hok a _ (h.of_ok hx))
  | error failure s' => exact ends_of_error hx (hfailed failure _ (h.of_error hx))

theorem Ends.and (h : x.Ends s Q F) (h' : x.Ends s Q' F') :
    x.Ends s (fun a k => Q a k ∧ Q' a k) (fun failure k => F failure k ∧ F' failure k) := by
  cases hx : x s with
  | ok a s' => exact ends_of_ok hx ⟨h.of_ok hx, h'.of_ok hx⟩
  | error failure s' => exact ends_of_error hx ⟨h.of_error hx, h'.of_error hx⟩

theorem ends_congr {y : Build ε α} (hxy : x s = y s') (hy : y.Ends s' Q F) : x.Ends s Q F := by
  rw [Ends, hxy]
  exact hy

/-- A first construction that is known to succeed. -/
theorem ends_bind_of_ok {a : α} (hx : x s = .ok a s') {f : α → Build ε β} {R : β → Graph → Prop}
    (hf : (f a).Ends s' R F) : (x >>= f).Ends s R F :=
  ends_congr (bind_of_ok hx) hf

/-- One construction after another. -/
theorem Ends.bind (h : x.Ends s Q F) {f : α → Build ε β} {R : β → Graph → Prop}
    (hf : ∀ a s', Q a s'.graph → (f a).Ends s' R F) : (x >>= f).Ends s R F := by
  cases hx : x s with
  | ok a s' => exact ends_bind_of_ok hx (hf a s' (h.of_ok hx))
  | error failure s' => exact ends_of_error (bind_of_error hx) (h.of_error hx)

theorem ends_pure {a : α} (h : Q a s.graph) : (pure a : Build ε α).Ends s Q F := h

theorem ends_emit {events : List Event} {R : Unit → Graph → Prop} (h : R () s.graph) :
    (emit events : Build ε Unit).Ends s R F := h

theorem ends_attempt {y : Attempt ε α} (hok : ∀ a, y = .ok a → Q a s.graph)
    (hfailed : ∀ failure, y = .error failure → F failure s.graph) :
    (attempt y).Ends s Q F := by
  cases y with
  | ok a => exact hok a rfl
  | error failure => exact hfailed failure rfl

theorem ends_inspect {f : Graph → Checked α} (hok : ∀ a, f s.graph = .ok a → Q a s.graph)
    (hfailed : ∀ fault, f s.graph = .error fault → F (.fault fault) s.graph) :
    (inspect f : Build ε α).Ends s Q F := by
  cases h : f s.graph with
  | ok a => exact ends_of_ok (inspect_eq_ok.mpr ⟨h, rfl⟩) (hok a h)
  | error fault => exact ends_of_error (inspect_of_error h) (hfailed fault h)

theorem ends_within {f : ε → δ} {F : Failure δ → Graph → Prop}
    (h : x.Ends s Q fun failure => F (failure.map f)) : (within f x).Ends s Q F := by
  cases hx : x s with
  | ok a s' => exact ends_of_ok (within_eq_ok.mpr hx) (h.of_ok hx)
  | error failure s' =>
    have hwithin : within f x s = .error (failure.map f) s' := by
      rw [within, EStateM.adaptExcept, hx]
    exact ends_of_error hwithin (h.of_error hx)

end Ends

theorem ends_define {d : Definition} {Q : ValueId → Graph → Prop}
    {F : Failure Refusal → Graph → Prop}
    (hok : ∀ node, s.graph.define d = .ok node → Q s.graph.size (s.graph.push node))
    (hfailed : ∀ failure, s.graph.define d = .error failure → F failure s.graph) :
    (define d).Ends s Q F := by
  cases h : s.graph.define d with
  | ok node => exact ends_of_ok (define_eq_ok.mpr ⟨node, h, rfl, rfl⟩) (hok node h)
  | error failure =>
    have hdefine : define d s = .error failure s := by
      rw [define, bind_of_ok (graph_eq_ok.mpr ⟨rfl, rfl⟩), h]
      exact bind_of_error rfl
    exact ends_of_error hdefine (hfailed failure h)

theorem ends_replaceAllUses {old new : ValueId} {Q : Unit → Graph → Prop}
    {F : Failure Refusal → Graph → Prop}
    (hok : ∀ k, s.graph.replaceAllUses old new = .ok k → Q () k)
    (hfailed : ∀ failure, s.graph.replaceAllUses old new = .error failure → F failure s.graph) :
    (replaceAllUses old new).Ends s Q F := by
  rw [replaceAllUses, Ends, bind_of_ok (graph_eq_ok.mpr ⟨rfl, rfl⟩)]
  cases h : s.graph.replaceAllUses old new with
  | ok k => exact hok k h
  | error failure => exact hfailed failure h

/-- The failure of a construction and the graph it leaves, if it fails. -/
def failure? (x : Build ε α) (s : Session) : Option (Failure ε × Graph) :=
  match x s with
  | .ok .. => none
  | .error failure s' => some (failure, s'.graph)

theorem exists_of_failure? {x : Build ε α} {failure : Failure ε} {g : Graph}
    (h : x.failure? s = some (failure, g)) : ∃ s', x s = .error failure s' ∧ s'.graph = g := by
  unfold failure? at h
  split at h
  · cases h
  · next failure' s' hx =>
    cases h
    exact ⟨s', hx, rfl⟩

end Build

/-! ### Constructions that only add values -/

/-- A value that is no atomic update, and that reads given values or values added to the graph. -/
structure Node.Draws (g : Graph) (given : ValueId → Prop) (node : Node) : Prop where
  kind : node.op.kind ≠ .atomicRmw
  operands : ∀ u ∈ node.op.operands, given u ∨ g.size ≤ u

/-- A construction that adds such values to a graph and does nothing else, whether it succeeds or
fails; what it gives has a property. -/
def Build.Draws {ε α : Type} (g : Graph) (given : ValueId → Prop) (x : Build ε α)
    (result : α → Prop) : Prop :=
  ∀ s, g.Adds (Node.Draws g given) s.graph →
    x.Ends s (fun a k => g.Adds (Node.Draws g given) k ∧ result a)
      (fun _ k => g.Adds (Node.Draws g given) k)

namespace Build

variable {ε δ α β : Type} {g : Graph} {given : ValueId → Prop} {x : Build ε α} {result : α → Prop}

theorem draws_pure {a : α} (h : result a) : Draws g given (pure a : Build ε α) result :=
  fun _ hs => ends_pure ⟨hs, h⟩

theorem Draws.bind (h : Draws g given x result) {f : α → Build ε β} {next : β → Prop}
    (hf : ∀ a, result a → Draws g given (f a) next) : Draws g given (x >>= f) next :=
  fun s hs => (h s hs).bind fun a s' ha => hf a ha.2 s' ha.1

theorem Draws.map {f : α → β} {next : β → Prop} (h : Draws g given x fun a => next (f a)) :
    Draws g given (f <$> x) next := by
  rw [map_eq_pure_bind]
  exact h.bind fun a ha => draws_pure ha

theorem Draws.imp (h : Draws g given x result) {weaker : α → Prop}
    (himp : ∀ a, result a → weaker a) : Draws g given x weaker :=
  fun s hs => (h s hs).imp (fun a _ ha => ⟨ha.1, himp a ha.2⟩) fun _ _ hk => hk

theorem draws_attempt (y : Attempt ε α) : Draws g given (attempt y) fun _ => True :=
  fun _ hs => ends_attempt (fun _ _ => ⟨hs, trivial⟩) fun _ _ => hs

theorem draws_inspect (f : Graph → Checked α) :
    Draws g given (inspect f : Build ε α) fun _ => True :=
  fun _ hs => ends_inspect (fun _ _ => ⟨hs, trivial⟩) fun _ _ => hs

theorem draws_emit (events : List Event) :
    Draws g given (emit events : Build ε Unit) fun _ => True :=
  fun _ hs => ends_emit ⟨hs, trivial⟩

/-- Step by step through a list. -/
theorem draws_foldlM {f : β → α → Build ε β} {inv : β → Prop} {xs : List α}
    (hf : ∀ a ∈ xs, ∀ b, inv b → Draws g given (f b a) inv) {b : β} (hb : inv b) :
    Draws g given (xs.foldlM f b) inv := by
  induction xs generalizing b with
  | nil => exact draws_pure hb
  | cons a rest ih =>
    exact (hf a (List.mem_cons_self ..) b hb).bind fun c hc =>
      ih (fun a' ha' => hf a' (List.mem_cons_of_mem a ha')) hc

theorem draws_mapM {f : α → Build ε β} (hf : ∀ a, Draws g given (f a) fun _ => True)
    (xs : List α) : Draws g given (xs.mapM f) fun _ => True := by
  induction xs with
  | nil => exact draws_pure trivial
  | cons a rest ih =>
    rw [List.mapM_cons]
    exact (hf a).bind fun _ _ => ih.bind fun _ _ => draws_pure trivial

end Build

namespace Lowering

open Build

variable {g : Graph} {given : ValueId → Prop} {v : ValueId} {d : Definition}

theorem define_draws (hkind : d.op.kind ≠ .atomicRmw)
    (hoperands : ∀ u ∈ d.op.operands, given u ∨ g.size ≤ u) :
    Draws g given (define d) (g.size ≤ ·) := by
  intro s hs
  refine ends_within (ends_define (fun node hnode => ?_) fun _ _ => hs)
  have hop := Graph.op_of_define hnode
  exact ⟨hs.define hnode ⟨hop ▸ hkind, hop ▸ hoperands⟩, hs.size_le⟩

theorem flatten_draws {shape : Shape} (hv : given v ∨ g.size ≤ v) :
    Draws g given (flatten v shape) fun u => given u ∨ g.size ≤ u := by
  refine (draws_inspect _).bind fun t _ => ?_
  split
  · exact draws_pure hv
  · refine (define_draws (by rintro ⟨⟩) ?_).imp fun u hu => .inr hu
    simpa [Definition.op, Op.operands] using hv

theorem widenMask_draws {shape : Shape} {mask : Option ValueId} (hmask : ∀ m ∈ mask, given m) :
    Draws g given (widenMask shape mask) fun wide => ∀ w ∈ wide, g.size ≤ w := by
  cases mask with
  | none => exact draws_pure (by rintro _ ⟨⟩)
  | some m =>
    refine (flatten_draws (.inl (hmask m rfl))).bind fun flat hflat => .map ?_
    refine (define_draws (by rintro ⟨⟩) ?_).imp fun w hw => by simpa using hw
    simpa [Definition.op, Op.operands] using hflat

theorem zero_draws (type : ValueType) : Draws g given (define (zero type)) (g.size ≤ ·) := by
  unfold zero
  split
  · exact define_draws (by rintro ⟨⟩) (by simp [Definition.op, Op.operands])
  · exact define_draws (by rintro ⟨⟩) (by simp [Definition.op, Op.operands])

/-- The values that a replacement is built from. -/
structure Target.Given (t : Target) (given : ValueId → Prop) : Prop where
  base : given t.address.base
  offset : given t.address.offset
  value : given t.value
  mask : ∀ m ∈ t.mask, given m

section Given

variable {t : Target} {P Q : ValueId → Prop}

theorem Target.Given.imp (ht : t.Given P) (hPQ : ∀ u, P u → Q u) : t.Given Q :=
  ⟨hPQ _ ht.base, hPQ _ ht.offset, hPQ _ ht.value, fun m hm => hPQ m (ht.mask m hm)⟩

theorem Target.Given.and (hP : t.Given P) (hQ : t.Given Q) : t.Given fun u => P u ∧ Q u :=
  ⟨⟨hP.base, hQ.base⟩, ⟨hP.offset, hQ.offset⟩, ⟨hP.value, hQ.value⟩,
    fun m hm => ⟨hP.mask m hm, hQ.mask m hm⟩⟩

end Given

theorem gather_draws {op : AtomicOp} {base values indices : ValueId} {wide : Option ValueId}
    (hbase : given base ∨ g.size ≤ base) (hvalues : given values ∨ g.size ≤ values)
    (hindices : given indices ∨ g.size ≤ indices) (hwide : ∀ w ∈ wide, g.size ≤ w) :
    Draws g given (define (.gatherAtomicRmw op base values indices wide)) (g.size ≤ ·) := by
  refine define_draws (by rintro ⟨⟩) fun u hu => ?_
  simp only [Definition.op, Op.operands, List.mem_append, List.mem_cons, List.not_mem_nil, or_false,
    Option.mem_toList] at hu
  obtain (rfl | rfl | rfl) | hu := hu
  · exact hbase
  · exact hvalues
  · exact hindices
  · exact .inr (hwide u hu)

theorem lowerScalar_draws {t : Target} {op : AtomicOp} {type : ValueType} (ht : t.Given given) :
    Draws g given (lowerScalar t op type) (g.size ≤ ·) := by
  refine (define_draws (by rintro ⟨⟩) ?_).bind fun base hbase => ?_
  · simp [Definition.op, Op.operands, ht.base, ht.offset]
  refine (define_draws (by rintro ⟨⟩) ?_).bind fun values hvalues => ?_
  · simp [Definition.op, Op.operands, ht.value]
  refine (define_draws (by rintro ⟨⟩) ?_).bind fun index hindex => ?_
  · simp [Definition.op, Op.operands]
  refine (widenMask_draws ht.mask).bind fun wide hwide => ?_
  refine (gather_draws (.inr hbase) (.inr hvalues) (.inr hindex) hwide).bind
    fun gather hgather => ?_
  refine (define_draws (by rintro ⟨⟩) ?_).bind fun result hresult => ?_
  · simp [Definition.op, Op.operands, hgather]
  cases hmask : t.mask with
  | none => exact draws_pure hresult
  | some mask =>
    refine (zero_draws type).bind fun off hoff => define_draws (by rintro ⟨⟩) ?_
    simp [Definition.op, Op.operands, ht.mask mask hmask, hresult, hoff]

theorem lowerScattered_draws {t : Target} {op : AtomicOp} {type : ValueType} (ht : t.Given given) :
    Draws g given (lowerScattered t op type) (g.size ≤ ·) := by
  refine (draws_attempt _).bind fun count _ => ?_
  refine (flatten_draws (.inl ht.value)).bind fun values hvalues => ?_
  refine (flatten_draws (.inl ht.offset)).bind fun indices hindices => ?_
  refine (widenMask_draws ht.mask).bind fun wide hwide => ?_
  refine (gather_draws (.inl ht.base) hvalues hindices hwide).bind fun gather hgather => ?_
  split
  · exact draws_pure hgather
  · refine define_draws (by rintro ⟨⟩) ?_
    simp [Definition.op, Op.operands, hgather]

/-- A graph that has grown by such values, and in which one of them has then taken over the uses of
a value of its type. -/
inductive Redirected (g : Graph) (given : ValueId → Prop) (old new : ValueId) : Graph → Prop
  | intro {h : Graph} (hadds : g.Adds (Node.Draws g given) h) (hnew : g.size ≤ new)
    (hsame : h.typeOf? old = h.typeOf? new) : Redirected g given old new (h.redirectUses old new)

/-- Replacing an update adds values and then redirects its uses to one of them. A failure leaves the
uses as they were. -/
theorem replace_ends {t : Target} {pattern : AccessPattern} {s : Session} (ht : t.Given given) :
    (replace t pattern).Ends s
      (fun record k => record.atomic = t.atomic ∧
        Redirected s.graph given t.atomic record.replacement k)
      (fun _ k => s.graph.Adds (Node.Draws s.graph given) k) := by
  have hend {op : AtomicOp} {path : LoweringPath} {replacement : ValueId} {s₁ : Session}
      (h₁ : s.graph.Adds (Node.Draws s.graph given) s₁.graph ∧ s.graph.size ≤ replacement) : (do
        Build.emit [.lowered ⟨t.atomic, replacement, op, path, pattern⟩]
        Build.within .graph (Build.replaceAllUses t.atomic replacement)
        return ⟨t.atomic, replacement, op, path, pattern⟩ : Lowering LoweringRecord).Ends s₁
      (fun record k => record.atomic = t.atomic ∧
        Redirected s.graph given t.atomic record.replacement k)
      (fun _ k => s.graph.Adds (Node.Draws s.graph given) k) := by
    refine (draws_emit _ s₁ h₁.1).bind fun _ s₂ h₂ => ?_
    refine Ends.bind (Q := fun _ k => Redirected s.graph given t.atomic replacement k)
      (ends_within (ends_replaceAllUses (fun k hk => ?_) fun _ _ => h₂.1))
      fun _ s₃ h₃ => ends_pure ⟨rfl, h₃⟩
    obtain ⟨hsame, rfl⟩ := Graph.replaceAllUses_eq_ok hk
    exact .intro h₂.1 h₁.2 hsame
  refine (draws_inspect _ s .refl).bind fun type s₁ h₁ => ?_
  refine (draws_attempt _ s₁ h₁.1).bind fun op s₂ h₂ => ?_
  dsimp only
  split
  · exact (lowerScalar_draws ht s₂ h₂.1).bind fun _ _ h₃ => hend h₃
  · exact (lowerScattered_draws ht s₂ h₂.1).bind fun _ _ h₃ => hend h₃

end Lowering

/-! ### Constructions that split pointers -/

namespace Address

open Build

variable {g : Graph} {given : ValueId → Prop} {s : Session}

theorem widen_draws {v : ValueId} {element : Element} (hv : given v ∨ g.size ≤ v) :
    Draws g given (widen v element) (g.size ≤ ·) :=
  (draws_inspect _).bind fun _ _ => Lowering.define_draws (by rintro ⟨⟩) <| by
    simpa [Definition.op, Op.operands] using hv

theorem addOffsets_draws {l r : ValueId} (hl : given l ∨ g.size ≤ l) (hr : given r ∨ g.size ≤ r) :
    Draws g given (addOffsets l r) (g.size ≤ ·) := by
  have hsum {l r : ValueId} (hl : given l ∨ g.size ≤ l) (hr : given r ∨ g.size ≤ r) :
      Draws g given (Lowering.define (.binary .add l r)) (g.size ≤ ·) :=
    Lowering.define_draws (by rintro ⟨⟩) (by simpa [Definition.op, Op.operands] using ⟨hl, hr⟩)
  refine (draws_inspect _).bind fun lt _ => (draws_inspect _).bind fun rt _ => ?_
  split
  · exact hsum hl hr
  · split
    · exact (widen_draws hl).bind fun _ hw => hsum (.inr hw) hr
    · exact (widen_draws hr).bind fun _ hw => hsum hl (.inr hw)

theorem follow_draws {offset : Option ValueId} {link : PointerLink}
    (hoffset : ∀ o ∈ offset, given o ∨ g.size ≤ o)
    (hlink : ∀ delta, link = .move delta → given delta) :
    Draws g given (follow offset link) fun next => ∀ o ∈ next, given o ∨ g.size ≤ o := by
  cases offset with
  | none =>
    cases link with
    | move delta => exact draws_pure (by simpa using .inl (hlink delta rfl))
    | splat | broadcast => exact draws_pure (by rintro _ ⟨⟩)
  | some offset =>
    have hread : given offset ∨ g.size ≤ offset := hoffset offset rfl
    cases link with
    | move delta =>
      refine .map ((addOffsets_draws hread (.inl (hlink delta rfl))).imp fun v hv => ?_)
      simpa using .inr hv
    | splat | broadcast =>
      refine .map ((Lowering.define_draws (by rintro ⟨⟩) ?_).imp fun v hv => ?_)
      · simpa [Definition.op, Op.operands] using hread
      · simpa using .inr hv

/-- Splitting a pointer adds values that read what moves it on its way, and no atomic update. -/
theorem track_ends {ptr : ValueId} (hpath : ∀ path, s.graph.Points ptr path →
      given path.base ∧ ∀ delta, .move delta ∈ path.links → given delta) :
    (track ptr).Ends s
      (fun address k => s.graph.Adds (Node.Draws s.graph given) k ∧ given address.base ∧
        (given address.offset ∨ s.graph.size ≤ address.offset))
      (fun _ k => s.graph.Adds (Node.Draws s.graph given) k) := by
  refine ends_bind_of_ok (graph_eq_ok.mpr ⟨rfl, rfl⟩) ?_
  cases hwalk : s.graph.pointerPath ptr with
  | error failure => exact ends_of_error (bind_of_error rfl) .refl
  | ok path =>
    refine ends_bind_of_ok (attempt_eq_ok.mpr ⟨rfl, rfl⟩) ?_
    obtain ⟨hbase, hdeltas⟩ := hpath path (Graph.points_of_pointerPathWithin hwalk)
    have hfold : Draws s.graph given (path.links.foldlM follow none) fun offset =>
        ∀ o ∈ offset, given o ∨ s.graph.size ≤ o :=
      draws_foldlM (fun link hlink offset hoffset =>
        follow_draws hoffset fun delta hdelta => hdeltas delta (hdelta ▸ hlink)) (by rintro _ ⟨⟩)
    have hend {offset : ValueId} (hoffset : given offset ∨ s.graph.size ≤ offset) :
        Draws s.graph given (do
          Build.emit [.tracked ptr path.base offset]
          return ⟨path.base, offset⟩ : Lowering Address) fun address =>
            given address.base ∧ (given address.offset ∨ s.graph.size ≤ address.offset) :=
      (draws_emit _).bind fun _ _ => draws_pure ⟨hbase, hoffset⟩
    refine (hfold.bind fun offset hoffset => ?_) s .refl
    cases offset with
    | some offset => exact hend (hoffset offset rfl)
    | none =>
      refine (draws_inspect _).bind fun _ _ => (Lowering.define_draws (by rintro ⟨⟩) ?_).bind
        fun offset hnew => hend (.inr hnew)
      simp [Definition.op, Op.operands]

end Address

namespace Lowering

open Build

variable {s : Session}

/-- The target of an update is built from what the update depends on, and from new values. -/
theorem target_ends (a : ValueId) :
    (target a).Ends s
      (fun t k => s.graph.Adds (Node.Draws s.graph (s.graph.DependsOn a)) k ∧ t.atomic = a ∧
        t.Given fun u => s.graph.DependsOn a u ∨ s.graph.size ≤ u)
      (fun _ k => s.graph.Adds (Node.Draws s.graph (s.graph.DependsOn a)) k) := by
  cases hop : s.graph.op a with
  | error fault => exact ends_of_error (bind_of_error (inspect_of_error hop)) .refl
  | ok op =>
    refine ends_bind_of_ok (inspect_eq_ok.mpr ⟨hop, rfl⟩) ?_
    obtain ⟨⟨_, type⟩, hnode, rfl⟩ := map_eq_ok.mp hop
    have ha := element_eq_ok.mp hnode
    dsimp only
    split
    · next op ptr value mask =>
      have hoperand {u : ValueId} (hu : u ∈ (Op.atomicRmw op ptr value mask).operands) :
          s.graph.DependsOn a u := .of_operand ha (by rintro ⟨⟩) hu
      have hptr := hoperand (u := ptr) (by simp [Op.operands])
      refine (Address.track_ends fun path hpath => ⟨Address.dependsOn_base hpath hptr, fun _ =>
        Address.dependsOn_move hpath hptr⟩).bind fun address s₁ h₁ => ?_
      obtain ⟨hadds, hbase, hoffset⟩ := h₁
      refine ends_pure ⟨hadds, rfl, .inl hbase, hoffset, .inl ?_, fun m hm => .inl ?_⟩
      · exact hoperand (by simp [Op.operands])
      · have hmask : mask = some m := hm
        exact hoperand (by simp [Op.operands, hmask])
    · exact ends_of_error rfl .refl

theorem target_draws {g : Graph} (a : ValueId) :
    Draws g (fun _ => True) (target a) fun _ => True := by
  intro s hs
  have hmono : ∀ k, s.graph.Adds (Node.Draws s.graph (s.graph.DependsOn a)) k →
      g.Adds (Node.Draws g fun _ => True) k := fun k hk =>
    hs.trans (hk.mono fun _ hnode => ⟨hnode.kind, fun _ _ => .inl trivial⟩)
  exact (target_ends a).imp (fun _ k hk => ⟨hmono k hk.1, trivial⟩) fun _ k hk => hmono k hk

end Lowering

end TileFacts

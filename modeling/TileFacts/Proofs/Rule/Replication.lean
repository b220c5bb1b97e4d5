import TileFacts.Proofs.Rule.Answer

/-! Values laid out over longer shapes in several steps.

An extent that is one and grows in a later step, one that grows at once and one that stays lead to
the same axis, so the shapes in between do not show in what a broadcast answers
(`Fact.stretch_stretch`). Main statement: `Rulebook.broadcast_composes`. -/
namespace TileFacts

/-! ### Shapes -/

namespace Shape

variable {s m t : Shape}

/-- In every dimension the extents agree, or the first is one; a scalar has ones everywhere. -/
theorem stretchesTo_extent (h : s.stretchesTo t = true) (d : Nat) :
    s.getD d 1 = t.getD d 1 ∨ s.getD d 1 = 1 := by
  rcases stretchesTo_iff.mp h with rfl | ⟨_, hall⟩
  · exact .inr rfl
  · exact hall d

theorem stretchesTo_length (h : s.stretchesTo t = true) (hs : s ≠ []) : s.length = t.length := by
  rcases stretchesTo_iff.mp h with hnil | ⟨hlen, _⟩
  · exact absurd hnil hs
  · exact hlen

theorem eq_nil_of_stretchesTo (h : s.stretchesTo [] = true) : s = [] := by
  by_contra hs
  exact hs (List.length_eq_zero_iff.mp (stretchesTo_length h hs))

theorem stretchesTo_trans (hsm : s.stretchesTo m = true) (hmt : m.stretchesTo t = true) :
    s.stretchesTo t = true := by
  by_cases hs : s = []
  · exact stretchesTo_iff.mpr (.inl hs)
  · have hm : m ≠ [] := by
      rintro rfl
      exact hs (eq_nil_of_stretchesTo hsm)
    refine stretchesTo_iff.mpr (.inr ⟨?_, fun d => ?_⟩)
    · rw [stretchesTo_length hsm hs, stretchesTo_length hmt hm]
    · rcases stretchesTo_extent hsm d with hd | hd
      · rw [hd]
        exact stretchesTo_extent hmt d
      · exact .inr hd

end Shape

/-! ### Facts -/

theorem Axis.stretch_stretch (a : Axis) {s m t : Int64} (hsm : s = m ∨ s = 1)
    (hmt : m = t ∨ m = 1) : (a.stretch s m).stretch m t = a.stretch s t := by
  unfold stretch
  by_cases hs : s = 1
  · by_cases hm : m = 1
    · simp [hs, hm]
    · simp [hs, hmt.resolve_right hm]
  · have hm : m ≠ 1 := hsm.resolve_right hs ▸ hs
    simp [hs, hm]

namespace Fact

theorem sourceAxis_stretch (f : Fact) {s m t : Shape} (hsm : s.stretchesTo m = true)
    (hmt : m.stretchesTo t = true) {d : Nat} (hd : d < max t.length 1) :
    (f.stretch s m).sourceAxis m d =
      (f.sourceAxis s d).stretch (Int64.ofNat (s.getD d 1)) (Int64.ofNat (m.getD d 1)) := by
  by_cases hm : m = []
  · subst hm
    cases Shape.eq_nil_of_stretchesTo hsm
    rfl
  · have hlen := Shape.stretchesTo_length hmt hm
    have hpos := List.length_pos_iff.mpr hm
    have hlt : d < max m.length 1 := by omega
    simp [sourceAxis, stretch, hm, hlt]

/-- Shapes on the way do not matter. -/
theorem stretch_stretch (f : Fact) {s m t : Shape} (hsm : s.stretchesTo m = true)
    (hmt : m.stretchesTo t = true) : (f.stretch s m).stretch m t = f.stretch s t := by
  have haxes : ((f.stretch s m).stretch m t).axes = (f.stretch s t).axes := by
    apply List.map_congr_left
    intro d hd
    rw [sourceAxis_stretch f hsm hmt (List.mem_range.mp hd)]
    apply Axis.stretch_stretch
    · exact (Shape.stretchesTo_extent hsm d).imp (congrArg _) (congrArg _)
    · exact (Shape.stretchesTo_extent hmt d).imp (congrArg _) (congrArg _)
  exact congrArg₂ Fact.mk haxes rfl

end Fact

/-! ### Transfers -/

/-- The context is of an operation of this kind, which lays an operand of one shape out over
another. -/
structure Context.LaysOut (ctx : Context) (kind : Kind) (source target : Shape) : Prop where
  kind : ctx.kind = kind
  operand : ∃ element, ctx.operandTypes = [⟨element, source⟩]
  shape : ctx.type.shape = target

namespace Rulebook

variable {ctx : Context} {source target : Shape} {f : Fact}

theorem transfer_splat (h : ctx.LaysOut .splat [] target) (hf : f.rank = 1) :
    standard.transfer ctx [f] = .ok (f.stretch [] target) := by
  obtain ⟨element, htypes⟩ := h.operand
  have hrule : standard.rule ctx.kind = some Rule.splat := by
    rw [h.kind]
    rfl
  rw [← h.shape]
  exact transfer_eq_ok hrule (Rule.splat_eq_stretch htypes rfl hf) (Fact.rank_stretch ..)

theorem transfer_broadcast (h : ctx.LaysOut .broadcast source target)
    (hstretch : source.stretchesTo target = true) (hf : f.rank = max source.length 1) :
    standard.transfer ctx [f] = .ok (f.stretch source target) := by
  obtain ⟨element, htypes⟩ := h.operand
  have hrule : standard.rule ctx.kind = some Rule.broadcast := by
    rw [h.kind]
    rfl
  rw [← h.shape] at hstretch ⊢
  have hrank := (Shape.stretchesTo_iff.mp hstretch).imp_right And.left
  exact transfer_eq_ok hrule (Rule.broadcast_eq_stretch htypes hrank hf) (Fact.rank_stretch ..)

/-- Replication composes. A value that is broadcast to one shape and then to another can be
broadcast to the second at once, and whatever is known of the value, the rules then come to the same
fact; a scalar that is splatted over the second shape has that fact as well. -/
theorem broadcast_composes {s m t : Shape} (hsm : s.requireStretch m = .ok ())
    (hmt : m.requireStretch t = .ok ()) :
    s.requireStretch t = .ok () ∧
    ∀ (f : Fact) (first second direct : Context), f.rank = max s.length 1 →
      first.LaysOut .broadcast s m → second.LaysOut .broadcast m t →
      direct.LaysOut .broadcast s t →
      ∃ via result, standard.transfer first [f] = .ok via ∧
        standard.transfer second [via] = .ok result ∧ standard.transfer direct [f] = .ok result ∧
        ∀ splat : Context, s = [] → splat.LaysOut .splat s t →
          standard.transfer splat [f] = .ok result := by
  have hsm := require_eq_ok.mp hsm
  have hmt := require_eq_ok.mp hmt
  have hst := Shape.stretchesTo_trans hsm hmt
  refine ⟨require_eq_ok.mpr hst, fun f first second direct hf hfirst hsecond hdirect => ?_⟩
  refine ⟨f.stretch s m, f.stretch s t, transfer_broadcast hfirst hsm hf, ?_,
    transfer_broadcast hdirect hst hf, ?_⟩
  · rw [transfer_broadcast hsecond hmt (Fact.rank_stretch ..), Fact.stretch_stretch f hsm hmt]
  · rintro splat rfl hsplat
    exact transfer_splat hsplat hf

end Rulebook

/-- An operation on a value of one shape with a result of another. -/
def Context.between (op : Op) (source target : Shape) : Context :=
  ⟨1, op, ⟨.i32, target⟩, [⟨.i32, source⟩]⟩

/-- The rows of a tensor grow in the first step, its planes in the second, and its columns stay. A
scalar becomes a row, and the row becomes a tensor. -/
theorem Rulebook.broadcast_composes_rows :
    (Shape.requireStretch [1, 1, 4] [1, 3, 4] = .ok () ∧
      Shape.requireStretch [1, 3, 4] [2, 3, 4] = .ok () ∧
      Shape.requireStretch [1, 1, 4] [2, 3, 4] = .ok () ∧
      ∃ via, standard.transfer (.between (.broadcast 0) [1, 1, 4] [1, 3, 4])
          [⟨[⟨8, 1, 5⟩, ⟨4, 1, unknownStep⟩, ⟨16, 4, 1⟩], none⟩] = .ok via ∧
        standard.transfer (.between (.broadcast 0) [1, 3, 4] [2, 3, 4]) [via] =
          .ok ⟨[⟨8, 2, 0⟩, ⟨4, 3, 0⟩, ⟨16, 4, 1⟩], none⟩) ∧
    Shape.requireStretch [] [1, 4] = .ok () ∧ Shape.requireStretch [1, 4] [3, 4] = .ok () ∧
      ∃ via result, standard.transfer (.between (.broadcast 0) [] [1, 4])
          [⟨[⟨32, 6, 7⟩], some 32⟩] = .ok via ∧
        standard.transfer (.between (.broadcast 0) [1, 4] [3, 4]) [via] = .ok result ∧
        standard.transfer (.between (.splat 0) [] [3, 4]) [⟨[⟨32, 6, 7⟩], some 32⟩] =
          .ok result := by
  have hlays (op : Op) (source target : Shape) :
      (Context.between op source target).LaysOut op.kind source target := ⟨rfl, ⟨_, rfl⟩, rfl⟩
  constructor
  · obtain ⟨hstretch, hall⟩ :=
      broadcast_composes (s := [1, 1, 4]) (m := [1, 3, 4]) (t := [2, 3, 4]) rfl rfl
    obtain ⟨via, result, hvia, hresult, hdirect, _⟩ :=
      hall ⟨[⟨8, 1, 5⟩, ⟨4, 1, unknownStep⟩, ⟨16, 4, 1⟩], none⟩ _ _ _ rfl
        (hlays (.broadcast 0) _ _) (hlays (.broadcast 0) _ _) (hlays (.broadcast 0) _ _)
    have hknown : result = ⟨[⟨8, 2, 0⟩, ⟨4, 3, 0⟩, ⟨16, 4, 1⟩], none⟩ :=
      Except.ok.inj (hdirect.symm.trans (by decide +kernel))
    exact ⟨rfl, rfl, hstretch, via, hvia, hknown ▸ hresult⟩
  · obtain ⟨_, hall⟩ := broadcast_composes (s := []) (m := [1, 4]) (t := [3, 4]) rfl rfl
    obtain ⟨via, result, hvia, hresult, _, hsplat⟩ :=
      hall ⟨[⟨32, 6, 7⟩], some 32⟩ _ _ _ rfl
        (hlays (.broadcast 0) _ _) (hlays (.broadcast 0) _ _) (hlays (.broadcast 0) _ _)
    exact ⟨rfl, rfl, via, result, hvia, hresult, hsplat _ rfl (hlays (.splat 0) _ _)⟩

end TileFacts

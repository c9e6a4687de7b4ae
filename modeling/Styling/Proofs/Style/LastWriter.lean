import Mathlib.Data.List.Basic
import Mathlib.Data.List.Perm.Basic
import Styling.Style.Apply

/-!
# The last setting counts

A style is made of leaves, which are written one by one or, by the shorthand of an edge, four at a time.
Applying a setting writes the leaves of its property and no others (`Style.leaf_apply`), so after any
number of settings a leaf holds what the last one for it gives (`Style.applyAll_lastWriter`).
-/

namespace Styling

/-- A part of a style that is written as a whole. -/
inductive Leaf where
  | display
  | direction
  | positionType
  | flexDirection
  | flexWrap
  | alignItems
  | alignSelf
  | alignContent
  | justifyContent
  | flexGrow
  | flexShrink
  | flexBasis
  | aspectRatio
  | overflow
  | position (s : Side)
  | edge (e : Edge) (s : Side)
  | extent (e : Extent) (a : Axis)
deriving DecidableEq

abbrev Leaf.Value : Leaf → Type
  | display => Display
  | direction => Direction
  | positionType => PositionType
  | flexDirection => FlexDirection
  | flexWrap => FlexWrap
  | alignItems => AlignItems
  | alignSelf => AlignSelf
  | alignContent => AlignContent
  | justifyContent => JustifyContent
  | flexGrow | flexShrink => Float
  | aspectRatio => Option Float
  | overflow => Overflow
  | flexBasis | position _ | edge .. | extent .. => Val

/-- What a leaf of a style holds. -/
def Style.leaf (s : Style) : (l : Leaf) → l.Value
  | .display => s.display
  | .direction => s.direction
  | .positionType => s.positionType
  | .flexDirection => s.flexDirection
  | .flexWrap => s.flexWrap
  | .alignItems => s.alignItems
  | .alignSelf => s.alignSelf
  | .alignContent => s.alignContent
  | .justifyContent => s.justifyContent
  | .flexGrow => s.flexGrow
  | .flexShrink => s.flexShrink
  | .flexBasis => s.flexBasis
  | .aspectRatio => s.aspectRatio
  | .overflow => s.overflow
  | .position side => s.position.get side
  | .edge e side => (s.edge e).get side
  | .extent e a => (s.extent e).get a

/-- The leaves a property is for: all four sides for the shorthand of an edge, none for the colour, and
a leaf of its own for every other property. -/
def Property.leaves : Property → List Leaf
  | display => [.display]
  | direction => [.direction]
  | extent e a => [.extent e a]
  | overflow => [.overflow]
  | position => [.positionType]
  | inset s => [.position s]
  | flexDirection => [.flexDirection]
  | flexWrap => [.flexWrap]
  | flexGrow => [.flexGrow]
  | flexShrink => [.flexShrink]
  | flexBasis => [.flexBasis]
  | aspectRatio => [.aspectRatio]
  | alignItems => [.alignItems]
  | alignSelf => [.alignSelf]
  | alignContent => [.alignContent]
  | justifyContent => [.justifyContent]
  | edges e => Side.all.map (.edge e)
  | edge e s => [.edge e s]
  | color => []

def Sided.get (v : Sided α) : Side → α
  | .top => v.top
  | .right => v.right
  | .bottom => v.bottom
  | .left => v.left

/-- What a setting gives for a leaf in a context, if it covers the leaf. -/
def Setting.resolved? (context : Context) : Setting → (l : Leaf) → Option l.Value
  | ⟨.display, v⟩, .display => some v
  | ⟨.direction, v⟩, .direction => some v
  | ⟨.extent e a, v⟩, .extent e' a' => if e = e' ∧ a = a' then some (.ofLength context v) else none
  | ⟨.overflow, v⟩, .overflow => some v
  | ⟨.position, v⟩, .positionType => some v
  | ⟨.inset s, v⟩, .position s' => if s = s' then some (.ofLength context v) else none
  | ⟨.flexDirection, v⟩, .flexDirection => some v
  | ⟨.flexWrap, v⟩, .flexWrap => some v
  | ⟨.flexGrow, v⟩, .flexGrow => some v.value
  | ⟨.flexShrink, v⟩, .flexShrink => some v.value
  | ⟨.flexBasis, v⟩, .flexBasis => some (.ofLength context v)
  | ⟨.aspectRatio, v⟩, .aspectRatio => some (aspectRatioOf v)
  | ⟨.alignItems, v⟩, .alignItems => some v
  | ⟨.alignSelf, v⟩, .alignSelf => some v
  | ⟨.alignContent, v⟩, .alignContent => some v
  | ⟨.justifyContent, v⟩, .justifyContent => some v
  | ⟨.edges e, v⟩, .edge e' s => if e = e' then some (.ofLength context (v.get s)) else none
  | ⟨.edge e s, v⟩, .edge e' s' => if e = e' ∧ s = s' then some (.ofLength context v) else none
  | _, _ => none

/-- The settings of the four sides that a shorthand stands for. -/
def Edge.longhands (e : Edge) (v : Sided (OrAuto LengthPercentage)) : List Setting :=
  Side.all.map fun side => ⟨.edge e side, v.get side⟩

/-! ## One setting -/

theorem UiRect.get_set (r : UiRect) (v : Val) (s s' : Side) :
    (r.set v s).get s' = if s = s' then v else r.get s' := by
  cases s <;> cases s' <;> rfl

theorem UiRect.get_ofSides (context : Context) (v : Sided (OrAuto LengthPercentage)) (s : Side) :
    (ofSides context v).get s = .ofLength context (v.get s) := by
  cases s <;> rfl

theorem UiSize.get_set (r : UiSize) (v : Val) (a a' : Axis) :
    (r.set v a).get a' = if a = a' then v else r.get a' := by
  cases a <;> cases a' <;> rfl

namespace Style

variable (context : Context) (s : Style)

theorem edge_setEdge (r : UiRect) (e e' : Edge) :
    (s.setEdge r e).edge e' = if e = e' then r else s.edge e' := by
  cases e <;> cases e' <;> rfl

theorem extent_setExtent (v : UiSize) (e e' : Extent) :
    (s.setExtent v e).extent e' = if e = e' then v else s.extent e' := by
  cases e <;> cases e' <;> rfl

/-- Writing an edge leaves all but the sides of edges as it is. -/
theorem leaf_setEdge (r : UiRect) (e : Edge) (l : Leaf) (hl : ∀ e' side, l ≠ .edge e' side) :
    (s.setEdge r e).leaf l = s.leaf l := by
  cases l with
  | edge e' side => exact absurd rfl (hl e' side)
  | extent e' a => cases e <;> cases e' <;> rfl
  | _ => cases e <;> rfl

theorem leaf_setExtent (v : UiSize) (e : Extent) (l : Leaf) (hl : ∀ e' a, l ≠ .extent e' a) :
    (s.setExtent v e).leaf l = s.leaf l := by
  cases l with
  | extent e' a => exact absurd rfl (hl e' a)
  | edge e' side => cases e <;> cases e' <;> rfl
  | _ => cases e <;> rfl

/-- Applying a setting gives the leaves it covers what it has for them, and changes no other leaf. -/
theorem leaf_apply (x : Setting) (l : Leaf) :
    (s.apply context x).leaf l = (x.resolved? context l).getD (s.leaf l) := by
  rcases x with ⟨p, v⟩
  cases p with
  | edges e =>
    cases l with
    | edge e' side =>
      by_cases he : e = e'
      · subst he
        simp [apply, leaf, edge_setEdge, UiRect.get_ofSides, Setting.resolved?]
      · simp [apply, leaf, edge_setEdge, Setting.resolved?, he]
    | _ => exact leaf_setEdge s _ e _ (by simp)
  | edge e side =>
    cases l with
    | edge e' side' =>
      by_cases he : e = e'
      · subst he
        by_cases hs : side = side' <;>
          simp [apply, leaf, edge_setEdge, UiRect.get_set, Setting.resolved?, hs]
      · simp [apply, leaf, edge_setEdge, Setting.resolved?, he]
    | _ => exact leaf_setEdge s _ e _ (by simp)
  | extent e a =>
    cases l with
    | extent e' a' =>
      by_cases he : e = e'
      · subst he
        by_cases ha : a = a' <;>
          simp [apply, leaf, extent_setExtent, UiSize.get_set, Setting.resolved?, ha]
      · simp [apply, leaf, extent_setExtent, Setting.resolved?, he]
    | _ => exact leaf_setExtent s _ e _ (by simp)
  | inset side =>
    cases l with
    | position side' =>
      by_cases hs : side = side' <;> simp [apply, leaf, UiRect.get_set, Setting.resolved?, hs]
    | edge e side' => cases e <;> rfl
    | extent e a => cases e <;> rfl
    | _ => rfl
  | _ =>
    cases l with
    | edge e side' => cases e <;> rfl
    | extent e a => cases e <;> rfl
    | _ => rfl

/-- A setting has something for exactly the leaves of its property. -/
theorem isSome_resolved?_iff (x : Setting) (l : Leaf) :
    (x.resolved? context l).isSome ↔ l ∈ x.property.leaves := by
  rcases x with ⟨p, v⟩
  cases p with
  | edges e =>
    cases l with
    | edge e' side =>
      by_cases he : e = e'
      · subst he
        cases side <;> simp [Setting.resolved?, Property.leaves, Side.all]
      · simp [Setting.resolved?, Property.leaves, he]
    | _ => simp [Setting.resolved?, Property.leaves]
  | edge e side =>
    cases l with
    | edge e' side' =>
      by_cases h : e = e' ∧ side = side'
      · simp [Setting.resolved?, Property.leaves, h]
      · simp [Setting.resolved?, Property.leaves, h, eq_comm]
    | _ => simp [Setting.resolved?, Property.leaves]
  | extent e a =>
    cases l with
    | extent e' a' =>
      by_cases h : e = e' ∧ a = a'
      · simp [Setting.resolved?, Property.leaves, h]
      · simp [Setting.resolved?, Property.leaves, h, eq_comm]
    | _ => simp [Setting.resolved?, Property.leaves]
  | inset side =>
    cases l with
    | position side' =>
      by_cases h : side = side'
      · simp [Setting.resolved?, Property.leaves, h]
      · simp [Setting.resolved?, Property.leaves, h, eq_comm]
    | _ => simp [Setting.resolved?, Property.leaves]
  | _ => cases l <;> simp [Setting.resolved?, Property.leaves]

/-! ## Any number of settings -/

/-- A leaf holds what the last setting that covers it has for it, or what it held. -/
theorem leaf_applyAll (settings : List Setting) (l : Leaf) : (s.applyAll context settings).leaf l =
    (settings.reverse.findSome? (·.resolved? context l)).getD (s.leaf l) := by
  induction settings generalizing s with
  | nil => rfl
  | cons x xs ih =>
    have hfirst := leaf_apply context s x l
    rw [applyAll, List.foldl_cons, ← applyAll, ih, hfirst, List.reverse_cons, List.findSome?_append]
    cases xs.reverse.findSome? (·.resolved? context l) with
    | some v => rfl
    | none => cases hx : x.resolved? context l <;> simp [hx]

/-- There is no more to a style than its leaves. -/
theorem ext_leaf {s t : Style} (h : ∀ l, s.leaf l = t.leaf l) : s = t := by
  have hrect : ∀ r r' : UiRect, (∀ side, r.get side = r'.get side) → r = r' := by
    intro r r' hr
    cases r
    cases r'
    simp only [UiRect.mk.injEq]
    exact ⟨hr .left, hr .right, hr .top, hr .bottom⟩
  have hsize : ∀ z z' : UiSize, (∀ a, z.get a = z'.get a) → z = z' := by
    intro z z' hz
    cases z
    cases z'
    simp only [UiSize.mk.injEq]
    exact ⟨hz .width, hz .height⟩
  have hposition := hrect _ _ fun side => h (.position side)
  have hedge := fun e => hrect _ _ fun side => h (.edge e side)
  have hextent := fun e => hsize _ _ fun a => h (.extent e a)
  cases s
  cases t
  simp only [Style.mk.injEq]
  exact ⟨h .display, h .direction, h .positionType, h .flexDirection, h .flexWrap, h .alignItems,
    h .alignSelf, h .alignContent, h .justifyContent, hposition, hedge .margin, hedge .padding,
    hedge .border, h .flexGrow, h .flexShrink, h .flexBasis, hextent .preferred, hextent .least,
    hextent .greatest, h .aspectRatio, h .overflow⟩

theorem applyAll_congr {settings others : List Setting}
    (h : ∀ l, settings.reverse.findSome? (·.resolved? context l) =
      others.reverse.findSome? (·.resolved? context l)) :
    s.applyAll context settings = s.applyAll context others := by
  apply ext_leaf
  intro l
  rw [leaf_applyAll, leaf_applyAll, h]

/-- Settings that cover no leaf in common may be applied in either order. -/
theorem applyAll_append_comm {settings others : List Setting}
    (h : ∀ x ∈ settings, ∀ y ∈ others, x.property.leaves.Disjoint y.property.leaves) :
    s.applyAll context (settings ++ others) = s.applyAll context (others ++ settings) := by
  apply applyAll_congr
  intro l
  rw [List.reverse_append, List.reverse_append, List.findSome?_append, List.findSome?_append]
  cases hx : settings.reverse.findSome? (·.resolved? context l) with
  | none => simp
  | some v =>
    cases hy : others.reverse.findSome? (·.resolved? context l) with
    | none => simp
    | some w =>
      obtain ⟨x, hmem, hv⟩ := List.exists_of_findSome?_eq_some hx
      obtain ⟨y, hmem', hw⟩ := List.exists_of_findSome?_eq_some hy
      have hxl := (isSome_resolved?_iff context x l).1 (by simp [hv])
      have hyl := (isSome_resolved?_iff context y l).1 (by simp [hw])
      exact absurd hyl (h x (List.mem_reverse.1 hmem) y (List.mem_reverse.1 hmem') hxl)

private theorem resolved?_longhand (e : Edge) (v : Sided (OrAuto LengthPercentage)) (side : Side)
    (l : Leaf) : Setting.resolved? context ⟨.edge e side, v.get side⟩ l =
      if l = .edge e side then Setting.resolved? context ⟨.edges e, v⟩ l else none := by
  cases l with
  | edge e' side' =>
    by_cases he : e = e'
    · by_cases hs : side = side'
      · simp [Setting.resolved?, he, hs]
      · simp [Setting.resolved?, he, hs, eq_comm]
    · simp [Setting.resolved?, he, eq_comm]
  | _ => simp [Setting.resolved?]

/-- The four sides of an edge, in any order, come to the same as the shorthand. -/
theorem applyAll_of_perm_longhands {e : Edge} {v : Sided (OrAuto LengthPercentage)}
    {settings : List Setting} (h : settings.Perm (e.longhands v)) :
    s.applyAll context settings = s.applyAll context [⟨.edges e, v⟩] := by
  apply applyAll_congr
  intro l
  have hmem : ∀ x, x ∈ settings.reverse ↔ ∃ side, ⟨.edge e side, v.get side⟩ = x := by
    intro x
    rw [List.mem_reverse, h.mem_iff, Edge.longhands, List.mem_map]
    constructor
    · rintro ⟨side, -, hside⟩
      exact ⟨side, hside⟩
    · rintro ⟨side, hside⟩
      exact ⟨side, by cases side <;> decide, hside⟩
  -- at most one of the four covers the leaf, so their order does not count
  have hfound : settings.reverse.findSome? (·.resolved? context l) =
      Setting.resolved? context ⟨.edges e, v⟩ l := by
    by_cases hl : ∃ side, l = .edge e side
    · obtain ⟨side, rfl⟩ := hl
      have hsome : (Setting.resolved? context ⟨.edge e side, v.get side⟩ (.edge e side)).isSome := by
        simp [Setting.resolved?]
      cases hx : settings.reverse.findSome? (·.resolved? context (.edge e side)) with
      | none =>
        have hnone := List.findSome?_eq_none_iff.1 hx _ ((hmem _).2 ⟨side, rfl⟩)
        simp [hnone] at hsome
      | some w =>
        obtain ⟨x, hx, hw⟩ := List.exists_of_findSome?_eq_some hx
        obtain ⟨side', rfl⟩ := (hmem x).1 hx
        rw [resolved?_longhand] at hw
        split at hw
        · exact hw.symm
        · exact absurd hw (by simp)
    · have hnone : Setting.resolved? context ⟨.edges e, v⟩ l = none := by
        cases l with
        | edge e' side =>
          have he : e ≠ e' := by
            intro he
            exact hl ⟨side, by rw [he]⟩
          simp [Setting.resolved?, he]
        | _ => rfl
      rw [hnone, List.findSome?_eq_none_iff]
      intro x hx
      obtain ⟨side, rfl⟩ := (hmem x).1 hx
      rw [resolved?_longhand, hnone]
      simp
  rw [hfound]
  simp

theorem applyAll_append (settings others : List Setting) :
    s.applyAll context (settings ++ others) = (s.applyAll context settings).applyAll context others :=
  List.foldl_append

theorem target_applyAll_style (paint : Option Paint) (settings : List Setting) :
    (Target.applyAll context ⟨some s, paint⟩ settings).style = some (s.applyAll context settings) := by
  induction settings generalizing s paint with
  | nil => rfl
  | cons x xs ih => exact ih (s.apply context x) (paint.map (·.apply x))

/-- The last writer wins: whatever settings are applied to a target that has a style, a leaf of the style
holds what the last setting that covers it has for it, and what it held if there is none. A setting covers
the leaves of its property. Hence settings without a leaf in common commute, and a shorthand comes to its
four longhands in any order. -/
theorem applyAll_lastWriter (settings : List Setting) :
    (∀ paint, (Target.applyAll context ⟨some s, paint⟩ settings).style =
      some (s.applyAll context settings)) ∧
    (∀ l, (s.applyAll context settings).leaf l =
      (settings.reverse.findSome? (·.resolved? context l)).getD (s.leaf l)) ∧
    (∀ (x : Setting) (l : Leaf), (x.resolved? context l).isSome ↔ l ∈ x.property.leaves) ∧
    (∀ others : List Setting,
      (∀ x ∈ settings, ∀ y ∈ others, x.property.leaves.Disjoint y.property.leaves) →
        s.applyAll context (settings ++ others) = s.applyAll context (others ++ settings)) ∧
    (∀ (e : Edge) (v : Sided (OrAuto LengthPercentage)) (sides : List Setting),
      sides.Perm (e.longhands v) →
        s.applyAll context (settings ++ sides) = s.applyAll context (settings ++ [⟨.edges e, v⟩])) := by
  refine ⟨fun paint => target_applyAll_style context s paint settings,
    fun l => leaf_applyAll context s settings l, isSome_resolved?_iff context,
    fun others h => applyAll_append_comm context s h, ?_⟩
  intro e v sides h
  rw [applyAll_append, applyAll_append, applyAll_of_perm_longhands context _ h]

/-- Four margins in an order of their own, and a display that shares no leaf with a top margin. -/
theorem applyAll_lastWriter_margins :
    (∀ x ∈ ([⟨.edge .margin .top, .auto⟩] : List Setting), ∀ y ∈ ([⟨.display, .none⟩] : List Setting),
      x.property.leaves.Disjoint y.property.leaves) ∧
    (Style.fresh.applyAll .standard ([⟨.edge .margin .top, .auto⟩] ++ [⟨.display, .none⟩]) =
      Style.fresh.applyAll .standard ([⟨.display, .none⟩] ++ [⟨.edge .margin .top, .auto⟩])) ∧
    ([⟨.edge .margin .left, .auto⟩, ⟨.edge .margin .top, .auto⟩, ⟨.edge .margin .right, .auto⟩,
      ⟨.edge .margin .bottom, .auto⟩] : List Setting).Perm
        (Edge.margin.longhands ⟨.auto, .auto, .auto, .auto⟩) ∧
    Style.fresh.applyAll .standard ([⟨.edge .margin .top, .auto⟩] ++
        [⟨.edge .margin .left, .auto⟩, ⟨.edge .margin .top, .auto⟩, ⟨.edge .margin .right, .auto⟩,
          ⟨.edge .margin .bottom, .auto⟩]) =
      Style.fresh.applyAll .standard ([⟨.edge .margin .top, .auto⟩] ++
        [⟨.edges .margin, ⟨.auto, .auto, .auto, .auto⟩⟩]) := by
  have hdisjoint : ∀ x ∈ ([⟨.edge .margin .top, .auto⟩] : List Setting),
      ∀ y ∈ ([⟨.display, .none⟩] : List Setting),
        x.property.leaves.Disjoint y.property.leaves := by
    simp [Property.leaves]
  have hperm : ([⟨.edge .margin .left, .auto⟩, ⟨.edge .margin .top, .auto⟩,
      ⟨.edge .margin .right, .auto⟩, ⟨.edge .margin .bottom, .auto⟩] : List Setting).Perm
        (Edge.margin.longhands ⟨.auto, .auto, .auto, .auto⟩) :=
    .trans (.swap _ _ _) (.cons _ (.trans (.swap _ _ _) (.cons _ (.swap _ _ _))))
  have ⟨_, _, _, hcomm, hsides⟩ :=
    applyAll_lastWriter .standard Style.fresh [⟨.edge .margin .top, .auto⟩]
  exact ⟨hdisjoint, hcomm _ hdisjoint, hperm, hsides _ _ _ hperm⟩

end Style

end Styling

import Styling.Style.Basic

/-!
# Applying settings

A setting is written into the field of a style or a paint that it is for. All four sides of an edge
are replaced by a shorthand, one of them by the property of that side, so of the two the later one
counts.
-/

namespace Styling

/-- A length, percentage or `auto` as layout takes it. -/
def Val.ofLength (context : Context) : OrAuto LengthPercentage → Val
  | .auto => .auto
  | .value (.percentage p) => .percent p.toNumber
  | .value (.length l) => .px (l.pixels context)

def UiRect.ofSides (context : Context) (s : Sided (OrAuto LengthPercentage)) : UiRect :=
  ⟨.ofLength context s.left, .ofLength context s.right, .ofLength context s.top,
    .ofLength context s.bottom⟩

def aspectRatioOf (r : OrAuto Ratio) : Option Float := r.value?.map Ratio.fraction

namespace Style

def extent (s : Style) : Extent → UiSize
  | .preferred => s.size
  | .least => s.minSize
  | .greatest => s.maxSize

def setExtent (s : Style) (v : UiSize) : Extent → Style
  | .preferred => { s with size := v }
  | .least => { s with minSize := v }
  | .greatest => { s with maxSize := v }

def edge (s : Style) : Edge → UiRect
  | .margin => s.margin
  | .padding => s.padding
  | .border => s.border

def setEdge (s : Style) (r : UiRect) : Edge → Style
  | .margin => { s with margin := r }
  | .padding => { s with padding := r }
  | .border => { s with border := r }

/-- Writes a value into the field for its property. A colour is no part of the style. -/
def apply (context : Context) (s : Style) : Setting → Style
  | ⟨.display, v⟩ => { s with display := v }
  | ⟨.direction, v⟩ => { s with direction := v }
  | ⟨.extent e a, v⟩ => s.setExtent ((s.extent e).set (.ofLength context v) a) e
  | ⟨.overflow, v⟩ => { s with overflow := v }
  | ⟨.position, v⟩ => { s with positionType := v }
  | ⟨.inset side, v⟩ => { s with position := s.position.set (.ofLength context v) side }
  | ⟨.flexDirection, v⟩ => { s with flexDirection := v }
  | ⟨.flexWrap, v⟩ => { s with flexWrap := v }
  | ⟨.flexGrow, v⟩ => { s with flexGrow := v.value }
  | ⟨.flexShrink, v⟩ => { s with flexShrink := v.value }
  | ⟨.flexBasis, v⟩ => { s with flexBasis := .ofLength context v }
  | ⟨.aspectRatio, v⟩ => { s with aspectRatio := aspectRatioOf v }
  | ⟨.alignItems, v⟩ => { s with alignItems := v }
  | ⟨.alignSelf, v⟩ => { s with alignSelf := v }
  | ⟨.alignContent, v⟩ => { s with alignContent := v }
  | ⟨.justifyContent, v⟩ => { s with justifyContent := v }
  | ⟨.edges e, v⟩ => s.setEdge (.ofSides context v) e
  | ⟨.edge e side, v⟩ => s.setEdge ((s.edge e).set (.ofLength context v) side) e
  | ⟨.color, _⟩ => s

def applyAll (context : Context) (s : Style) (settings : List Setting) : Style :=
  settings.foldl (apply context) s

end Style

namespace Paint

/-- Takes over a colour; no other property is part of the paint. -/
def apply (p : Paint) : Setting → Paint
  | ⟨.color, v⟩ => { p with color := v }
  | _ => p

def applyAll (p : Paint) (settings : List Setting) : Paint := settings.foldl apply p

end Paint

/-- What settings are applied to: it has the fields of a style, those of a paint, or both. One that
has only some fields of either takes part in nothing. -/
structure Target where
  style : Option Style
  paint : Option Paint

namespace Target

def apply (context : Context) (t : Target) (s : Setting) : Target :=
  ⟨t.style.map (·.apply context s), t.paint.map (·.apply s)⟩

def applyAll (context : Context) (t : Target) (settings : List Setting) : Target :=
  settings.foldl (apply context) t

end Target

end Styling

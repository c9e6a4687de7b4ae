/-!
# Contexts

The measurements that relative lengths are resolved against. They are given for every resolution.
-/

namespace Styling

/-- Font sizes and the width and height of the viewport, in pixels, and the direction of text. -/
structure Context where
  fontSize : Float
  rootFontSize : Float
  isVertical : Bool
  viewportWidth : Float
  viewportHeight : Float

namespace Context

def defaultFontSize : Float := 12

/-- Horizontal text of the default size in an empty viewport. -/
def standard : Context := ⟨defaultFontSize, defaultFontSize, false, 0, 0⟩

end Context

end Styling

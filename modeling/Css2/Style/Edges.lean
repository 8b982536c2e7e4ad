/-! # Edges

The four sides of a box and a value for each of them.  A list of one to four values gives each
side its own, as CSS 2.1 § 8.3 lays down.
-/

namespace Css2

inductive Side where
  | top
  | right
  | bottom
  | left
  deriving DecidableEq, Repr, Inhabited

namespace Side

def all : List Side := [top, right, bottom, left]

def text : Side → String
  | top => "top"
  | right => "right"
  | bottom => "bottom"
  | left => "left"

end Side

structure Edges (α : Type) where
  top : α
  right : α
  bottom : α
  left : α
  deriving BEq, Repr, Inhabited

namespace Edges

variable {α : Type}

def same (a : α) : Edges α := ⟨a, a, a, a⟩

/-- One value for all sides; or one for top and bottom and one for the others; or one for the top,
one for left and right, and one for the bottom; or one for each side, clockwise. -/
def ofList? : List α → Option (Edges α)
  | [a] => some ⟨a, a, a, a⟩
  | [a, b] => some ⟨a, b, a, b⟩
  | [a, b, c] => some ⟨a, b, c, b⟩
  | [a, b, c, d] => some ⟨a, b, c, d⟩
  | _ => none

def get (e : Edges α) : Side → α
  | .top => e.top
  | .right => e.right
  | .bottom => e.bottom
  | .left => e.left

def set (e : Edges α) (side : Side) (a : α) : Edges α :=
  match side with
  | .top => { e with top := a }
  | .right => { e with right := a }
  | .bottom => { e with bottom := a }
  | .left => { e with left := a }

end Edges

end Css2

import Mathlib.Data.List.Forall2

/-! Iterators, and the one that goes through several of them one after another. -/
namespace Iteration

/-- How iterators move, and the element where one stands; at the end there is none. -/
structure Cursor (I E : Type) where
  next : I → I
  elem : I → Option E

section Rules

variable {I J E : Type} {c : Cursor I E} {d : Cursor J E} {i : I} {e : E} {es : List E}

/-- The first iterator that is not at its end, and those after it. -/
def skip (c : Cursor I E) : List I → Option I × List I
  | [] => (none, [])
  | i :: is => if (c.elem i).isSome then (some i, is) else skip c is

/-- The iterator in use and those that are not begun. -/
def concat (c : Cursor I E) : Cursor (Option I × List I) E where
  next s := skip c ((s.1.map c.next).toList ++ s.2)
  elem s := s.1.bind c.elem

/-- The iterator, if it is not at its end. -/
def inUse (c : Cursor I E) (o : Option I) : Option I := o.filter fun i => (c.elem i).isSome

end Rules

end Iteration

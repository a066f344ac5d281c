/-!
# Fresh names

A counter hands out names made of a given stem, two underscores and the count. The count is a
64-bit word, so names repeat after 2^64 of them at the earliest.
-/

namespace TinyLisp

/-- A source of fresh names. -/
structure Gensym where
  next : UInt64
  deriving Repr, DecidableEq, Inhabited

namespace Gensym

/-- A counter that has handed out no name. -/
def start : Gensym := ⟨0⟩

/-- The stem of a name for which none is asked. -/
def defaultStem : String := "g"

/-- The name with a stem and a count. -/
def nameOf (stem : String) (n : UInt64) : String :=
  stem ++ "__" ++ Nat.repr n.toNat

/-- A fresh name, and the counter after it. -/
def fresh (g : Gensym) (stem : String) : String × Gensym :=
  (nameOf stem g.next, ⟨g.next + 1⟩)

end Gensym

end TinyLisp

/-
Telling names apart by counting.

The first request for a name gets it as it is; the `n`-th further request gets it with `n` appended.
-/
namespace TreeCompiler.IR

/-- The names requested so far, the latest first. -/
structure NameSupply where
  requested : List String := []
  deriving DecidableEq, Repr, Inhabited

namespace NameSupply

/-- The name a request for `base` is answered with. -/
def next (s : NameSupply) (separator base : String) : String :=
  match s.requested.count base with
  | 0 => base
  | n + 1 => base ++ separator ++ toString (n + 1)

/-- Remember a request. -/
def record (s : NameSupply) (base : String) : NameSupply :=
  ⟨base :: s.requested⟩

end NameSupply

end TreeCompiler.IR

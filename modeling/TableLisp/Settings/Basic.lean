/-!
Settings of the interpreter.
-/

namespace TableLisp

structure Settings where
  /-- Are integers without a suffix or a radix read as floats? -/
  preferFloats : Bool
  /-- How often one form may be expanded. -/
  maxExpansions : Nat
  deriving DecidableEq, Repr

namespace Settings

def initial : Settings := ⟨false, 10000⟩

end Settings

end TableLisp

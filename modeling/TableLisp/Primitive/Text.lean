import TableLisp.Eval.Machine
import TableLisp.Primitive.Arguments

/-!
Text made from data, to be kept or to be printed.
-/

namespace TableLisp.TextOp

def joined (m : Machine) (style : Style) (args : List Datum) : String :=
  " ".intercalate (args.map (m.maps.text style))

/-- The texts of the arguments one after the other; nil has none. -/
def concatenated (m : Machine) (args : List Datum) : String :=
  String.join ((args.filter fun d => d.kind != .nil).map (m.maps.text .plain))

def apply (op : TextOp) (args : List Datum) (m : Machine) : Datum × Machine :=
  match op with
  | join => (.string (concatenated m args), m)
  | joinReadable => (.string (joined m .readable args), m)
  | printReadable => (.nil, m.print (joined m .readable args ++ "\n"))
  | printPlain => (.nil, m.print (joined m .plain args ++ "\n"))

end TableLisp.TextOp

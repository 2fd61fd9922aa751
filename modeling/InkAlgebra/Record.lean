import InkAlgebra.Json.Write
import InkAlgebra.Solution

/-!
# Solutions as data

A solution is written with its fields in declared order; a root is a number, a remark a string.
-/

namespace InkAlgebra

namespace Solution

def rootJson : RootEntry Float → Json
  | .number x => .ofFloat x
  | .remark text => .ofText text.toList

def toJson (s : Solution Float) : Json :=
  .object
    [("valid".toList, .bool s.valid),
      ("message".toList, .ofText s.message.toList),
      ("expression".toList, .ofText s.expression.toList),
      ("latex".toList, .ofText s.latex.toList),
      ("roots".toList, .array (s.roots.map rootJson)),
      ("variable".toList, match s.unknown with
        | some c => .ofText [c]
        | none => .null)]

end Solution

end InkAlgebra

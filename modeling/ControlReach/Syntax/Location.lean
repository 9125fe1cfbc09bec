/-!
# Source locations

The position of a construct in the source text, shown as `file:line:column`.
-/

namespace ControlReach

/-- A position in a source file. -/
structure Location where
  file : String
  line : Int
  column : Int
  deriving DecidableEq, Repr

def Location.text (l : Location) : String :=
  l.file ++ ":" ++ toString l.line ++ ":" ++ toString l.column

def Location.orElse (a b : Option Location) : Option Location := a.or b

end ControlReach

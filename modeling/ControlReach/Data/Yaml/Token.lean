import ControlReach.Data.Yaml.Fault

/-!
# Tokens of YAML

Blocks have no brackets of their own: columns say where they start and end, and tokens stand for
that.
-/

namespace ControlReach.Yaml

/-- A unit of a YAML text. -/
inductive Token where
  /-- The version of the language that a text is written in. -/
  | version (major minor : Nat)
  | handle (name start : String)
  | instruction
  | documentStart
  | documentEnd
  | streamEnd
  | blockList
  | blockMapping
  | blockEnd
  | openList
  | closeList
  | openMapping
  | closeMapping
  /-- The dash before an item of a block list. -/
  | dash
  | comma
  | key
  /-- What follows is the value of a key. -/
  | value
  | alias (name : String)
  | anchor (name : String)
  | tag (handle : Option String) (suffix : String)
  | scalar (plain : Bool) (text : String)
  /-- Reading came to an end. -/
  | fault (why : Fault)
  deriving DecidableEq, Repr

end ControlReach.Yaml

import ControlReach.Data.Yaml.Writer

/-!
# Writing YAML mappings

A mapping is written with one key a line, a list with one item a line, further to the right than
what they belong to, but for a list that belongs to a key: its dashes stand below the key. A key
that is empty, long or of more than one line is announced by a question mark.
-/

namespace ControlReach.Yaml

def keyWidth : Nat := 123

def isLineEnd (c : Char) : Bool := c ∈ ['\n', '\x85', '\u2028', '\u2029']

def isShortKey (k : String) : Bool :=
  k != "" && (Text.codes k.toList).length < keyWidth && !k.toList.any isLineEnd

def writeKey (k : String) : String :=
  match styleOf k with
  | .plain => k
  | .single => String.ofList ('\'' :: k.toList.flatMap doubled ++ ['\''])
  | .double => String.ofList ('"' :: (Text.codes k.toList).flatMap escaped ++ ['"'])
where
  escaped (n : Nat) : List Char := (escapeOf? n).getD [Char.ofNat n]
  /-- A quote is written twice. -/
  doubled (c : Char) : List Char := if c = '\'' then ['\'', '\''] else [c]

def stack (margin : Nat) (lines : List String) : String :=
  Text.join (String.ofList (below margin)) lines

mutual

def afterMark (margin : Nat) : Value → String
  | .list (v :: rest) => " " ++ stack (margin + 2) (writeItems (margin + 2) (v :: rest))
  | .object (p :: rest) => " " ++ stack (margin + 2) (writeFields (margin + 2) (p :: rest))
  | v => " " ++ writeScalar (margin + 2) (margin + 2) v

/-- A value behind the colon of a key at column `margin`. -/
def afterKey (margin column : Nat) : Value → String
  | .list (v :: rest) =>
    String.ofList (below margin) ++ stack margin (writeItems margin (v :: rest))
  | .object (p :: rest) =>
    String.ofList (below (margin + 2)) ++
      stack (margin + 2) (writeFields (margin + 2) (p :: rest))
  | v => " " ++ writeScalar (margin + 2) (column + 1) v

def writeItems (margin : Nat) : List Value → List String
  | [] => []
  | v :: rest => ("-" ++ afterMark margin v) :: writeItems margin rest

def writeFields (margin : Nat) : List (String × Value) → List String
  | [] => []
  | (k, v) :: rest =>
    let entry :=
      if isShortKey k then
        let key := writeKey k
        key ++ ":" ++ afterKey margin (margin + key.length + 1) v
      else
        "? " ++ writeText (margin + 2) (margin + 2) k ++ String.ofList (below margin) ++ ":" ++
          afterMark margin v
    entry :: writeFields margin rest

end

def writeMapping (fields : List (String × Value)) : String := stack 0 (writeFields 0 fields) ++ "\n"

end ControlReach.Yaml

/-!
# Parts of texts

Texts as lists of characters: what they start with, what they contain, and their pieces between
separators.
-/

namespace ControlReach.Text

def beginsWith : List Char → List Char → Bool
  | _, [] => true
  | [], _ :: _ => false
  | a :: as, b :: bs => a == b && beginsWith as bs

def contains (s t : List Char) : Bool :=
  beginsWith s t || match s with
    | [] => false
    | _ :: rest => contains rest t

def pieces (separator : Char) : List Char → List (List Char)
  | [] => [[]]
  | c :: rest =>
    match pieces separator rest with
    | [] => [[c]]
    | piece :: more => if c = separator then [] :: piece :: more else (c :: piece) :: more

end ControlReach.Text

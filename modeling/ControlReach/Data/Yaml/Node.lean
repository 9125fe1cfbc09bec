import ControlReach.Data.Yaml.Layout
import ControlReach.Data.Yaml.Scalar

/-!
# Nodes

What the tokens of a text describe. The nodes of a document are numbered: an alias is another use
of a number, so that a node can be a part of several others, and even of itself.
-/

namespace ControlReach.Yaml

/-- What a node holds: a text, or the numbers of its parts. -/
inductive Content where
  | scalar (text : String)
  | list (items : List Nat)
  | mapping (pairs : List (Nat × Nat))
  deriving DecidableEq, Repr, Inhabited

/-- A part of a document. -/
structure Node where
  tag : String
  content : Content
  deriving DecidableEq, Repr, Inhabited

variable (tag : Option String)

def isVoid : Bool := tag.all (· == "!")

/-- The tag of a list or a mapping, where none has to be given. -/
def tagOr (default : String) : String :=
  if isVoid tag then languageTag default else tag.getD ""

def Node.emptyList : Node := ⟨tagOr tag "seq", .list []⟩

def Node.emptyMapping : Node := ⟨tagOr tag "map", .mapping []⟩

/-- A scalar. Without a tag its form says what it is to be read as, if it is plain. -/
def Node.scalar (tag : Option String) (plain : Bool) (text : String) : Node :=
  let form := (kindOf text).tag
  let tag := match tag with
    | none => if plain then form else Kind.text.tag
    | some tag => if tag = "!" then form else tag
  ⟨tag, .scalar text⟩

def Node.absent : Node := .scalar none true ""

/-- The tokens that remain, and the nodes and names that are known. -/
structure Reading where
  tokens : List Token
  handles : List (String × String) := []
  anchors : List (String × Nat) := []
  nodes : Array Node := #[]

namespace Reading

variable (r : Reading)

def next : Reading := { r with tokens := r.tokens.drop 1 }

def peek : Token := r.tokens.headD .streamEnd

def unexpected : Fault :=
  match r.peek with
  | .fault why => why
  | _ => .malformed

def expect (t : Token) : Except Fault Reading :=
  if r.peek = t then .ok r.next else .error r.unexpected

def add (n : Node) : Nat × Reading :=
  (r.nodes.size, { r with nodes := r.nodes.push n })

def addNamed (anchor : Option String) (n : Node) : Except Fault (Nat × Reading) :=
  match anchor with
  | none => .ok (r.add n)
  | some name =>
    if (r.anchors.lookup name).isSome then .error .malformed
    else
      let (i, r) := r.add n
      .ok (i, { r with anchors := (name, i) :: r.anchors })

def fill (i : Nat) (content : Content) : Reading :=
  { r with nodes := r.nodes.modify i fun n => { n with content } }

def tag? : Token → Except Fault (Option String)
  | .tag none text => .ok (some text)
  | .tag (some handle) text =>
    match r.handles.lookup handle with
    | some start => .ok (some (start ++ text))
    | none => .error .malformed
  | _ => .ok none

/-- An anchor and a tag in either order. What comes after a tag is looked at before its handle. -/
def properties : Except Fault (Option String × Option String × Reading) := do
  match r.peek, r.next.peek with
  | .anchor name, second =>
    let tag ← r.tag? second
    return (some name, tag, if tag.isSome then r.next.next else r.next)
  | .tag _ _, .fault why => .error why
  | first, second =>
    let tag ← r.tag? first
    match tag, second with
    | some _, .anchor name => return (some name, tag, r.next.next)
    | some _, _ => return (none, tag, r.next)
    | none, _ => return (none, none, r)

end Reading

/-- Nothing is written for an item of a block list before these tokens. -/
def endsItem (inMapping : Bool) : Token → Bool
  | .dash | .blockEnd => true
  | .key | .value => inMapping
  | _ => false

/-- Nothing is written for a key or a value of a block mapping before these tokens. -/
def endsField : Token → Bool
  | .key | .value | .blockEnd => true
  | _ => false

mutual

/-- A node; `sameColumn` if a block list can start at the column of the mapping around it. -/
def readNode : Nat → Bool → Bool → Reading → Except Fault (Nat × Reading)
  | 0, _, _, _ => .error .malformed
  | fuel + 1, block, sameColumn, r =>
    match r.peek with
    | .alias name =>
      match r.anchors.lookup name with
      | some i => .ok (i, r.next)
      | none => .error .malformed
    | _ => do
      let (anchor, tag, r) ← r.properties
      match r.peek with
      | .fault why => .error why
      | .scalar plain text => r.next.addNamed anchor (.scalar tag plain text)
      | .openList => do
        let (i, r) ← r.next.addNamed anchor (.emptyList tag)
        let (items, r) ← readFlowItems fuel true [] r
        return (i, r.fill i (.list items))
      | .openMapping => do
        let (i, r) ← r.next.addNamed anchor (.emptyMapping tag)
        let (pairs, r) ← readFlowFields fuel true [] r
        return (i, r.fill i (.mapping pairs))
      | t =>
        if t = .dash && sameColumn then do
          let (i, r) ← r.addNamed anchor (.emptyList tag)
          let (items, r) ← readItems fuel true [] r
          return (i, r.fill i (.list items))
        else if t = .blockList && block then do
          let (i, r) ← r.next.addNamed anchor (.emptyList tag)
          let (items, r) ← readItems fuel false [] r
          return (i, (← r.expect .blockEnd).fill i (.list items))
        else if t = .blockMapping && block then do
          let (i, r) ← r.next.addNamed anchor (.emptyMapping tag)
          let (pairs, r) ← readFields fuel [] r
          return (i, (← r.expect .blockEnd).fill i (.mapping pairs))
        else if anchor.isSome || tag.isSome then r.addNamed anchor (.scalar tag true "")
        else .error .malformed

def readItems : Nat → Bool → List Nat → Reading → Except Fault (List Nat × Reading)
  | 0, _, _, _ => .error .malformed
  | fuel + 1, inMapping, done, r =>
    if r.peek = .dash then
      if endsItem inMapping r.next.peek then
        let (i, r) := r.next.add .absent
        readItems fuel inMapping (i :: done) r
      else do
        let (i, r) ← readNode fuel true false r.next
        readItems fuel inMapping (i :: done) r
    else .ok (done.reverse, r)

def readFields : Nat → List (Nat × Nat) → Reading → Except Fault (List (Nat × Nat) × Reading)
  | 0, _, _ => .error .malformed
  | fuel + 1, done, r =>
    if r.peek = .key then do
      let (k, r) ← readFieldPart fuel r.next
      let (v, r) ← (if r.peek = .value then readFieldPart fuel r.next else .ok (r.add .absent))
      readFields fuel ((k, v) :: done) r
    else .ok (done.reverse, r)

/-- A key or a value of a block mapping, which may be left out. -/
def readFieldPart : Nat → Reading → Except Fault (Nat × Reading)
  | 0, _ => .error .malformed
  | fuel + 1, r => if endsField r.peek then .ok (r.add .absent) else readNode fuel true true r

def readFlowItems : Nat → Bool → List Nat → Reading → Except Fault (List Nat × Reading)
  | 0, _, _, _ => .error .malformed
  | fuel + 1, first, done, r =>
    if r.peek = .closeList then .ok (done.reverse, r.next)
    else do
      let r ← (if first then .ok r else r.expect .comma)
      if r.peek = .closeList then return (done.reverse, r.next)
      else if r.peek = .key then do
        let (i, r) := r.next.add (.emptyMapping none)
        let (k, r) ← readFlowPart fuel [.value, .comma, .closeList] r
        let (v, r) ← (if r.peek = .value then readFlowPart fuel [.comma, .closeList] r.next
          else .ok (r.add .absent))
        readFlowItems fuel false (i :: done) (r.fill i (.mapping [(k, v)]))
      else do
        let (i, r) ← readNode fuel false false r
        readFlowItems fuel false (i :: done) r

def readFlowFields : Nat → Bool → List (Nat × Nat) → Reading →
    Except Fault (List (Nat × Nat) × Reading)
  | 0, _, _, _ => .error .malformed
  | fuel + 1, first, done, r =>
    if r.peek = .closeMapping then .ok (done.reverse, r.next)
    else do
      let r ← (if first then .ok r else r.expect .comma)
      if r.peek = .closeMapping then return (done.reverse, r.next)
      else if r.peek = .key then do
        let (k, r) ← readFlowPart fuel [.value, .comma, .closeMapping] r.next
        let (v, r) ← (if r.peek = .value then readFlowPart fuel [.comma, .closeMapping] r.next
          else .ok (r.add .absent))
        readFlowFields fuel false ((k, v) :: done) r
      else do
        let (k, r) ← readNode fuel false false r
        let (v, r) := r.add .absent
        readFlowFields fuel false ((k, v) :: done) r

/-- A key or a value between brackets, which is left out before certain tokens. -/
def readFlowPart : Nat → List Token → Reading → Except Fault (Nat × Reading)
  | 0, _, _ => .error .malformed
  | fuel + 1, ends, r =>
    if r.peek ∈ ends then .ok (r.add .absent) else readNode fuel false false r

end

/-! ### Documents -/

def commonHandles : List (String × String) := [("!", "!"), ("!!", languageTag "")]

/-- The instructions before a document, and the handles they declare; a version is given once. -/
def readInstructions : Nat → Bool → List (String × String) → Reading →
    Except Fault (List (String × String) × Reading)
  | 0, _, _, _ => .error .malformed
  | fuel + 1, versioned, handles, r =>
    match r.peek with
    | .version major _ =>
      if versioned || major != 1 then .error .malformed
      else readInstructions fuel true handles r.next
    | .handle name start =>
      if (handles.lookup name).isSome then .error .malformed
      else readInstructions fuel versioned ((name, start) :: handles) r.next
    | .instruction => readInstructions fuel versioned handles r.next
    | _ => .ok (handles, r)

def isInstruction : Token → Bool
  | .version _ _ | .handle _ _ | .instruction => true
  | _ => false

def endsDocument (t : Token) : Bool :=
  isInstruction t || t ∈ [.documentStart, .documentEnd, .streamEnd]

/-- Only ends of documents follow. Of another document the instructions are read. -/
def readEnd (r : Reading) : Except Fault Unit := do
  let r := { r with tokens := r.tokens.dropWhile (· == .documentEnd) }
  if r.peek = .streamEnd then return ()
  else
    let (_, r) ← readInstructions (r.tokens.length + 1) false [] r
    .error r.unexpected

/-- The document of a text: its nodes, and the number of the outermost one. -/
def readDocument (ts : List Token) : Except Fault (Option (Array Node × Nat)) := do
  let fuel := 4 * ts.length + 8
  let r : Reading := { tokens := ts, handles := commonHandles }
  if r.peek = .streamEnd then return none
  else if isInstruction r.peek || r.peek = .documentStart then
    let (handles, r) ← readInstructions fuel false [] r
    let r ← { r with handles := handles ++ commonHandles }.expect .documentStart
    let (i, r) ← (if endsDocument r.peek then .ok (r.add .absent) else readNode fuel true false r)
    readEnd r
    return some (r.nodes, i)
  else
    let (i, r) ← readNode fuel true false r
    readEnd r
    return some (r.nodes, i)

end ControlReach.Yaml

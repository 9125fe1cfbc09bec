import ControlReach.Query.Generate

/-!
# Straight-line execution

A control without branches can be executed directly, block after block.
-/

namespace ControlReach

/-- A block that may go to more than one place, or to one place only under a condition. -/
def FlowBlock.branches (b : FlowBlock) : Bool :=
  b.edges.length > 1 || b.edges.any fun e => e.guard.isSome

/-- Execute a block and what follows it, over at most so many blocks. -/
def FlowGraph.straightFrom (g : FlowGraph) :
    Nat → BlockId → Store → List Term → Except GenerationFault (Store × List Term)
  | 0, _, s, assumed => .ok (s, assumed)
  | fuel + 1, i, s, assumed =>
    match g.block? i with
    | none => .ok (s, assumed)
    | some b =>
      match execute b.ops s assumed with
      | .error fault => .error (.evaluation fault)
      | .ok (s, assumed) =>
        if b.branches then .error (.rejected (.of (.branching i g.name) none))
        else
          match b.edges with
          | [] => .ok (s, assumed)
          | e :: _ => g.straightFrom fuel e.target s assumed

def FlowGraph.straight (g : FlowGraph) : Except GenerationFault (Store × List Term) :=
  g.straightFrom g.blocks.length g.entry [] []

end ControlReach

/-!
# Cancellation

Once a token has been found canceled it stays so. Its answers are fixed beforehand by the number of
polls it still answers with "not canceled".
-/

namespace ControlReach

/-- A cancellation token: the number of polls it lets pass, or no limit. -/
structure Token where
  remaining : Option Nat
  deriving DecidableEq, Repr

namespace Token

def never : Token := ⟨none⟩

def canceled : Token := ⟨some 0⟩

def after (n : Nat) : Token := ⟨some n⟩

def isCanceled (t : Token) : Bool := t.remaining == some 0

def poll (t : Token) : Bool × Token :=
  match t.remaining with
  | none => (false, t)
  | some 0 => (true, t)
  | some (n + 1) => (false, ⟨some n⟩)

@[simp] theorem poll_never : never.poll = (false, never) := rfl

@[simp] theorem poll_after_succ (n : Nat) : (after (n + 1)).poll = (false, after n) := rfl

end Token

end ControlReach

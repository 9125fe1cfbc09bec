import ControlReach.Data.Value
import ControlReach.Text.Bytes

/-!
# Faults of YAML texts

A text may break the rules of the language, or keep them and hold a scalar that has the form of a
number, a day or a character but stands for none.
-/

namespace ControlReach.Yaml

/-- Why a text holds no document. -/
inductive Fault where
  | malformed
  /-- An escape names a character beyond the last one. -/
  | noCharacter
  /-- A number is too large to be handled at all. -/
  | overflow
  | noNumber
  | notInteger (base : Nat) (text : String)
  /-- There is no such number. -/
  | notReal (text : String)
  | tooLong (digits : Nat)
  | noMoment (why : Number.MomentFault)
  | notMoment
  /-- A text is no word for a truth value. -/
  | notTruth
  /-- Something else than a scalar has the tag of a moment. -/
  | notScalar
  /-- A mapping is its own default value. -/
  | endless
  | undecodable (why : Text.DecodeFault)
  deriving DecidableEq, Repr

def Fault.message : Fault → String
  | .malformed => "invalid YAML"
  | .noCharacter => "chr() arg not in range(0x110000)"
  | .overflow => "number too large"
  | .noNumber => "empty number"
  | .notInteger base s => Value.noLiteralMessage base (Text.quote s)
  | .notReal s => "could not convert string to float: " ++ Text.quote s
  | .tooLong digits => Number.tooLongMessage digits
  | .noMoment why => why.message
  | .notMoment => "not a moment"
  | .notTruth => "not a truth value"
  | .notScalar => "not a scalar"
  | .endless => "maximum recursion depth exceeded"
  | .undecodable why => why.message

end ControlReach.Yaml

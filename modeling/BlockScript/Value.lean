import BlockScript.DecimalText

/-! # Values

The values that scripts compute with. `==` on values is the equality of the scripts themselves: values of
different types are unequal, and numbers compare as doubles do, so a NaN differs from itself and the two
zeros are equal. -/
namespace BlockScript

inductive Value where
  | nil
  | bool (b : Bool)
  | number (x : Float)
  | string (s : String)
deriving BEq, Inhabited

namespace Value

/-- Only `nil` and `false` count as false. -/
def isTruthy : Value → Bool
  | .nil => false
  | .bool b => b
  | .number _ | .string _ => true

def asNumber : Value → Option Float
  | .number x => some x
  | _ => none

/-- The text that `print` shows. -/
def text : Value → String
  | .nil => "nil"
  | .bool b => if b then "true" else "false"
  | .number x => String.ofList (DecimalText.write x)
  | .string s => s

/-- The text with a string between quotes; nothing is escaped. -/
def quoted : Value → String
  | .string s => "\"" ++ s ++ "\""
  | v => v.text

end Value
end BlockScript

import Gcode.Text.Basic

/-!
# JSON documents

Values of JSON without fractions. The members of an object are kept in order.
-/

namespace Gcode

/-- A JSON value. -/
inductive Json
  | null
  | bool (b : Bool)
  | number (n : Int)
  | string (t : Text)
  | array (elements : List Json)
  | object (members : List (Text × Json))
deriving Inhabited

end Gcode

import RailAtlas.Json.Value

/-!
# Records and alternatives in JSON

A record with named parts is an object with those fields, each exactly once, or an array with the
parts in order. Fields of other names are passed over, also repeated ones. An alternative is an
object whose only field names it and holds its content; one without content may also be the name
alone.
-/

namespace RailAtlas

namespace Json

/-- The value of the only field of a given name. -/
def theField? (name : String) (fields : List (Option String × Json)) : Option Json :=
  match fields.filter fun f => f.1 == some name with
  | [(_, j)] => some j
  | _ => none

/-- The parts of a record, in the order of their names. -/
def parts? (names : List String) : Json → Option (List Json)
  | .array items => if items.length = names.length then some items else none
  | .object fields =>
    if fields.all fun f => f.1.isSome then names.mapM fun name => theField? name fields else none
  | _ => none

/-- The name of an alternative and its content, if it has any. -/
def alternative? : Json → Option (String × Option Json)
  | .string (some name) => some (name, none)
  | .object [(some name, content)] => some (name, some content)
  | _ => none

/-- Whether the content of an alternative stands for nothing. -/
def isVoid : Option Json → Bool
  | none => true
  | some .null => true
  | _ => false

def tagged (name : String) (content : Json) : Json :=
  .record [(name, content)]

end Json

end RailAtlas

import TableImport.Json.Token

/-! Reading JSON texts: a machine over tokens with a stack of the arrays and objects that are
still open. -/
namespace TableImport.Json

/-- An open array with its items, the last first, or an open object with its fields and the key
whose value is being read. -/
inductive Open where
  | array (items : List Json)
  | object (fields : Assoc Json) (key : String)

/-- What is expected next. -/
inductive Expected where
  | value
  | itemOrEnd
  | keyOrEnd (fields : Assoc Json)
  | key (fields : Assoc Json)
  | colon (fields : Assoc Json) (key : String)
  | afterValue (v : Json)

/-- Arrays and objects lie at most so deep in one another. -/
def depthLimit : Nat := 127

/-- Reads the tokens that remain; a repeated key keeps its last value. -/
def run? (expected : Expected) (stack : List Open) : List Token → Option Json
  | [] =>
    match expected, stack with
    | .afterValue v, [] => some v
    | _, _ => none
  | t :: ts =>
    match expected with
    | .value | .itemOrEnd =>
      match t with
      | .scalar v => run? (.afterValue v) stack ts
      | .beginArray =>
        if stack.length < depthLimit then run? .itemOrEnd (.array [] :: stack) ts else none
      | .beginObject =>
        if stack.length < depthLimit then run? (.keyOrEnd []) stack ts else none
      | .endArray =>
        match expected, stack with
        | .itemOrEnd, .array items :: stack => run? (.afterValue (.array items.reverse)) stack ts
        | _, _ => none
      | _ => none
    | .keyOrEnd fields | .key fields =>
      match t with
      | .scalar (.string key) => run? (.colon fields key) stack ts
      | .endObject =>
        match expected with
        | .keyOrEnd _ => run? (.afterValue (.object fields)) stack ts
        | _ => none
      | _ => none
    | .colon fields key =>
      match t with
      | .colon => run? .value (.object fields key :: stack) ts
      | _ => none
    | .afterValue v =>
      match t, stack with
      | .comma, .array items :: stack => run? .value (.array (v :: items) :: stack) ts
      | .endArray, .array items :: stack =>
        run? (.afterValue (.array (v :: items).reverse)) stack ts
      | .comma, .object fields key :: stack => run? (.key (Assoc.insert key v fields)) stack ts
      | .endObject, .object fields key :: stack =>
        run? (.afterValue (.object (Assoc.insert key v fields))) stack ts
      | _, _ => none

/-- The JSON value of a text that holds one and nothing else. -/
def read? (text : String) : Option Json := (tokens? 0 text.toList).bind (run? .value [])

def readBytes? (bytes : ByteArray) : Option Json := (String.fromUTF8? bytes).bind read?

end TableImport.Json

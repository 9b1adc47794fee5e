import FormatServer.Json.Binary64

namespace FormatServer

/-- A number of a JSON text. Whole numbers keep their exact value where a machine integer holds it;
the `unsigned` ones lie above all `signed` ones. -/
inductive JsonNumber where
  | signed (value : Int64)
  | unsigned (value : UInt64)
  | binary (value : Binary64)
  deriving DecidableEq, Repr

/-- A JSON value. -/
inductive Json where
  | null
  | bool (value : Bool)
  | number (value : JsonNumber)
  | string (text : Bytes)
  | array (elements : List Json)
  | object (members : List (Bytes × Json))
  deriving Repr

/-- The members of an object, in the order of their keys. -/
abbrev JsonObject := List (Bytes × Json)

namespace JsonObject

/-- The value of a key. -/
def get? (members : JsonObject) (key : Bytes) : Option Json :=
  (members.find? fun pair => pair.1 = key).map (·.2)

/-- Sets the value of a key. -/
def insert (key : Bytes) (value : Json) : JsonObject → JsonObject
  | [] => [(key, value)]
  | (other, held) :: rest =>
    if key = other then (key, value) :: rest
    else if key < other then (key, value) :: (other, held) :: rest
    else (other, held) :: insert key value rest

/-- The object with the given members; of two with the same key the later one counts. -/
def ofMembers (members : List (Bytes × Json)) : JsonObject :=
  members.foldl (fun object pair => insert pair.1 pair.2 object) []

/-- The value just set is the one found. -/
theorem get?_insert_self (members : JsonObject) (key : Bytes) (value : Json) :
    get? (insert key value members) key = some value := by
  fun_induction insert key value members with
  | case1 => simp [get?]
  | case2 held rest => simp [get?]
  | case3 other held rest differ before => simp [get?]
  | case4 other held rest differ notBefore inductionHypothesis =>
    simpa [get?, List.find?_cons, Ne.symm differ] using inductionHypothesis

/-- Setting one key leaves the value of every other. -/
theorem get?_insert_of_ne (members : JsonObject) {key wanted : Bytes} (value : Json)
    (differ : wanted ≠ key) : get? (insert key value members) wanted = get? members wanted := by
  fun_induction insert key value members with
  | case1 => simp [get?, differ.symm]
  | case2 held rest => simp [get?, differ.symm]
  | case3 other held rest notEqual before => simp [get?, List.find?_cons, differ.symm]
  | case4 other held rest notEqual notBefore inductionHypothesis =>
    by_cases found : other = wanted
    · simp [get?, found]
    · simpa [get?, List.find?_cons, found] using inductionHypothesis

end JsonObject

namespace Json

/-- A whole number. -/
def ofInt (value : Int) : Json := number (.signed (Int64.ofInt value))

/-- A text. -/
def ofString (text : String) : Json := string (Bytes.ofString text)

/-- An object with the given members. -/
def mkObject (members : List (String × Json)) : Json :=
  object (JsonObject.ofMembers (members.map fun pair => (Bytes.ofString pair.1, pair.2)))

/-- The whole number that a value equals, if it is within 64 bits with a sign; `2.0` and `1e2`
equal whole numbers. -/
def toInt64? : Json → Option Int64
  | number (.signed value) => some value
  | number (.binary value) =>
    match value.toInt? with
    | some integer =>
      if Int64.minValue.toInt ≤ integer ∧ integer ≤ Int64.maxValue.toInt then
        some (Int64.ofInt integer)
      else none
    | none => none
  | _ => none

/-- The members of an object. -/
def members? : Json → Option JsonObject
  | object members => some members
  | _ => none

end Json

end FormatServer

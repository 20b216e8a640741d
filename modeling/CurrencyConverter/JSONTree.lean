import Mathlib.Data.Rat.Defs
import Mathlib.Data.List.Basic

/-! JSON trees as a program meets them after parsing: key-value lookup that fails on
values without keys, and a serialiser that is faithful on containers. -/
namespace JSONTree

abbrev NSString := List Char

/-- The exceptions a value of the wrong class raises. -/
inductive NSException where
  | invalidArgument
  | undefinedKey
  | unrecognizedSelector
  | range
  deriving DecidableEq

inductive JSON where
  | null
  | bool (b : Bool)
  | number (q : ℚ)
  | string (s : NSString)
  | array (elements : List JSON)
  | object (fields : List (NSString × JSON))

namespace JSON

def isContainer : JSON → Bool
  | array _ => true
  | object _ => true
  | _ => false

mutual

/-- `valueForKey:`; an array answers with the array of its elements' values. -/
def valueForKey (key : NSString) : JSON → Except NSException (Option JSON)
  | object fields => .ok (fields.lookup key)
  | array elements => do return some (array (← valuesForKey key elements))
  | _ => .error .undefinedKey

def valuesForKey (key : NSString) : List JSON → Except NSException (List JSON)
  | [] => .ok []
  | element :: elements => do
    let value ← valueForKey key element
    let values ← valuesForKey key elements
    return value.getD null :: values

end

/-- `receiver[key]`, understood by dictionaries only. -/
def objectForKeyedSubscript (key : Option NSString) : JSON → Except NSException (Option JSON)
  | object fields => .ok (key.bind (fun k => fields.lookup k))
  | _ => .error .unrecognizedSelector

end JSON

/-- A message to nil answers nil. -/
def valueForKeyPath (receiver : Option JSON) (key : NSString) :
    Except NSException (Option JSON) :=
  match receiver with
  | none => .ok none
  | some json => json.valueForKey key

/-- A serialiser whose output, for every container, reads back as that container.
Nothing is assumed about the bytes themselves. -/
class JSONSerialization (Data : Type) where
  decEq : DecidableEq Data
  encode : JSON → Data
  decode : Data → Option JSON
  decode_encode : ∀ json : JSON, json.isContainer = true → decode (encode json) = some json

section
variable {Data : Type} [JSONSerialization Data]

def isEqualToData (a b : Data) : Bool := @decide (a = b) (JSONSerialization.decEq a b)

theorem isEqualToData_iff (a b : Data) : isEqualToData a b = true ↔ a = b :=
  @decide_eq_true_iff _ (JSONSerialization.decEq a b)

/-- `dataWithJSONObject:`, which raises on nil and on a top level that is no container. -/
def dataWithJSONObject (json : Option JSON) : Except NSException Data :=
  match json with
  | none => .error .invalidArgument
  | some json =>
    if json.isContainer then .ok (JSONSerialization.encode json) else .error .invalidArgument

/-- `JSONObjectWithData:`, which raises on nil and answers nil on unreadable bytes. -/
def jsonObjectWithData (data : Option Data) : Except NSException (Option JSON) :=
  match data with
  | none => .error .invalidArgument
  | some data => .ok (JSONSerialization.decode data)

theorem dataWithJSONObject_eq_ok {json : Option JSON} {data : Data}
    (h : dataWithJSONObject json = .ok data) :
    ∃ j, json = some j ∧ j.isContainer = true ∧ data = JSONSerialization.encode j := by
  unfold dataWithJSONObject at h
  split at h
  · contradiction
  · split at h
    · exact ⟨_, rfl, ‹_›, by cases h; rfl⟩
    · contradiction

theorem dataWithJSONObject_container (json : JSON) (h : json.isContainer = true) :
    (dataWithJSONObject (some json) : Except NSException Data) =
      .ok (JSONSerialization.encode json) := if_pos h

theorem jsonObjectWithData_encode (json : JSON) (h : json.isContainer = true) :
    jsonObjectWithData (some (JSONSerialization.encode json : Data)) = .ok (some json) :=
  congrArg Except.ok (JSONSerialization.decode_encode json h)

end

end JSONTree

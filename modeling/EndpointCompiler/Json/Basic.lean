import EndpointCompiler.Sorted

/-! JSON values. An object is a list of fields; a value in normal form has them sorted by name,
each name once. -/

namespace EndpointCompiler

/-- A number is an integer if it is written as one and takes at most 64 bits. -/
inductive JsonNumber where
  | int (value : Int)
  | float (value : Float)
  deriving Inhabited

inductive Json where
  | null
  | bool (value : Bool)
  | number (value : JsonNumber)
  | string (value : String)
  | array (items : List Json)
  | object (fields : List (String × Json))
  deriving Inhabited

namespace Json

def ofInt (n : Int) : Json :=
  .number (.int n)

def ofNat (n : Nat) : Json :=
  .number (.int n)

/-- Puts a field into sorted fields, in place of one of the same name. -/
def insertField (name : String) (value : Json) (fields : List (String × Json)) :
    List (String × Json) :=
  insertByName (·.1) (name, value) fields

def field? (name : String) : List (String × Json) → Option Json
  | [] => none
  | (n, v) :: fields => if n = name then some v else field? name fields

/-- Sorted fields; of several with one name the last stays. -/
def sortFields (fields : List (String × Json)) : List (String × Json) :=
  fields.foldl (fun sorted f => insertField f.1 f.2 sorted) []

mutual

def normalize : Json → Json
  | .array items => .array (normalizeItems items)
  | .object fields => .object (sortFields (normalizeFields fields))
  | .null => .null
  | .bool b => .bool b
  | .number n => .number n
  | .string s => .string s

def normalizeItems : List Json → List Json
  | [] => []
  | v :: items => normalize v :: normalizeItems items

def normalizeFields : List (String × Json) → List (String × Json)
  | [] => []
  | (n, v) :: fields => (n, normalize v) :: normalizeFields fields

end

/-- A member of an object; null where there is none. -/
def member (name : String) : Json → Json
  | .object fields => (field? name fields).getD .null
  | _ => .null

theorem field?_eq (name : String) (fields : List (String × Json)) :
    field? name fields = (fields.find? (·.1 == name)).map (·.2) := by
  induction fields with
  | nil => rfl
  | cons f fields ih => by_cases h : f.1 = name <;> simp [field?, h, ih]

theorem field?_insertField (name : String) (value : Json) (fields : List (String × Json))
    (n : String) :
    field? n (insertField name value fields) =
      if n = name then some value else field? n fields := by
  rw [field?_eq, insertField, find?_insertByName]
  by_cases h : n = name
  · simp [h]
  · have h' : name ≠ n := fun he => h he.symm
    simp [h, h', field?_eq]

end Json

end EndpointCompiler

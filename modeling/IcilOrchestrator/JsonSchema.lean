import Mathlib
import IcilOrchestrator.Json

/-!
# JSON Schema

The validation keywords of Draft 2020-12 that a record store uses, as predicates : a
schema is the set of the values it accepts. A keyword about strings, numbers, objects or
arrays accepts every value of another type, so a schema names the type beside it. An
`integer` is an `int` that is no `bool`, or a float without a fraction; a NaN is a
`number` that is neither below a minimum nor above a maximum.

A pattern is searched for, so `^…$` also accepts the text with a newline after it
(`anchored`).
-/

namespace Python

/-- A schema is what it accepts. -/
abbrev Schema (F : Type) := Json F → Bool

/-- The names of `type`. -/
inductive JsonType where
  | null
  | boolean
  | integer
  | number
  | string
  | array
  | object
deriving DecidableEq

namespace Schema

variable {F : Type} [PyFloat F]

/-- `type`, for one name. -/
def ofType : JsonType → Schema F
  | .null, .null => true
  | .boolean, .bool _ => true
  | .integer, .int _ => true
  | .integer, .float x => (PyFloat.val x).den == 1
  | .number, .int _ => true
  | .number, .float _ => true
  | .number, .inf _ => true
  | .number, .nan => true
  | .string, .str _ => true
  | .array, .arr _ => true
  | .object, .obj _ => true
  | _, _ => false

/-- `type`, for a list of names. -/
def ofTypes (ts : List JsonType) : Schema F := fun j => ts.any fun t => ofType t j

omit [PyFloat F] in
/-- `enum`, of strings. -/
def enum (values : List PyStr) : Schema F
  | .str s => values.contains s
  | _ => false

omit [PyFloat F] in
/-- `pattern`, as the texts it is found in. -/
def pattern (found : PyStr → Bool) : Schema F
  | .str s => found s
  | _ => true

omit [PyFloat F] in
/-- `minLength`. -/
def minLength (n : ℕ) : Schema F
  | .str s => n ≤ s.length
  | _ => true

/-- `minimum`. -/
def minimum (m : ℤ) : Schema F
  | .int z => decide (m ≤ z)
  | .float x => decide ((m : ℚ) ≤ PyFloat.val x)
  | .inf neg => !neg
  | _ => true

/-- `maximum`. -/
def maximum (m : ℤ) : Schema F
  | .int z => decide (z ≤ m)
  | .float x => decide (PyFloat.val x ≤ (m : ℚ))
  | .inf neg => neg
  | _ => true

omit [PyFloat F] in
/-- `required`. -/
def required (keys : List String) : Schema F
  | .obj d => keys.all fun k => Dict.mem d (py k)
  | _ => true

omit [PyFloat F] in
/-- `properties`, for one property. -/
def property (key : String) (s : Schema F) : Schema F
  | .obj d =>
    match Dict.get? d (py key) with
    | some v => s v
    | none => true
  | _ => true

omit [PyFloat F] in
/-- `additionalProperties`, beside the properties of the names given. -/
def additionalProperties (keys : List String) (s : Schema F) : Schema F
  | .obj d => d.all fun p => keys.any (fun k => py k == p.1) || s p.2
  | _ => true

omit [PyFloat F] in
/-- `items`. -/
def items (s : Schema F) : Schema F
  | .arr xs => xs.all s
  | _ => true

omit [PyFloat F] in
/-- `allOf`, and the keywords of one schema. -/
def allOf (ss : List (Schema F)) : Schema F := fun j => ss.all fun s => s j

omit [PyFloat F] in
/-- `oneOf` : exactly one of them. -/
def oneOf (ss : List (Schema F)) : Schema F := fun j => (ss.filter fun s => s j).length == 1

/-- The other schema or null. -/
def orNull (s : Schema F) : Schema F := oneOf [s, ofType .null]

/-! ## What an object of a schema has -/

omit [PyFloat F] in
theorem allOf_iff {ss : List (Schema F)} {j : Json F} : allOf ss j ↔ ∀ s ∈ ss, s j := by
  simp [allOf]

omit [PyFloat F] in
theorem property_iff {key : String} {s : Schema F} {d : Dict F} :
    property key s (.obj d) ↔ ∀ v, Dict.get? d (py key) = some v → s v := by
  cases h : Dict.get? d (py key) <;> simp [property, h]

omit [PyFloat F] in
theorem property_of_get {key : String} {s : Schema F} {d : Dict F} {v : Json F}
    (h : Dict.get? d (py key) = some v) : property key s (.obj d) = s v := by
  simp [property, h]

omit [PyFloat F] in
theorem required_iff {keys : List String} {d : Dict F} :
    required keys (.obj d) ↔ ∀ k ∈ keys, ∃ v, Dict.get? d (py k) = some v := by
  simp [required, Dict.mem, Option.isSome_iff_exists]

theorem ofType_object_iff {j : Json F} : ofType .object j ↔ ∃ d, j = .obj d := by
  cases j <;> simp [ofType]

theorem ofType_string_iff {j : Json F} : ofType .string j ↔ ∃ s, j = .str s := by
  cases j <;> simp [ofType]

/-- A schema that refuses null, or null. -/
theorem orNull_iff {s : Schema F} (hs : s .null = false) {j : Json F} :
    orNull s j ↔ j = .null ∨ s j := by
  unfold orNull oneOf
  cases j <;> simp only [List.filter_cons, List.filter_nil, ofType, hs]
  all_goals
    split_ifs <;> simp_all

end Schema

/-! ## Patterns -/

/-- `^…$` : the whole text, or the text before its last newline. -/
def anchored (whole : PyStr → Bool) (s : PyStr) : Bool :=
  whole s || (s.getLast? == some 10 && whole s.dropLast)

theorem anchored_of_whole {whole : PyStr → Bool} {s : PyStr} (h : whole s) : anchored whole s := by
  simp [anchored, h]

end Python

import Mathlib
import IcilOrchestrator.Json

/-!
# `json.dumps` and `json.loads`

`print` writes a value with the whitespace a `Layout` puts after brackets, commas and
colons : none in canonical JSON (`compact`), a space after a comma and a colon by
default (`spaced`), a line for every item with `indent=2` (`indented`). Strings are
escaped to printable ASCII, a character past `U+FFFF` as its surrogate pair.
`sortKeys` is `sort_keys=True`.

`loads` is CPython's scanner : strict strings, the first of `0` or a digit run for a
number's integer part, an `int` of at most 4300 digits (`maxStrDigits`), and the
constants `NaN`, `Infinity` and `-Infinity` when they are not refused. The depth at
which the interpreter gives up on nesting is not modelled.
-/

namespace Python

/-! ## Writing -/

/-- The most digits `int` and `str` convert : `sys.int_info.default_max_str_digits`. -/
def maxStrDigits : ℕ := 4300

/-- Whitespace of JSON. -/
def isWs (c : ℕ) : Bool := c == 32 || c == 10 || c == 13 || c == 9

/-- The whitespace `json.dumps` writes, by the depth of the items it stands among. -/
structure Layout where
  opening : ℕ → PyStr
  item : ℕ → PyStr
  closing : ℕ → PyStr
  colon : PyStr
  opening_ws : ∀ d, ∀ c ∈ opening d, isWs c
  item_ws : ∀ d, ∀ c ∈ item d, isWs c
  closing_ws : ∀ d, ∀ c ∈ closing d, isWs c
  colon_ws : ∀ c ∈ colon, isWs c

/-- `separators=(",", ":")`. -/
def compact : Layout where
  opening _ := []
  item _ := []
  closing _ := []
  colon := []
  opening_ws := by simp
  item_ws := by simp
  closing_ws := by simp
  colon_ws := by simp

/-- The default separators, `", "` and `": "`. -/
def spaced : Layout where
  opening _ := []
  item _ := [32]
  closing _ := []
  colon := [32]
  opening_ws := by simp
  item_ws := by simp [isWs]
  closing_ws := by simp
  colon_ws := by simp [isWs]

/-- A new line, indented by two spaces for each level. -/
def newline (d : ℕ) : PyStr := 10 :: List.replicate (2 * d) 32

theorem newline_ws (d : ℕ) : ∀ c ∈ newline d, isWs c := by
  intro c hc
  rcases List.mem_cons.1 hc with rfl | hc
  · rfl
  · rw [(List.mem_replicate.1 hc).2]; rfl

/-- `indent=2`. -/
def indented : Layout where
  opening := newline
  item := newline
  closing := newline
  colon := [32]
  opening_ws := newline_ws
  item_ws := newline_ws
  closing_ws := newline_ws
  colon_ws := by simp [isWs]

/-- A lower-case hexadecimal digit. -/
def hexDigit (d : ℕ) : ℕ := if d < 10 then 48 + d else 87 + d

/-- `{:04x}`. -/
def hex4 (c : ℕ) : PyStr :=
  [hexDigit (c / 4096 % 16), hexDigit (c / 256 % 16), hexDigit (c / 16 % 16), hexDigit (c % 16)]

/-- A character in a JSON string, with `ensure_ascii`. -/
def escape (c : ℕ) : PyStr :=
  if c = 34 then [92, 34]
  else if c = 92 then [92, 92]
  else if c = 8 then [92, 98]
  else if c = 12 then [92, 102]
  else if c = 10 then [92, 110]
  else if c = 13 then [92, 114]
  else if c = 9 then [92, 116]
  else if 32 ≤ c ∧ c ≤ 126 then [c]
  else if c < 0x10000 then 92 :: 117 :: hex4 c
  else 92 :: 117 :: hex4 (0xD800 + (c - 0x10000) / 1024) ++
    92 :: 117 :: hex4 (0xDC00 + (c - 0x10000) % 1024)

/-- A string in quotes. -/
def quote (s : PyStr) : PyStr := 34 :: s.flatMap escape ++ [34]

variable {F : Type} [PyFloat F]

mutual

/-- The text of a value at depth `d`. -/
def print (L : Layout) (d : ℕ) : Json F → PyStr
  | .null => py "null"
  | .bool true => py "true"
  | .bool false => py "false"
  | .int z => (intLit z).text
  | .float x => (PyFloat.lit x).text
  | .inf false => py "Infinity"
  | .inf true => py "-Infinity"
  | .nan => py "NaN"
  | .str s => quote s
  | .arr [] => [91, 93]
  | .arr (x :: xs) =>
    91 :: L.opening (d + 1) ++ print L (d + 1) x ++ printItems L (d + 1) xs ++ L.closing d ++ [93]
  | .obj [] => [123, 125]
  | .obj ((k, v) :: kvs) =>
    123 :: L.opening (d + 1) ++ quote k ++ 58 :: L.colon ++ print L (d + 1) v ++
      printMembers L (d + 1) kvs ++ L.closing d ++ [125]

/-- The items after the first, each after its comma. -/
def printItems (L : Layout) (d : ℕ) : List (Json F) → PyStr
  | [] => []
  | x :: xs => 44 :: L.item d ++ print L d x ++ printItems L d xs

/-- The members after the first, each after its comma. -/
def printMembers (L : Layout) (d : ℕ) : Dict F → PyStr
  | [] => []
  | (k, v) :: kvs =>
    44 :: L.item d ++ quote k ++ 58 :: L.colon ++ print L d v ++ printMembers L d kvs

end

/-- Strings compare by their code points. -/
def strLe : PyStr → PyStr → Bool
  | [], _ => true
  | _ :: _, [] => false
  | a :: s, b :: t => decide (a < b) || (a == b && strLe s t)

namespace Json

omit [PyFloat F] in
mutual

/-- `sort_keys=True` : every dict's items in the order of their keys. -/
def sortKeys : Json F → Json F
  | .arr xs => .arr (sortItems xs)
  | .obj kvs => .obj ((sortMembers kvs).insertionSort fun p q => strLe p.1 q.1)
  | j => j

def sortItems : List (Json F) → List (Json F)
  | [] => []
  | x :: xs => sortKeys x :: sortItems xs

def sortMembers : Dict F → Dict F
  | [] => []
  | (k, v) :: kvs => (k, sortKeys v) :: sortMembers kvs

end

omit [PyFloat F] in
mutual

/-- Whether `json.dumps` returns : an `int` has at most `maxStrDigits` digits, and without
`allow_nan` no number is infinite or NaN. -/
def dumpable (allowNan : Bool) : Json F → Bool
  | .int z => decide (z.natAbs < 10 ^ maxStrDigits)
  | .inf _ => allowNan
  | .nan => allowNan
  | .arr xs => dumpableItems allowNan xs
  | .obj kvs => dumpableMembers allowNan kvs
  | _ => true

def dumpableItems (allowNan : Bool) : List (Json F) → Bool
  | [] => true
  | x :: xs => dumpable allowNan x && dumpableItems allowNan xs

def dumpableMembers (allowNan : Bool) : Dict F → Bool
  | [] => true
  | (_, v) :: kvs => dumpable allowNan v && dumpableMembers allowNan kvs

end

end Json

/-- `json.dumps(j, sort_keys=True, allow_nan=allowNan)` in a layout ; none where it raises
`ValueError`. -/
def dumps (L : Layout) (allowNan : Bool) (j : Json F) : Option PyStr :=
  if j.dumpable allowNan then some (print L 0 j.sortKeys) else none

/-! ## Reading -/

/-- The value of a hexadecimal digit, in either case. -/
def hexVal (c : ℕ) : Option ℕ :=
  if 48 ≤ c ∧ c ≤ 57 then some (c - 48)
  else if 97 ≤ c ∧ c ≤ 102 then some (c - 87)
  else if 65 ≤ c ∧ c ≤ 70 then some (c - 55)
  else none

/-- The four digits after `\u`. -/
def hexVal4 (a b c d : ℕ) : Option ℕ :=
  match hexVal a, hexVal b, hexVal c, hexVal d with
  | some a, some b, some c, some d => some (((a * 16 + b) * 16 + c) * 16 + d)
  | _, _, _, _ => none

/-- The character a one-letter escape stands for. -/
def unescape (e : ℕ) : Option ℕ :=
  if e = 34 then some 34
  else if e = 92 then some 92
  else if e = 47 then some 47
  else if e = 98 then some 8
  else if e = 102 then some 12
  else if e = 110 then some 10
  else if e = 114 then some 13
  else if e = 116 then some 9
  else none

/-- A high surrogate. -/
def isHigh (u : ℕ) : Bool := decide (0xD800 ≤ u ∧ u ≤ 0xDBFF)

/-- A low surrogate. -/
def isLow (u : ℕ) : Bool := decide (0xDC00 ≤ u ∧ u ≤ 0xDFFF)

/-- The low surrogate written next, if one is, and what follows it. -/
def scanLow : PyStr → Option (ℕ × PyStr)
  | 92 :: 117 :: a :: b :: c :: d :: r =>
    match hexVal4 a b c d with
    | some v => if isLow v then some (v, r) else none
    | none => none
  | _ => none

/-- One character of a string's body, and what follows it ; none at the closing quote and
where the string is malformed. -/
def scanChar : PyStr → Option (ℕ × PyStr)
  | 92 :: 117 :: a :: b :: c :: d :: r =>
    match hexVal4 a b c d with
    | none => none
    | some u =>
      if isHigh u then
        match scanLow r with
        | some (v, r') => some (0x10000 + (u - 0xD800) * 1024 + (v - 0xDC00), r')
        | none => some (u, r)
      else some (u, r)
  | 92 :: e :: r => (unescape e).map (·, r)
  | c :: r => if c = 34 ∨ c = 92 ∨ c < 32 then none else some (c, r)
  | [] => none

/-- A string's body up to its closing quote, which `fuel` characters reach. -/
def scanBody : ℕ → PyStr → Option (PyStr × PyStr)
  | 0, _ => none
  | _ + 1, 34 :: r => some ([], r)
  | n + 1, s =>
    match scanChar s with
    | none => none
    | some (c, r) => (scanBody n r).map fun p => (c :: p.1, p.2)

/-- `scanstring`, after the opening quote. -/
def scanString (s : PyStr) : Option (PyStr × PyStr) := scanBody (s.length + 1) s

/-- `text` without `pre` at its start. -/
def stripPrefix : PyStr → PyStr → Option PyStr
  | [], s => some s
  | _ :: _, [] => none
  | a :: p, b :: s => if a = b then stripPrefix p s else none

/-- The fraction at the start of `s`, if one is there. -/
def scanFrac : PyStr → PyStr × PyStr
  | 46 :: s => if (s.takeWhile isDigit).isEmpty then ([], 46 :: s)
    else (s.takeWhile isDigit, s.dropWhile isDigit)
  | s => ([], s)

/-- The sign of an exponent. -/
def scanSign : PyStr → PyStr × PyStr
  | 43 :: s => ([43], s)
  | 45 :: s => ([45], s)
  | s => ([], s)

/-- The exponent at the start of `s`, if one is there. -/
def scanExp : PyStr → PyStr × PyStr
  | c :: s =>
    if c = 101 ∨ c = 69 then
      let p := scanSign s
      if (p.2.takeWhile isDigit).isEmpty then ([], c :: s)
      else (p.1 ++ p.2.takeWhile isDigit, p.2.dropWhile isDigit)
    else ([], c :: s)
  | [] => ([], [])

/-- `match_number` : the longest number at the start of `s`. -/
def scanNumber (s : PyStr) : Option (NumLit × PyStr) :=
  let neg : Bool := s.head? = some 45
  let s := if neg then s.tail else s
  let int : Option (PyStr × PyStr) :=
    match s with
    | 48 :: r => some ([48], r)
    | c :: r => if isDigit c then some (c :: r.takeWhile isDigit, r.dropWhile isDigit) else none
    | [] => none
  int.map fun p =>
    let f := scanFrac p.2
    let e := scanExp f.2
    (⟨neg, p.1, f.1, e.1⟩, e.2)

/-- `int(text)` or `float(text)` ; none is the `ValueError` of an `int` too long to convert. -/
def ofNumLit (l : NumLit) : Option (Json F) :=
  if l.isFloat then
    match PyFloat.ofLit l with
    | some x => some (.float x)
    | none => some (.inf l.neg)
  else if l.int.length ≤ maxStrDigits then some (.int l.toInt)
  else none

/-- The constants, `parse_constant` apart from the three of JSON. -/
def scanConstant (constants : Bool) (s : PyStr) : Option (Json F × PyStr) :=
  match stripPrefix (py "null") s with
  | some r => some (.null, r)
  | none =>
  match stripPrefix (py "true") s with
  | some r => some (.bool true, r)
  | none =>
  match stripPrefix (py "false") s with
  | some r => some (.bool false, r)
  | none =>
  match stripPrefix (py "NaN") s with
  | some r => if constants then some (.nan, r) else none
  | none =>
  match stripPrefix (py "Infinity") s with
  | some r => if constants then some (.inf false, r) else none
  | none =>
  match stripPrefix (py "-Infinity") s with
  | some r => if constants then some (.inf true, r) else none
  | none =>
    match scanNumber s with
    | some (l, r) => (ofNumLit l).map (·, r)
    | none => none

/-- The text after the whitespace at its start. -/
def skipWs (s : PyStr) : PyStr := s.dropWhile isWs

mutual

/-- `scan_once` : the value at the start of the text. `fuel` bounds the nested calls, and a
text never takes more of them than it has characters. -/
def scanValue (constants : Bool) : ℕ → PyStr → Option (Json F × PyStr)
  | 0, _ => none
  | _ + 1, [] => none
  | n + 1, c :: r =>
    if c = 34 then (scanString r).map fun p => (.str p.1, p.2)
    else if c = 91 then
      if (skipWs r).head? = some 93 then some (.arr [], (skipWs r).tail)
      else (scanItems constants n (skipWs r)).map fun p => (.arr p.1, p.2)
    else if c = 123 then
      if (skipWs r).head? = some 125 then some (.obj [], (skipWs r).tail)
      else (scanMembers constants n (skipWs r)).map fun p => (.obj (Dict.ofPairs p.1), p.2)
    else scanConstant constants (c :: r)

/-- The items of an array, up to its bracket. -/
def scanItems (constants : Bool) : ℕ → PyStr → Option (List (Json F) × PyStr)
  | 0, _ => none
  | n + 1, s =>
    match scanValue constants n s with
    | none => none
    | some (x, r) =>
      match skipWs r with
      | 93 :: r => some ([x], r)
      | 44 :: r => (scanItems constants n (skipWs r)).map fun p => (x :: p.1, p.2)
      | _ => none

/-- The members of an object, up to its brace, as pairs in the order of the text. -/
def scanMembers (constants : Bool) : ℕ → PyStr → Option (List (PyStr × Json F) × PyStr)
  | 0, _ => none
  | n + 1, s =>
    match s with
    | 34 :: r =>
      match scanString r with
      | none => none
      | some (k, r) =>
        match skipWs r with
        | 58 :: r =>
          match scanValue constants n (skipWs r) with
          | none => none
          | some (v, r) =>
            match skipWs r with
            | 125 :: r => some ([(k, v)], r)
            | 44 :: r => (scanMembers constants n (skipWs r)).map fun p => ((k, v) :: p.1, p.2)
            | _ => none
        | _ => none
    | _ => none

end

/-- `json.loads(s)` ; none where it raises `ValueError`, also for the constants `NaN` and
`Infinity` when `constants` is false and `parse_constant` refuses them. -/
def loads (constants : Bool) (s : PyStr) : Option (Json F) :=
  match scanValue constants (s.length + 1) (skipWs s) with
  | some (j, r) => if skipWs r = [] then some j else none
  | none => none

end Python

import Mathlib
import IcilOrchestrator.JsonRoundTrip
import IcilOrchestrator.NdArray
import IcilOrchestrator.Reader
import IcilOrchestrator.Store

/-!
# The wire format of a served policy

A message is a JSON header frame and one frame for each array, in the order the header
lists them. `encode` is the frames of a message, or its refusal before any of them is
sent; `recv` reads a message frame by frame (`Reader`), the header checked in full before
any array.

A value given as an array is what `np.asarray` makes of it (`Value`), and a mapping's key
any object, known by its `str` when it is not a string (`Key`).
-/

namespace IcilOrchestrator

open Python

namespace Wire

variable {F : Type} [PyFloat F]

/-! ## Limits -/

/-- `PROTOCOL_VERSION`. -/
def protocolVersion : ℤ := 1

/-- `CLIENT_OPS`. -/
def clientOps : List PyStr := [py "hello", py "reset", py "prompt", py "act", py "close"]

/-- `REPLY_OPS`. -/
def replyOps : List PyStr := [py "ok", py "action", py "error"]

/-- `MAX_HEADER_BYTES`. -/
def maxHeaderBytes : ℕ := 4 * 2 ^ 20

/-- `MAX_MESSAGE_BYTES`. -/
def maxMessageBytes : ℕ := 16 * 2 ^ 30

/-- `MAX_ARRAYS`. -/
def maxArrays : ℕ := 1024

/-- `MAX_NDIM`. -/
def maxNdim : ℕ := 32

/-- `DTYPES`, as a test. -/
def isDtype (s : PyStr) : Bool := (plainDtypes.lookup s).isSome

/-- `_HEADER_KEYS`. -/
def headerKeys : List PyStr := [py "protocol", py "op", py "fields", py "arrays"]

/-- `_ARRAY_KEYS`. -/
def arrayKeys : List PyStr := [py "name", py "dtype", py "shape"]

/-! ## What is sent -/

/-- A key of a mapping : a string, or another object with its `str`. -/
inductive Key where
  | str (s : PyStr)
  | other (id : ℕ) (str : PyStr)
deriving DecidableEq

/-- `sorted`'s key, `(not isinstance(n, str), str(n))`, compared. -/
def Key.le : Key → Key → Bool
  | .str s, .str t => strLe s t
  | .str _, .other _ _ => true
  | .other _ _, .str _ => false
  | .other _ s, .other _ t => strLe s t

/-- A `Mapping` : its items in order. -/
structure Mapping (α : Type) where
  items : List (Key × α)
  distinct : (items.map Prod.fst).Nodup

/-- An exception, by the name of its class and its text. -/
structure Raised where
  kind : PyStr
  text : PyStr
deriving DecidableEq

/-- What is given as an array : what `np.shape` says of it and what `np.asarray` makes of
it, or what they raise. -/
structure Value where
  shape : Except Raised (List ℕ)
  asarray : Except Raised NdArray

/-- `WireError`, by the refusal it names. -/
inductive WireError (F : Type) where
  | unknownOp (op : PyStr)
  | fieldKeys (op : PyStr)
  | tooManyArrays (op : PyStr) (n : ℕ)
  | arrayName (op : PyStr) (name : Key)
  | notAnArray (name : PyStr) (why : Raised)
  | dtypeNotSent (name : PyStr) (dtype : Dtype)
  | ndimNotSent (name : PyStr) (ndim : ℕ)
  | notPlain (op : PyStr) (header : Json F)
  | headerLong (op : PyStr) (n : ℕ)
  /-- The frame of an array, or of the header. -/
  | frameLong (array : Option PyStr) (limit : ℕ)
  | malformedHeader (raw : Bytes)
  | notAnObject
  | protocol (found : Json F)
  | headerKeys (found : Dict F)
  | headerOp
  | headerFields
  | headerArrays
  | describes (n : ℕ)
  | description (entry : Json F)
  | describedName (name : Json F)
  | twice (name : PyStr)
  | describedDtype (name : PyStr) (dtype : Json F)
  | describedShape (name : PyStr) (shape : Json F)
  | describedNdim (name : PyStr) (ndim : ℕ)
  | arrayExceeds (name : PyStr) (maxBytes : ℕ)
  | messageExceeds (name : PyStr) (maxBytes : ℕ)
  | wrongLength (name : PyStr) (found : ℕ) (shape : List ℕ) (dtype : PyStr)

/-- What the texts of a `WireError` quote : an excerpt of a value (`reprlib`), the `repr` of
a key, and the texts of a dtype and of the exceptions of `json` and numpy. -/
class WireTexts (F : Type) extends PyRepr F where
  excerpt : Json F → PyStr
  key : Key → PyStr
  dtype : Dtype → PyStr
  dumps : Json F → PyStr
  loads : Bytes → PyStr
  reshape : List ℕ → PyStr

/-- `str` of a list of integers. -/
def shapeText [PyRepr F] (shape : List ℕ) : PyStr :=
  PyRepr.repr (.arr (shape.map fun n : ℕ => .int n) : Json F)

/-- `sorted` of keys, as a list. -/
def sortedKeys (keys : List PyStr) : Json F :=
  .arr ((keys.insertionSort fun s t => strLe s t).map .str)

omit [PyFloat F] in
/-- The text of a `WireError`. -/
def WireError.text [WireTexts F] : WireError F → PyStr
  | .unknownOp op => py "unknown op " ++ PyRepr.repr (.str op : Json F)
  | .fieldKeys op => op ++ py ": fields must be a mapping with string keys"
  | .tooManyArrays op n =>
    op ++ py ": " ++ decimal n ++ py " arrays; a message holds at most " ++ decimal maxArrays
  | .arrayName op name =>
    op ++ py ": array name " ++ WireTexts.key F name ++ py " is not a non-empty string"
  | .notAnArray name why =>
    py "array " ++ PyRepr.repr (.str name : Json F) ++ py " cannot be sent: " ++ why.kind ++
      py ": " ++ why.text
  | .dtypeNotSent name dtype =>
    py "array " ++ PyRepr.repr (.str name : Json F) ++ py ": dtype " ++
      WireTexts.dtype F dtype ++ py " cannot be sent"
  | .ndimNotSent name ndim =>
    py "array " ++ PyRepr.repr (.str name : Json F) ++ py ": " ++ decimal ndim ++
      py " dimensions cannot be sent; at most " ++ decimal maxNdim
  | .notPlain op header => op ++ py ": fields are not plain JSON: " ++ WireTexts.dumps header
  | .headerLong op n =>
    op ++ py ": header of " ++ decimal n ++ py " bytes exceeds " ++ decimal maxHeaderBytes
  | .frameLong array limit =>
    (match array with
      | none => py "header"
      | some name => py "array " ++ WireTexts.excerpt (.str name : Json F)) ++
      py ": frame longer than " ++ decimal limit ++ py " bytes"
  | .malformedHeader raw => py "malformed header: " ++ WireTexts.loads F raw
  | .notAnObject => py "header is not a JSON object"
  | .protocol found =>
    py "protocol " ++ WireTexts.excerpt found ++ py "; this end speaks " ++
      (intLit protocolVersion).text
  | .headerKeys found =>
    py "header keys " ++ WireTexts.excerpt (sortedKeys (found.map Prod.fst) : Json F) ++
      py "; expected " ++ PyRepr.repr (sortedKeys Wire.headerKeys : Json F)
  | .headerOp => py "header op is not a non-empty string"
  | .headerFields => py "header fields is not an object"
  | .headerArrays => py "header arrays is not a list"
  | .describes n =>
    py "header describes " ++ decimal n ++ py " arrays; at most " ++ decimal maxArrays
  | .description entry =>
    py "array description " ++ WireTexts.excerpt entry ++
      py " is not \x7bname, dtype, shape\x7d"
  | .describedName name =>
    py "array name " ++ WireTexts.excerpt name ++ py " is not a non-empty string"
  | .twice name =>
    py "array " ++ WireTexts.excerpt (.str name : Json F) ++ py " is described twice"
  | .describedDtype name dtype =>
    py "array " ++ WireTexts.excerpt (.str name : Json F) ++ py ": dtype " ++
      WireTexts.excerpt dtype ++ py " is not one this format carries"
  | .describedShape name shape =>
    py "array " ++ WireTexts.excerpt (.str name : Json F) ++ py ": shape " ++
      WireTexts.excerpt shape ++ py " is not a shape"
  | .describedNdim name ndim =>
    py "array " ++ WireTexts.excerpt (.str name : Json F) ++ py ": " ++ decimal ndim ++
      py " dimensions; at most " ++ decimal maxNdim
  | .arrayExceeds name maxBytes =>
    py "array " ++ WireTexts.excerpt (.str name : Json F) ++ py " exceeds " ++
      decimal maxBytes ++ py " bytes"
  | .messageExceeds name maxBytes =>
    py "message arrays exceed " ++ decimal maxBytes ++ py " bytes at " ++
      WireTexts.excerpt (.str name : Json F)
  | .wrongLength name found shape dtype =>
    py "array " ++ WireTexts.excerpt (.str name : Json F) ++ py ": " ++ decimal found ++
      py " bytes for a " ++ shapeText (F := F) shape ++ py " " ++ dtype

/-- `_checked`. -/
def checked (name : PyStr) (value : Value) : Except (WireError F) NdArray :=
  match value.asarray with
  | .error why => .error (.notAnArray name why)
  | .ok array =>
    if !isDtype array.dtype.little || array.dtype.hasobject then
      .error (.dtypeNotSent name array.dtype)
    else if array.shape.length > maxNdim then .error (.ndimNotSent name array.shape.length)
    else .ok array.astypeLittle

/-- One turn of the loop over the names : the name and the array it describes. -/
def describe (op : PyStr) (p : Key × Value) : Except (WireError F) (PyStr × NdArray) :=
  match p.1 with
  | .str (c :: s) => (checked (c :: s) p.2).map ((c :: s), ·)
  | name => .error (.arrayName op name)

/-- The loop over the names. -/
def describeAll (op : PyStr) : List (Key × Value) → Except (WireError F) (List (PyStr × NdArray))
  | [] => .ok []
  | p :: ps =>
    match describe op p with
    | .error e => .error e
    | .ok d => (describeAll op ps).map (d :: ·)

/-- An entry of the header's `arrays`. -/
def description (p : PyStr × NdArray) : Json F :=
  .obj [(py "name", .str p.1), (py "dtype", .str p.2.dtype.little),
    (py "shape", .arr (p.2.shape.map fun n : ℕ => .int n))]

/-- The header. -/
def header (op : PyStr) (fields : Dict F) (described : List (PyStr × NdArray)) : Json F :=
  .obj [(py "protocol", .int protocolVersion), (py "op", .str op), (py "fields", .obj fields),
    (py "arrays", .arr (described.map description))]

/-- `dict(fields)`, where every key is a string. -/
def stringKeyed : List (Key × Json F) → Option (Dict F)
  | [] => some []
  | (.str k, v) :: items => (stringKeyed items).map ((k, v) :: ·)
  | (.other _ _, _) :: _ => none

/-- `json.dumps(header, separators=(",", ":"), allow_nan=False).encode()`. -/
def dumpHeader (j : Json F) : Option Bytes :=
  if j.dumpable false then some (encodeUtf8 (print compact 0 j)) else none

/-- The arrays in the order they are sent in. -/
def sortedArrays (arrays : Mapping Value) : List (Key × Value) :=
  arrays.items.insertionSort fun p q => p.1.le q.1

/-- `encode`. -/
def encode (op : PyStr) (fields : Mapping (Json F)) (arrays : Mapping Value) :
    Except (WireError F) (List Bytes) :=
  if op ∉ clientOps ∧ op ∉ replyOps then .error (.unknownOp op)
  else match stringKeyed fields.items with
  | none => .error (.fieldKeys op)
  | some fields =>
    if arrays.items.length > maxArrays then .error (.tooManyArrays op arrays.items.length)
    else match describeAll op (sortedArrays arrays) with
    | .error e => .error e
    | .ok described =>
      match dumpHeader (header op fields described) with
      | none => .error (.notPlain op (header op fields described))
      | some encoded =>
        if encoded.length > maxHeaderBytes then .error (.headerLong op encoded.length)
        else .ok (encoded :: described.map fun p => p.2.tobytes)

/-! ## What is received -/

/-- A message : its op, its fields and its arrays. -/
structure Message (F : Type) where
  op : PyStr
  fields : Dict F
  arrays : List (PyStr × NdArray)

/-- What reading a message raises, a connection that is gone apart. -/
inductive RecvError (F : Type) where
  | wire (e : WireError F)
  /-- The `ValueError` of `reshape`. -/
  | reshape (shape : List ℕ)

omit [PyFloat F] in
/-- What the server says of it. -/
def RecvError.text [WireTexts F] : RecvError F → PyStr
  | .wire e => e.text
  | .reshape shape => py "ValueError: " ++ WireTexts.reshape F shape

/-- `_frame`. -/
def frame {α : Type} (limit : ℕ) (array : Option PyStr) (k : Bytes → Reader (RecvError F) α) :
    Reader (RecvError F) α :=
  .frame (max limit 1) (.wire (.frameLong array limit)) k

/-- `raise WireError`. -/
def refuse {α : Type} (e : WireError F) : Reader (RecvError F) α := .done (.error (.wire e))

/-- `set(d) == set(keys)`. -/
def keysAre (d : Dict F) (keys : List PyStr) : Bool :=
  d.all (fun p => keys.contains p.1) && keys.all fun k => d.mem k

/-- A dimension : `isinstance(d, int) and not isinstance(d, bool) and d >= 0`. -/
def dimension : Json F → Option ℕ
  | .int z => if 0 ≤ z then some z.toNat else none
  | _ => none

/-- A shape. -/
def dimensions : List (Json F) → Option (List ℕ)
  | [] => some []
  | d :: ds =>
    match dimension d with
    | none => none
    | some n => (dimensions ds).map (n :: ·)

/-- An entry of `specs` : a name, a dtype and a shape. -/
structure ArraySpec where
  name : PyStr
  dtype : Dtype
  shape : List ℕ

/-- The bytes of an array. -/
def ArraySpec.nbytes (s : ArraySpec) : ℕ := s.shape.prod * s.dtype.itemsize

/-- One turn of the loop over `described` : the entry, given the names seen and the bytes
so far. -/
def arraySpec (maxBytes : ℕ) (seen : List PyStr) (total : ℕ) (entry : Json F) :
    Except (WireError F) ArraySpec :=
  match entry with
  | .obj d =>
    if !keysAre d arrayKeys then .error (.description entry)
    else match Dict.get d (py "name") with
    | .str (c :: s) =>
      if (c :: s) ∈ seen then .error (.twice (c :: s))
      else match Dict.get d (py "dtype") with
      | .str t =>
        match Dtype.ofStr t with
        | none => .error (.describedDtype (c :: s) (.str t))
        | some dtype =>
          match Dict.get d (py "shape") with
          | .arr ds =>
            match dimensions ds with
            | none => .error (.describedShape (c :: s) (.arr ds))
            | some shape =>
              if shape.length > maxNdim then .error (.describedNdim (c :: s) shape.length)
              else if reckoned shape dtype.itemsize > maxBytes then
                .error (.arrayExceeds (c :: s) maxBytes)
              else if total + shape.prod * dtype.itemsize > maxBytes then
                .error (.messageExceeds (c :: s) maxBytes)
              else .ok ⟨c :: s, dtype, shape⟩
          | j => .error (.describedShape (c :: s) j)
      | j => .error (.describedDtype (c :: s) j)
    | j => .error (.describedName j)
  | j => .error (.description j)

/-- The loop over `described`. -/
def arraySpecs (maxBytes : ℕ) : List PyStr → ℕ → List (Json F) →
    Except (WireError F) (List ArraySpec)
  | _, _, [] => .ok []
  | seen, total, entry :: entries =>
    match arraySpec maxBytes seen total entry with
    | .error e => .error e
    | .ok s => (arraySpecs maxBytes (seen ++ [s.name]) (total + s.nbytes) entries).map (s :: ·)

/-- The frame of an array. -/
def recvArray (s : ArraySpec) : Reader (RecvError F) (PyStr × NdArray) :=
  frame s.nbytes (some s.name) fun payload =>
    if h : payload.length = s.nbytes then
      match NdArray.frombuffer payload s.dtype s.shape h with
      | none => .done (.error (.reshape s.shape))
      | some array => .done (.ok (s.name, array))
    else refuse (.wrongLength s.name payload.length s.shape s.dtype.little)

/-- The checks of a header that is an object, and what it announces. -/
def checkHeader (maxBytes : ℕ) (d : Dict F) :
    Except (WireError F) (PyStr × Dict F × List ArraySpec) :=
  match Dict.get d (py "protocol") with
  | .int z =>
    if z ≠ protocolVersion then .error (.protocol (.int z))
    else if !keysAre d headerKeys then .error (.headerKeys d)
    else match Dict.get d (py "op") with
    | .str (c :: s) =>
      match Dict.get d (py "fields") with
      | .obj fields =>
        match Dict.get d (py "arrays") with
        | .arr described =>
          if described.length > maxArrays then .error (.describes described.length)
          else (arraySpecs maxBytes [] 0 described).map ((c :: s), fields, ·)
        | _ => .error .headerArrays
      | _ => .error .headerFields
    | _ => .error .headerOp
  | j => .error (.protocol j)

/-- `recv`. -/
def recv (maxBytes : ℕ) : Reader (RecvError F) (Message F) :=
  frame maxHeaderBytes none fun raw =>
    match (decodeUtf8 raw).bind (loads false) with
    | none => refuse (.malformedHeader raw)
    | some (.obj d) =>
      match checkHeader maxBytes d with
      | .error e => refuse e
      | .ok (op, fields, specs) =>
        (Reader.each recvArray specs).bind fun arrays => .done (.ok ⟨op, fields, arrays⟩)
    | some _ => refuse .notAnObject

end Wire

end IcilOrchestrator

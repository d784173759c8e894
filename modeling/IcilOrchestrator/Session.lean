import Mathlib
import IcilOrchestrator.Wire

/-!
# The server of a policy

`Session.dispatch` is what a session does with one message, as a program (`Handler`) of
calls of the policy and of replies : a call may return, raise an exception that is
answered, or end in another way that ends the process, and may take forever. A handler
ends by taking the next message, with the policy that has been built if one has, or by
ending the session.

The policy is the competitor's code : what it returns, raises or prints is any value of
its type.
-/

namespace IcilOrchestrator

open Python Wire

/-- `ACTION_TYPES`. -/
def actionTypes : List PyStr := [py "qpos", py "ee"]

namespace Session

variable {F : Type} [PyFloat F] [WireTexts F]

/-- `MESSAGE_CHARS`. -/
def messageChars : ℕ := 4000

/-- Named arrays, as they were received. -/
abbrev Arrays := List (PyStr × NdArray)

/-! ## The policy -/

/-- What `build_policy` finds of the object it has constructed : its `action_type`, and
which of its methods can be called. -/
structure Built (F : Type) where
  actionType : Json F
  reset : Bool
  setDemonstration : Bool
  act : Bool
  close : Bool

/-- A policy that is served. -/
structure Policy (F : Type) where
  actionType : Json F
  closes : Bool

/-- What `act` returns : a mapping, or an object of another type. -/
inductive Acted where
  | mapping (m : Mapping Value)
  | other (type : PyStr)

/-- How a call of the policy's ends. -/
inductive HookEnd (α : Type) where
  | returned (a : α)
  /-- An `Exception` or a `SystemExit`. -/
  | raised (e : Raised)
  /-- An exception of another kind, or one that cannot be answered. -/
  | escaped

/-- The calls of a policy that return nothing. -/
inductive Hook (F : Type) where
  | reset (seed : ℤ)
  | setDemonstration (arrays : Arrays) (info : Dict F)
  | close

/-- How a session ends. -/
inductive End where
  | closed
  | hungUp
  | idle
  | notBuilt
  | malformed
  | escaped
  | killed
deriving DecidableEq

/-- The exit status; none is the signal's. -/
def End.status : End → Option ℕ
  | .closed => some 0
  | .hungUp => some 0
  | .idle => some 0
  | .notBuilt => some 1
  | .malformed => some 1
  | .escaped => some 1
  | .killed => none

/-! ## What a session does with a message -/

/-- What is left to do with a message. -/
inductive Handler (F : Type) where
  | build (k : HookEnd (Built F) → Handler F)
  | call (h : Hook F) (k : HookEnd Unit → Handler F)
  | act (observation : Arrays) (k : HookEnd Acted → Handler F)
  /-- `_log_tail()`. -/
  | tail (k : PyStr → Handler F)
  /-- `_send_frames`, and what follows a connection lost on the way. -/
  | send (frames : List Bytes) (lost : End) (k : Handler F)
  /-- The next message is awaited, by a session with this policy. -/
  | next (policy : Option (Policy F))
  | stop (e : End)

/-- Fields with the given items. -/
def fieldsOf (d : Dict F) (h : (d.map Prod.fst).Nodup) : Mapping (Json F) where
  items := d.map fun p => (.str p.1, p.2)
  distinct := by
    have hinj : Function.Injective Key.str := fun s t hst => Key.str.inj hst
    have := h.map hinj
    rw [List.map_map] at this ⊢
    exact this

/-- No arrays. -/
def noArrays : Mapping Value := ⟨[], by simp⟩

/-- `_send`; a message that cannot be sent is an exception nobody answers. -/
def send (op : PyStr) (fields : Mapping (Json F)) (lost : End) (k : Handler F) : Handler F :=
  match encode op fields noArrays with
  | .ok frames => .send frames lost k
  | .error _ => .stop .escaped

/-- A message of at most `MESSAGE_CHARS`. -/
def excerptOf (message : PyStr) : PyStr :=
  if message.length > messageChars then message.take messageChars ++ py " [...]" else message

/-- The fields of an error reply. -/
def errorFields (kind message tail : PyStr) : Dict F :=
  [(py "type", .str kind), (py "message", .str (excerptOf message)), (py "log_tail", .str tail)]

/-- `_error`. -/
def error (kind message : PyStr) (k : Handler F) : Handler F :=
  .tail fun tail =>
    send (py "error") (fieldsOf (errorFields kind message tail) (by simp [errorFields])) .hungUp k

/-- `_call` : a call of the policy, whose exceptions are answered. -/
def call {α : Type} (run : (HookEnd α → Handler F) → Handler F) (op : PyStr)
    (failed : Handler F) (k : α → Handler F) : Handler F :=
  run fun
    | .returned a => k a
    | .raised e => error e.kind (op ++ py ": " ++ e.text) failed
    | .escaped => .stop .escaped

/-- `build_policy`'s checks of the object it has constructed. -/
def problems (b : Built F) : List PyStr :=
  (match b.actionType with
    | .str s => if s ∈ actionTypes then [] else [py "action_type is " ++
        PyRepr.repr b.actionType ++ py ", not one of qpos, ee"]
    | _ => [py "action_type is " ++ PyRepr.repr b.actionType ++ py ", not one of qpos, ee"]) ++
  (if b.reset then [] else [py "it has no reset() method"]) ++
  (if b.setDemonstration then [] else [py "it has no set_demonstration() method"]) ++
  (if b.act then [] else [py "it has no act() method"])

/-- `build_policy`, of the policy the manifest names. -/
def buildPolicy (name : PyStr) (b : Built F) : Except PyStr (Policy F) :=
  if problems b = [] then .ok ⟨b.actionType, b.close⟩
  else .error (name ++ py " is not a Policy: " ++ List.intercalate (py "; ") (problems b))

/-- The fields of the reply to `hello`. -/
def greeting (name : PyStr) (p : Policy F) : Dict F :=
  [(py "protocol", .int protocolVersion), (py "action_type", p.actionType),
    (py "policy", .str name)]

/-- The reply to `hello`. -/
def greet (name : PyStr) (p : Policy F) : Handler F :=
  send (py "ok") (fieldsOf (greeting name p) (by simp [greeting])) .hungUp (.next (some p))

/-- `_op_hello`. -/
def opHello (name : PyStr) : Option (Policy F) → Handler F
  | some p => greet name p
  | none => call .build (py "hello") (.stop .notBuilt) fun b =>
    match buildPolicy name b with
    | .ok p => greet name p
    | .error why => error (py "TypeError") (py "hello: " ++ why) (.stop .notBuilt)

/-- `_send("ok")`. -/
def ok (lost : End) (k : Handler F) : Handler F := send (py "ok") (fieldsOf [] (by simp)) lost k

/-- `_op_reset`. -/
def opReset (p : Policy F) (fields : Dict F) : Handler F :=
  match Dict.get fields (py "seed") with
  | .int seed =>
    call (.call (.reset seed)) (py "reset") (.next (some p)) fun _ => ok .hungUp (.next (some p))
  | seed => error (py "WireError") (py "reset: seed must be an integer, not " ++ PyRepr.repr seed)
      (.next (some p))

/-- `type(x).__name__`. -/
def typeName : Json F → PyStr
  | .null => py "NoneType"
  | .bool _ => py "bool"
  | .int _ => py "int"
  | .float _ => py "float"
  | .inf _ => py "float"
  | .nan => py "float"
  | .str _ => py "str"
  | .arr _ => py "list"
  | .obj _ => py "dict"

/-- `_op_prompt`. -/
def opPrompt (p : Policy F) (fields : Dict F) (arrays : Arrays) : Handler F :=
  match (Dict.get? fields (py "info")).getD (.obj []) with
  | .obj info =>
    call (.call (.setDemonstration arrays info)) (py "prompt") (.next (some p)) fun _ =>
      ok .hungUp (.next (some p))
  | info => error (py "WireError") (py "prompt: info must be an object, not " ++ typeName info)
      (.next (some p))

/-- `str(key)`. -/
def keyText : Key → PyStr
  | .str s => s
  | .other _ s => s

/-- `str` of a tuple of integers. -/
def tupleText : List ℕ → PyStr
  | [] => py "()"
  | [n] => py "(" ++ decimal n ++ py ",)"
  | ns => py "(" ++ List.intercalate (py ", ") (ns.map decimal) ++ py ")"

/-- Whether an action may have this shape. -/
def isActionShape (shape : List ℕ) : Bool :=
  (shape.length = 1 || shape.length = 2) && !shape.contains 0

/-- `checked_action`. -/
def checkedAction : Acted → Except Raised (Mapping Value)
  | .other type => .error ⟨py "TypeError", py "act() returned " ++ type ++
      py ", not a mapping of named arrays"⟩
  | .mapping m =>
    match m.items.lookup (.str (py "action")) with
    | none => .error ⟨py "ValueError", py "act() returned no 'action', only " ++
        PyRepr.repr (sortedKeys (m.items.map fun p => keyText p.1) : Json F)⟩
    | some v =>
      match v.shape with
      | .error e => .error e
      | .ok shape =>
        if isActionShape shape then .ok m
        else .error ⟨py "ValueError", py "act() returned an 'action' of shape " ++
          tupleText shape ++ py ", not (A,) or (H, A)"⟩

/-- `_act_frames`, after the policy's `act`. -/
def actFrames (result : Acted) : Except Raised (List Bytes) :=
  match checkedAction (F := F) result with
  | .error e => .error e
  | .ok m =>
    match encode (F := F) (py "action") (fieldsOf [] (by simp)) m with
    | .ok frames => .ok frames
    | .error e => .error ⟨py "WireError", e.text⟩

/-- `_op_act`. -/
def opAct (p : Policy F) (arrays : Arrays) : Handler F :=
  call (.act arrays) (py "act") (.next (some p)) fun result =>
    match actFrames (F := F) result with
    | .ok frames => .send frames .hungUp (.next (some p))
    | .error e => error e.kind (py "act: " ++ e.text) (.next (some p))

/-- `_op_close`. -/
def opClose (policy : Option (Policy F)) : Handler F :=
  if policy.any (fun p => p.closes) then
    call (.call .close) (py "close") (.stop .closed) fun _ => ok .closed (.stop .closed)
  else ok .closed (.stop .closed)

/-- `_dispatch`. -/
def dispatch (name : PyStr) (policy : Option (Policy F)) (m : Message F) : Handler F :=
  if m.op ∉ clientOps then
    error (py "WireError") (py "unknown op " ++ PyRepr.repr (.str m.op : Json F) ++
      py "; a client sends hello, reset, prompt, act, close") (.next policy)
  else if m.op = py "hello" then opHello name policy
  else if m.op = py "close" then opClose policy
  else match policy with
  | none => error (py "WireError") (m.op ++ py " before hello") (.next none)
  | some p =>
    if m.op = py "reset" then opReset p m.fields
    else if m.op = py "prompt" then opPrompt p m.fields m.arrays
    else opAct p m.arrays

/-- What `run` does with a message that cannot be read. -/
def refuse (e : RecvError F) : Handler F :=
  error (py "WireError") e.text (.stop .malformed)

-- A reply's text is never evaluated to reason about the handler that sends it.
attribute [irreducible] send

end Session

end IcilOrchestrator

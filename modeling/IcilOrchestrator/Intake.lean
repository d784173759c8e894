import Mathlib
import IcilOrchestrator.Json

/-!
# The submission intake

One connection of the intake : requests are read off it one after another, each answered, until
the connection is closed. `Conn` is what has arrived and not been taken, and what is still to
arrive. `handleOneRequest` takes a head, has it parsed, answers it and takes what the answer takes
of a body; `serve` is the requests of a connection.

`parse_request` of `http.server` is given (`Turn.parse`), as are the intake's own answers once a
request is admitted (`Turn.health`, `Turn.submit`), and whether a reply could be written.
-/

namespace Python

/-! ## A connection -/

/-- What one `recv` comes to : bytes, `TimeoutError`, or another `OSError`. -/
inductive Arrival where
  | chunk (b : UInt8) (bs : Bytes)
  | timeout
  | fault
deriving DecidableEq

/-- The bytes that arrive. -/
def Arrival.bytes : Arrival → Bytes
  | .chunk b bs => b :: bs
  | .timeout => []
  | .fault => []

/-- Why a read fails. -/
inductive ReadError where
  | timeout
  | fault
deriving DecidableEq

/-- A connection : bytes received and not yet taken, and what is to arrive before its end. -/
structure Conn where
  pending : Bytes
  arriving : List Arrival
deriving DecidableEq

namespace Conn

/-- The bytes that are still to be taken. -/
def stream (c : Conn) : Bytes := c.pending ++ c.arriving.flatMap Arrival.bytes

/-- `_take` : `n` bytes, fewer when the client closes first. -/
def takeFrom (n : ℕ) (pending : Bytes) : List Arrival → Except ReadError Bytes × Conn
  | [] => (.ok (pending.take n), ⟨pending.drop n, []⟩)
  | a :: as =>
    if n ≤ pending.length then (.ok (pending.take n), ⟨pending.drop n, a :: as⟩) else
    match a with
    | .chunk b bs => takeFrom n (pending ++ b :: bs) as
    | .timeout => (.error .timeout, ⟨pending, as⟩)
    | .fault => (.error .fault, ⟨pending, as⟩)

def take (n : ℕ) (c : Conn) : Except ReadError Bytes × Conn := takeFrom n c.pending c.arriving

theorem takeFrom_ok {n : ℕ} {pending : Bytes} {as : List Arrival} {raw : Bytes} {c : Conn}
    (h : takeFrom n pending as = (.ok raw, c)) :
    raw.length ≤ n ∧ pending ++ as.flatMap Arrival.bytes = raw ++ c.stream := by
  induction as generalizing pending with
  | nil =>
    simp only [takeFrom, Prod.mk.injEq, Except.ok.injEq] at h
    obtain ⟨rfl, rfl⟩ := h
    refine ⟨List.length_take_le _ _, ?_⟩
    simp [stream]
  | cons a as ih =>
    simp only [takeFrom] at h
    split_ifs at h with hn
    · simp only [Prod.mk.injEq, Except.ok.injEq] at h
      obtain ⟨rfl, rfl⟩ := h
      refine ⟨List.length_take_le _ _, ?_⟩
      rw [stream, ← List.append_assoc, List.take_append_drop]
    · cases a with
      | chunk b bs =>
        obtain ⟨hr, hs⟩ := ih h
        refine ⟨hr, ?_⟩
        rw [← hs, List.flatMap_cons, Arrival.bytes, List.append_assoc]
      | timeout => simp at h
      | fault => simp at h

/-- What is taken are the first bytes of the stream, and the rest is left. -/
theorem take_ok {n : ℕ} {c c' : Conn} {raw : Bytes} (h : c.take n = (.ok raw, c')) :
    raw.length ≤ n ∧ c.stream = raw ++ c'.stream := takeFrom_ok h

end Conn

/-! ## A request's head -/

/-- Where a match of `HEAD_END`, `\r?\n\r?\n`, that starts here ends. -/
def headEndAt : Bytes → Option ℕ
  | 13 :: 10 :: 13 :: 10 :: _ => some 4
  | 13 :: 10 :: 10 :: _ => some 3
  | 10 :: 13 :: 10 :: _ => some 3
  | 10 :: 10 :: _ => some 2
  | _ => none

/-- `HEAD_END.search(…).end()`. -/
def headEnd : Bytes → Option ℕ
  | [] => none
  | b :: bs => headEndAt (b :: bs) <|> (headEnd bs).map (· + 1)

/-- What `_read_head` comes to. -/
inductive HeadRead where
  | head (raw : Bytes)
  /-- The connection closed before the head ended. -/
  | closed
  /-- The head is over the bound. -/
  | long
  | failed (e : ReadError)
deriving DecidableEq

/-- The bytes up to a match of `HEAD_END` that ends within `limit` bytes are the head. -/
def headOf (limit : ℕ) (pending : Bytes) : Option HeadRead :=
  match headEnd pending with
  | some n => some (if n ≤ limit then .head (pending.take n) else .long)
  | none => if limit ≤ pending.length then some .long else none

namespace Conn

/-- `_read_head`, within `limit` bytes. -/
def readHeadFrom (limit : ℕ) (pending : Bytes) : List Arrival → HeadRead × Conn
  | [] =>
    match headOf limit pending with
    | some (.head raw) => (.head raw, ⟨pending.drop raw.length, []⟩)
    | some h => (h, ⟨pending, []⟩)
    | none => (.closed, ⟨pending, []⟩)
  | a :: as =>
    match headOf limit pending, a with
    | some (.head raw), a => (.head raw, ⟨pending.drop raw.length, a :: as⟩)
    | some h, a => (h, ⟨pending, a :: as⟩)
    | none, .chunk b bs => readHeadFrom limit (pending ++ b :: bs) as
    | none, .timeout => (.failed .timeout, ⟨pending, as⟩)
    | none, .fault => (.failed .fault, ⟨pending, as⟩)

def readHead (limit : ℕ) (c : Conn) : HeadRead × Conn := readHeadFrom limit c.pending c.arriving

end Conn

/-! ## Text -/

/-- `str.isspace` of a character. -/
def isStrSpace (c : ℕ) : Bool :=
  decide (9 ≤ c ∧ c ≤ 13) || decide (28 ≤ c ∧ c ≤ 32) || decide (0x2000 ≤ c ∧ c ≤ 0x200A) ||
    [0x85, 0xA0, 0x1680, 0x2028, 0x2029, 0x202F, 0x205F, 0x3000].contains c

/-- `str.strip`. -/
def strip (s : PyStr) : PyStr :=
  ((s.dropWhile isStrSpace).reverse.dropWhile isStrSpace).reverse

/-- `str.lower` of a character, where that is ASCII. -/
def asciiLower (c : ℕ) : ℕ := if 65 ≤ c ∧ c ≤ 90 then c + 32 else c

end Python

namespace IcilOrchestrator

open Python

namespace Intake

variable {F : Type}

/-! ## Names and bounds -/

/-- `HEALTH_PATH`. -/
def healthPath : PyStr := py "/admin/health"

/-- `SUBMIT_PATH`. -/
def submitPath : PyStr := py "/admin/submissions"

/-- `MAX_BODY_BYTES`. -/
def maxBodyBytes : ℕ := 8 * 1024

/-- `DISCARD_BYTES`. -/
def discardBytes : ℕ := 64 * 1024

/-- `MAX_HEAD_BYTES`. -/
def maxHeadBytes : ℕ := 16 * 1024

/-- `CONTENT_LENGTH_RE.fullmatch`, `[0-9]{1,16}`. -/
def isLength (v : PyStr) : Bool := v ≠ [] && decide (v.length ≤ 16) && v.all isDigit

/-- The methods with a `do_…` of their own. -/
def methods : List PyStr := [py "GET", py "POST", py "PUT", py "PATCH", py "DELETE"]

/-- `routes`. -/
def routes : List (PyStr × PyStr) := [(healthPath, py "GET"), (submitPath, py "POST")]

/-! ## Requests and replies -/

/-- A request as `parse_request` leaves it : `close` is its `close_connection`. -/
structure Request where
  command : PyStr
  path : PyStr
  headers : List (PyStr × PyStr)
  close : Bool
deriving DecidableEq

namespace Request

/-- `headers.get_all(name)`, of an ASCII name. -/
def getAll (r : Request) (name : PyStr) : List PyStr :=
  (r.headers.filter fun h => h.1.map asciiLower == name.map asciiLower).map Prod.snd

/-- The values of `Content-Length`. -/
def lengths (r : Request) : List PyStr := r.getAll (py "Content-Length")

/-- `"Transfer-Encoding" in headers`. -/
def chunked (r : Request) : Bool := !(r.getAll (py "Transfer-Encoding")).isEmpty

end Request

/-- `Refused`. -/
structure Refused where
  status : ℕ
  error : PyStr
  field : Option PyStr
  headers : List (PyStr × PyStr)

/-- `Refused.body`. -/
def Refused.body (e : Refused) : Dict F :=
  [(py "ok", .bool false), (py "error", .str e.error)] ++
    match e.field with
    | some (c :: f) => [(py "field", .str (c :: f))]
    | _ => []

/-- What `_reply` is given. -/
structure Reply (F : Type) where
  status : ℕ
  body : Dict F
  headers : List (PyStr × PyStr)
  close : Bool

/-- What a call of the server comes to : a body, a `Refused`, or another exception. -/
inductive Outcome (F : Type) where
  | answered (body : Dict F)
  | refused (e : Refused)
  | failed

/-- The parts of the server that no request changes : whether a header is the token, and what
`json.loads` with its hooks makes of a body. -/
structure Server (F : Type) where
  authorized : PyStr → Bool
  loads : Bytes → Except Refused (Json F)

/-- What is given for one request : `parse_request`, which returns no request when it has closed
the connection, what the server answers, and whether the reply was written. -/
structure Turn (F : Type) where
  parse : Bytes → Option Request
  health : Outcome F
  submit : Json F → Outcome F
  replied : Bool

/-! ## One request -/

/-- A request's handling so far : the connection, `_body_read`, and the bytes taken of the body. -/
structure Reading where
  conn : Conn
  bodyRead : Bool
  body : Bytes

/-- `_read_json`. -/
def readJson (s : Server F) (r : Request) (c : Conn) : Except Refused (Json F) × Reading :=
  let refuse (status : ℕ) (error : PyStr) (rd : Reading) :=
    (.error ⟨status, error, some (py "body"), []⟩, rd)
  if r.chunked then
    refuse 411 (py "A chunked body is refused; send Content-Length.") ⟨c, false, []⟩
  else
    match r.lengths with
    | [] => refuse 411 (py "Content-Length is required.") ⟨c, false, []⟩
    | [v] =>
      if isLength (strip v) then
        let length := digitsVal (strip v)
        if maxBodyBytes < length then
          refuse 413 (py "The body is " ++ decimal length ++ py " bytes; a submission is at most " ++
            decimal maxBodyBytes ++ py ".") ⟨c, false, []⟩
        else
          match c.take length with
          | (.error .timeout, c') =>
            refuse 408 (py "The body did not arrive in time.") ⟨c', true, []⟩
          | (.error .fault, c') =>
            refuse 400 (py "The connection failed before the body arrived.") ⟨c', true, []⟩
          | (.ok raw, c') =>
            if raw.length ≠ length then
              refuse 400 (py "The body ended before its Content-Length.") ⟨c', true, raw⟩
            else (s.loads raw, ⟨c', true, raw⟩)
      else refuse 400 (py "Content-Length must be one decimal number.") ⟨c, false, []⟩
    | _ => refuse 400 (py "Content-Length must be one decimal number.") ⟨c, false, []⟩

/-- Whether `_answer` sees a body on a request for the health route. -/
def sentBody (r : Request) : Bool :=
  r.chunked || !([[], py "0"].contains (strip (r.lengths.head?.getD (py "0"))))

/-- Why `_answer` raises. -/
inductive Failed where
  | refused (e : Refused)
  | failed

/-- A call of the server, answered 200. -/
def Outcome.ok (close : Bool) : Outcome F → Except Failed (Reply F)
  | .answered body => .ok ⟨200, body, [], close⟩
  | .refused e => .error (.refused e)
  | .failed => .error .failed

/-- Whether `_answer` finds the bearer token : exactly one `Authorization`, which is the token. -/
def admits (s : Server F) (r : Request) : Bool :=
  match r.getAll (py "Authorization") with
  | [v] => s.authorized v
  | _ => false

theorem admits_iff {s : Server F} {r : Request} :
    admits s r = true ↔ ∃ v, r.getAll (py "Authorization") = [v] ∧ s.authorized v = true := by
  unfold admits
  split
  · rename_i v hv
    simp [hv]
  · rename_i hne
    exact ⟨by simp, fun ⟨v, hv, _⟩ => absurd hv (hne v)⟩

/-- `_answer`. -/
def answer (s : Server F) (t : Turn F) (r : Request) (c : Conn) :
    Except Failed (Reply F) × Reading :=
  let refuse (e : Refused) := (.error (.refused e), ⟨c, false, []⟩)
  let path := r.path.takeWhile (· != 63)
  if !admits s r then
    refuse ⟨401, py "The bearer token is missing or wrong.", none,
      [(py "WWW-Authenticate", py "Bearer realm=\"icil-orchestrator\"")]⟩
  else
    match routes.lookup path with
    | none => refuse ⟨404, py "Not found.", none, []⟩
    | some method =>
      if r.command ≠ method then
        refuse ⟨405, path ++ py " takes " ++ method ++ py ".", none, [(py "Allow", method)]⟩
      else if path = healthPath then
        (t.health.ok (sentBody r), ⟨c, false, []⟩)
      else
        match readJson s r c with
        | (.ok j, rd) => ((t.submit j).ok false, rd)
        | (.error e, rd) => (.error (.refused e), rd)

/-- `_discard_body`. -/
def discardBody (r : Request) (rd : Reading) : Reading :=
  if rd.bodyRead || r.chunked then rd
  else
    let length := strip (r.lengths.head?.getD [])
    if !isLength length || decide (discardBytes < digitsVal length) then rd
    else
      match rd.conn.take (digitsVal length) with
      | (.ok raw, c') => ⟨c', true, raw⟩
      | (.error _, c') => ⟨c', true, []⟩

/-- `_handle`, up to its reply. -/
def handle (s : Server F) (t : Turn F) (r : Request) (c : Conn) : Reply F × Reading :=
  match answer s t r c with
  | (.ok reply, rd) => (reply, rd)
  | (.error (.refused e), rd) => (⟨e.status, e.body, e.headers, true⟩, discardBody r rd)
  | (.error .failed, rd) =>
    (⟨500, [(py "ok", .bool false),
      (py "error", .str (py "The intake failed on this request; see its log."))], [], true⟩,
      discardBody r rd)

/-! ## A connection's requests -/

/-- One run of `handle_one_request` : what it took off the stream, and what it made of it. -/
structure Exchange (F : Type) where
  /-- How many bytes of the stream came before. -/
  start : ℕ
  turn : Turn F
  /-- The head, empty where none was within its bound. -/
  head : Bytes
  request : Option Request
  /-- The bytes taken as the request's body. -/
  body : Bytes
  reply : Option (Reply F)
  closed : Bool

/-- `handle_one_request`, once its head has been read. `send_error` closes the connection, as does
a reply that could not be written. -/
def handleHead (s : Server F) (t : Turn F) (start : ℕ) (head : Bytes) (c : Conn) :
    Exchange F × Conn :=
  match t.parse head with
  | none => (⟨start, t, head, none, [], none, true⟩, c)
  | some r =>
    if methods.contains r.command then
      let h := handle s t r c
      (⟨start, t, head, some r, h.2.body, some h.1, r.close || h.1.close || !t.replied⟩, h.2.conn)
    else (⟨start, t, head, some r, [], none, true⟩, c)

/-- A head over its bound is refused. -/
def tooLong (t : Turn F) (start : ℕ) : Exchange F :=
  let e : Refused := ⟨431, py "The request line and headers are over " ++ decimal maxHeadBytes ++
    py " bytes.", none, []⟩
  ⟨start, t, [], none, [], some ⟨e.status, e.body, e.headers, true⟩, true⟩

/-- `handle` of `http.server` : requests until one closes the connection. It is closed without one
when it ends, or fails, before a head does. -/
def serve (s : Server F) : List (Turn F) → ℕ → Conn → List (Exchange F)
  | [], _, _ => []
  | t :: ts, start, c =>
    match c.readHead maxHeadBytes with
    | (.head raw, c') =>
      let x := handleHead s t start raw c'
      x.1 :: if x.1.closed then [] else
        serve s ts (start + raw.length + x.1.body.length) x.2
    | (.long, _) => [tooLong t start]
    | _ => []

end Intake

end IcilOrchestrator

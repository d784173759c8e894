import Mathlib
import IcilOrchestrator.Lines
import IcilOrchestrator.Program
import IcilOrchestrator.Store

/-!
# Writing a store

The state a `Store` object works on (`Files`) : the store on disk, and the paths touched
since the last push, which only the process knows. A file is replaced in one step, as
`atomic_write_text` replaces it; the index is appended to a byte at a time (`appendBytes`),
so that a kill leaves any prefix of a line. A write to a path that the file system refuses,
or that is a folder, raises `OSError` and changes nothing.

`Dir.ShowsIndex` is the index as a list of parts, and what a write makes of it.
-/

namespace IcilOrchestrator

open Python

/-! ## Directories -/

/-- A bound on the parts of a track once a path is written : one more than the path numbers. -/
def partBound (p : Path) : ℕ :=
  let name := p.getD 2 []
  digitsVal ((name.drop 6).take (name.length - 12)) + 1

theorem partBound_indexPartPath (track : PyStr) (part : ℕ) :
    partBound (indexPartPath track part) = part + 1 := by
  have hpre : (py "index-").length = 6 := by decide
  have hpost : (py ".jsonl").length = 6 := by decide
  have hname : (indexPartPath track part).getD 2 [] = py "index-" ++ (pad4 part ++ py ".jsonl") := by
    simp [indexPartPath, trackDir]
  have hlen : (py "index-" ++ (pad4 part ++ py ".jsonl")).length - 12 = (pad4 part).length := by
    simp only [List.length_append, hpre, hpost]
    omega
  have hdrop : (py "index-" ++ (pad4 part ++ py ".jsonl")).drop 6 = pad4 part ++ py ".jsonl" :=
    List.drop_left' hpre
  rw [partBound, hname]
  simp only [hlen, hdrop, List.take_left, digitsVal_pad4]

namespace Dir

/-- The names in a folder of the root, once a path below it is written. -/
def listingAfter (d : Dir) (p : Path) (top : PyStr) : Option (List PyStr) :=
  if p.head? = some top then some (((d.listing top).getD []).insert (p.getD 1 []))
  else d.listing top

/-- The store with a file written. -/
def write (d : Dir) (p : Path) (data : Bytes) : Dir where
  node q := if q = p then .file data else d.node q
  listing := d.listingAfter p
  parts := max d.parts (partBound p)
  finite track part h := by
    have hne : indexPartPath track part ≠ p := by
      rintro rfl
      rw [partBound_indexPartPath] at h
      omega
    rw [if_neg hne]
    exact d.finite track part (by omega)

@[simp] theorem node_write_self (d : Dir) (p : Path) (data : Bytes) :
    (d.write p data).node p = .file data := if_pos rfl

theorem node_write_of_ne (d : Dir) {p q : Path} (h : q ≠ p) (data : Bytes) :
    (d.write p data).node q = d.node q := if_neg h

end Dir

/-- Whether a file can be written there. -/
def Node.writable : Node → Bool
  | .refused => false
  | .folder => false
  | _ => true

/-! ## Acts -/

/-- The files of a store, and `Store.touched`. -/
structure Files where
  dir : Dir
  touched : List Path

/-- A method of `Store`. -/
abbrev StoreProg (α : Type) := Prog Files Unit PyError α

namespace Files

/-- A file written. -/
def put (s : Files) (p : Path) (data : Bytes) : Files := { s with dir := s.dir.write p data }

/-- `Store._touch`. -/
def touch (s : Files) (p : Path) : Files := { s with touched := s.touched.insert p }

@[simp] theorem dir_put (s : Files) (p : Path) (data : Bytes) :
    (s.put p data).dir = s.dir.write p data := rfl

@[simp] theorem touched_put (s : Files) (p : Path) (data : Bytes) :
    (s.put p data).touched = s.touched := rfl

@[simp] theorem dir_touch (s : Files) (p : Path) : (s.touch p).dir = s.dir := rfl

theorem subset_touch (s : Files) (p : Path) : s.touched ⊆ (s.touch p).touched :=
  fun _ h => List.mem_insert_of_mem h

/-- What a write of a whole file makes of the files. -/
def replace (s : Files) (p : Path) (data : Bytes) : Files :=
  if (s.dir.node p).writable then s.put p data else s

/-- What an open with `O_CREAT` makes of the files. -/
def create (s : Files) (p : Path) : Files :=
  if s.dir.node p = .missing then s.put p [] else s

/-- What a write of one byte with `O_APPEND` makes of the files. -/
def appendByte (s : Files) (p : Path) (b : UInt8) : Files :=
  match s.dir.node p with
  | .file data => s.put p (data ++ [b])
  | _ => s

end Files

/-- Whether a write at the path raises. -/
def writeResult (s : Files) (p : Path) : Except PyError Unit :=
  if (s.dir.node p).writable then .ok () else .error .osError

/-- `atomic_write_text`. -/
def atomicWrite (p : Path) (data : Bytes) : StoreProg Unit :=
  .act () (·.replace p data) fun s => .ret (writeResult s p)

/-- `os.open(path, os.O_WRONLY | os.O_CREAT | os.O_APPEND)`. -/
def openAppend (p : Path) : StoreProg Unit :=
  .act () (·.create p) fun s => .ret (writeResult s p)

/-- `os.write(fd, data)`, which a kill may cut anywhere. -/
def appendBytes (p : Path) (data : Bytes) : StoreProg Unit :=
  .each (fun b => .write () (·.appendByte p b)) data

/-- `Store._touch(path)`. -/
def touch (p : Path) : StoreProg Unit := .write () (·.touch p)

/-! ## The index as a list of parts -/

/-- The index parts of a track, and no further part. -/
def Dir.ShowsIndex (d : Dir) (track : PyStr) (parts : List Bytes) : Prop :=
  ∀ k, d.node (indexPartPath track k) = ((parts[k]?).map Node.file).getD .missing

namespace Dir.ShowsIndex

variable {d : Dir} {track : PyStr} {parts : List Bytes}

theorem node_of_lt (h : d.ShowsIndex track parts) {k : ℕ} (hk : k < parts.length) :
    d.node (indexPartPath track k) = .file parts[k] := by
  rw [h k, List.getElem?_eq_getElem hk]
  rfl

theorem node_of_le (h : d.ShowsIndex track parts) {k : ℕ} (hk : parts.length ≤ k) :
    d.node (indexPartPath track k) = .missing := by
  rw [h k, List.getElem?_eq_none hk]
  rfl

theorem length_le (h : d.ShowsIndex track parts) : parts.length ≤ d.parts := by
  by_contra hlt
  have hk : d.parts < parts.length := by omega
  have := h.node_of_lt hk
  rw [d.finite track d.parts le_rfl] at this
  exact absurd this (by simp)

/-- Another file is no part. -/
theorem write_of_ne (h : d.ShowsIndex track parts) {p : Path}
    (hp : ∀ k, indexPartPath track k ≠ p) (data : Bytes) :
    (d.write p data).ShowsIndex track parts := by
  intro k
  rw [node_write_of_ne d (hp k), h k]

/-- The newest part with other contents. -/
theorem write_last {init : List Bytes} {x : Bytes} (h : d.ShowsIndex track (init ++ [x]))
    (y : Bytes) :
    (d.write (indexPartPath track init.length) y).ShowsIndex track (init ++ [y]) := by
  intro k
  by_cases hk : k = init.length
  · subst hk
    simp
  · have hne : indexPartPath track k ≠ indexPartPath track init.length := by
      rw [Ne, indexPartPath_inj]
      omega
    rw [node_write_of_ne d hne, h k]
    rcases Nat.lt_or_gt_of_ne hk with hlt | hgt
    · rw [List.getElem?_append_left hlt, List.getElem?_append_left hlt]
    · rw [List.getElem?_eq_none (by simp; omega), List.getElem?_eq_none (by simp; omega)]

/-- A new part. -/
theorem write_new (h : d.ShowsIndex track parts) (y : Bytes) :
    (d.write (indexPartPath track parts.length) y).ShowsIndex track (parts ++ [y]) := by
  intro k
  by_cases hk : k = parts.length
  · subst hk
    simp
  · have hne : indexPartPath track k ≠ indexPartPath track parts.length := by
      rw [Ne, indexPartPath_inj]
      omega
    rw [node_write_of_ne d hne, h k]
    rcases Nat.lt_or_gt_of_ne hk with hlt | hgt
    · rw [List.getElem?_append_left hlt]
    · rw [List.getElem?_eq_none (by omega), List.getElem?_eq_none (by simp; omega)]

end Dir.ShowsIndex

/-- A head is no index part. -/
theorem indexPartPath_ne_headPath (track : PyStr) (k : ℕ) (track' : PyStr) :
    indexPartPath track k ≠ headPath track' := indexPartPath_ne (by decide)

/-- An event is no index part. -/
theorem indexPartPath_ne_eventPath (track : PyStr) (k : ℕ) (track' eventId : PyStr) :
    indexPartPath track k ≠ eventPath track' eventId := by
  simp [indexPartPath, trackDir, eventPath]

theorem headPath_ne_eventPath (track track' eventId : PyStr) :
    headPath track ≠ eventPath track' eventId := by
  simp [headPath, trackDir, eventPath]

end IcilOrchestrator

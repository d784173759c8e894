import Mathlib
import IcilOrchestrator.Journal

/-!
# The results of a side, and the prompts of a duel

`readResults` and `readManifest` read the two journals of a duel. A record of a unit is written
with its keys sorted, and a prompt by `Prompt.toLine`, with its paths relative to the directory of
the prompts.

A journal whose every append begins at the start of a line is durable : `journals_durable`. One
that goes on after a torn line is not, as the record is then part of that line and lost with it
(`glued_lost`).
-/

namespace Python

/-! ## Paths -/

/-- A `pathlib.PurePosixPath`. -/
structure PosixPath where
  absolute : Bool
  parts : List PyStr
  proper : ∀ p ∈ parts, p ≠ [] ∧ p ≠ py "." ∧ 47 ∉ p

namespace PosixPath

/-- The parts of a path's text. -/
def partsOf (s : PyStr) : List PyStr := (s.splitOn 47).filter fun p => p ≠ [] ∧ p ≠ py "."

theorem proper_partsOf (s : PyStr) : ∀ p ∈ partsOf s, p ≠ [] ∧ p ≠ py "." ∧ 47 ∉ p := by
  intro p hp
  obtain ⟨hmem, hp⟩ := List.mem_filter.1 hp
  simp only [decide_eq_true_eq] at hp
  exact ⟨hp.1, hp.2, notMem_of_mem_splitOn hmem⟩

/-- `root / s`. -/
def div (root : PosixPath) (s : PyStr) : PosixPath where
  absolute := root.absolute || s.head? == some 47
  parts := (if s.head? = some 47 then [] else root.parts) ++ partsOf s
  proper p hp := by
    rcases List.mem_append.1 hp with hp | hp
    · split_ifs at hp
      · simp at hp
      · exact root.proper p hp
    · exact proper_partsOf s p hp

/-- `str` of a relative path of these parts. -/
def relText (parts : List PyStr) : PyStr :=
  if parts = [] then py "." else List.intercalate [47] parts

/-- `str(path.relative_to(root))` ; none where that raises. -/
def relativeTo (path root : PosixPath) : Option PyStr :=
  if path.absolute = root.absolute ∧ root.parts <+: path.parts then
    some (relText (path.parts.drop root.parts.length))
  else none

theorem partsOf_relText {parts : List PyStr}
    (h : ∀ p ∈ parts, p ≠ [] ∧ p ≠ py "." ∧ 47 ∉ p) : partsOf (relText parts) = parts := by
  unfold relText partsOf
  split_ifs with hnil
  · subst hnil
    decide
  · rw [List.splitOn_intercalate 47 (fun p hp => (h p hp).2.2) hnil, List.filter_eq_self]
    intro p hp
    simpa using ⟨(h p hp).1, (h p hp).2.1⟩

theorem relText_ends {parts : List PyStr}
    (h : ∀ p ∈ parts, p ≠ [] ∧ p ≠ py "." ∧ 47 ∉ p) :
    relText parts ≠ [] ∧ (relText parts).head? ≠ some 47 := by
  cases parts with
  | nil => decide
  | cons p ps =>
    obtain ⟨hne, -, hslash⟩ := h p (by simp)
    obtain ⟨c, q, rfl⟩ := List.exists_cons_of_ne_nil hne
    have hc : c ≠ 47 := fun hc => hslash (by simp [hc])
    cases ps <;> simpa [relText, List.intercalate, List.intersperse] using hc

/-- A path is found again under its root. -/
theorem div_relativeTo {path root : PosixPath} {s : PyStr} (h : path.relativeTo root = some s) :
    s ≠ [] ∧ root.div s = path := by
  unfold relativeTo at h
  split_ifs at h with hrel
  obtain rfl := Option.some.inj h
  obtain ⟨habs, rest, hparts⟩ := hrel
  have hrest : path.parts.drop root.parts.length = rest := by rw [← hparts, List.drop_left]
  rw [hrest]
  have hproper : ∀ p ∈ rest, p ≠ [] ∧ p ≠ py "." ∧ 47 ∉ p := fun p hp =>
    path.proper p (by simp [← hparts, hp])
  obtain ⟨hne, hhead⟩ := relText_ends hproper
  refine ⟨hne, ?_⟩
  obtain ⟨absolute, parts, hp⟩ := path
  obtain rfl : root.parts ++ rest = parts := hparts
  obtain rfl : absolute = root.absolute := habs
  simp [div, hhead, partsOf_relText hproper]

end PosixPath

end Python

namespace IcilOrchestrator

open Python

namespace Journal

variable {F : Type} [PyFloat F]

/-! ## Results -/

/-- A record of a unit, as `run_side` makes one. -/
structure UnitRecord (F : Type) where
  unit : PyStr
  record : Dict F
  holds : Dict.get? record (py "unit_id") = some (.str unit)

/-- The line of a record, without its newline ; none where `json.dumps` raises. -/
def resultLine (r : UnitRecord F) : Option PyStr := dumps spaced true (.obj r.record)

/-- What `read_results` makes of a line. -/
def resultOf (line : PyStr) : Except PyError (Option (PyStr × Dict F)) :=
  match loads true line with
  | some (.obj record) =>
    match Dict.get? record (py "unit_id") with
    | some (.str u) => .ok (some (u, record))
    | _ => .ok none
  | _ => .ok none

/-- `read_results`. -/
def readResults (file : Option Bytes) : Except PyError (List (PyStr × Dict F)) :=
  readJournal resultOf file

/-! ## Prompts -/

/-- `Prompt`. Its texts and its time are whatever `from_line` finds. -/
structure Prompt (F : Type) where
  unitId : PyStr
  path : Option PosixPath
  sha256 : Json F
  demoClip : Option PosixPath
  demoSha256 : Json F
  void : Bool
  error : Json F
  wallS : Json F
  sceneSeed : Option ℤ

/-- `rel` of `to_line` ; none where it raises. -/
def rel (root : PosixPath) : Option PosixPath → Option (Json F)
  | none => some .null
  | some path => (path.relativeTo root).map .str

/-- The members of a prompt's line. -/
def Prompt.members (p : Prompt F) (prompt clip : Json F) : Dict F :=
  [(py "unit_id", .str p.unitId), (py "prompt", prompt), (py "sha256", p.sha256),
    (py "demo_clip", clip), (py "demo_sha256", p.demoSha256), (py "void", .bool p.void),
    (py "error", p.error), (py "wall_s", p.wallS), (py "scene_seed", p.sceneSeed.elim .null .int)]

/-- `Prompt.to_line` ; none where it raises. -/
def Prompt.toLine (root : PosixPath) (p : Prompt F) : Option (Dict F) :=
  match rel root p.path, rel root p.demoClip with
  | some prompt, some clip => some (p.members prompt clip)
  | _, _ => none

/-- `0.0`. -/
def zero : Json F := (PyFloat.ofLit ⟨false, [48], [48], []⟩).elim (.int 0) .float

/-- `float(x)`, with `parse` for a string. -/
def floatOf (parse : PyStr → Except PyError (Json F)) : Json F → Except PyError (Json F)
  | .float x => .ok (.float x)
  | .inf neg => .ok (.inf neg)
  | .nan => .ok .nan
  | .int z => intFloat z
  | .bool b => intFloat b.toNat
  | .str s => parse s
  | _ => .error .typeError
where
  intFloat (z : ℤ) : Except PyError (Json F) :=
    match PyFloat.ofLit (intLit z) with
    | some x => .ok (.float x)
    | none => .error .overflowError

/-- `scene_seed_of`. -/
def sceneSeedOf : Json F → Option ℤ
  | .int z => some z
  | _ => none

variable [PyRepr F]

/-- `path` of `from_line`. -/
def pathOf (root : PosixPath) (value : Json F) : Option PosixPath :=
  if value.truthy then some (root.div (strOf value)) else none

/-- `Prompt.from_line`. -/
def Prompt.fromLine (parse : PyStr → Except PyError (Json F)) (root : PosixPath) :
    Json F → Except PyError (Prompt F)
  | .obj doc =>
    match Dict.get? doc (py "unit_id") with
    | none => .error .keyError
    | some unitId =>
      let wall := Dict.get doc (py "wall_s")
      match floatOf parse (if wall.truthy then wall else zero) with
      | .error e => .error e
      | .ok wallS =>
        .ok { unitId := strOf unitId
              path := pathOf root (Dict.get doc (py "prompt"))
              sha256 := Dict.get doc (py "sha256")
              demoClip := pathOf root (Dict.get doc (py "demo_clip"))
              demoSha256 := Dict.get doc (py "demo_sha256")
              void := (Dict.get doc (py "void")).truthy
              error := Dict.get doc (py "error")
              wallS
              sceneSeed := sceneSeedOf (Dict.get doc (py "scene_seed")) }
  | _ => .error .typeError

/-- The line of a prompt, without its newline ; none where `to_line` or `json.dumps` raises. -/
def promptLine (root : PosixPath) (p : Prompt F) : Option PyStr :=
  (p.toLine root).bind fun doc => dumps spaced true (.obj doc)

variable (parse : PyStr → Except PyError (Json F)) (root : PosixPath)

/-- What `read_manifest` makes of a line. -/
def promptOf (line : PyStr) : Except PyError (Option (PyStr × Prompt F)) :=
  match loads true line with
  | none => .ok none
  | some doc =>
    match Prompt.fromLine parse root doc with
    | .ok prompt => .ok (some (prompt.unitId, prompt))
    | .error e =>
      if e = .valueError ∨ e = .keyError ∨ e = .typeError then .ok none else .error e

/-- `read_manifest`. -/
def readManifest (file : Option Bytes) : Except PyError (List (PyStr × Prompt F)) :=
  readJournal (promptOf parse root) file

/-! ## Lines -/

theorem spaced_puts {c : ℕ} (h : spaced.Puts c) : c = 32 := by
  simpa [Layout.Puts, spaced] using h

omit [PyRepr F] in
/-- The line of a dictionary : what it is made of, what is read of it, and of a part of it. -/
structure DictLine (d : Dict F) (line : PyStr) : Prop where
  nonempty : line ≠ []
  printable : ∀ c ∈ line, Printable c
  loads : loads true line = some (.obj (Json.sortDict d))
  cut : ∀ p, p <+: line → p ≠ line → Python.loads (F := F) true p = none

omit [PyRepr F] in
theorem dictLine {d : Dict F} {line : PyStr} (hwf : (Json.obj d).WF)
    (h : dumps spaced true (.obj d) = some line) : DictLine d line := by
  have hloads : loads true line = some (.obj (Json.sortDict d)) := by
    have := loads_dumps hwf h (w := []) (by simp)
    rwa [List.append_nil, Json.sortKeys_obj] at this
  obtain ⟨-, hprint⟩ := dumps_eq_some_iff.1 h
  obtain ⟨hhead, hlast⟩ := print_obj_ends spaced 0 (Json.sortDict d)
  rw [Json.sortKeys_obj] at hprint
  rw [← hprint] at hhead hlast
  refine ⟨fun hnil => by simp [hnil] at hhead, fun c hc => ?_, hloads, fun p hp hne => ?_⟩
  · rcases mem_print spaced _ 0 c (hprint ▸ hc) with hc | hc
    · exact hc
    · rw [spaced_puts hc]
      exact ⟨by omega, by omega⟩
  · refine loads_of_prefix hloads hhead (fun c hc => ?_) hp hne
    obtain rfl : 125 = c := by simpa [hlast] using hc
    decide

omit [PyRepr F] in
theorem resultCodec : Codec (resultLine (F := F)) resultOf UnitRecord.unit
    (fun r => Json.sortDict r.record) fun r => (Json.obj r.record).WF where
  nonempty _ _ hr h := (dictLine hr h).nonempty
  printable _ _ hr h := (dictLine hr h).printable
  whole r line hr h := by
    have hunit : Dict.get? (Json.sortDict r.record) (py "unit_id") = some (.str r.unit) := by
      rw [Json.get?_sortDict hr.1, r.holds]
      rfl
    simp [resultOf, (dictLine hr h).loads, hunit]
  cut r line p hr h hp hne := by
    simp [resultOf, (dictLine hr h).cut p hp hne]

/-- A prompt as `Prompt` declares it, with texts that JSON keeps, and a time that is not the
negative zero. -/
structure Prompt.Typed (root : PosixPath) (p : Prompt F) : Prop where
  unitId : StrWF p.unitId
  paths : ∀ path, p.path = some path ∨ p.demoClip = some path →
    ∀ s, path.relativeTo root = some s → StrWF s
  texts : ∀ j, j = p.sha256 ∨ j = p.demoSha256 ∨ j = p.error →
    j = .null ∨ ∃ s, j = .str s ∧ StrWF s
  wall : ∃ x, p.wallS = .float x ∧ (p.wallS.truthy = true ∨ p.wallS = zero)

variable {parse root} {p : Prompt F}

omit [PyFloat F] [PyRepr F] in
theorem rel_spec {path : Option PosixPath} {j : Json F} (h : rel root path = some j) :
    path = none ∧ j = .null ∨
      ∃ x s, path = some x ∧ x.relativeTo root = some s ∧ j = .str s := by
  cases path with
  | none => exact Or.inl ⟨rfl, (Option.some.inj h).symm⟩
  | some x =>
    obtain ⟨s, hs, rfl⟩ := Option.map_eq_some_iff.1 h
    exact Or.inr ⟨x, s, rfl, hs, rfl⟩

/-- A path is read as it was written. -/
theorem pathOf_rel {path : Option PosixPath} {j : Json F} (h : rel root path = some j) :
    pathOf root j = path := by
  rcases rel_spec h with ⟨rfl, rfl⟩ | ⟨x, s, rfl, hs, rfl⟩
  · rfl
  · obtain ⟨hne, hdiv⟩ := PosixPath.div_relativeTo hs
    simp [pathOf, Json.truthy, strOf, hne, hdiv]

omit [PyFloat F] [PyRepr F] in
theorem sortKeys_rel {path : Option PosixPath} {j : Json F} (h : rel root path = some j) :
    j.sortKeys = j := by
  rcases rel_spec h with ⟨-, rfl⟩ | ⟨x, s, -, -, rfl⟩ <;> rfl

omit [PyFloat F] [PyRepr F] in
theorem wf_sortKeys_text {j : Json F} (h : j = .null ∨ ∃ s, j = .str s ∧ StrWF s) :
    j.WF ∧ j.sortKeys = j := by
  rcases h with rfl | ⟨s, rfl, hs⟩
  · exact ⟨trivial, rfl⟩
  · exact ⟨hs, rfl⟩

omit [PyFloat F] [PyRepr F] in
theorem wf_rel {path : Option PosixPath} {j : Json F} (h : rel root path = some j)
    (hpath : ∀ x, path = some x → ∀ s, x.relativeTo root = some s → StrWF s) : j.WF := by
  rcases rel_spec h with ⟨-, rfl⟩ | ⟨x, s, hx, hs, rfl⟩
  · trivial
  · exact hpath x hx s hs

omit [PyRepr F] in
theorem Prompt.Typed.wf_members (h : p.Typed root) {prompt clip : Json F} (hprompt : prompt.WF)
    (hclip : clip.WF) : (Json.obj (p.members prompt clip)).WF := by
  have hkey : ∀ {k : String}, IsAscii (py k) → StrWF (py k) := strWF_of_isAscii
  obtain ⟨x, hx, -⟩ := h.wall
  have hwall : p.wallS.WF := hx ▸ trivial
  have hseed : (p.sceneSeed.elim .null .int : Json F).WF := by cases p.sceneSeed <;> trivial
  refine ⟨by simp [Dict.Distinct, Prompt.members], hkey (by decide), h.unitId, hkey (by decide),
    hprompt, hkey (by decide), ?_, hkey (by decide), hclip, hkey (by decide), ?_, hkey (by decide),
    trivial, hkey (by decide), ?_, hkey (by decide), hwall, hkey (by decide), hseed, trivial⟩
  · exact (wf_sortKeys_text (h.texts p.sha256 (by simp))).1
  · exact (wf_sortKeys_text (h.texts p.demoSha256 (by simp))).1
  · exact (wf_sortKeys_text (h.texts p.error (by simp))).1

omit [PyRepr F] in
theorem Prompt.Typed.floatOf_wall (h : p.Typed root) :
    floatOf parse (if p.wallS.truthy then p.wallS else zero) = .ok p.wallS := by
  obtain ⟨x, hx, hwall | hwall⟩ := h.wall
  · rw [if_pos hwall, hx]
    rfl
  · rw [← hwall, ite_self, hx]
    rfl

/-- What `to_line` makes of a prompt is a dictionary that JSON keeps, and its members are read as
they were written. -/
theorem Prompt.Typed.toLine (parse : PyStr → Except PyError (Json F)) (h : p.Typed root)
    {doc : Dict F} (hdoc : p.toLine root = some doc) :
    (Json.obj doc).WF ∧ Prompt.fromLine parse root (.obj (Json.sortDict doc)) = .ok p := by
  unfold Prompt.toLine at hdoc
  split at hdoc
  · rename_i prompt clip hprompt hclip
    obtain rfl := Option.some.inj hdoc
    have hwf := h.wf_members (wf_rel hprompt fun x hx => h.paths x (Or.inl hx))
      (wf_rel hclip fun x hx => h.paths x (Or.inr hx))
    refine ⟨hwf, ?_⟩
    have hunit : (Json.str p.unitId : Json F).sortKeys = .str p.unitId := rfl
    have hvoid : ((Json.bool p.void : Json F).sortKeys).truthy = p.void := rfl
    have hsha := (wf_sortKeys_text (h.texts p.sha256 (by simp))).2
    have hdemo := (wf_sortKeys_text (h.texts p.demoSha256 (by simp))).2
    have herror := (wf_sortKeys_text (h.texts p.error (by simp))).2
    have hwall : p.wallS.sortKeys = p.wallS := by
      obtain ⟨x, hx, -⟩ := h.wall
      rw [hx]
      rfl
    have hseed : sceneSeedOf (p.sceneSeed.elim .null .int : Json F).sortKeys = p.sceneSeed := by
      cases p.sceneSeed <;> rfl
    have hstr : strOf (Json.str p.unitId : Json F) = p.unitId := rfl
    simp only [Prompt.fromLine, Json.get?_sortDict hwf.1, Json.get_sortDict hwf.1]
    simp only [Prompt.members, Dict.get, Dict.get?_cons, py_inj, if_true, if_false,
      String.reduceEq, Option.map_some, Option.getD_some, sortKeys_rel hprompt,
      sortKeys_rel hclip, hunit, hvoid, hsha, hdemo, herror, hwall, hseed, h.floatOf_wall,
      pathOf_rel hprompt, pathOf_rel hclip, hstr]
  · simp at hdoc

/-- A prompt is kept by its journal. -/
theorem promptCodec : Codec (promptLine root) (promptOf parse root) Prompt.unitId
    (fun p : Prompt F => p) (Prompt.Typed root) where
  nonempty p line hp h := by
    obtain ⟨doc, hdoc, hline⟩ := Option.bind_eq_some_iff.1 h
    exact (dictLine (hp.toLine parse hdoc).1 hline).nonempty
  printable p line hp h := by
    obtain ⟨doc, hdoc, hline⟩ := Option.bind_eq_some_iff.1 h
    exact (dictLine (hp.toLine parse hdoc).1 hline).printable
  whole p line hp h := by
    obtain ⟨doc, hdoc, hline⟩ := Option.bind_eq_some_iff.1 h
    obtain ⟨hwf, hread⟩ := hp.toLine parse hdoc
    simp [promptOf, (dictLine hwf hline).loads, hread]
  cut p line t hp h ht hne := by
    obtain ⟨doc, hdoc, hline⟩ := Option.bind_eq_some_iff.1 h
    simp [promptOf, (dictLine (hp.toLine parse hdoc).1 hline).cut t ht hne]

/-! ## The journals -/

/-- A dictionary that was read, of a record that was written : they differ in the order of their
keys at most. -/
def SameRecord (d : Dict F) (r : UnitRecord F) : Prop :=
  (Json.obj d).sortKeys = (Json.obj r.record).sortKeys

/-- Both journals are durable when every append begins at the start of a line, of a record that
JSON keeps. -/
theorem journals_durable (parse : PyStr → Except PyError (Json F)) (root : PosixPath) :
    (∀ ws : List (Attempt (UnitRecord F)),
      Clean resultLine (fun r => (Json.obj r.record).WF) [] ws →
        ∃ out, readResults (journal resultLine ws) = .ok out ∧
          Durable resultLine UnitRecord.unit SameRecord ws out) ∧
      ∀ ws : List (Attempt (Prompt F)), Clean (promptLine root) (Prompt.Typed root) [] ws →
        ∃ out, readManifest parse root (journal (promptLine root) ws) = .ok out ∧
          Durable (promptLine root) Prompt.unitId Eq ws out := by
  refine ⟨fun ws hclean => resultCodec.durable (fun r _ => ?_) hclean,
    fun ws hclean => promptCodec.durable (fun p _ => rfl) hclean⟩
  rw [SameRecord, ← Json.sortKeys_obj, Json.sortKeys_sortKeys]

/-! ## A torn line -/

section

/-- A record of a unit, and a void prompt for it. -/
def toyRecord (unit : PyStr) : UnitRecord Tenths :=
  ⟨unit, [(py "unit_id", .str unit)], by simp⟩

def toyPrompt (unit : PyStr) : Prompt Tenths :=
  ⟨unit, none, .null, none, .null, true, .str (py "failed"), .float ⟨5⟩, none⟩

def toyRoot : PosixPath := ⟨true, [py "prompts"], by simp [py]⟩

/-- A process is killed in the line of unit `a`, and the next finishes unit `b`. -/
def glued {R : Type} (r : PyStr → R) : List (Attempt R) :=
  [⟨r (py "a"), .killed 5⟩, ⟨r (py "b"), .returned⟩]

scoped instance : PyRepr Tenths := ⟨fun _ => []⟩

/-- The two journals then. -/
def tornResults : Option Bytes := journal resultLine (glued toyRecord)

def tornManifest : Option Bytes := journal (promptLine toyRoot) (glued toyPrompt)

/-- `float` of a string, which no line here holds. -/
def toyParse : PyStr → Except PyError (Json Tenths) := fun _ => .error .valueError

/-- The record of unit `b`, whose append returned, is in neither journal. -/
theorem glued_lost :
    (¬∃ out, readResults tornResults = .ok out ∧
        Durable resultLine UnitRecord.unit SameRecord (glued toyRecord) out) ∧
      ¬∃ out, readManifest toyParse toyRoot tornManifest = .ok out ∧
        Durable (promptLine toyRoot) Prompt.unitId Eq (glued toyPrompt) out := by
  have hresults : (readResults (F := Tenths) tornResults).toOption.map List.length = some 0 := by
    decide +kernel
  have hprompts : (readManifest toyParse toyRoot tornManifest).toOption.map List.length =
      some 0 := by
    decide +kernel
  constructor
  · rintro ⟨out, hout, h⟩
    obtain rfl : out = [] := by simpa [hout, Except.toOption] using hresults
    obtain ⟨v, -, hv, -⟩ := h.kept [_] _ [] rfl ⟨rfl, by decide +kernel⟩
    simp at hv
  · rintro ⟨out, hout, h⟩
    obtain rfl : out = [] := by simpa [hout, Except.toOption] using hprompts
    obtain ⟨v, -, hv, -⟩ := h.kept [_] _ [] rfl ⟨rfl, by decide +kernel⟩
    simp at hv

/-- A unit that is finished, and one whose process is killed in its line. -/
def tornLast {R : Type} (r : PyStr → R) : List (Attempt R) :=
  [⟨r (py "a"), .returned⟩, ⟨r (py "b"), .killed 5⟩]

/-- A torn last line costs its own unit only. -/
theorem tornLast_durable :
    (∃ out, readResults (journal resultLine (tornLast toyRecord)) = .ok out ∧
        Durable resultLine UnitRecord.unit SameRecord (tornLast toyRecord) out) ∧
      ∃ out, readManifest toyParse toyRoot
          (journal (promptLine toyRoot) (tornLast toyPrompt)) = .ok out ∧
        Durable (promptLine toyRoot) Prompt.unitId Eq (tornLast toyPrompt) out := by
  have hrecord : ∀ unit, StrWF unit → (Json.obj (toyRecord unit).record).WF := fun unit h =>
    ⟨by simp [Dict.Distinct, toyRecord], strWF_of_isAscii (by decide), h, trivial⟩
  have hprompt : ∀ unit, StrWF unit → (toyPrompt unit).Typed toyRoot := fun unit h =>
    { unitId := h
      paths := by simp [toyPrompt]
      texts := by
        rintro j (rfl | rfl | rfl)
        · exact Or.inl rfl
        · exact Or.inl rfl
        · exact Or.inr ⟨_, rfl, strWF_of_isAscii (by decide)⟩
      wall := ⟨⟨5⟩, rfl, Or.inl (by decide +kernel : (Json.float ⟨5⟩ : Json Tenths).truthy = true)⟩ }
  refine ⟨(journals_durable toyParse toyRoot).1 _ ?_, (journals_durable toyParse toyRoot).2 _ ?_⟩
  · exact ⟨Or.inl rfl, hrecord _ (strWF_of_isAscii (by decide)), Or.inr (by decide +kernel),
      hrecord _ (strWF_of_isAscii (by decide)), trivial⟩
  · exact ⟨Or.inl rfl, hprompt _ (strWF_of_isAscii (by decide)), Or.inr (by decide +kernel),
      hprompt _ (strWF_of_isAscii (by decide)), trivial⟩

end

end Journal

end IcilOrchestrator

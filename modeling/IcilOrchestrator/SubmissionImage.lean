import Mathlib
import IcilOrchestrator.Dockerfile
import IcilOrchestrator.Pattern
import IcilOrchestrator.Journals
import IcilOrchestrator.Ids
import IcilOrchestrator.Checkout

/-!
# The image of a submission

A submission's Dockerfile copies its checkout and installs the requirements that its manifest names
(`submissionDockerfile`). The name is the submission's : `checkRepository` asks that it is the
path of a regular file of the checkout, and nothing of its characters.

`dockerfile_iff` : the Dockerfile says what it is for, and nothing else, exactly when neither the
builder nor the shell gives a meaning to a character of that name (`Literal`). `dockerfile_injected`
is a checkout of which it says more.
-/

namespace IcilOrchestrator

open Python Pattern PosixPath Checkout Dockerfile

namespace Submissions

/-! ## The manifest -/

/-- A value of YAML. -/
inductive Yaml where
  | null
  | bool (b : Bool)
  | int (n : ℤ)
  | str (s : PyStr)
  | list (vs : List Yaml)
  | dict (items : List (Yaml × Yaml))
  /-- A value of another type : a float, a date, bytes, a set. -/
  | other (type : PyStr)

/-- `type(value).__name__`. -/
def Yaml.typeName : Yaml → PyStr
  | null => py "NoneType"
  | bool _ => py "bool"
  | int _ => py "int"
  | str _ => py "str"
  | list _ => py "list"
  | dict _ => py "dict"
  | other type => type

/-- What the manifest is read with : the YAML loader, excerpts of values, `repr` of a string, and
`str.isidentifier`. -/
structure Reading where
  load : PyStr → Except PyStr Yaml
  excerpt : Yaml → PyStr
  repr : PyStr → PyStr
  isIdentifier : PyStr → Bool

/-- What is found where a path leads to, every link followed. -/
inductive Resolved where
  | raises (text : PyStr)
  | outside
  | notFile
  | file
deriving DecidableEq

/-- A checkout, and where the paths from its root lead to. -/
structure Repository where
  tree : Tree
  resolve : PyStr → Resolved

/-- `Manifest`. -/
structure Manifest where
  api : ℤ
  policy : PyStr
  kwargs : List (PyStr × Yaml)
  requirements : Option PyStr
  benchmarks : List PyStr

/-- `_KEYS`. -/
def manifestKeys : List PyStr :=
  [py "api", py "policy", py "kwargs", py "requirements", py "benchmarks"]

/-- `_IDENTIFIER`. -/
def identifier : Pattern :=
  cat [rep (fun c => isDigit c == false && (isAlnum c || c == 95)) 1 (some 1),
    rep (fun c => isAlnum c || c == 95) 0 none]

/-- `_POLICY`. -/
def policyRe : Pattern :=
  cat [identifier, star (cat [lit (py "."), identifier]), lit (py ":"), identifier]

section Validate

variable (r : Reading)

/-- `data.get(key)`. -/
def field (data : List (Yaml × Yaml)) (key : PyStr) : Option Yaml :=
  (data.find? fun item => match item.1 with
    | .str s => s == key
    | _ => false).map Prod.snd

/-- A key that the manifest may have. -/
def isKnown : Yaml → Bool
  | .str s => s ∈ manifestKeys
  | _ => false

def commas (texts : List PyStr) : PyStr := List.intercalate (py ", ") texts

/-- The problem of keys that are not known. -/
def unknownProblems (data : List (Yaml × Yaml)) : List PyStr :=
  let unknown := (data.map Prod.fst).filter fun key => !isKnown key
  if unknown.isEmpty then []
  else [py "unknown key(s) " ++ commas (unknown.map r.excerpt) ++ py "; allowed: " ++
    commas manifestKeys]

def apiOf : Option Yaml → Except PyStr ℤ
  | none => .error (py "api: required")
  | some (.int 1) => .ok 1
  | some v => .error (py "api: must be 1, not " ++ r.excerpt v)

def policyOf : Option Yaml → Except PyStr PyStr
  | none => .error (py "policy: required, as module:Class")
  | some v =>
    let problem := py "policy: must be module:Class, such as pkg.module:MyPolicy, not " ++ r.excerpt v
    match v with
    | .str s => if policyRe.fullmatch s then .ok s else .error problem
    | _ => .error problem

/-- A keyword argument's name, if it is one. -/
def identifierKey : Yaml × Yaml → Option (PyStr × Yaml)
  | (.str s, v) => if r.isIdentifier s then some (s, v) else none
  | _ => none

def kwargsOf : Option Yaml → Except PyStr (List (PyStr × Yaml))
  | none => .ok []
  | some .null => .ok []
  | some (.dict items) =>
    let bad := items.filter fun item => (identifierKey r item).isNone
    if bad.isEmpty then .ok (items.filterMap (identifierKey r))
    else .error (py "kwargs: keys must be identifiers, not " ++
      commas (bad.map fun item => r.excerpt item.1))
  | some v => .error (py "kwargs: must be a mapping, not " ++ v.typeName)

/-- `_requirements_problems`, of which there is at most one. -/
def requirementsOf (repo : Repository) : Option Yaml → Except PyStr (Option PyStr)
  | none => .ok none
  | some .null => .ok none
  | some (.str s) =>
    let shown := r.excerpt (.str s)
    if s = [] then .error (py "requirements: must be a path, not " ++ shown)
    else if 0 ∈ s then .error (py "requirements: " ++ shown ++ py " holds a NUL character")
    else if s.head? = some 47 ∨ s.head? = some 126 then
      .error (py "requirements: " ++ shown ++ py " must be relative to the repository root")
    else match repo.resolve s with
      | .raises text =>
        .error (py "requirements: " ++ shown ++ py " cannot be resolved: " ++ r.excerpt (.str text))
      | .outside => .error (py "requirements: " ++ shown ++ py " leaves the repository")
      | .notFile => .error (py "requirements: " ++ shown ++ py " is not a file in the repository")
      | .file => .ok (some s)
  | some v => .error (py "requirements: must be a path, not " ++ r.excerpt v)

/-- A name, if it is a string of some length. -/
def nameOf : Yaml → Option PyStr
  | .str s => if s = [] then none else some s
  | _ => none

def benchmarksOf : Option Yaml → Except PyStr (List PyStr)
  | none => .ok []
  | some .null => .ok []
  | some v =>
    let problem := py "benchmarks: must be a list of names, not " ++ r.excerpt v
    match v with
    | .list vs =>
      match vs.mapM nameOf with
      | some names => .ok names
      | none => .error problem
    | _ => .error problem

/-- The problem of a field. -/
def problemOf {α : Type} : Except PyStr α → List PyStr
  | .ok _ => []
  | .error problem => [problem]

/-- `validate`; the error is all of its problems. -/
def validate (repo : Repository) : Yaml → Except (List PyStr) Manifest
  | .dict data =>
    let unknown := unknownProblems r data
    let api := apiOf r (field data (py "api"))
    let policy := policyOf r (field data (py "policy"))
    let kwargs := kwargsOf r (field data (py "kwargs"))
    let requirements := requirementsOf r repo (field data (py "requirements"))
    let benchmarks := benchmarksOf r (field data (py "benchmarks"))
    match unknown, api, policy, kwargs, requirements, benchmarks with
    | [], .ok api, .ok policy, .ok kwargs, .ok requirements, .ok benchmarks =>
      .ok ⟨api, policy, kwargs, requirements, benchmarks⟩
    | _, _, _, _, _, _ => .error (unknown ++ problemOf api ++ problemOf policy ++ problemOf kwargs ++
      problemOf requirements ++ problemOf benchmarks)
  | v => .error [py "must be a mapping, not " ++ v.typeName]

/-- `MAX_BYTES`. -/
def maxBytes : ℕ := 2 ^ 20

/-- `_PARSER_CHARS`. -/
def parserChars : ℕ := 1000

/-- `load`, of what the manifest's file holds. -/
def load (repo : Repository) (raw : Bytes) : Except (List PyStr) Manifest :=
  match decodeUtf8 (raw.take (maxBytes + 1)) with
  | none => .error [py "cannot be read"]
  | some text =>
    if maxBytes < raw.length then .error [py "is larger than 1048576 bytes"]
    else match r.load text with
      | .error message =>
        let shown := if parserChars < message.length then message.take parserChars ++ py " [...]"
          else message
        .error [py "is not valid YAML: " ++ shown]
      | .ok data => validate r repo data

end Validate

/-! ## The checkout -/

/-- What `lstat` finds under a name of a directory. -/
inductive Entry where
  | file (data : Bytes)
  | link
  | dir (entries : Tree)

/-- The entry of a name. -/
def entryOf (name : PyStr) : Tree → Option Entry
  | .empty => none
  | .file n _ data rest => if n = name then some (.file data) else entryOf name rest
  | .link n _ _ rest => if n = name then some .link else entryOf name rest
  | .dir n entries rest => if n = name then some (.dir entries) else entryOf name rest

/-- A path's components from a directory on, of which none but the last is a file, and that is
a regular one. -/
def walkTo (about : PyStr) : Tree → List PyStr → Except PyStr Bytes
  | _, [] => .error (about ++ py " is not a regular file")
  | t, part :: parts =>
    match entryOf part t with
    | none => .error (about ++ py " is not in the repository")
    | some .link =>
      .error (about ++ py " goes through a symbolic link (" ++ part ++ py "); refused")
    | some (.dir entries) => walkTo about entries parts
    | some (.file data) =>
      if parts = [] then .ok data else .error (about ++ py " cannot be read")

/-- `regular_file_inside`, with what the file holds; the error is why it is rejected. -/
def regularFileInside (r : Reading) (root : Tree) (relative what : PyStr) : Except PyStr Bytes :=
  let about := what ++ py ": " ++ r.repr relative
  let parts := partsOf relative
  if relative.head? = some 47 ∨ parts = [] ∨ py ".." ∈ parts then
    .error (about ++ py " is not a path inside the repository")
  else walkTo about root parts

/-- What `spec.submission` says of manifests. -/
structure SubmissionSpec where
  manifest : PyStr
  manifestApi : ℤ

/-- `check_repository`; the error is why the submission is rejected. -/
def checkRepository (r : Reading) (spec : SubmissionSpec) (repo : Repository) :
    Except PyStr Manifest := do
  let name := spec.manifest
  let raw ← regularFileInside r repo.tree name (py "the manifest " ++ name)
  match load r repo raw with
  | .error problems => .error (name ++ py ": " ++ List.intercalate (py "; ") problems)
  | .ok manifest =>
    if manifest.api ≠ spec.manifestApi then
      .error (name ++ py ": api " ++ (intLit manifest.api).text ++
        py " is not this competition's " ++ (intLit spec.manifestApi).text)
    else match manifest.requirements with
      | none => .ok manifest
      | some requirements =>
        let _ ← regularFileInside r repo.tree requirements (py "requirements")
        .ok manifest

/-! ## The Dockerfile -/

/-- A character of the name of an image. -/
def isReference (c : ℕ) : Bool := isAlnum c || c ∈ py "._-/:"

/-- A base that Docker has under its tag, which `ensure_base` has looked at. -/
structure BaseImage where
  name : PyStr
  digest : PyStr
  named : name ≠ [] ∧ name.all isReference = true
  hashed : ∃ hex : PyStr, digest = py "sha256:" ++ hex ∧ hex.length = 64 ∧ hex.all isHexLower = true

/-- `BaseImage.tag`. -/
def BaseImage.tag (base : BaseImage) : PyStr :=
  base.name ++ py ":" ++ (base.digest.dropWhile (· != 58)).drop 1

/-- `SUBMISSION_DIR`. -/
def submissionDir : PyStr := py "/submission"

/-- What the checkout is copied by, for the sandbox's user. -/
def copyArgs (uid gid : ℕ) : PyStr :=
  py "--chown=" ++ decimal uid ++ py ":" ++ decimal gid ++ py " . " ++ submissionDir

/-- What the requirements are installed by. -/
def pipInstall : List PyStr :=
  [py "python", py "-m", py "pip", py "install", py "--no-cache-dir", py "-r"]

/-- `submission_dockerfile`. -/
def submissionDockerfile (base : BaseImage) (uid gid : ℕ) (manifest : Manifest) : PyStr :=
  let lines := [py "# " ++ base.digest, py "FROM " ++ base.tag, py "COPY " ++ copyArgs uid gid] ++
    manifest.requirements.toList.map fun requirements =>
      py "RUN python -m pip install --no-cache-dir -r " ++ submissionDir ++ py "/" ++ requirements
  List.intercalate (py "\n") lines ++ py "\n"

/-- What a Dockerfile is to say : from the base, the checkout is copied, and if there are
requirements, pip is run on the one path that they have. -/
def Says (base : BaseImage) (uid gid : ℕ) (requirements : Option PyStr) (text : PyStr) : Prop :=
  ∃ runs, instructions text =
      ⟨py "FROM", base.tag⟩ :: ⟨py "COPY", copyArgs uid gid⟩ :: runs ∧
    (runs.map fun i => (i.keyword, shellWords i.args)) = requirements.toList.map fun path =>
      (py "RUN", some (pipInstall ++ [submissionDir ++ py "/" ++ path]))

/-- A name of which no character means anything to the shell, and that does not end in white
space. -/
def Literal (name : PyStr) : Prop :=
  name.all isPlain = true ∧ ∀ c ∈ name.getLast?, isWhite c = false

/-! ## What the Dockerfile says -/

variable {base : BaseImage} {uid gid : ℕ} {name : PyStr}

theorem isReference_plain {c : ℕ} (h : isReference c = true) :
    isWhite c = false ∧ c ≠ 10 ∧ c ≠ 92 := by
  simp [isReference, isAlnum, isDigit, py] at h
  simp [isWhite]
  omega

/-- A tag is one word. -/
theorem tag_word (base : BaseImage) : base.tag.all isReference = true ∧ base.tag ≠ [] := by
  obtain ⟨hex, hdigest, hlen, hall⟩ := base.hashed
  have hcut : (base.digest.dropWhile (· != 58)).drop 1 = hex := by simp [hdigest, py]
  have hhex : hex.all isReference = true := by
    rw [List.all_eq_true] at hall ⊢
    intro c hc
    have := hall c hc
    simp [isHexLower] at this
    simp [isReference, isAlnum, isDigit]
    omega
  rw [BaseImage.tag, hcut]
  simp [hhex, base.named.2, py, isReference]

theorem copyArgs_end (uid gid : ℕ) : ∃ s, copyArgs uid gid = s ++ [110] ∧ 10 ∉ copyArgs uid gid ∧
    ∀ c ∈ (copyArgs uid gid).head?, isWhite c = false := by
  have hdecimal : ∀ n, 10 ∉ decimal n := fun n h => absurd (isDigit_decimal n 10 h) (by decide)
  refine ⟨py "--chown=" ++ decimal uid ++ py ":" ++ decimal gid ++ py " . /submissio", ?_, ?_, ?_⟩
  · simp [copyArgs, submissionDir, py]
  · simp [copyArgs, submissionDir, py, hdecimal]
  · simp [copyArgs, py, isWhite]

/-- What the image is built from and copied, and what comes after. -/
theorem instructions_dockerfile (base : BaseImage) (uid gid : ℕ) (rest : PyStr) :
    instructions (py "# " ++ base.digest ++ 10 :: (py "FROM " ++ base.tag ++ 10 ::
      (py "COPY " ++ copyArgs uid gid ++ 10 :: rest))) =
    ⟨py "FROM", base.tag⟩ :: ⟨py "COPY", copyArgs uid gid⟩ :: instructions rest := by
  obtain ⟨hex, hdigest, -, hall⟩ := base.hashed
  obtain ⟨htag, hne⟩ := tag_word base
  obtain ⟨t, e, ht⟩ := (List.eq_nil_or_concat' base.tag).resolve_left hne
  obtain ⟨s, hs, hline, hhead⟩ := copyArgs_end uid gid
  have hchar : ∀ c ∈ base.tag, isWhite c = false ∧ c ≠ 10 ∧ c ≠ 92 := fun c hc =>
    isReference_plain (List.all_eq_true.1 htag c hc)
  have hcomment : 10 ∉ 32 :: base.digest := by
    simp [hdigest, py, notMem_of_all hall (c := 10) (by decide)]
  have hfrom : 10 ∉ py "FROM" ++ 32 :: base.tag := by
    simpa [py] using fun h => (hchar 10 h).2.1 rfl
  have hcopy : 10 ∉ py "COPY" ++ 32 :: copyArgs uid gid := by simpa [py] using hline
  have he := hchar e (by simp [ht])
  refine (instructions_comment hcomment).trans ?_
  rw [ht] at hfrom ⊢
  refine (instructions_cons (by decide) he.1 he.2.2 ?_ hfrom).trans ?_
  · intro c hc
    exact (hchar c (ht ▸ List.mem_of_mem_head? hc)).1
  · rw [hs] at hcopy hhead ⊢
    exact congrArg _ (instructions_cons (by decide) (by decide) (by decide) hhead hcopy)

/-- Up to the name, the words are the command's. -/
theorem shellWords_pip (t : PyStr) :
    shellWords (py "python -m pip install --no-cache-dir -r " ++ submissionDir ++ py "/" ++ t) =
      (lex .word t).map fun ws => pipInstall ++ push (submissionDir ++ py "/") ws := by
  have htext : py "python -m pip install --no-cache-dir -r " ++ submissionDir ++ py "/" ++ t =
      pipInstall.flatMap (· ++ [32]) ++ ((submissionDir ++ py "/") ++ t) := by
    simp [pipInstall, py]
  rw [shellWords, htext, lex_words (by decide), lex_start (by decide), Option.map_map]
  rfl

/-- The command's words are the command and the name, exactly when the name is one word that loses
nothing. -/
theorem shellWords_eq_iff {t : PyStr} :
    shellWords (py "python -m pip install --no-cache-dir -r " ++ submissionDir ++ py "/" ++ t) =
      some (pipInstall ++ [submissionDir ++ py "/" ++ name]) ↔ lex .word t = some [name] := by
  rw [shellWords_pip]
  cases h : lex .word t with
  | none => simp
  | some ws =>
    obtain ⟨w, ws, rfl⟩ := List.exists_cons_of_ne_nil ((length_lex h).1 (by simp))
    simp [push]

theorem notMem_of_literal (h : Literal name) : 10 ∉ name ∧ 92 ∉ name := by
  have hall := List.all_eq_true.1 h.1
  exact ⟨fun hmem => absurd (hall 10 hmem) (by decide), fun hmem => absurd (hall 92 hmem) (by decide)⟩

/-- A name that does not end in white space or a backslash ends where it ends. -/
theorem ending_eq_of_literal (h : Literal name) : ending name = name := by
  have hself : ∀ {p : ℕ → Bool}, (∀ c, p c = true → isWhite c = true) →
      name.rdropWhile p = name := by
    intro p hp
    rw [List.rdropWhile_eq_self_iff]
    intro hne hlast
    have hwhite := h.2 _ (List.getLast?_eq_getLast_of_ne_nil hne)
    rw [hp _ hlast] at hwhite
    exact absurd hwhite (by decide)
  have hcr : name.rdropWhile (· == 13) = name := hself fun c hc => by
    rw [beq_iff_eq.1 hc]
    decide
  rw [ending, hcr, continued_of_notMem (notMem_of_literal h).2]
  exact hself fun _ h => h

/-- The line that installs the requirements says what it is to say, exactly of a literal name. -/
theorem runs_iff :
    ((instructions (py "RUN python -m pip install --no-cache-dir -r " ++ submissionDir ++ py "/" ++
        name ++ [10])).map fun i => (i.keyword, shellWords i.args)) =
      [(py "RUN", some (pipInstall ++ [submissionDir ++ py "/" ++ name]))] ↔ Literal name := by
  have hlast : 10 ∉ name → instructions (py "RUN python -m pip install --no-cache-dir -r " ++
      submissionDir ++ py "/" ++ name ++ [10]) =
        [⟨py "RUN", py "python -m pip install --no-cache-dir -r " ++ submissionDir ++ py "/" ++
          ending name⟩] := by
    intro hname
    have hkeyword : IsKeyword (py "RUN") := by decide
    have h := instructions_last (e := 47) (t := name)
      (s := py "python -m pip install --no-cache-dir -r " ++ submissionDir) hkeyword
      (by decide) (by decide) (by decide) (by simpa [py, submissionDir] using hname)
    simpa [py, submissionDir] using h
  constructor
  · intro h
    have hname : 10 ∉ name := by
      obtain ⟨i, hi, hwords⟩ := List.map_eq_singleton_iff.1 h
      have hargs : 10 ∉ i.args := notMem_args i (by rw [hi]; exact List.mem_singleton_self i)
      have hpath := notMem_of_lex (by decide) hargs (Prod.mk.inj hwords).2
        (submissionDir ++ py "/" ++ name) (by simp)
      exact fun h => hpath (List.mem_append_right _ h)
    rw [hlast hname] at h
    have hwords := (Prod.mk.inj (List.cons.inj h).1).2
    have hlex := shellWords_eq_iff.1 hwords
    obtain ⟨heq, hplain⟩ := lex_word_eq hlex (prefix_of_ending name).length_le
    rw [← heq] at hplain
    refine ⟨hplain, fun c hc => ?_⟩
    have hne : name ≠ [] := by
      rintro rfl
      simp at hc
    rw [List.getLast?_eq_getLast_of_ne_nil hne, Option.mem_some_iff] at hc
    have hself : name.rdropWhile isWhite = name := by
      rw [heq]
      exact List.rdropWhile_idempotent _ _
    rw [← hc, ← Bool.not_eq_true]
    exact List.rdropWhile_eq_self_iff.1 hself hne
  · intro h
    rw [hlast (notMem_of_literal h).1, ending_eq_of_literal h]
    simp only [List.map_cons, List.map_nil]
    rw [shellWords_eq_iff.2 (lex_word_self h.1)]

theorem says_iff (base : BaseImage) (uid gid : ℕ) (manifest : Manifest) :
    Says base uid gid manifest.requirements (submissionDockerfile base uid gid manifest) ↔
      ∀ path ∈ manifest.requirements, Literal path := by
  cases hreq : manifest.requirements with
  | none =>
    have htext : submissionDockerfile base uid gid manifest = py "# " ++ base.digest ++ 10 ::
        (py "FROM " ++ base.tag ++ 10 :: (py "COPY " ++ copyArgs uid gid ++ 10 :: [])) := by
      simp [submissionDockerfile, hreq, py]
    rw [Says, htext, instructions_dockerfile]
    exact iff_of_true ⟨_, rfl, rfl⟩ (by simp)
  | some path =>
    have htext : submissionDockerfile base uid gid manifest = py "# " ++ base.digest ++ 10 ::
        (py "FROM " ++ base.tag ++ 10 :: (py "COPY " ++ copyArgs uid gid ++ 10 ::
          (py "RUN python -m pip install --no-cache-dir -r " ++ submissionDir ++ py "/" ++ path ++
            [10]))) := by
      simp [submissionDockerfile, hreq, py]
    rw [Says, htext, instructions_dockerfile]
    constructor
    · rintro ⟨runs, heq, hruns⟩ path' hpath'
      obtain rfl := Option.some.inj hpath'
      obtain rfl := (List.cons.inj (List.cons.inj heq).2).2
      exact runs_iff.1 hruns
    · intro h
      exact ⟨_, rfl, runs_iff.2 (h path rfl)⟩

/-- An accepted manifest's requirements are a regular file of the checkout. -/
theorem file_of_accepted {r : Reading} {spec : SubmissionSpec} {repo : Repository}
    {manifest : Manifest} (h : checkRepository r spec repo = .ok manifest) :
    ∀ path ∈ manifest.requirements,
      ∃ data, regularFileInside r repo.tree path (py "requirements") = .ok data := by
  simp only [checkRepository, bind, Except.bind] at h
  cases hraw : regularFileInside r repo.tree spec.manifest (py "the manifest " ++ spec.manifest) with
  | error e => simp [hraw] at h
  | ok raw =>
    simp only [hraw] at h
    cases hload : load r repo raw with
    | error e => simp [hload] at h
    | ok found =>
      simp only [hload] at h
      split_ifs at h
      cases hreq : found.requirements with
      | none =>
        simp only [hreq] at h
        obtain rfl := Except.ok.inj h
        simp [hreq]
      | some path =>
        simp only [hreq] at h
        cases hfile : regularFileInside r repo.tree path (py "requirements") with
        | error e => simp [hfile] at h
        | ok data =>
          simp only [hfile] at h
          obtain rfl := Except.ok.inj h
          intro path' hpath'
          obtain rfl := Option.some.inj (hreq.symm.trans hpath')
          exact ⟨data, hfile⟩

/-- Of an accepted submission, whose requirements are a file of it, the Dockerfile says what it is
to say exactly when their name is literal. -/
theorem dockerfile_iff (r : Reading) (spec : SubmissionSpec) (repo : Repository) (base : BaseImage)
    (uid gid : ℕ) (manifest : Manifest) (h : checkRepository r spec repo = .ok manifest) :
    (∀ path ∈ manifest.requirements,
      ∃ data, regularFileInside r repo.tree path (py "requirements") = .ok data) ∧
    (Says base uid gid manifest.requirements (submissionDockerfile base uid gid manifest) ↔
      ∀ path ∈ manifest.requirements, Literal path) :=
  ⟨file_of_accepted h, says_iff base uid gid manifest⟩

/-- A manifest that names its requirements, in double quotes. -/
def toyText (requirements : PyStr) : PyStr :=
  py "api: 1\npolicy: a:B\nrequirements: \"" ++ requirements ++ py "\"\n"

def toyYaml (requirements : PyStr) : Yaml :=
  .dict [(.str (py "api"), .int 1), (.str (py "policy"), .str (py "a:B")),
    (.str (py "requirements"), .str requirements)]

/-- What YAML makes of two such manifests : in the second, the name is of two lines. -/
def toyReading : Reading where
  load text :=
    if text = toyText (py "requirements.txt") then .ok (toyYaml (py "requirements.txt"))
    else if text = toyText (py "r\\nRUN id") then .ok (toyYaml (py "r\nRUN id"))
    else .error (py "not one of them")
  excerpt _ := py "..."
  repr s := py "'" ++ s ++ py "'"
  isIdentifier s := s.all isAlnum

def toySubmission : SubmissionSpec := ⟨py "icil.yaml", 1⟩

def toyBase : BaseImage where
  name := py "icil-policy-base"
  digest := py "sha256:" ++ List.replicate 64 48
  named := by decide
  hashed := ⟨List.replicate 64 48, rfl, by decide, by decide⟩

/-- A checkout with a file of requirements, and a manifest. -/
def toyCheckout (text name : PyStr) : Repository where
  tree := .file (py "icil.yaml") 0o644 (encodeUtf8 text) (.file name 0o644 [] .empty)
  resolve s := if s = name then .file else .notFile

theorem toy_accepted (text name : PyStr) (h : ((checkRepository toyReading toySubmission
    (toyCheckout text name)).toOption.map Manifest.requirements) = some (some name)) :
    ∃ manifest, checkRepository toyReading toySubmission (toyCheckout text name) = .ok manifest ∧
      manifest.requirements = some name := by
  cases hcheck : checkRepository toyReading toySubmission (toyCheckout text name) with
  | error e => simp [hcheck, Except.toOption] at h
  | ok manifest => exact ⟨manifest, rfl, by simpa [hcheck, Except.toOption] using h⟩

theorem toy_says : ∃ manifest, manifest.requirements = some (py "requirements.txt") ∧
    Says toyBase 10001 10001 manifest.requirements
      (submissionDockerfile toyBase 10001 10001 manifest) := by
  obtain ⟨manifest, h, hreq⟩ := toy_accepted (toyText (py "requirements.txt"))
    (py "requirements.txt") (by decide +kernel)
  refine ⟨manifest, hreq, (dockerfile_iff _ _ _ toyBase 10001 10001 _ h).2.2 fun path hpath => ?_⟩
  obtain rfl := Option.some.inj (hreq.symm.trans hpath)
  exact ⟨by decide, by decide⟩

/-- A file whose name is of two lines, of which the second is an instruction. -/
theorem dockerfile_injected : ¬∀ (r : Reading) (spec : SubmissionSpec) (repo : Repository)
    (base : BaseImage) (uid gid : ℕ) (manifest : Manifest),
    checkRepository r spec repo = .ok manifest →
      Says base uid gid manifest.requirements (submissionDockerfile base uid gid manifest) := by
  intro hall
  obtain ⟨manifest, h, hreq⟩ := toy_accepted (toyText (py "r\\nRUN id")) (py "r\nRUN id")
    (by decide +kernel)
  have hsays := (says_iff toyBase 10001 10001 manifest).1
    (hall toyReading toySubmission _ toyBase 10001 10001 manifest h) _ hreq
  exact absurd hsays.1 (by decide)

/-- The second line is run. -/
example : (instructions (submissionDockerfile toyBase 10001 10001
    ⟨1, py "a:B", [], some (py "r\nRUN id"), []⟩)).drop 2 =
      [⟨py "RUN", py "python -m pip install --no-cache-dir -r /submission/r"⟩,
        ⟨py "RUN", py "id"⟩] := by decide +kernel

end Submissions

end IcilOrchestrator

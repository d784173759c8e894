import Mathlib
import IcilOrchestrator.JsonText
import IcilOrchestrator.Canon

/-!
# A local checkout

`LocalFetcher` takes a directory in place of the Hub : it is resolved to a hash of its tree, and
copied into the cache under that. The hash leaves out the directories of some names
(`localIgnored`), and links to directories of these names, but not a file or another link that is
named so; the copy leaves out whatever has such a name.

`fetch_iff` : the checkout has the hash it is stored under, and all that the hash covered, exactly
when the hash covered nothing of such a name (`Tree.Plain`). `fetch_strays` is a directory with a
file `.git`.
-/

namespace IcilOrchestrator

open Python

namespace Checkout

/-! ## Trees -/

/-- What a directory holds, one entry after another. A name is a path's component, with a surrogate
for each byte that is not text; of a link it is said whether it leads to a directory. -/
inductive Tree where
  | empty
  | file (name : PyStr) (mode : ℕ) (data : Bytes) (rest : Tree)
  | link (name : PyStr) (target : Bytes) (toDir : Bool) (rest : Tree)
  | dir (name : PyStr) (entries rest : Tree)
deriving DecidableEq

/-- A regular file or a link. -/
inductive Leaf where
  | file (mode : ℕ) (data : Bytes)
  | link (target : Bytes)
deriving DecidableEq

/-- A path below a directory. -/
abbrev Rel := List PyStr

/-- `as_posix`. -/
def posix (rel : Rel) : PyStr := List.intercalate (py "/") rel

/-- `LOCAL_IGNORED`. -/
def localIgnored : List PyStr := [py ".git", py "__pycache__"]

namespace Tree

/-- `_walk`, which does not go into the directories of some names, nor finds links to directories
of these names. What it finds is in no order here : it is sorted or summed. -/
def walk (ignored : List PyStr) : Tree → List (Rel × Leaf)
  | empty => []
  | file n mode data rest => ([n], .file mode data) :: walk ignored rest
  | link n target toDir rest =>
    if toDir && n ∈ ignored then walk ignored rest else ([n], .link target) :: walk ignored rest
  | dir n entries rest =>
    (if n ∈ ignored then [] else (walk ignored entries).map fun x => (n :: x.1, x.2)) ++
      walk ignored rest

/-- The order of `sorted(…, key=as_posix)`. -/
def PathLe (x y : Rel × Leaf) : Prop := strLe (posix x.1) (posix y.1) = true

instance : DecidableRel PathLe := fun x y =>
  inferInstanceAs (Decidable (strLe (posix x.1) (posix y.1) = true))

/-- `_tree_files`. -/
def files (t : Tree) : List (Rel × Leaf) := (t.walk localIgnored).insertionSort PathLe

/-- `str.encode`, which raises for a surrogate. -/
def encode? (s : PyStr) : Option Bytes :=
  if s.all fun c => !Decidable.decide (0xD800 ≤ c ∧ c ≤ 0xDFFF) then some (encodeUtf8 s) else none

/-- What `tree_hash` says of one file : its mode, the hash of its content and its path. -/
def line (sha1 : Bytes → PyStr) : Rel × Leaf → Option Bytes
  | (rel, .file mode data) =>
    encode? ((if mode.testBit 6 then py "100755" else py "100644") ++ py " " ++ sha1 data ++
      py " " ++ posix rel ++ py "\n")
  | (rel, .link target) =>
    encode? (py "120000" ++ py " " ++ sha1 target ++ py " " ++ posix rel ++ py "\n")

/-- `tree_hash`; none is the `UnicodeEncodeError` of a name that is not text. -/
def hash (sha1 : Bytes → PyStr) (t : Tree) : Option PyStr :=
  (t.files.mapM (line sha1)).map fun lines => sha1 lines.flatten

/-- `copytree`, of which links are copied as links : `leads` is whether one leads to a directory
in the copy. -/
def copy (leads : Rel → Bool) : Tree → Tree
  | empty => empty
  | file n mode data rest =>
    if n ∈ localIgnored then copy leads rest else file n mode data (copy leads rest)
  | link n target _ rest =>
    if n ∈ localIgnored then copy leads rest else link n target (leads [n]) (copy leads rest)
  | dir n entries rest =>
    if n ∈ localIgnored then copy leads rest
    else dir n (copy (fun rel => leads (n :: rel)) entries) (copy leads rest)

/-- Every file and link of a tree. -/
def leaves (t : Tree) : List (Rel × Leaf) := t.walk []

/-- The size of a file or a link. -/
def sizeOf : Leaf → ℕ
  | .file _ data => data.length
  | .link target => target.length

/-- `measure`. -/
def measure (t : Tree) : ℕ × ℕ := ((t.leaves.map fun x => sizeOf x.2).sum, t.leaves.length)

end Tree

/-! ## The cache -/

/-- A checkout of the cache, with the bytes and files of its marker. -/
structure Stored where
  tree : Tree
  bytes : ℕ
  files : ℕ
deriving DecidableEq

/-- The checkouts of a cache, by their sha. -/
abbrev Cache := PyStr → Option Stored

/-- `LocalFetcher.fetch`, of a directory under `sha`; none is the rejection of a checkout over the
bound. -/
def fetch (maxBytes : ℕ) (leads : Rel → Bool) (directory : Tree) (sha : PyStr) (cache : Cache) :
    Option Stored × Cache :=
  match cache sha with
  | some stored => (some stored, cache)
  | none =>
    let into := directory.copy leads
    if maxBytes < into.measure.1 then (none, cache)
    else
      let stored : Stored := ⟨into, into.measure.1, into.measure.2⟩
      (some stored, Function.update cache sha (some stored))

/-! ## What is hashed and what is copied -/

namespace Tree

/-- No file, and no link but to a directory, that the hash covers has an ignored name. -/
def Plain : Tree → Prop
  | empty => True
  | file n _ _ rest => n ∉ localIgnored ∧ Plain rest
  | link n _ toDir rest => (n ∈ localIgnored → toDir = true) ∧ Plain rest
  | dir n entries rest => (n ∈ localIgnored ∨ Plain entries) ∧ Plain rest

theorem walk_copy {t : Tree} (h : t.Plain) (leads : Rel → Bool) :
    (t.copy leads).walk localIgnored = t.walk localIgnored := by
  induction t generalizing leads with
  | empty => rfl
  | file n mode data rest ih =>
    obtain ⟨hn, hrest⟩ := h
    simp [copy, walk, hn, ih hrest]
  | link n target toDir rest ih =>
    obtain ⟨hn, hrest⟩ := h
    by_cases hm : n ∈ localIgnored
    · simp [copy, walk, hm, hn hm, ih hrest]
    · simp [copy, walk, hm, ih hrest]
  | dir n entries rest ih ih' =>
    obtain ⟨hn, hrest⟩ := h
    by_cases hm : n ∈ localIgnored
    · simp [copy, walk, hm, ih' hrest]
    · simp [copy, walk, hm, ih (hn.resolve_left hm), ih' hrest]

/-- Nothing that is found with names ignored is missed without. -/
theorem walk_subset (ignored : List PyStr) (t : Tree) : t.walk ignored ⊆ t.leaves := by
  induction t with
  | empty => exact List.Subset.refl _
  | file n mode data rest ih => exact List.cons_subset_cons _ ih
  | link n target toDir rest ih =>
    simp only [leaves, walk, List.not_mem_nil, decide_false, Bool.and_false, Bool.false_eq_true,
      if_false]
    split_ifs
    · exact List.Subset.trans ih (List.subset_cons_self _ _)
    · exact List.cons_subset_cons _ ih
  | dir n entries rest ih ih' =>
    simp only [leaves, walk, List.not_mem_nil, if_false]
    refine List.append_subset.2 ⟨?_, List.Subset.trans ih' (List.subset_append_right _ _)⟩
    split_ifs
    · exact List.nil_subset _
    · exact List.Subset.trans (List.map_subset _ ih) (List.subset_append_left _ _)

/-- Nothing in a copy has an ignored name. -/
theorem name_of_copy {t : Tree} {leads : Rel → Bool} {x : Rel × Leaf}
    (hx : x ∈ (t.copy leads).leaves) : ∀ n ∈ x.1, n ∉ localIgnored := by
  induction t generalizing leads x with
  | empty => simp [copy, leaves, walk] at hx
  | file n mode data rest ih =>
    rw [copy] at hx
    split_ifs at hx with hn
    · exact ih hx
    · rcases List.mem_cons.1 hx with rfl | hx
      · simpa using hn
      · exact ih hx
  | link n target toDir rest ih =>
    rw [copy] at hx
    split_ifs at hx with hn
    · exact ih hx
    · simp only [leaves, walk, List.not_mem_nil, decide_false, Bool.and_false, Bool.false_eq_true,
        if_false, List.mem_cons] at hx
      rcases hx with rfl | hx
      · simpa using hn
      · exact ih hx
  | dir n entries rest ih ih' =>
    rw [copy] at hx
    split_ifs at hx with hn
    · exact ih' hx
    · simp only [leaves, walk, List.not_mem_nil, if_false, List.mem_append, List.mem_map] at hx
      rcases hx with ⟨y, hy, rfl⟩ | hx
      · exact List.forall_mem_cons.2 ⟨hn, ih hy⟩
      · exact ih' hx

/-- What is not plain is covered by the hash. -/
theorem exists_of_not_plain {t : Tree} (h : ¬t.Plain) :
    ∃ x ∈ t.walk localIgnored, ∃ n ∈ x.1, n ∈ localIgnored := by
  induction t with
  | empty => exact absurd trivial h
  | file n mode data rest ih =>
    by_cases hn : n ∈ localIgnored
    · exact ⟨_, List.mem_cons_self .., n, List.mem_singleton_self n, hn⟩
    · obtain ⟨x, hx, hbad⟩ := ih fun hrest => h ⟨hn, hrest⟩
      exact ⟨x, List.mem_cons_of_mem _ hx, hbad⟩
  | link n target toDir rest ih =>
    by_cases hn : n ∈ localIgnored → toDir = true
    · obtain ⟨x, hx, hbad⟩ := ih fun hrest => h ⟨hn, hrest⟩
      refine ⟨x, ?_, hbad⟩
      rw [walk]
      split_ifs
      · exact hx
      · exact List.mem_cons_of_mem _ hx
    · obtain ⟨hmem, hdir⟩ := Classical.not_imp.1 hn
      refine ⟨([n], .link target), ?_, n, List.mem_singleton_self n, hmem⟩
      rw [walk, if_neg (by simp [hdir])]
      exact List.mem_cons_self ..
  | dir n entries rest ih ih' =>
    rw [walk]
    by_cases hn : n ∈ localIgnored ∨ entries.Plain
    · obtain ⟨x, hx, hbad⟩ := ih' fun hrest => h ⟨hn, hrest⟩
      exact ⟨x, List.mem_append_right _ hx, hbad⟩
    · obtain ⟨hmem, hentries⟩ := not_or.1 hn
      obtain ⟨x, hx, m, hm, hbad⟩ := ih hentries
      refine ⟨(n :: x.1, x.2), List.mem_append_left _ ?_, m, List.mem_cons_of_mem _ hm, hbad⟩
      rw [if_neg hmem]
      exact List.mem_map_of_mem hx

theorem mem_files {t : Tree} {x : Rel × Leaf} : x ∈ t.files ↔ x ∈ t.walk localIgnored :=
  (List.perm_insertionSort PathLe _).mem_iff

end Tree

/-! ## A checkout that is stored -/

/-- A checkout has the hash it is stored under, and all that the hash of the directory covered. -/
structure Stored.Same (sha1 : Bytes → PyStr) (directory : Tree) (sha : PyStr) (s : Stored) :
    Prop where
  hash : s.tree.hash sha1 = some sha
  covers : ∀ x ∈ directory.files, x ∈ s.tree.leaves

/-- What `fetch` stores is the copy. -/
theorem fetch_stores {maxBytes : ℕ} {leads : Rel → Bool} {directory : Tree} {sha : PyStr}
    {cache cache' : Cache} {stored : Stored} (hnew : cache sha = none)
    (h : fetch maxBytes leads directory sha cache = (some stored, cache')) :
    cache' sha = some stored ∧ stored.tree = directory.copy leads := by
  rw [fetch, hnew] at h
  dsimp only at h
  split_ifs at h
  · simp at h
  · obtain ⟨hs, rfl⟩ := Prod.mk.inj h
    obtain rfl := Option.some.inj hs
    exact ⟨Function.update_self .., rfl⟩

/-- What is put in the cache under a directory's hash is the same exactly where nothing but
directories, and links to these, has an ignored name. -/
theorem fetch_iff (sha1 : Bytes → PyStr) (maxBytes : ℕ) (leads : Rel → Bool) {directory : Tree}
    {sha : PyStr} (hsha : directory.hash sha1 = some sha) {cache cache' : Cache}
    (hnew : cache sha = none) {stored : Stored}
    (h : fetch maxBytes leads directory sha cache = (some stored, cache')) :
    (∃ s, cache' sha = some s ∧ s.Same sha1 directory sha) ↔ directory.Plain := by
  obtain ⟨hput, htree⟩ := fetch_stores hnew h
  constructor
  · rintro ⟨s, hs, hsame⟩
    obtain rfl := Option.some.inj (hput.symm.trans hs)
    by_contra hplain
    obtain ⟨x, hx, n, hn, hbad⟩ := Tree.exists_of_not_plain hplain
    have hcopied := hsame.covers x (Tree.mem_files.2 hx)
    rw [htree] at hcopied
    exact Tree.name_of_copy hcopied n hn hbad
  · intro hplain
    have hfiles : stored.tree.files = directory.files := by
      rw [Tree.files, htree, Tree.walk_copy hplain, Tree.files]
    refine ⟨stored, hput, ?_, fun x hx => ?_⟩
    · rw [← hsha, Tree.hash, hfiles, Tree.hash]
    · rw [← hfiles, Tree.mem_files] at hx
      exact Tree.walk_subset _ _ hx

/-! ### Two directories -/

/-- A submission with its policy, and a link to that. -/
def toyTree : Tree :=
  .dir (py "pkg") (.file (py "policy.py") 0o644 [1, 2] .empty)
    (.link (py "latest") [112] true (.dir (py ".git") (.file (py "HEAD") 0o644 [] .empty) .empty))

/-- A worktree of git, whose `.git` is a file. -/
def toyWorktree : Tree :=
  .file (py ".git") 0o644 [103] (.file (py "policy.py") 0o644 [1, 2] .empty)

/-- The hash of a directory, with hexadecimal for a hash. -/
def toySha (t : Tree) : PyStr := (t.hash hex).getD []

/-- A directory with a `.git` of git's own is stored as it is. -/
theorem toy_fetch : ∃ s, (fetch 100 (fun _ => false) toyTree (toySha toyTree) fun _ => none).2
    (toySha toyTree) = some s ∧ s.Same hex toyTree (toySha toyTree) := by
  have hplain : toyTree.Plain := by
    simp only [toyTree, Tree.Plain]
    decide +kernel
  have hfetch : fetch 100 (fun _ => false) toyTree (toySha toyTree) (fun _ => none) =
      (some ⟨toyTree.copy fun _ => false, 3, 2⟩,
        (fetch 100 (fun _ => false) toyTree (toySha toyTree) fun _ => none).2) :=
    Prod.ext (by decide +kernel) rfl
  exact (fetch_iff hex 100 (fun _ => false) (by decide +kernel) rfl hfetch).2 hplain

/-- The checkout of a worktree has another hash than it is stored under, and not its `.git`. -/
theorem fetch_strays : ∃ s, toyWorktree.hash hex = some (toySha toyWorktree) ∧
    (fetch 100 (fun _ => false) toyWorktree (toySha toyWorktree) fun _ => none).2
      (toySha toyWorktree) = some s ∧
    s.tree.hash hex ≠ some (toySha toyWorktree) ∧
    ∃ x ∈ toyWorktree.files, x ∉ s.tree.leaves := by
  refine ⟨⟨toyWorktree.copy fun _ => false, 2, 1⟩, by decide +kernel, by decide +kernel,
    by decide +kernel, ([py ".git"], .file 0o644 [103]), by decide +kernel, by decide +kernel⟩

end Checkout

end IcilOrchestrator

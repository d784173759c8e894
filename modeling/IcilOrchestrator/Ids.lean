import Mathlib
import IcilOrchestrator.Canon

/-!
# Identifiers

A submission is a repository at a revision; its key, the id of a duel and the id of an event
are hashes of published values.
-/

namespace IcilOrchestrator

open Python

/-- A letter or a digit. -/
def isAlnum (c : ℕ) : Bool :=
  isDigit c || decide (65 ≤ c ∧ c ≤ 90) || decide (97 ≤ c ∧ c ≤ 122)

/-- `[A-Za-z0-9][A-Za-z0-9._-]*`. -/
def isName : PyStr → Bool
  | [] => false
  | c :: s => isAlnum c && s.all fun c => isAlnum c || c == 46 || c == 95 || c == 45

/-- `is_repo`. -/
def isRepo (s : PyStr) : Bool :=
  (match s.dropWhile (· != 47) with
    | _ :: name => isName (s.takeWhile (· != 47)) && isName name
    | [] => false) && decide (s.length ≤ 200)

/-- `is_commit_sha`. -/
def isCommitSha (s : PyStr) : Bool := s.length == 40 && s.all isHexLower

/-- `submission_key`. -/
def submissionKey (c : Crypto) (repo revision : PyStr) : PyStr :=
  (c.sha256 (encodeUtf8 (repo ++ py "@" ++ revision))).take 16

/-- `SubmissionRef`. -/
structure SubmissionRef where
  key : PyStr
  repo : PyStr
  revision : PyStr
deriving DecidableEq

/-- `SubmissionRef.resolved`; none is the `ValueError`. -/
def SubmissionRef.resolved (c : Crypto) (repo revision : PyStr) : Option SubmissionRef :=
  if isRepo repo && isCommitSha revision then
    some ⟨submissionKey c repo revision, repo, revision⟩
  else none

/-- `duel_id`. -/
def duelId (c : Crypto) (specVersion : ℕ) (track : PyStr) (challenger : SubmissionRef)
    (king : Option SubmissionRef) : PyStr :=
  c.sha256 (encodeUtf8 (List.intercalate (py "|")
    [decimal specVersion, track, challenger.key, challenger.revision,
      (king.map fun k => k.key).getD (py "none"), (king.map fun k => k.revision).getD (py "none")]))

/-- `event_id`. -/
def eventIdOf (c : Crypto) (kind track : PyStr) (block : ℤ) (subject : PyStr) : PyStr :=
  c.sha256 (encodeUtf8 (List.intercalate (py "|")
    [py "event", kind, track, (intLit block).text, subject]))

/-! ## What a resolved submission is made of -/

theorem isAscii_of_isHexLower {s : PyStr} (h : ∀ c ∈ s, isHexLower c = true) : IsAscii s := by
  intro c hc
  have := h c hc
  simp only [isHexLower, Bool.or_eq_true, decide_eq_true_eq] at this
  omega

theorem isAscii_sha256 (c : Crypto) (data : Bytes) : IsAscii (c.sha256 data) := by
  have h := c.isSha256_sha256 data
  rw [isSha256, Bool.and_eq_true, List.all_eq_true] at h
  exact isAscii_of_isHexLower h.2

theorem isAscii_submissionKey (c : Crypto) (repo revision : PyStr) :
    IsAscii (submissionKey c repo revision) :=
  fun x hx => isAscii_sha256 c _ x (List.mem_of_mem_take hx)

theorem isAscii_of_isName {s : PyStr} (h : isName s = true) : IsAscii s := by
  have hchar : ∀ c, (isAlnum c || c == 46 || c == 95 || c == 45) = true → c < 0x80 := by
    intro c hc
    simp only [isAlnum, isDigit, Bool.or_eq_true, decide_eq_true_eq, beq_iff_eq] at hc
    omega
  cases s with
  | nil => exact isAscii_nil
  | cons c s =>
    rw [isName, Bool.and_eq_true, List.all_eq_true] at h
    exact isAscii_cons.2 ⟨hchar c (by simp [h.1]), fun x hx => hchar x (h.2 x hx)⟩

theorem isAscii_of_isRepo {s : PyStr} (h : isRepo s = true) : IsAscii s := by
  rw [isRepo, Bool.and_eq_true] at h
  have hs := List.takeWhile_append_dropWhile (p := (· != 47)) (l := s)
  cases hd : s.dropWhile (· != 47) with
  | nil => simp [hd] at h
  | cons x name =>
    rw [hd] at h hs
    have hx : x = 47 := by
      have := List.head_dropWhile_not (p := (· != 47)) (l := s) (by simp [hd])
      simpa [hd] using this
    obtain ⟨howner, hname⟩ := Bool.and_eq_true_iff.1 h.1
    intro c hc
    rw [← hs, List.mem_append, List.mem_cons] at hc
    rcases hc with hc | rfl | hc
    · exact isAscii_of_isName howner c hc
    · omega
    · exact isAscii_of_isName hname c hc

/-- Every part of a resolved submission is ASCII. -/
theorem isAscii_resolved {c : Crypto} {repo revision : PyStr} {ref : SubmissionRef}
    (h : SubmissionRef.resolved c repo revision = some ref) :
    IsAscii ref.key ∧ IsAscii ref.repo ∧ IsAscii ref.revision := by
  unfold SubmissionRef.resolved at h
  split_ifs at h with hok
  obtain rfl := Option.some.inj h
  obtain ⟨hrepo, hrev⟩ := Bool.and_eq_true_iff.1 hok
  refine ⟨isAscii_submissionKey c repo revision, isAscii_of_isRepo hrepo, ?_⟩
  rw [isCommitSha, Bool.and_eq_true, List.all_eq_true] at hrev
  exact isAscii_of_isHexLower hrev.2

end IcilOrchestrator

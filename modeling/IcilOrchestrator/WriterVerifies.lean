import Mathlib
import IcilOrchestrator.VerifySound
import IcilOrchestrator.WriterHead

/-!
# The writer satisfies the verifier

Successive processes write a track : events, records and rebuilds of the head, each under
the store's lock, each killed anywhere (`Store.writers`). What they keep act by act is an
index of whole entries with a torn line after them (`Store.Kept`), and what a completed
append or rebuild leaves is a whole index and the head that follows it (`Store.Settled`).
The verifier reports nothing of such an index and such a head (`Verifier.verifyTrack_quiet`),
so it reports nothing after any completed append or rebuild of any run
(`Store.writers_verify`).
-/

set_option linter.unusedSectionVars false

namespace IcilOrchestrator

open Python Prog

variable {F : Type} [PyFloat F] [PyRepr F]

/-! ## What the verifier says of an index and a head -/

/-- The errors of the checks of an index's lines. -/
def Problem.isIndex : Problem F → Bool
  | .noNewline _ => true
  | .blankLine _ => true
  | .notUtf8 _ => true
  | .noSignature _ => true
  | .unparsable _ => true
  | .notAnObject _ => true
  | .notCanonical _ => true
  | .notASignature _ => true
  | .badSignature _ => true
  | .wrongSeq .. => true
  | .wrongPart _ => true
  | _ => false

/-- The errors of the checks of a head. -/
def Problem.isHead : Problem F → Bool
  | .headUnreadable _ => true
  | .headClaims _ => true
  | .headNotLast _ => true
  | .headDiffers .. => true
  | .headKing _ => true
  | .schema _ ref _ _ => ref == py "Head"
  | _ => false

/-- No error of an index or of a head. -/
def Found.Quiet (f : Found F) : Prop := ∀ p ∈ f.errors, p.isIndex = false ∧ p.isHead = false

theorem Found.quiet_of_nil {f : Found F} (h : f.errors = []) : f.Quiet := by simp [Quiet, h]

theorem Found.quiet_append {f g : Found F} (hf : f.Quiet) (hg : g.Quiet) : (f ++ g).Quiet := by
  intro p hp
  rw [Found.errors_append] at hp
  exact (List.mem_append.1 hp).elim (hf p) (hg p)

theorem Found.quiet_err {p : Problem F} (h : p.isIndex = false ∧ p.isHead = false) :
    (Found.err p).Quiet := by
  intro q hq
  rw [Found.errors_err, List.mem_singleton] at hq
  rwa [hq]

theorem Found.quiet_errIf {c : Bool} {p : Problem F} (h : p.isIndex = false ∧ p.isHead = false) :
    (Found.errIf c p).Quiet := by
  cases c
  · exact quiet_of_nil rfl
  · exact quiet_err h

theorem Found.quiet_errs {ps : List (Problem F)}
    (h : ∀ p ∈ ps, p.isIndex = false ∧ p.isHead = false) : (Found.errs ps).Quiet := h

namespace Verifier

variable {v : Verifier F} {track key : PyStr}

theorem quiet_check {ref : String} (h : ref ≠ "Head") (doc : Json F) (place : PyStr) :
    (v.check ref doc place).Quiet := by
  refine Found.quiet_errs fun p hp => ?_
  obtain ⟨e, -, rfl⟩ := List.mem_map.1 hp
  exact ⟨rfl, by simpa [Problem.isHead] using h⟩

theorem quiet_verifyClips (l : Line) (shas : List PyStr) {hashed : Hashed}
    {r : Found F × Hashed} (h : v.verifyClips l shas hashed = .ok r) : r.1.Quiet := by
  induction shas generalizing hashed r with
  | nil =>
    obtain rfl := Except.ok.inj h
    exact Found.quiet_of_nil rfl
  | cons sha shas ih =>
    rw [verifyClips] at h
    obtain ⟨b, -, h⟩ := bind_eq_ok.1 h
    cases b with
    | true =>
      rw [if_pos rfl] at h
      obtain ⟨c, -, h⟩ := bind_eq_ok.1 h
      obtain ⟨r', hr', h⟩ := bind_eq_ok.1 h
      obtain rfl := Except.ok.inj h
      exact Found.quiet_append (Found.quiet_append (Found.quiet_of_nil rfl)
        (Found.quiet_errIf ⟨rfl, rfl⟩)) (ih hr')
    | false =>
      rw [if_neg (by simp)] at h
      obtain ⟨r', hr', h⟩ := bind_eq_ok.1 h
      obtain rfl := Except.ok.inj h
      exact Found.quiet_append (Found.quiet_err ⟨rfl, rfl⟩) (ih hr')

theorem quiet_verifyHash (l : Line) (record : Dict F) (data : Bytes) :
    (v.verifyHash l record data).Quiet := by
  unfold verifyHash
  split
  · exact Found.quiet_of_nil rfl
  · exact Found.quiet_errIf ⟨rfl, rfl⟩

theorem quiet_verifyFields (l : Line) (record event : Dict F) :
    (verifyFields l record event).Quiet := by
  refine Found.quiet_append (Found.quiet_append (Found.quiet_errs fun p hp => ?_)
    (Found.quiet_errs fun p hp => ?_)) (Found.quiet_errIf ⟨rfl, rfl⟩)
  · obtain ⟨k, -, hk⟩ := List.mem_filterMap.1 hp
    split_ifs at hk
    obtain rfl := Option.some.inj hk
    exact ⟨rfl, rfl⟩
  · obtain ⟨k, -, hk⟩ := List.mem_filterMap.1 hp
    split_ifs at hk
    obtain rfl := Option.some.inj hk
    exact ⟨rfl, rfl⟩

/-- The event of a record is no matter of the index. -/
theorem quiet_verifyEvent (l : Line) (record : Dict F) {hashed : Hashed} {r : Found F × Hashed}
    (h : v.verifyEvent l record hashed = .ok r) : r.1.Quiet := by
  unfold verifyEvent at h
  obtain ⟨b, -, h⟩ := bind_eq_ok.1 h
  cases b with
  | false =>
    obtain rfl := Except.ok.inj h
    exact Found.quiet_err ⟨rfl, rfl⟩
  | true =>
    rw [if_pos rfl] at h
    obtain ⟨data, -, h⟩ := bind_eq_ok.1 h
    split at h
    · obtain ⟨r', hr', h⟩ := bind_eq_ok.1 h
      obtain rfl := Except.ok.inj h
      exact Found.quiet_append (Found.quiet_append (Found.quiet_append (Found.quiet_append
        (quiet_verifyHash _ _ _) (Found.quiet_of_nil rfl)) (quiet_check (by decide) _ _))
        (quiet_verifyFields _ _ _)) (quiet_verifyClips _ _ hr')
    · obtain rfl := Except.ok.inj h
      exact Found.quiet_append (quiet_verifyHash _ _ _) (Found.quiet_err ⟨rfl, rfl⟩)
    · obtain rfl := Except.ok.inj h
      exact Found.quiet_append (quiet_verifyHash _ _ _) (Found.quiet_err ⟨rfl, rfl⟩)

/-! ## The loops over an index of entries -/

/-- What the loop carries after some entries. -/
structure Walked (es : List (Entry F)) (s s' : TrackState F) : Prop where
  expected : s'.expectedSeq = s.expectedSeq + es.length
  last : s'.last = ((es.map Entry.record).getLast?).or s.last
  king : foldKing s.king (es.map Entry.record) = .ok s'.king

theorem Walked.nil (s : TrackState F) : Walked [] s s := ⟨by simp, by simp, rfl⟩

theorem Walked.append {es fs : List (Entry F)} {s s' s'' : TrackState F} (h : Walked es s s')
    (h' : Walked fs s' s'') : Walked (es ++ fs) s s'' where
  expected := by
    rw [h'.expected, h.expected, List.length_append]
    push_cast
    ring
  last := by rw [h'.last, h.last, List.map_append, List.getLast?_append, Option.or_assoc]
  king := by
    rw [List.map_append, foldKing_append, h.king]
    exact h'.king

/-- Entries that stand where the index has them. -/
structure Placed (v : Verifier F) (part : ℕ) (expected : ℤ) (es : List (Entry F)) : Prop where
  seqs : InSequence expected (es.map Entry.record)
  part : ∀ e ∈ es, InPart v part e.record
  kind : ∀ e ∈ es, crowns (e.record.get (py "kind")) = true

variable {signer : Signer v.crypto}

/-- The record of an entry. -/
theorem verifyRecord_entry {l : Line} {e : Entry F} {s : TrackState F}
    (h : Placed v l.part s.expectedSeq [e]) {r : Found F × TrackState F}
    (hr : v.verifyRecord l signer.verifyKeyHex e.body (signer.sign e.body) e.record s = .ok r) :
    r.1.Quiet ∧ Walked [e] s r.2 := by
  have hseq : e.record.get (py "seq") = .int s.expectedSeq := h.seqs.1
  have hpart := h.part e (by simp) _ hseq
  have hking := kingAfter_of_crowns (h.kind e (by simp)) s.king
  have hsigned : (v.verifySigned l signer.verifyKeyHex e.body (signer.sign e.body) e.record).errors =
      [] := verifySigned_eq_nil.2 ⟨e.canonical, signer.isSignature_sign _,
        signer.verifySignature_sign _⟩
  have hfiled : (v.verifyFiled l e.record).Quiet := by
    refine Found.quiet_append ?_ (Found.quiet_errIf ⟨rfl, rfl⟩)
    refine Found.quiet_of_nil ?_
    simp [hseq, asInt?, hpart]
  have hpyEq : (Json.int s.expectedSeq : Json F).pyEq (.int s.expectedSeq) = true := by
    simp [Json.pyEq, Json.num?]
  unfold verifyRecord verifySeq at hr
  rw [hseq, if_pos hpyEq, ok_bind, hking, ok_bind] at hr
  obtain ⟨r', hevent, hr⟩ := bind_eq_ok.1 hr
  obtain rfl := Except.ok.inj hr
  refine ⟨?_, ?_, ?_, ?_⟩
  · exact Found.quiet_append (Found.quiet_append (Found.quiet_append (Found.quiet_append
      (Found.quiet_append (Found.quiet_of_nil hsigned) (Found.quiet_of_nil rfl)) hfiled)
      (quiet_check (by decide) _ _)) (Found.quiet_of_nil rfl)) (quiet_verifyEvent _ _ hevent)
  · simp [nextExpected, hseq, asInt?]
  · simp
  · simp only [List.map_cons, List.map_nil, foldKing, hking]
    rfl

/-- The line of an entry. -/
theorem verifyLine_entry {l : Line} {e : Entry F} {s : TrackState F}
    (h : Placed v l.part s.expectedSeq [e]) {r : Found F × TrackState F}
    (hr : v.verifyLine l signer.verifyKeyHex (e.bytes signer) s = .ok r) :
    r.1.Quiet ∧ Walked [e] s r.2 := by
  have htab : (e.text signer).contains 9 = true := by simp [Entry.text]
  rw [verifyLine, e.decodeUtf8_bytes] at hr
  simp only [htab, Bool.not_true, Bool.false_eq_true, if_false, e.splitTab_text,
    e.loads_body false] at hr
  exact verifyRecord_entry h hr

/-- The lines of a part. -/
theorem verifyLines_entries {part : ℕ} (p : List (Entry F)) :
    ∀ {n : ℕ} {s : TrackState F}, Placed v part s.expectedSeq p → ∀ {r : Found F × TrackState F},
      v.verifyLines track part signer.verifyKeyHex n ((p.map fun e => e.bytes signer) ++ [[]]) s =
        .ok r → r.1.Quiet ∧ Walked p s r.2 := by
  induction p with
  | nil =>
    intro n s _ r hr
    obtain rfl := Except.ok.inj hr
    exact ⟨Found.quiet_of_nil rfl, Walked.nil s⟩
  | cons e p ih =>
    intro n s h r hr
    have hempty : (e.bytes signer).isEmpty = false := by simp [e.bytes_ne_nil signer]
    have hrest : (p.map (fun e : Entry F => e.bytes signer) ++ [[]]).isEmpty = false := by simp
    rw [List.map_cons, List.cons_append, verifyLines, hempty, if_neg (by simp)] at hr
    obtain ⟨r₁, h₁, hr⟩ := bind_eq_ok.1 hr
    obtain ⟨r₂, h₂, hr⟩ := bind_eq_ok.1 hr
    obtain rfl := Except.ok.inj hr
    obtain ⟨hq₁, hw₁⟩ := verifyLine_entry (l := ⟨track, part, n⟩)
      ⟨⟨h.seqs.1, trivial⟩, by simpa using h.part e (by simp), by simpa using h.kind e (by simp)⟩ h₁
    have hnext : r₁.2.expectedSeq = s.expectedSeq + 1 := by simpa using hw₁.expected
    obtain ⟨hq₂, hw₂⟩ := ih (s := r₁.2) ⟨by rw [hnext]; exact h.seqs.2,
      fun e he => h.part e (by simp [he]), fun e he => h.kind e (by simp [he])⟩ h₂
    refine ⟨Found.quiet_append (Found.quiet_append (Found.quiet_of_nil ?_) hq₁) hq₂,
      hw₁.append hw₂⟩
    rw [hrest]
    rfl

/-- The parts of an index. -/
theorem verifyParts_entries (signer : Signer v.crypto) {ps : List (List (Entry F))}
    (hshow : v.dir.ShowsIndex track (ps.map (render signer))) (fuel : ℕ) :
    ∀ {part : ℕ} {s : TrackState F}, ps.length < part + fuel →
      InSequence s.expectedSeq ((ps.drop part).flatten.map Entry.record) →
      (∀ i p, ps[i]? = some p → ∀ e ∈ p, InPart v i e.record) →
      (∀ e ∈ ps.flatten, crowns (e.record.get (py "kind")) = true) →
      ∀ {r : Found F × TrackState F},
        v.verifyParts track signer.verifyKeyHex fuel part s = .ok r →
        r.1.Quiet ∧ Walked (ps.drop part).flatten s r.2 := by
  induction fuel with
  | zero =>
    intro part s hf _ _ _ r hr
    obtain rfl := Except.ok.inj hr
    rw [List.drop_eq_nil_of_le (by omega)]
    exact ⟨Found.quiet_of_nil rfl, Walked.nil s⟩
  | succ fuel ih =>
    intro part s hf hseqs hpart hkind r hr
    rw [verifyParts] at hr
    rcases Nat.lt_or_ge part ps.length with hlt | hge
    · rw [hshow.node_of_lt (by simpa using hlt), Node.exists?_file, ok_bind, if_pos rfl,
        Node.readBytes_file, ok_bind, List.getElem_map, lines_render] at hr
      obtain ⟨r₁, h₁, hr⟩ := bind_eq_ok.1 hr
      obtain ⟨r₂, h₂, hr⟩ := bind_eq_ok.1 hr
      obtain rfl := Except.ok.inj hr
      have hdrop : ps.drop part = ps[part] :: ps.drop (part + 1) := List.drop_eq_getElem_cons hlt
      rw [hdrop, List.flatten_cons, List.map_append, inSequence_append, List.length_map] at hseqs
      have hmem : ps[part] ∈ ps := List.getElem_mem hlt
      obtain ⟨hq₁, hw₁⟩ := verifyLines_entries ps[part]
        ⟨hseqs.1, hpart part _ (List.getElem?_eq_getElem hlt),
          fun e he => hkind e (List.mem_flatten.2 ⟨_, hmem, he⟩)⟩ h₁
      obtain ⟨hq₂, hw₂⟩ := ih (s := r₁.2) (by omega) (by rw [hw₁.expected]; exact hseqs.2) hpart
        hkind h₂
      rw [hdrop, List.flatten_cons]
      exact ⟨Found.quiet_append hq₁ hq₂, hw₁.append hw₂⟩
    · rw [hshow.node_of_le (by simpa using hge), Node.exists?_missing, ok_bind] at hr
      obtain rfl := Except.ok.inj hr
      rw [List.drop_eq_nil_of_le hge]
      exact ⟨Found.quiet_of_nil rfl, Walked.nil s⟩

theorem quiet_verifyQueue {r : Found F} (h : v.verifyQueue track = .ok r) : r.Quiet := by
  unfold verifyQueue at h
  obtain ⟨b, -, h⟩ := bind_eq_ok.1 h
  cases b with
  | false =>
    obtain rfl := Except.ok.inj h
    exact Found.quiet_of_nil rfl
  | true =>
    rw [if_pos rfl] at h
    split at h
    · obtain rfl := Except.ok.inj h
      exact quiet_check (by decide) _ _
    · obtain rfl := Except.ok.inj h
      exact Found.quiet_of_nil rfl

/-- The index parts are signed canonical lines, each ended by one newline, with numbers from 1
on, in order and each in its part. -/
structure IndexWritten (v : Verifier F) (key track : PyStr)
    (ps : List (List (SignedLine F v.crypto key))) : Prop where
  parts : v.parts track = ps.map fun p => joinLines (p.map SignedLine.bytes)
  seqs : ∀ (i : ℕ) l, ps.flatten[i]? = some l → l.record.get (py "seq") = .int (i + 1)
  filed : ∀ (i : ℕ) p, ps[i]? = some p → ∀ l ∈ p, ∀ seq, l.record.get (py "seq") = .int seq →
    v.spec.partOf seq = i

/-- The signed line of an entry. -/
def entryLine {c : Crypto} (signer : Signer c) (e : Entry F) :
    SignedLine F c signer.verifyKeyHex where
  record := e.record
  body := e.body
  sig := signer.sign e.body
  canonical := e.canonical
  isSig := signer.isSignature_sign _
  signed := signer.verifySignature_sign _

theorem joinLines_entryLines {c : Crypto} (signer : Signer c) (p : List (Entry F)) :
    joinLines ((p.map (entryLine signer)).map SignedLine.bytes) = render signer p := by
  rw [List.map_map]
  rfl

theorem partsFrom_shows {parts : List Bytes} (h : v.dir.ShowsIndex track parts) (fuel : ℕ) :
    ∀ {part : ℕ}, parts.length < part + fuel → v.partsFrom track fuel part = parts.drop part := by
  induction fuel with
  | zero =>
    intro part hf
    rw [List.drop_eq_nil_of_le (by omega)]
    rfl
  | succ fuel ih =>
    intro part hf
    rw [partsFrom]
    rcases Nat.lt_or_ge part parts.length with hlt | hge
    · rw [h.node_of_lt hlt, List.drop_eq_getElem_cons hlt, ← ih (by omega)]
    · rw [h.node_of_le hge, List.drop_eq_nil_of_le hge]

theorem parsedRecord_bytes {c : Crypto} (signer : Signer c) (e : Entry F) :
    parsedRecord (F := F) (e.bytes signer) = some e.record := by
  have htab : (e.text signer).contains 9 = true := by simp [Entry.text]
  rw [parsedRecord, e.decodeUtf8_bytes]
  simp only [htab, Bool.not_true, Bool.false_eq_true, if_false, e.splitTab_text,
    e.loads_body false]

theorem partRecords_render {c : Crypto} (signer : Signer c) (p : List (Entry F)) :
    partRecords (render signer p) = p.map Entry.record := by
  have hnil : [([] : Bytes)].filterMap (parsedRecord (F := F)) = [] := rfl
  rw [partRecords, lines_render, List.filterMap_append, hnil, List.append_nil, List.filterMap_map]
  refine (List.filterMap_congr fun e _ => ?_).trans (congrFun List.filterMap_eq_map p)
  exact parsedRecord_bytes signer e

end Verifier

namespace Store

variable {st : Store} {signer : Signer st.crypto} {track : PyStr} {d : Dir}

/-- The verifier of what the store writes. -/
def verifier (st : Store) (iterErrors : PyStr → Json F → List (PyStr × PyStr)) (d : Dir) :
    Verifier F := ⟨st.crypto, iterErrors, st.spec, d⟩

/-- An entry is in the part that its number names. -/
theorem Index.inPart {es : List (Entry F)} {ps : List (List (Entry F))}
    (h : st.Index signer track d es []) (hfill : Filled st.spec.per ps) (hes : ps.flatten = es)
    (iterErrors : PyStr → Json F → List (PyStr × PyStr)) {i : ℕ} {p : List (Entry F)}
    (hp : ps[i]? = some p) {e : Entry F} (he : e ∈ p) :
    Verifier.InPart (st.verifier iterErrors d) i e.record := by
  intro seq hseq
  obtain ⟨j, hj⟩ := List.mem_iff_getElem?.1 he
  have hjlt : j < p.length := (List.getElem?_eq_some_iff.1 hj).1
  obtain ⟨hflat, hle⟩ := hfill.getElem?_flatten hp hjlt
  have hrec : (es.map Entry.record)[i * st.spec.per + j]? = some e.record := by
    rw [← hes, List.getElem?_map, hflat, hj]
    rfl
  have hnum := h.seqs.get hrec
  rw [hseq, Json.int.injEq] at hnum
  have hval : seq - 1 = ((i * st.spec.per + j : ℕ) : ℤ) := by rw [hnum]; ring
  show (seq - 1) / (st.spec.per : ℤ) = i
  rw [hval, ← Int.natCast_div, Nat.mul_comm, Nat.mul_add_div st.spec.per_pos,
    Nat.div_eq_of_lt (by omega), Nat.add_zero]

/-! ## What a completed append or rebuild leaves -/

/-- The head of no record. -/
def InitHead (F : Type) [PyFloat F] (st : Store) (t : PyStr) (d : Dir) : Prop :=
  ∃ text, dumps indented true (.obj (st.headDict 0 [] 0 [] (.null : Json F))) = some text ∧
    d.node (headPath t) = .file (encodeUtf8 (text ++ [10]))

/-- A track as `init` leaves it : no index, and the head of no record. -/
def Initialised (F : Type) [PyFloat F] (st : Store) (track : PyStr) (d : Dir) : Prop :=
  (∀ k, d.node (indexPartPath track k) = .missing) ∧ InitHead F st track d

/-- The head follows the entries. -/
structure HeadFollows (st : Store) (track : PyStr) (d : Dir) (es : List (Entry F)) : Prop where
  none : es = [] →
    Store.InitHead F st track d
  last : ∀ init e, es = init ++ [e] → ∃ signed, e.record = Json.sortDict signed ∧
    (Json.obj signed).WF ∧ Headed signed ∧
    st.HeadShows track d es.length signed (crownOf signed)

/-- A whole index and the head that follows it. -/
structure Settled (st : Store) (signer : Signer st.crypto) (track : PyStr) (d : Dir)
    (es : List (Entry F)) : Prop where
  index : st.Index signer track d es []
  headed : ∀ e ∈ es, Headed e.record
  head : st.HeadFollows track d es

variable {es : List (Entry F)}

/-- The crown of records of the four kinds is the last one's. -/
theorem foldKing_entries {init : List (Entry F)} {e : Entry F} (king : Json F)
    (h : ∀ e' ∈ init ++ [e], Headed e'.record) :
    foldKing king ((init ++ [e]).map Entry.record) = .ok (crownOf e.record) := by
  have hall : ∀ (es : List (Entry F)) (king : Json F), (∀ e' ∈ es, Headed e'.record) →
      ∃ king', foldKing king (es.map Entry.record) = .ok king' := by
    intro es
    induction es with
    | nil => exact fun king _ => ⟨king, rfl⟩
    | cons x es ih =>
      intro king hx
      obtain ⟨king', hk⟩ := ih (crownOf x.record) fun e' he' => hx e' (by simp [he'])
      refine ⟨king', ?_⟩
      rw [List.map_cons, foldKing, kingAfter_of_crowns (hx x (by simp)).kind]
      exact hk
  obtain ⟨king', hk⟩ := hall init king fun e' he' => h e' (by simp [he'])
  rw [List.map_append, foldKing_append, hk]
  show foldKing king' [e.record] = _
  rw [foldKing, kingAfter_of_crowns (h e (by simp)).kind]
  rfl

/-- The verifier reports nothing of the index and the head of a settled track. -/
theorem Settled.quiet (h : st.Settled signer track d es)
    {iterErrors : PyStr → Json F → List (PyStr × PyStr)}
    (hschema : (st.verifier iterErrors d).SchemaSilent) {hashed : Hashed} {r : Found F × Hashed}
    (hr : (st.verifier iterErrors d).verifyTrack signer.verifyKeyHex track hashed = .ok r) :
    r.1.Quiet := by
  obtain ⟨ps, hfill, hes, hshow, -⟩ := h.index.parts
  rw [rendered_nil] at hshow
  have hlen : (ps.map (render signer)).length ≤ d.parts := hshow.length_le
  rw [List.length_map] at hlen
  unfold Verifier.verifyTrack at hr
  obtain ⟨r₁, h₁, hr⟩ := bind_eq_ok.1 hr
  obtain ⟨queue, hqueue, hr⟩ := bind_eq_ok.1 hr
  obtain rfl := Except.ok.inj hr
  have hpart : ∀ i p, ps[i]? = some p → ∀ e ∈ p,
      Verifier.InPart (st.verifier iterErrors d) i e.record :=
    fun i p hp e he => h.index.inPart hfill hes iterErrors hp he
  obtain ⟨hquiet, hwalked⟩ := Verifier.verifyParts_entries (v := st.verifier iterErrors d)
    signer hshow ((st.verifier iterErrors d).dir.parts + 1)
    (by simp only [verifier]; omega)
    (by rw [List.drop_zero, hes]; exact h.index.seqs) hpart
    (fun e he => (h.headed e (hes ▸ he)).kind) h₁
  rw [List.drop_zero, hes] at hwalked
  have hhead : ((st.verifier iterErrors d).verifyHead track r₁.2.last r₁.2.king).errors = [] := by
    rcases List.eq_nil_or_concat es with rfl | ⟨init, e, rfl⟩
    · obtain ⟨text, hd, hnode⟩ := h.head.none rfl
      have hlast : r₁.2.last = none := by simpa [Verifier.TrackState.start] using hwalked.last
      have hking : r₁.2.king = .null := (Except.ok.inj hwalked.king).symm
      rw [hlast, hking]
      exact Verifier.verifyHead_of_init hschema hd hnode
    · rw [List.concat_eq_append] at h hwalked
      obtain ⟨signed, he, hwf, hheaded, hshows⟩ := h.head.last init e rfl
      have hlast : r₁.2.last = some e.record := by
        simpa [Verifier.TrackState.start] using hwalked.last
      have hking : r₁.2.king = crownOf e.record := by
        have := hwalked.king
        rw [foldKing_entries _ h.headed] at this
        exact (Except.ok.inj this).symm
      have hseq := h.index.seqs.get (i := init.length) (r := e.record) (by simp)
      have hlen' : (init ++ [e]).length = init.length + 1 := by simp
      rw [hlast, hking]
      refine Verifier.verifyHead_of_shows st (n := init.length + 1) hschema he hwf hheaded ?_ ?_
      · rw [hseq]
        push_cast
        ring_nf
      · rwa [hlen'] at hshows
  exact Found.quiet_append (Found.quiet_append hquiet (Found.quiet_of_nil hhead))
    (Verifier.quiet_verifyQueue hqueue)

/-- The index of a settled track, as the verifier reads it. -/
theorem Settled.written (h : st.Settled signer track d es)
    (iterErrors : PyStr → Json F → List (PyStr × PyStr)) :
    ∃ ps, Verifier.IndexWritten (st.verifier iterErrors d) signer.verifyKeyHex track ps ∧
      ps.flatten.map Verifier.SignedLine.record = es.map Entry.record := by
  obtain ⟨ps, hfill, hes, hshow, -⟩ := h.index.parts
  rw [rendered_nil] at hshow
  have hlen : (ps.map (render signer)).length ≤ d.parts := hshow.length_le
  have hflat : (ps.map fun p => p.map (Verifier.entryLine signer)).flatten =
      es.map (Verifier.entryLine signer) := by rw [← List.map_flatten, hes]
  refine ⟨ps.map fun p => p.map (Verifier.entryLine signer), ⟨?_, ?_, ?_⟩, ?_⟩
  · rw [Verifier.parts, Verifier.partsFrom_shows (v := st.verifier iterErrors d) hshow _
      (by simp only [verifier]; omega), List.drop_zero, List.map_map]
    exact List.map_congr_left fun p _ => (Verifier.joinLines_entryLines signer p).symm
  · intro i l hl
    have hl' : (es.map (Verifier.entryLine signer))[i]? = some l := hflat ▸ hl
    rw [List.getElem?_map] at hl'
    obtain ⟨e, he, rfl⟩ := Option.map_eq_some_iff.1 hl'
    have hrec : (es.map Entry.record)[i]? = some e.record := by rw [List.getElem?_map, he]; rfl
    rw [Verifier.entryLine, h.index.seqs.get hrec, add_comm]
  · intro i q hq l hl
    rw [List.getElem?_map] at hq
    obtain ⟨p, hp, rfl⟩ := Option.map_eq_some_iff.1 hq
    obtain ⟨e, he, rfl⟩ := List.mem_map.1 hl
    exact h.index.inPart hfill hes iterErrors hp he
  · have hrecords := congrArg (List.map Verifier.SignedLine.record) hflat
    rw [List.map_map (l := es)] at hrecords
    exact hrecords

/-- Nothing in entries in sequence makes the verifier raise, but their look-ups. -/
theorem recordsOk_entries {v : Verifier F} {n : ℤ} (hseqs : InSequence n (es.map Entry.record))
    (hheaded : ∀ e ∈ es, Headed e.record) (hlook : ∀ e ∈ es, v.LookupsOk track e.record) :
    v.RecordsOk track n (es.map Entry.record) := by
  induction es generalizing n with
  | nil => trivial
  | cons e es ih =>
    have hseq : e.record.get (py "seq") = .int n := hseqs.1
    refine ⟨⟨fun _ => ?_, fun hne => ?_, hlook e (by simp)⟩, ?_⟩
    · rcases crowns_iff.1 (hheaded e (by simp)).kind with hk | hk | hk | hk <;> rw [hk] <;> rfl
    · rw [hseq] at hne
      simp [Json.pyEq, Json.num?] at hne
    · rw [Verifier.nextExpected, hseq]
      exact ih hseqs.2 (fun e he => hheaded e (by simp [he])) fun e he => hlook e (by simp [he])

/-- The verifier goes through a settled track, when its look-ups are not refused. -/
theorem Settled.returns (h : st.Settled signer track d es)
    (iterErrors : PyStr → Json F → List (PyStr × PyStr))
    (hlookups : ∀ e ∈ es, (st.verifier iterErrors d).LookupsOk track e.record)
    (hqueue : d.node (queuePath track) ≠ .refused) {hashed : Hashed}
    (hhashed : (st.verifier iterErrors d).HashedOk hashed) :
    ∃ r, (st.verifier iterErrors d).verifyTrack signer.verifyKeyHex track hashed = .ok r := by
  obtain ⟨ps, hfill, hes, hshow, -⟩ := h.index.parts
  rw [rendered_nil] at hshow
  have hlen := hshow.length_le
  have hread : ∀ part, d.node (indexPartPath track part) = .missing ∨
      ∃ data, d.node (indexPartPath track part) = .file data := by
    intro part
    rw [hshow part]
    cases (ps.map (render signer))[part]? with
    | none => exact Or.inl rfl
    | some data => exact Or.inr ⟨data, rfl⟩
  have hparts : (st.verifier iterErrors d).partsFrom track ((st.verifier iterErrors d).dir.parts + 1)
      0 = ps.map (render signer) := by
    rw [Verifier.partsFrom_shows (v := st.verifier iterErrors d) hshow _
      (by simp only [verifier]; omega), List.drop_zero]
  have hrecords : (ps.map (render signer)).flatMap (Verifier.partRecords (F := F)) =
      es.map Entry.record := by
    rw [List.flatMap_map, ← hes, List.map_flatten, ← List.flatMap_def]
    exact List.flatMap_congr fun p _ => Verifier.partRecords_render signer p
  have hreturns := Verifier.verifyParts_returns (v := st.verifier iterErrors d)
    signer.verifyKeyHex hread ((st.verifier iterErrors d).dir.parts + 1) 0
    (s := .start hashed) hhashed
  rw [hparts, hrecords] at hreturns
  obtain ⟨r₁, h₁⟩ := hreturns.returns_iff.2 (recordsOk_entries h.index.seqs h.headed hlookups)
  obtain ⟨r₂, h₂⟩ := (Verifier.verifyQueue_returns (v := st.verifier iterErrors d) hqueue).returns_iff.2 trivial
  exact ⟨_, by rw [Verifier.verifyTrack, h₁, ok_bind, h₂]; rfl⟩

/-! ## Runs of writers -/

/-- A command of a process that holds the store's lock. -/
inductive Command (F : Type) where
  | writeEvent (event : Dict F)
  | append (record : Dict F)
  | rebuildHead

/-- The command as a program. -/
def command (st : Store) (track : PyStr) : Command F → StoreProg Unit
  | .writeEvent event => writeEvent track event
  | .append record => (st.append track record).bind fun _ => .ret (.ok ())
  | .rebuildHead => (st.rebuildHead F track).bind fun _ => .ret (.ok ())

/-- The events and records meet the schema, and a record is what a JSON text denotes. -/
def Command.Valid : Command F → Prop
  | .writeEvent event => StoreSchema.recordBase (.obj event) = true
  | .append record => (Json.obj record).WF ∧ StoreSchema.recordBase (.obj record) = true
  | .rebuildHead => True

/-- Whether a command leaves a whole index and its head. -/
def Command.completes : Command F → Bool
  | .writeEvent _ => false
  | .append _ => true
  | .rebuildHead => true

/-- Successive writers of a track : each may be killed at any time, and the next one starts
with no path touched. -/
def writers (F : Type) [PyFloat F] [PyRepr F] (st : Store) (track : PyStr) :
    System Files Unit PyError Unit (Command F) where
  prog := st.command track
  starts c _ := c.Valid
  mayDie _ := True
  reset s := { s with touched := [] }

/-- What every act keeps : an index of whole entries, a torn line after them, and the head of
no record as long as there is none. -/
def Kept (st : Store) (signer : Signer st.crypto) (track : PyStr) (F : Type) [PyFloat F]
    [PyRepr F] (s : Files) : Prop :=
  ∃ (es : List (Entry F)) (tail : Bytes), st.Index signer track s.dir es tail ∧
    (∀ hs, Heals signer es tail hs → ∀ e ∈ hs, Headed e.record) ∧
    (es = [] → Store.InitHead F st track s.dir)

end Store

/-- A tail heals to the entries, or to these and one more. -/
theorem Heals.subset {c : Crypto} {signer : Signer c} {es hs : List (Entry F)} {tail : Bytes}
    (h : Heals signer es tail hs) : ∃ fs, hs = es ++ fs := by
  cases h with
  | drop _ => exact ⟨[], by simp⟩
  | complete e _ => exact ⟨[e], rfl⟩

theorem Heals.exists {c : Crypto} (signer : Signer c) (es : List (Entry F)) (tail : Bytes) :
    ∃ hs, Heals signer es tail hs := by
  by_cases h : ∃ e : Entry F, tail = e.bytes signer
  · obtain ⟨e, he⟩ := h
    exact ⟨_, .complete e he⟩
  · exact ⟨es, .drop fun e he => h ⟨e, he⟩⟩

namespace Store

variable {st : Store} {signer : Signer st.crypto} {track : PyStr} {es : List (Entry F)}

/-- A tail that is a prefix of a line heals to its entry only. -/
theorem heals_of_prefix (hsigner : st.signer = some signer) {e : Entry F} {tail : Bytes}
    (hpre : tail <+: e.bytes signer) {hs : List (Entry F)} (h : Heals signer es tail hs) :
    hs = es ∨ hs = es ++ [e] := by
  cases h with
  | drop _ => exact Or.inl rfl
  | complete e' he' =>
    subst he'
    obtain rfl := Entry.bytes_inj signer
      ((e.isSignedLine_of_prefix hsigner hpre).1 (isSignedLine_bytes hsigner e'))
    exact Or.inr rfl

theorem Stamped.headed {d : Dir} {record signed : Dict F} {n : ℕ}
    (h : st.Stamped track d record n signed) (hrecord : Headed record) : Headed signed := by
  obtain ⟨eventId, data, -, -, rfl⟩ := h
  exact (hrecord.set _ (by decide)).set _ (by decide)

end Store

section

variable {st : Store} {signer : Signer st.crypto} {track : PyStr} {es : List (Entry F)}
  {s s' : Files} {tail : Bytes}

/-- What an append ends with is settled. -/
theorem Appended.settled {record : Dict F} {hs : List (Entry F)} {e : Entry F}
    (h : Appended st signer track s es tail record s' hs e) (hwf : (Json.obj record).WF)
    (hrecord : Headed record)
    (hheaded : ∀ hs, Heals signer es tail hs → ∀ e ∈ hs, Headed e.record) :
    st.Settled signer track s'.dir (hs ++ [e]) := by
  obtain ⟨signed, previous, king, hstamped, he, -, hking, hshows⟩ := h.head
  have hwf' := hstamped.wf hwf
  have hsigned := hstamped.headed hrecord
  rw [kingAfter_of_crowns hsigned.kind] at hking
  obtain rfl := Except.ok.inj hking
  refine ⟨h.index, fun x hx => ?_, ⟨by simp, fun init x heq => ?_⟩⟩
  · rcases List.mem_append.1 hx with hx | hx
    · exact hheaded hs h.heals x hx
    · rw [List.mem_singleton.1 hx, he]
      exact hsigned.sortDict hwf'
  · obtain ⟨rfl, hx⟩ := List.append_inj' heq rfl
    obtain rfl := List.singleton_inj.1 hx
    refine ⟨signed, he, hwf', hsigned, ?_⟩
    rw [List.length_append, List.length_singleton]
    exact_mod_cast hshows

/-- What a rebuild ends with is settled. -/
theorem Rebuilt.settled {hs : List (Entry F)} (h : Rebuilt st signer track s es tail s' hs)
    (hheaded : ∀ hs, Heals signer es tail hs → ∀ e ∈ hs, Headed e.record)
    (hinit : es = [] → Store.InitHead F st track s.dir) :
    st.Settled signer track s'.dir hs := by
  have hall := hheaded hs h.heals
  refine ⟨h.index, hall, ⟨fun hnil => ?_, fun init e heq => ?_⟩⟩
  · obtain ⟨fs, hfs⟩ := h.heals.subset
    rw [Store.InitHead, h.none hnil]
    refine hinit ?_
    rw [hnil] at hfs
    exact (List.append_eq_nil_iff.1 hfs.symm).1
  · obtain ⟨king, hking, hshows⟩ := h.head init e heq
    rw [heq, Store.foldKing_entries _ (by rwa [← heq])] at hking
    obtain rfl := Except.ok.inj hking
    exact ⟨e.record, e.sorted.symm, e.wf, hall e (by simp [heq]), hshows⟩

theorem Store.Settled.kept (h : st.Settled signer track s.dir es) : st.Kept signer track F s := by
  refine ⟨es, [], h.index, fun hs hheals => ?_, h.head.none⟩
  rw [heals_nil.1 hheals]
  exact h.headed

/-- Every stage of an append keeps the index. -/
theorem Appending.kept {record : Dict F} (hsigner : st.signer = some signer)
    (h : Appending st signer track s es tail record s') (hwf : (Json.obj record).WF)
    (hrecord : Headed record) (hindex : st.Index signer track s.dir es tail)
    (hheaded : ∀ hs, Heals signer es tail hs → ∀ e ∈ hs, Headed e.record)
    (hinit : es = [] → Store.InitHead F st track s.dir) :
    st.Kept signer track F s' := by
  have hnil : ∀ {hs : List (Entry F)}, Heals signer es tail hs → hs = [] → es = [] := by
    intro hs hheals hs0
    obtain ⟨fs, hfs⟩ := hheals.subset
    rw [hs0] at hfs
    exact (List.append_eq_nil_iff.1 hfs.symm).1
  cases h with
  | before h => exact h ▸ ⟨es, tail, hindex, hheaded, hinit⟩
  | @healed hs hheals hi honly =>
    refine ⟨hs, [], hi, fun hs' hheals' => ?_, fun hs0 => ?_⟩
    · rw [heals_nil.1 hheals']
      exact hheaded hs hheals
    · rw [Store.InitHead, honly.node _ (offIndex_headPath track track)]
      exact hinit (hnil hheals hs0)
  | @torn hs e signed tail' hheals hstamped hentry hpre hi honly =>
    refine ⟨hs, tail', hi, fun hs' hheals' x hx => ?_, fun hs0 => ?_⟩
    · rcases Store.heals_of_prefix hsigner hpre hheals' with rfl | rfl
      · exact hheaded _ hheals x hx
      · rcases List.mem_append.1 hx with hx | hx
        · exact hheaded _ hheals x hx
        · rw [List.mem_singleton.1 hx, hentry]
          exact (hstamped.headed hrecord).sortDict (hstamped.wf hwf)
    · rw [Store.InitHead, honly.node _ (offIndex_headPath track track)]
      exact hinit (hnil hheals hs0)
  | @lined hs e signed hheals hstamped hentry hi hnode htouched =>
    refine ⟨hs ++ [e], [], hi, fun hs' hheals' x hx => ?_, by simp⟩
    rw [heals_nil.1 hheals'] at hx
    rcases List.mem_append.1 hx with hx | hx
    · exact hheaded _ hheals x hx
    · rw [List.mem_singleton.1 hx, hentry]
      exact (hstamped.headed hrecord).sortDict (hstamped.wf hwf)
  | appended h => exact (h.settled hwf hrecord hheaded).kept

/-- Every stage of a rebuild keeps the index. -/
theorem Rebuilding.kept (h : Rebuilding st signer track s es tail s')
    (hindex : st.Index signer track s.dir es tail)
    (hheaded : ∀ hs, Heals signer es tail hs → ∀ e ∈ hs, Headed e.record)
    (hinit : es = [] → Store.InitHead F st track s.dir) :
    st.Kept signer track F s' := by
  cases h with
  | before h => exact h ▸ ⟨es, tail, hindex, hheaded, hinit⟩
  | @healed hs hheals hi honly =>
    refine ⟨hs, [], hi, fun hs' hheals' => ?_, fun hs0 => ?_⟩
    · rw [heals_nil.1 hheals']
      exact hheaded hs hheals
    · obtain ⟨fs, hfs⟩ := hheals.subset
      rw [Store.InitHead, honly.node _ (offIndex_headPath track track)]
      refine hinit ?_
      rw [hs0] at hfs
      exact (List.append_eq_nil_iff.1 hfs.symm).1
  | rebuilt h => exact (h.settled hheaded hinit).kept

end

namespace Store

variable {st : Store} {signer : Signer st.crypto} {track : PyStr}

/-- What a command promises of its end. -/
def Promise (st : Store) (signer : Signer st.crypto) (track : PyStr) (c : Command F)
    (r : Except PyError Unit) (s : Files) : Prop :=
  r = .ok () → c.completes = true → ∃ es : List (Entry F), st.Settled signer track s.dir es

/-- Every command keeps the index act by act, and ends as it promises. -/
theorem wp_command (hsigner : st.signer = some signer) {c : Command F} (hc : c.Valid) {s : Files}
    (hs : st.Kept signer track F s) :
    Wp locked (keep (st.Kept signer track F)) (st.Promise signer track c) (st.command track c) s := by
  obtain ⟨es, tail, hindex, hheaded, hinit⟩ := hs
  have hs : st.Kept signer track F s := ⟨es, tail, hindex, hheaded, hinit⟩
  cases c with
  | writeEvent event =>
    have hpromise : ∀ r s, st.Promise signer track (.writeEvent event) r s :=
      fun r s _ hc => absurd hc (by simp [Command.completes])
    refine wp_writeEvent hs (fun x => hpromise _ s) fun s' eventId text _ _ _ hnode _ => ⟨?_,
      hpromise _ s'⟩
    refine ⟨es, tail, hindex.congr fun k => hnode _ (indexPartPath_ne_eventPath _ _ _ _), hheaded,
      fun h => ?_⟩
    rw [InitHead, hnode _ (headPath_ne_eventPath _ _ _)]
    exact hinit h
  | append record =>
    have hrecord := headed_of_recordBase hc.2
    rw [command, wp_bind]
    refine wp_append hsigner hc.1 hindex
      (fun s' h => h.kept hsigner hc.1 hrecord hindex hheaded hinit)
      (fun s' hs e h => ?_) fun x s' h => fun hok => absurd hok (by simp)
    rw [Then, wp_ret]
    exact fun _ _ => ⟨_, h.settled hc.1 hrecord hheaded⟩
  | rebuildHead =>
    rw [command, wp_bind]
    refine wp_rebuildHead hsigner hindex (fun s' h => h.kept hindex hheaded hinit)
      (fun r s' hs h => ?_) fun x s' h => fun hok => absurd hok (by simp)
    rw [Then, wp_ret]
    exact fun _ _ => ⟨_, h.settled hheaded hinit⟩

theorem Initialised.kept {s : Files} (h : st.Initialised F track s.dir) :
    st.Kept signer track F s := by
  refine ⟨[], [], .nil h.1, fun hs hheals => ?_, fun _ => h.2⟩
  rw [heals_nil.1 hheals]
  simp

/-- After any completed append or rebuild of any run of writers, the track is settled. -/
theorem settled_of_reach (hsigner : st.signer = some signer) {s₀ s : Files}
    (h₀ : st.Initialised F track s₀.dir) {c : Command F} (hc : c.completes)
    (hreach : (st.writers F track).Reach locked s₀ ⟨s, some (c, .ret (.ok ()))⟩) :
    ∃ es : List (Entry F), st.Settled signer track s.dir es := by
  have hkeeps := System.Reach.inv (G := keep (st.Kept signer track F))
    (I := st.Kept signer track F) (Q := st.Promise signer track)
    (fun c s hstart hs => wp_command hsigner hstart hs) (fun _ _ _ _ _ h => h)
    (fun s s' hs (h : s = s') => h ▸ hs) (fun s hs _ => hs) h₀.kept hreach
  exact hkeeps.ended rfl hc

/-- The writer satisfies the verifier : after any completed append or rebuild of any run, the
index is written as it should be, and the verifier goes through it, unless a look-up is refused,
and reports nothing of the index or the head. -/
theorem writers_verify (hsigner : st.signer = some signer) {s₀ s : Files}
    (h₀ : st.Initialised F track s₀.dir) {c : Command F} (hc : c.completes)
    (hreach : (st.writers F track).Reach locked s₀ ⟨s, some (c, .ret (.ok ()))⟩)
    {iterErrors : PyStr → Json F → List (PyStr × PyStr)}
    (hschema : (st.verifier iterErrors s.dir).SchemaSilent) :
    ∃ ps, Verifier.IndexWritten (st.verifier iterErrors s.dir) signer.verifyKeyHex track ps ∧
      (∀ hashed r, (st.verifier iterErrors s.dir).verifyTrack signer.verifyKeyHex track hashed =
        .ok r → r.1.Quiet) ∧
      ((∀ l ∈ ps.flatten, (st.verifier iterErrors s.dir).LookupsOk track l.record) →
        s.dir.node (queuePath track) ≠ .refused → ∀ hashed,
        (st.verifier iterErrors s.dir).HashedOk hashed →
        ∃ r, (st.verifier iterErrors s.dir).verifyTrack signer.verifyKeyHex track hashed =
          .ok r) := by
  obtain ⟨es, h⟩ := settled_of_reach hsigner h₀ hc hreach
  obtain ⟨ps, hps, hrecords⟩ := h.written iterErrors
  refine ⟨ps, hps, fun hashed r hr => h.quiet hschema hr, fun hlook hqueue hashed hhashed => ?_⟩
  refine h.returns iterErrors (fun e he => ?_) hqueue hhashed
  have hmem : e.record ∈ ps.flatten.map Verifier.SignedLine.record := by
    rw [hrecords]
    exact List.mem_map_of_mem he
  obtain ⟨l, hl, heq⟩ := List.mem_map.1 hmem
  exact heq ▸ hlook l hl

/-! ## Initialising a store -/

theorem headPath_inj {t t' : PyStr} : headPath t = headPath t' ↔ t = t' := by
  simp [headPath, trackDir]

/-- The head of a track without one is written, and nothing else. -/
theorem wp_initHead {Q : Except PyError Unit → Files → Prop} {t : PyStr} {s : Files}
    (herr : ∀ x, Q (.error x) s)
    (hdone : ∀ s', (∀ p, p ≠ headPath t → s'.dir.node p = s.dir.node p) →
      (s.dir.node (headPath t) = .missing → InitHead F st t s'.dir) →
      (s.dir.node (headPath t) ≠ .missing → s'.dir.node (headPath t) = s.dir.node (headPath t)) →
      Q (.ok ()) s') :
    Wp locked (keep fun _ => True) Q (st.initHead F t) s := by
  rw [initHead, bind_eq, wp_bind, wp_try]
  refine fun _ => ⟨trivial, ?_⟩
  cases hn : s.dir.node (headPath t) with
  | refused => exact herr _
  | missing =>
    rw [Node.exists?_missing, Then]
    simp only [Bool.false_eq_true, if_false]
    rw [writeHead, bind_eq, wp_bind, atomicWriteJson]
    cases hd : dumps indented true (.obj (st.headDict 0 [] 0 [] (.null : Json F))) with
    | none => exact wp_ret.2 (herr _)
    | some text =>
      simp only [atomicWrite, wp_act, wp_ret, writeResult, Files.replace, hn, Node.writable,
        if_true, Then, touch, wp_write]
      exact fun _ => ⟨trivial, fun _ => ⟨trivial, hdone _ (fun p hp =>
        Dir.node_write_of_ne _ hp _) (fun _ => ⟨text, hd, Dir.node_write_self _ _ _⟩)
        fun h => absurd hn h⟩⟩
  | folder =>
    have hne : s.dir.node (headPath t) ≠ .missing := by simp [hn]
    have hq := hdone s (fun _ _ => rfl) (fun h => absurd h hne) fun _ => rfl
    show Wp locked (keep fun _ => True) Q (.ret (.ok ())) s
    exact wp_ret.2 hq
  | file data =>
    have hne : s.dir.node (headPath t) ≠ .missing := by simp [hn]
    have hq := hdone s (fun _ _ => rfl) (fun h => absurd h hne) fun _ => rfl
    show Wp locked (keep fun _ => True) Q (.ret (.ok ())) s
    exact wp_ret.2 hq

/-- The heads of the tracks, when those of `rest` are still to be looked at. -/
structure Initialising (F : Type) [PyFloat F] (st : Store) (rest : List PyStr) (d : Dir) :
    Prop where
  index : ∀ t ∈ st.spec.tracks, ∀ k, d.node (indexPartPath t k) = .missing
  head : ∀ t ∈ st.spec.tracks, d.node (headPath t) = .missing ∨ InitHead F st t d
  done : ∀ t ∈ st.spec.tracks, t ∉ rest → InitHead F st t d

theorem Initialising.write {t : PyStr} {rest : List PyStr} {d d' : Dir}
    (h : Initialising F st (t :: rest) d)
    (hnode : ∀ p, p ≠ headPath t → d'.node p = d.node p)
    (hmissing : d.node (headPath t) = .missing → InitHead F st t d')
    (hthere : d.node (headPath t) ≠ .missing → d'.node (headPath t) = d.node (headPath t)) :
    Initialising F st rest d' := by
  have hinit : ∀ t', InitHead F st t' d → InitHead F st t' d' := by
    rintro t' ⟨text, hd, hn⟩
    refine ⟨text, hd, ?_⟩
    by_cases heq : t' = t
    · subst heq
      rw [hthere (by simp [hn]), hn]
    · rw [hnode _ fun h => heq (headPath_inj.1 h), hn]
  have hself : ∀ t' ∈ st.spec.tracks, t' = t → InitHead F st t' d' := by
    rintro t' ht' rfl
    rcases h.head _ ht' with hm | hm
    · exact hmissing hm
    · exact hinit _ hm
  refine ⟨fun t' ht' k => ?_, fun t' ht' => ?_, fun t' ht' hnot => ?_⟩
  · rw [hnode _ (indexPartPath_ne_headPath _ _ _)]
    exact h.index t' ht' k
  · by_cases heq : t' = t
    · exact Or.inr (hself t' ht' heq)
    · rcases h.head t' ht' with hm | hm
      · exact Or.inl (by rw [hnode _ fun h => heq (headPath_inj.1 h), hm])
      · exact Or.inr (hinit _ hm)
  · by_cases heq : t' = t
    · exact hself t' ht' heq
    · exact hinit _ (h.done t' ht' (by simp [heq, hnot]))

/-- `init` initialises every track of the spec in a store that has no index and no heads. -/
theorem wp_init {validatorKey : PyStr} {s : Files}
    (hindex : ∀ t ∈ st.spec.tracks, ∀ k, s.dir.node (indexPartPath t k) = .missing)
    (hheads : ∀ t ∈ st.spec.tracks, s.dir.node (headPath t) = .missing) :
    Wp locked (keep fun _ => True)
      (fun r s' => r = .ok () → ∀ t ∈ st.spec.tracks, Initialised F st t s'.dir)
      (st.init F validatorKey) s := by
  have hpart : ∀ t k, indexPartPath t k ≠ manifestPath := by
    simp [indexPartPath, trackDir, manifestPath]
  have hhead : ∀ t, headPath t ≠ manifestPath := by simp [headPath, trackDir, manifestPath]
  rw [init, bind_eq, wp_bind, atomicWriteJson]
  cases dumps indented true (.obj (st.manifestDict F validatorKey)) with
  | none => exact wp_ret.2 fun h => by cases h
  | some text =>
    simp only [atomicWrite, wp_act, wp_ret, writeResult, Files.replace]
    refine fun _ => ⟨trivial, ?_⟩
    by_cases hw : (s.dir.node manifestPath).writable
    · simp only [hw, if_true, Then, bind_eq, wp_bind, touch, wp_write]
      refine fun _ => ⟨trivial, ?_⟩
      refine wp_each (I := fun rest s' => Initialising F st rest s'.dir) ?_ ?_ ?_
      · rintro s' hs' _ rfl - t ht
        exact ⟨hs'.index t ht, hs'.done t ht (by simp)⟩
      · intro t rest s' hs'
        refine wp_initHead (fun x => Or.inr ⟨⟨x, rfl⟩, fun h => by cases h⟩)
          fun s'' hnode hmissing hthere => Or.inl ⟨rfl, hs'.write hnode hmissing hthere⟩
      · refine ⟨fun t ht k => ?_, fun t ht => Or.inl ?_, fun t ht hnot => absurd ht hnot⟩
        · exact (Dir.node_write_of_ne _ (hpart t k) _).trans (hindex t ht k)
        · exact (Dir.node_write_of_ne _ (hhead t) _).trans (hheads t ht)
    · simp only [hw, Bool.false_eq_true, if_false, Then]
      exact fun h => by cases h

/-- What `init` leaves when it returns. -/
theorem initialised_init {validatorKey : PyStr} {s : Files}
    (hindex : ∀ t ∈ st.spec.tracks, ∀ k, s.dir.node (indexPartPath t k) = .missing)
    (hheads : ∀ t ∈ st.spec.tracks, s.dir.node (headPath t) = .missing)
    (hok : ((st.init F validatorKey).exec s).1 = .ok ()) (t : PyStr) (ht : t ∈ st.spec.tracks) :
    Initialised F st t ((st.init F validatorKey).exec s).2.dir :=
  Wp.exec (fun _ _ => trivial) (wp_init hindex hheads) hok t ht

end Store

/-! ## A run -/

namespace Store

/-- A store to run, of one track. -/
def toy : Store where
  crypto := toyCrypto
  signer := some toySigner
  spec := ⟨Verifier.quietKey, [py "t"], py "mp4", 4, 1000, 2, 1⟩
  intOfText _ := none

/-- An empty folder. -/
def noFiles : Files := ⟨Dir.ofFiles [] (fun _ => none) 0 (by simp), []⟩

/-- The store once it is initialised. -/
def toyFiles : Files := ((toy.init Tenths Verifier.quietKey).exec noFiles).2

def toyEvent : Command Tenths := .writeEvent Verifier.vacancyFields

def toyAppend : Command Tenths := .append Verifier.vacancyFields

/-- The store once an event and its record are written. -/
def toyEnd : Files :=
  ((toy.command (py "t") toyAppend).exec ((toy.command (py "t") toyEvent).exec toyFiles).2).2

theorem initialised_toyFiles : toy.Initialised Tenths (py "t") toyFiles.dir := by
  have hok : ((toy.init Tenths Verifier.quietKey).exec noFiles).1 = .ok () := by decide +kernel
  have hindex : ∀ t ∈ toy.spec.tracks, ∀ k, noFiles.dir.node (indexPartPath t k) = .missing :=
    fun _ _ _ => rfl
  have hheads : ∀ t ∈ toy.spec.tracks, noFiles.dir.node (headPath t) = .missing := fun _ _ => rfl
  have ht : py "t" ∈ toy.spec.tracks := List.mem_singleton_self _
  have h := initialised_init hindex hheads hok (py "t") ht
  unfold toyFiles
  exact h

/-- Neither a list nor a dict, and ASCII. -/
def isPlain : Json F → Bool
  | .str s => decide (IsAscii s)
  | .arr _ => false
  | .obj _ => false
  | _ => true

theorem wf_vacancyFields : (Json.obj Verifier.vacancyFields).WF := by
  have hkeys : (Verifier.vacancyFields.map Prod.fst).Nodup := by decide +kernel
  have hascii : (Verifier.vacancyFields.all fun p => decide (IsAscii p.1) && isPlain p.2) = true := by
    decide +kernel
  refine ⟨hkeys, Json.wfMembers_iff.2 fun p hp => ?_⟩
  have h := List.all_eq_true.1 hascii p hp
  obtain ⟨k, v⟩ := p
  cases v <;> simp_all [Json.WF, strWF_of_isAscii, isPlain]

theorem reach_toyEnd : (toy.writers Tenths (py "t")).Reach locked toyFiles
    ⟨toyEnd, some (toyAppend, .ret (.ok ()))⟩ := by
  have hvalid : StoreSchema.recordBase (.obj Verifier.vacancyFields) = true := by decide +kernel
  have hok : ((toy.command (py "t") toyAppend).exec
      ((toy.command (py "t") toyEvent).exec toyFiles).2).1 = .ok () := by decide +kernel
  have hevent : (toy.writers Tenths (py "t")).Reach locked toyFiles
      ⟨toyFiles, some (toyEvent, toy.command (py "t") toyEvent)⟩ := .single (.start hvalid)
  have happend : (toy.writers Tenths (py "t")).Reach locked toyFiles
      ⟨((toy.command (py "t") toyEvent).exec toyFiles).2,
        some (toyAppend, toy.command (py "t") toyAppend)⟩ :=
    ((hevent.exec fun _ _ => trivial).tail .finish).tail
      (.start (c := toyAppend) ⟨wf_vacancyFields, hvalid⟩)
  have hend := happend.exec fun _ _ => trivial
  rw [hok] at hend
  exact hend

/-- A library of JSON Schema that names the definition a document does not meet. -/
def toyErrors (ref : PyStr) (doc : Json Tenths) : List (PyStr × PyStr) :=
  if StoreSchema.accepts ref doc then [] else [(ref, [])]

theorem silent_toyErrors (d : Dir) : (toy.verifier toyErrors d).SchemaSilent :=
  fun _ _ h => if_pos h

theorem toy_verifies : ∃ ps, Verifier.IndexWritten (toy.verifier toyErrors toyEnd.dir)
    toySigner.verifyKeyHex (py "t") ps := by
  have hsigner : toy.signer = some toySigner := rfl
  have hcompletes : toyAppend.completes = true := rfl
  have h := writers_verify hsigner initialised_toyFiles hcompletes reach_toyEnd
    (silent_toyErrors toyEnd.dir)
  exact h.imp fun ps hps => hps.1

end Store

end IcilOrchestrator

import Mathlib
import IcilOrchestrator.Index

/-!
# What the writer does to an index

The rules of the writer's methods, on an index of entries with a tail (`Store.Index`). The
repair leaves the entries, or these and the next (`wp_repairTail`); an append goes through
the stages of `Appending` and ends with one more entry and the head that follows it
(`wp_append`); a rebuild ends with the head that follows the last entry
(`wp_rebuildHead`). In every rule `R` is what the caller keeps after each act, so the rule
says what a kill can leave.
-/

namespace IcilOrchestrator

open Python Prog

variable {F : Type} [PyFloat F] {st : Store} {signer : Signer st.crypto} {track : PyStr}

/-- The process that holds the store's lock is alone on it. -/
abbrev locked : Env Files Unit := .alone fun _ _ => True

/-- Each act is to keep `R`. -/
abbrev keep (R : Files → Prop) : Unit → Files → Files → Prop := fun _ _ s => R s

/-- A path that is no index part of the track. -/
def OffIndex (track : PyStr) (p : Path) : Prop := ∀ k, indexPartPath track k ≠ p

/-- Nothing but the index of the track has changed, and nothing was touched. -/
structure IndexOnly (track : PyStr) (s s' : Files) : Prop where
  node : ∀ p, OffIndex track p → s'.dir.node p = s.dir.node p
  touched : s'.touched = s.touched

theorem IndexOnly.refl (s : Files) : IndexOnly track s s := ⟨fun _ _ => rfl, rfl⟩

theorem IndexOnly.trans {s s' s'' : Files} (h : IndexOnly track s s')
    (h' : IndexOnly track s' s'') : IndexOnly track s s'' :=
  ⟨fun p hp => (h'.node p hp).trans (h.node p hp), h'.touched.trans h.touched⟩

theorem IndexOnly.put (track : PyStr) (s : Files) (k : ℕ) (data : Bytes) :
    IndexOnly track s (s.put (indexPartPath track k) data) where
  node _ hp := Dir.node_write_of_ne _ (hp k).symm _
  touched := rfl

/-! ## Repairing the tail -/

omit [PyFloat F] in
theorem repairFile_of_file {p : Path} {s : Files} {data : Bytes} (h : s.dir.node p = .file data) :
    st.repairFile p s = if st.repaired data = data then s else s.put p (st.repaired data) := by
  simp [Store.repairFile, h]

theorem Heals.append {es hs : List (Entry F)} {tail : Bytes} (h : Heals signer es tail hs)
    (init : List (Entry F)) : Heals signer (init ++ es) tail (init ++ hs) := by
  cases h with
  | drop h => exact .drop h
  | complete e h =>
    rw [← List.append_assoc]
    exact .complete e h

/-- The entry that a repair completes is the next. -/
theorem Store.Index.heals_seqs {d : Dir} {es hs : List (Entry F)} {tail : Bytes}
    (hsigner : st.signer = some signer) (h : st.Index signer track d es tail)
    (hh : Heals signer es tail hs) : InSequence 1 (hs.map Entry.record) := by
  cases hh with
  | drop _ => exact h.seqs
  | complete e he =>
    obtain ⟨e', hseq, hpre⟩ := h.torn (he ▸ e.bytes_ne_nil signer)
    obtain rfl : e = e' := by
      refine Entry.bytes_inj signer ?_
      rw [← (e'.isSignedLine_of_prefix hsigner hpre).1 (by
        rw [he]
        exact isSignedLine_bytes hsigner e), he]
    rw [List.map_append, inSequence_append, List.length_map]
    refine ⟨h.seqs, ?_, trivial⟩
    rw [hseq, add_comm]

/-- What the repair of the newest part makes of the index. -/
theorem Store.Index.repairFile {es : List (Entry F)} {tail : Bytes} {s : Files}
    (hsigner : st.signer = some signer) (h : st.Index signer track s.dir es tail)
    {init : List (List (Entry F))} {p : List (Entry F)}
    (hfill : Filled st.spec.per (init ++ [p])) (hes : (init ++ [p]).flatten = es)
    (hshow : s.dir.ShowsIndex track (rendered signer tail (init ++ [p])))
    (htail : tail ≠ [] → p.length < st.spec.per) :
    ∃ hs, Heals signer es tail hs ∧
      st.Index signer track (st.repairFile (indexPartPath track init.length) s).dir hs [] ∧
      IndexOnly track s (st.repairFile (indexPartPath track init.length) s) := by
  obtain ⟨q, hq, hrep⟩ := repaired_render hsigner p fun ht => (h.torn ht).imp fun _ he => he.2
  have hes' : init.flatten ++ p = es := by rw [← hes, List.flatten_concat]
  have hheals : Heals signer es tail (init.flatten ++ q) := hes' ▸ hq.append init.flatten
  have hfill' : Filled st.spec.per (init ++ [q]) := by
    cases hq with
    | drop _ => exact hfill
    | complete e he => exact hfill.push (htail (he ▸ e.bytes_ne_nil signer)) e
  rw [rendered_concat] at hshow
  have hnode : s.dir.node (indexPartPath track init.length) =
      .file (render signer p ++ tail) := by
    have := hshow init.length
    simpa using this
  have hnew : (st.repairFile (indexPartPath track init.length) s).dir.ShowsIndex track
      (rendered signer [] (init ++ [q])) := by
    rw [rendered_concat, List.append_nil, repairFile_of_file hnode, hrep]
    by_cases hsame : render signer q = render signer p ++ tail
    · simpa [hsame] using hshow
    · simpa [hsame] using hshow.write_last (render signer q)
  refine ⟨init.flatten ++ q, hheals, ⟨⟨init ++ [q], hfill', List.flatten_concat, hnew, by simp⟩,
    h.heals_seqs hsigner hheals, by simp⟩, ?_⟩
  rw [repairFile_of_file hnode]
  by_cases hsame : st.repaired (render signer p ++ tail) = render signer p ++ tail
  · simpa [hsame] using IndexOnly.refl s
  · simpa [hsame] using IndexOnly.put track s _ _

/-- The repair leaves the entries whole, or these and the next. -/
theorem wp_repairTail {R : Files → Prop} {Q : Except PyError Unit → Files → Prop} {s : Files}
    {es : List (Entry F)} {tail : Bytes} (hsigner : st.signer = some signer)
    (h : st.Index signer track s.dir es tail) (hR : R s)
    (hdone : ∀ s' hs, Heals signer es tail hs → st.Index signer track s'.dir hs [] →
      IndexOnly track s s' → R s' ∧ Q (.ok ()) s') :
    Wp locked (keep R) Q (st.repairTail track) s := by
  obtain ⟨ps, hfill, hes, hshow, htail⟩ := h.parts
  rw [Store.repairTail, bind_eq, wp_bind, wp_try]
  refine fun _ => ⟨hR, ?_⟩
  rw [hshow.indexParts, Then]
  rcases List.eq_nil_or_concat ps with rfl | ⟨init, p, rfl⟩
  · have hnil : tail = [] := by
      by_contra hne
      obtain ⟨init, p, hp, -⟩ := htail hne
      simp at hp
    subst hnil
    refine wp_ret.2 (hdone s es (heals_nil.2 rfl) h (IndexOnly.refl s)).2
  · rw [List.concat_eq_append] at hfill hes hshow htail ⊢
    have hroom : tail ≠ [] → p.length < st.spec.per := by
      intro ht
      obtain ⟨init', p', hp, hlt⟩ := htail ht
      obtain ⟨-, hpp⟩ := List.append_inj' hp rfl
      rwa [List.singleton_inj.1 hpp]
    have hlen : (rendered signer tail (init ++ [p])).length = init.length + 1 := by
      simp [rendered_concat]
    obtain ⟨hs, hheals, hindex, honly⟩ := h.repairFile hsigner hfill hes hshow hroom
    obtain ⟨hR', hQ'⟩ := hdone _ hs hheals hindex honly
    have hnode : s.dir.node (indexPartPath track init.length) =
        .file (render signer p ++ tail) := by
      rw [rendered_concat] at hshow
      simpa using hshow init.length
    rw [hlen, List.range_succ, List.getLast?_append]
    simp only [List.getLast?_singleton, Option.some_or, wp_act, wp_ret, hnode,
      Node.readBytes_file]
    exact fun _ => ⟨hR', hQ'⟩

/-! ## Appending a line -/

/-- Bytes appended to the newest part, one at a time. -/
theorem wp_appendBytes {R : Files → Prop} {Q : Except PyError Unit → Files → Prop} {s : Files}
    {init : List Bytes} {x data : Bytes} {k : ℕ} (hk : init.length = k)
    (h : s.dir.ShowsIndex track (init ++ [x]))
    (hR : ∀ s' done rest, done ++ rest = data → s'.dir.ShowsIndex track (init ++ [x ++ done]) →
      IndexOnly track s s' → R s')
    (hQ : ∀ s', s'.dir.ShowsIndex track (init ++ [x ++ data]) → IndexOnly track s s' →
      Q (.ok ()) s') :
    Wp locked (keep R) Q (appendBytes (indexPartPath track k) data) s := by
  subst hk
  refine wp_each (I := fun rest s' => ∃ done, done ++ rest = data ∧
    s'.dir.ShowsIndex track (init ++ [x ++ done]) ∧ IndexOnly track s s') ?_ ?_
    ⟨[], rfl, by simpa using h, IndexOnly.refl s⟩
  · rintro s' ⟨done, hdone, hshow, honly⟩ _ rfl
    obtain rfl : done = data := by simpa using hdone
    exact hQ s' hshow honly
  · rintro b rest s' ⟨done, hdone, hshow, honly⟩
    have hnode : s'.dir.node (indexPartPath track init.length) = .file (x ++ done) := by
      simpa using hshow init.length
    have happend : s'.appendByte (indexPartPath track init.length) b =
        s'.put (indexPartPath track init.length) (x ++ (done ++ [b])) := by
      simp [Files.appendByte, hnode]
    have hdone' : (done ++ [b]) ++ rest = data := by simpa using hdone
    have hshow' := hshow.write_last (x ++ (done ++ [b]))
    have honly' := honly.trans (IndexOnly.put track s' init.length (x ++ (done ++ [b])))
    rw [wp_write, happend]
    exact fun _ => ⟨hR _ _ _ hdone' hshow' honly', Or.inl ⟨rfl, done ++ [b], hdone', hshow', honly'⟩⟩

/-- A line cut short leaves the entries before it. -/
theorem Store.Index.of_torn {d : Dir} {init : List (List (Entry F))} {p : List (Entry F)}
    {e : Entry F} {tail : Bytes} (hfill : Filled st.spec.per (init ++ [p]))
    (hp : p.length < st.spec.per)
    (hseqs : InSequence 1 ((init ++ [p]).flatten.map Entry.record))
    (he : e.record.get (py "seq") = .int ((init ++ [p]).flatten.length + 1))
    (htail : tail <+: e.bytes signer)
    (hshow : d.ShowsIndex track (init.map (render signer) ++ [render signer p ++ tail])) :
    st.Index signer track d (init ++ [p]).flatten tail where
  parts := ⟨init ++ [p], hfill, rfl, by rwa [rendered_concat], fun _ => ⟨init, p, rfl, hp⟩⟩
  seqs := hseqs
  torn _ := ⟨e, he, htail⟩

/-- A line with its newline is one more entry. -/
theorem Store.Index.of_line {d : Dir} {init : List (List (Entry F))} {p : List (Entry F)}
    {e : Entry F} (hfill : Filled st.spec.per (init ++ [p])) (hp : p.length < st.spec.per)
    (hseqs : InSequence 1 ((init ++ [p]).flatten.map Entry.record))
    (he : e.record.get (py "seq") = .int ((init ++ [p]).flatten.length + 1))
    (hshow : d.ShowsIndex track
      (init.map (render signer) ++ [render signer p ++ (e.bytes signer ++ [10])])) :
    st.Index signer track d ((init ++ [p]).flatten ++ [e]) [] where
  parts := by
    refine ⟨init ++ [p ++ [e]], hfill.push hp e, by simp, ?_, by simp⟩
    rw [rendered_concat, List.append_nil, render_append, render_singleton]
    exact hshow
  seqs := by
    rw [List.map_append, inSequence_append, List.length_map]
    refine ⟨hseqs, ?_, trivial⟩
    rw [he, add_comm]
  torn := by simp

/-- The part for the next line is opened. -/
theorem Store.Index.opened {s : Files} {es : List (Entry F)} (h : st.Index signer track s.dir es []) :
    ∃ init p, Filled st.spec.per (init ++ [p]) ∧ p.length < st.spec.per ∧
      (init ++ [p]).flatten = es ∧ init.length = es.length / st.spec.per ∧
      (s.dir.node (indexPartPath track init.length)).writable = true ∧
      (s.create (indexPartPath track init.length)).dir.ShowsIndex track
        (init.map (render signer) ++ [render signer p]) ∧
      IndexOnly track s (s.create (indexPartPath track init.length)) := by
  obtain ⟨ps, hfill, rfl, hshow, -⟩ := h.parts
  obtain ⟨init, p, hfill', hp, hflat, hlen, hps⟩ := hfill.room st.spec.per_pos
  refine ⟨init, p, hfill', hp, hflat, hlen, ?_⟩
  rcases hps with rfl | ⟨rfl, rfl⟩
  · rw [rendered_concat, List.append_nil] at hshow
    have hnode : s.dir.node (indexPartPath track init.length) = .file (render signer p) := by
      simpa using hshow init.length
    have hsame : s.create (indexPartPath track init.length) = s := by
      simp [Files.create, hnode]
    rw [hsame, hnode]
    exact ⟨rfl, hshow, IndexOnly.refl s⟩
  · rw [rendered_nil] at hshow
    have hnode : s.dir.node (indexPartPath track ps.length) = .missing := by
      simpa using hshow ps.length
    have hnew : s.create (indexPartPath track ps.length) =
        s.put (indexPartPath track ps.length) [] := by
      simp [Files.create, hnode]
    have hshow' := hshow.write_new []
    rw [List.length_map] at hshow'
    rw [hnew, hnode]
    exact ⟨rfl, hshow', IndexOnly.put track s _ _⟩

omit [PyFloat F] in
theorem partOf_length (spec : Spec) (n : ℕ) : (spec.partOf (n + 1)).toNat = n / spec.per := by
  rw [Spec.partOf, add_sub_cancel_right, ← Int.natCast_div, Int.toNat_natCast]

/-- A record's line is appended, or a part of it. -/
theorem wp_appendLine {R : Files → Prop} {Q : Except PyError Unit → Files → Prop} {s : Files}
    {es : List (Entry F)} {record : Dict F} (h : st.Index signer track s.dir es [])
    (hwf : (Json.obj record).WF) (hseq : record.get (py "seq") = .int (es.length + 1))
    (herr : ∀ x, Q (.error x) s)
    (htorn : ∀ s' (e : Entry F) tail, e.record = Json.sortDict record → tail <+: e.bytes signer →
      st.Index signer track s'.dir es tail → IndexOnly track s s' → R s')
    (hdone : ∀ s' s'' (e : Entry F), e.record = Json.sortDict record →
      st.Index signer track s'.dir (es ++ [e]) [] → IndexOnly track s s' → s''.dir = s'.dir →
      s'.touched ⊆ s''.touched → R s' ∧ R s'' ∧ Q (.ok ()) s'') :
    Wp locked (keep R) Q (st.appendLine track signer (es.length + 1) record) s := by
  rw [Store.appendLine, bind_eq, wp_bind, wp_ret, Store.signedLine]
  cases hc : canonicalJson (.obj record) with
  | none => exact herr _
  | some body =>
    obtain ⟨init, p, hfill, hp, rfl, hlen, hwrite, hshow, honly⟩ := h.opened
    have he : (Entry.of record body hc hwf).record.get (py "seq") =
        .int ((init ++ [p]).flatten.length + 1) := by
      rw [Entry.of, Json.get_sortDict hwf.1, hseq]
      rfl
    rw [Then, bind_eq, wp_bind, partOf_length, ← hlen, openAppend, wp_act]
    rw [← List.append_nil (render signer p)] at hshow
    refine fun _ => ⟨htorn _ (Entry.of record body hc hwf) [] rfl (List.nil_prefix)
      (.of_torn hfill hp h.seqs he List.nil_prefix hshow) honly, ?_⟩
    rw [wp_ret, writeResult, if_pos hwrite, Then, bind_eq, wp_bind]
    rw [List.append_nil] at hshow
    refine wp_appendBytes (List.length_map _) hshow ?_ ?_
    · rintro s' done rest hsplit hshow' honly'
      rcases List.prefix_concat_iff.1 (hsplit ▸ List.prefix_append done rest) with rfl | hpre
      · exact (hdone s' s' _ rfl (.of_line hfill hp h.seqs he hshow') (honly.trans honly') rfl
          (List.Subset.refl _)).1
      · exact htorn s' (Entry.of record body hc hwf) done rfl hpre (.of_torn hfill hp h.seqs he hpre hshow')
          (honly.trans honly')
    · intro s' hshow' honly'
      obtain ⟨-, hR, hQ⟩ := hdone s' (s'.touch (indexPartPath track init.length)) _ rfl
        (.of_line hfill hp h.seqs he hshow') (honly.trans honly') rfl
        (s'.subset_touch _)
      rw [Then, touch, wp_write]
      exact fun _ => ⟨hR, hQ⟩

/-! ## The head -/

variable [PyRepr F]

/-- The head on disk is what `write_head` makes of a record's fields. -/
def Store.HeadShows (st : Store) (track : PyStr) (d : Dir) (seq : ℤ) (record : Dict F)
    (king : Json F) : Prop :=
  ∃ eventId block finishedAt text, item record (py "event_id") = .ok eventId ∧
    (item record (py "block") >>= st.intOf) = .ok block ∧
    item record (py "finished_at") = .ok finishedAt ∧
    dumps indented true
      (.obj (st.headDict seq (strOf eventId) block (strOf finishedAt) king)) = some text ∧
    d.node (headPath track) = .file (encodeUtf8 (text ++ [10]))

/-- The head is written, or nothing is. -/
theorem wp_writeHeadOf {R : Files → Prop} {Q : Except PyError Unit → Files → Prop} {s : Files}
    {seq : ℤ} {record : Dict F} {king : Json F} (hR : R s) (herr : ∀ x, Q (.error x) s)
    (hdone : ∀ s', st.HeadShows track s'.dir seq record king →
      (∀ p, p ≠ headPath track → s'.dir.node p = s.dir.node p) → s.touched ⊆ s'.touched →
      R s' ∧ Q (.ok ()) s') :
    Wp locked (keep R) Q (st.writeHeadOf track seq record king) s := by
  rw [Store.writeHeadOf, bind_eq, wp_bind, wp_ret]
  cases hid : item record (py "event_id") with
  | error x => exact herr x
  | ok eventId =>
    rw [Then, bind_eq, wp_bind, wp_ret]
    cases hblock : item record (py "block") >>= st.intOf with
    | error x => exact herr x
    | ok block =>
      rw [Then, bind_eq, wp_bind, wp_ret]
      cases hfin : item record (py "finished_at") with
      | error x => exact herr x
      | ok finishedAt =>
        rw [Then, Store.writeHead, bind_eq, wp_bind, Store.atomicWriteJson]
        cases hd : dumps indented true
            (.obj (st.headDict seq (strOf eventId) block (strOf finishedAt) king)) with
        | none => exact wp_ret.2 (herr _)
        | some text =>
          simp only [atomicWrite, wp_act, wp_ret, writeResult, Files.replace]
          by_cases hw : (s.dir.node (headPath track)).writable
          · simp only [hw, if_true, Then, touch, wp_write]
            have hshows : st.HeadShows track
                (s.put (headPath track) (encodeUtf8 (text ++ [10]))).dir seq record king :=
              ⟨eventId, block, finishedAt, text, hid, hblock, hfin, hd, Dir.node_write_self _ _ _⟩
            have hnode : ∀ p, p ≠ headPath track →
                (s.put (headPath track) (encodeUtf8 (text ++ [10]))).dir.node p = s.dir.node p :=
              fun p hp => Dir.node_write_of_ne _ hp _
            exact fun _ => ⟨(hdone _ hshows hnode (List.Subset.refl _)).1,
              fun _ => hdone _ hshows hnode (Files.subset_touch _ _)⟩
          · simp only [hw, Bool.false_eq_true, if_false, Then]
            exact fun _ => ⟨hR, herr _⟩

/-! ## Appending a record -/

/-- The record that an append signs : the event's hash and the next number are in it. -/
def Store.Stamped (st : Store) (track : PyStr) (d : Dir) (record : Dict F) (n : ℕ)
    (signed : Dict F) : Prop :=
  ∃ eventId data, item record (py "event_id") = .ok eventId ∧
    d.node (eventPath track (strOf eventId)) = .file data ∧
    signed = (record.set (py "event_sha256") (.str (st.crypto.sha256 data))).set (py "seq")
      (.int (n + 1))

/-- What an append from `s` ends with : the record is the last entry, and the head is its. -/
structure Appended (st : Store) (signer : Signer st.crypto) (track : PyStr) (s : Files)
    (es : List (Entry F)) (tail : Bytes) (record : Dict F) (s' : Files) (hs : List (Entry F))
    (e : Entry F) : Prop where
  heals : Heals signer es tail hs
  index : st.Index signer track s'.dir (hs ++ [e]) []
  head : ∃ signed previous king, st.Stamped track s.dir record hs.length signed ∧
    e.record = Json.sortDict signed ∧ Store.headKing s.dir track = .ok previous ∧
    kingAfter signed previous = .ok king ∧
    st.HeadShows track s'.dir (hs.length + 1) signed king
  node : ∀ p, OffIndex track p → p ≠ headPath track → s'.dir.node p = s.dir.node p
  touched : s.touched ⊆ s'.touched

/-- Where an append from `s` may be stopped. -/
inductive Appending (st : Store) (signer : Signer st.crypto) (track : PyStr) (s : Files)
    (es : List (Entry F)) (tail : Bytes) (record : Dict F) (s' : Files) : Prop
  | before (h : s' = s)
  /-- The tail is repaired. -/
  | healed {hs : List (Entry F)} (heals : Heals signer es tail hs)
    (index : st.Index signer track s'.dir hs []) (only : IndexOnly track s s')
  /-- The line is written in part. -/
  | torn {hs : List (Entry F)} {e : Entry F} {signed : Dict F} {tail' : Bytes}
    (heals : Heals signer es tail hs)
    (stamped : st.Stamped track s.dir record hs.length signed)
    (entry : e.record = Json.sortDict signed) (pre : tail' <+: e.bytes signer)
    (index : st.Index signer track s'.dir hs tail') (only : IndexOnly track s s')
  /-- The line is written, and the head is as it was. -/
  | lined {hs : List (Entry F)} {e : Entry F} {signed : Dict F} (heals : Heals signer es tail hs)
    (stamped : st.Stamped track s.dir record hs.length signed)
    (entry : e.record = Json.sortDict signed)
    (index : st.Index signer track s'.dir (hs ++ [e]) [])
    (node : ∀ p, OffIndex track p → s'.dir.node p = s.dir.node p)
    (touched : s.touched ⊆ s'.touched)
  | appended {hs : List (Entry F)} {e : Entry F}
    (h : Appended st signer track s es tail record s' hs e)

omit [PyFloat F] [PyRepr F] in
theorem offIndex_headPath (track track' : PyStr) : OffIndex track (headPath track') :=
  fun k => indexPartPath_ne_headPath track k track'

omit [PyFloat F] [PyRepr F] in
theorem offIndex_eventPath (track track' eventId : PyStr) :
    OffIndex track (eventPath track' eventId) :=
  fun k => indexPartPath_ne_eventPath track k track' eventId

omit [PyFloat F] in
theorem Store.Stamped.get_seq {d : Dir} {record signed : Dict F} {n : ℕ}
    (h : st.Stamped track d record n signed) : signed.get (py "seq") = .int (n + 1) := by
  obtain ⟨eventId, data, -, -, rfl⟩ := h
  rw [Dict.get, Dict.get?_set_self]
  rfl

omit [PyFloat F] in
theorem Store.Stamped.wf {d : Dir} {record signed : Dict F} {n : ℕ}
    (h : st.Stamped track d record n signed) (hwf : (Json.obj record).WF) :
    (Json.obj signed).WF := by
  obtain ⟨eventId, data, -, -, rfl⟩ := h
  have hsha : StrWF (st.crypto.sha256 data) := by
    refine strWF_of_isAscii fun c hc => ?_
    have hall := st.crypto.isSha256_sha256 data
    simp only [isSha256, Bool.and_eq_true, List.all_eq_true] at hall
    exact lt_of_le_of_lt (printable_isHexLower (hall.2 c hc)).2 (by omega)
  exact Json.wf_set (Json.wf_set hwf (strWF_of_isAscii (by decide))
    (v := .str _) hsha)
    (strWF_of_isAscii (by decide)) trivial

/-- An append goes through its stages, and returns the number of the last. -/
theorem wp_append {R : Files → Prop} {Q : Except PyError ℤ → Files → Prop} {s : Files}
    {es : List (Entry F)} {tail : Bytes} {record : Dict F} (hsigner : st.signer = some signer)
    (hwf : (Json.obj record).WF) (h : st.Index signer track s.dir es tail)
    (hR : ∀ s', Appending st signer track s es tail record s' → R s')
    (hQ : ∀ s' hs e, Appended st signer track s es tail record s' hs e →
      Q (.ok (hs.length + 1)) s')
    (herr : ∀ x s', Appending st signer track s es tail record s' → Q (.error x) s') :
    Wp locked (keep R) Q (st.append track record) s := by
  have hbefore : Appending st signer track s es tail record s := .before rfl
  rw [Store.append, hsigner]
  simp only [bind_eq]
  rw [wp_bind, wp_ret]
  cases hid : item record (py "event_id") with
  | error x => exact herr x s hbefore
  | ok eventId =>
    rw [Then, wp_bind, wp_try]
    refine fun _ => ⟨hR s hbefore, ?_⟩
    cases hsha : st.eventHash s.dir (eventPath track (strOf eventId)) with
    | error x => exact herr x s hbefore
    | ok sha =>
      obtain ⟨data, hnode, rfl⟩ : ∃ data, s.dir.node (eventPath track (strOf eventId)) =
          .file data ∧ st.crypto.sha256 data = sha := by
        cases hn : s.dir.node (eventPath track (strOf eventId)) with
        | file data =>
          refine ⟨data, rfl, ?_⟩
          simpa [Store.eventHash, hn] using hsha
        | _ => simp [Store.eventHash, hn, Node.isFile] at hsha
      rw [Then, wp_bind]
      refine wp_repairTail hsigner h (hR s hbefore) fun s₁ hs hheals hindex honly => ?_
      have hhealed : Appending st signer track s es tail record s₁ := .healed hheals hindex honly
      refine ⟨hR s₁ hhealed, ?_⟩
      rw [Then, wp_bind, wp_try, hindex.nextSeq]
      refine fun _ => ⟨hR s₁ hhealed, ?_⟩
      rw [Then, wp_bind]
      have hstamped : st.Stamped track s.dir record hs.length
          ((record.set (py "event_sha256") (.str (st.crypto.sha256 data))).set (py "seq")
            (.int (hs.length + 1))) := ⟨eventId, data, hid, hnode, rfl⟩
      refine wp_appendLine hindex (hstamped.wf hwf) hstamped.get_seq (fun x => herr x s₁ hhealed)
        (fun s₂ e tail' he hpre hi ho => hR s₂ (.torn hheals hstamped he hpre hi (honly.trans ho)))
        fun s₂ s₃ e he hi ho hdir htouched => ?_
      have hnode₂ : ∀ p, OffIndex track p → s₂.dir.node p = s.dir.node p :=
        fun p hp => (ho.node p hp).trans (honly.node p hp)
      have htouched₂ : s.touched ⊆ s₂.touched := by rw [ho.touched, honly.touched]; exact fun _ => id
      have hlined₂ : Appending st signer track s es tail record s₂ :=
        .lined hheals hstamped he hi hnode₂ htouched₂
      have hnode₃ : ∀ p, OffIndex track p → s₃.dir.node p = s.dir.node p := by rwa [hdir]
      have htouched₃ : s.touched ⊆ s₃.touched := fun p hp => htouched (htouched₂ hp)
      have hlined₃ : Appending st signer track s es tail record s₃ :=
        .lined hheals hstamped he (hdir ▸ hi) hnode₃ htouched₃
      refine ⟨hR s₂ hlined₂, hR s₃ hlined₃, ?_⟩
      rw [Then, wp_bind, Store.advanceHead, bind_eq, wp_bind, wp_try]
      refine fun _ => ⟨hR s₃ hlined₃, ?_⟩
      have hking : Store.headKing (F := F) s₃.dir track = Store.headKing s.dir track := by
        rw [Store.headKing, Store.headKing, hnode₃ _ (offIndex_headPath track track)]
      rw [hking]
      cases hprev : Store.headKing (F := F) s.dir track with
      | error x => exact herr x s₃ hlined₃
      | ok previous =>
        rw [Then, bind_eq, wp_bind, wp_ret]
        generalize hsigned : (record.set (py "event_sha256") (.str (st.crypto.sha256 data))).set
          (py "seq") (.int (hs.length + 1)) = signed at *
        cases hafter : kingAfter signed previous with
        | error x => exact herr x s₃ hlined₃
        | ok king =>
          rw [Then]
          refine wp_writeHeadOf (hR s₃ hlined₃) (fun x => herr x s₃ hlined₃)
            fun s₄ hshows hnode₄ htouched₄ => ?_
          have happended : Appended st signer track s es tail record s₄ hs e :=
            { heals := hheals
              index := hi.congr fun k => by
                rw [hnode₄ _ (indexPartPath_ne_headPath track k track), hdir]
              head := ⟨signed, previous, king, hstamped, he, hprev, hafter, hshows⟩
              node := fun p hp hne => (hnode₄ p hne).trans (hnode₃ p hp)
              touched := fun p hp => htouched₄ (htouched₃ hp) }
          refine ⟨hR s₄ (.appended happended), ?_⟩
          rw [Then, pure_eq, wp_ret]
          exact hQ s₄ hs e happended

/-! ## Rebuilding the head -/

/-- What a rebuild from `s` ends with : the head is that of the last entry, if there is one. -/
structure Rebuilt (st : Store) (signer : Signer st.crypto) (track : PyStr) (s : Files)
    (es : List (Entry F)) (tail : Bytes) (s' : Files) (hs : List (Entry F)) : Prop where
  heals : Heals signer es tail hs
  index : st.Index signer track s'.dir hs []
  none : hs = [] → s'.dir.node (headPath track) = s.dir.node (headPath track)
  head : ∀ init e, hs = init ++ [e] → ∃ king, foldKing .null (hs.map Entry.record) = .ok king ∧
    st.HeadShows track s'.dir hs.length e.record king
  node : ∀ p, OffIndex track p → p ≠ headPath track → s'.dir.node p = s.dir.node p
  touched : s.touched ⊆ s'.touched

/-- Where a rebuild from `s` may be stopped. -/
inductive Rebuilding (st : Store) (signer : Signer st.crypto) (track : PyStr) (s : Files)
    (es : List (Entry F)) (tail : Bytes) (s' : Files) : Prop
  | before (h : s' = s)
  | healed {hs : List (Entry F)} (heals : Heals signer es tail hs)
    (index : st.Index signer track s'.dir hs []) (only : IndexOnly track s s')
  | rebuilt {hs : List (Entry F)} (h : Rebuilt st signer track s es tail s' hs)

/-- A rebuild goes through its stages, and ends with the last. -/
theorem wp_rebuildHead {R : Files → Prop} {Q : Except PyError (Json F) → Files → Prop} {s : Files}
    {es : List (Entry F)} {tail : Bytes} (hsigner : st.signer = some signer)
    (h : st.Index signer track s.dir es tail)
    (hR : ∀ s', Rebuilding st signer track s es tail s' → R s')
    (hQ : ∀ r s' hs, Rebuilt st signer track s es tail s' hs → Q (.ok r) s')
    (herr : ∀ x s', Rebuilding st signer track s es tail s' → Q (.error x) s') :
    Wp locked (keep R) Q (st.rebuildHead F track) s := by
  have hbefore : Rebuilding st signer track s es tail s := .before rfl
  rw [Store.rebuildHead]
  simp only [bind_eq]
  rw [wp_bind]
  refine wp_repairTail hsigner h (hR s hbefore) fun s₁ hs hheals hindex honly => ?_
  have hhealed : Rebuilding st signer track s es tail s₁ := .healed hheals hindex honly
  refine ⟨hR s₁ hhealed, ?_⟩
  rw [Then, wp_bind, wp_try, hindex.iterIndex]
  refine fun _ => ⟨hR s₁ hhealed, ?_⟩
  rw [Then, wp_bind, wp_ret]
  cases hfold : foldKing .null (hs.map Entry.record) with
  | error x => exact herr x s₁ hhealed
  | ok king =>
    rw [Then]
    rcases List.eq_nil_or_concat hs with rfl | ⟨init, e, rfl⟩
    · refine wp_ret.2 (hQ _ s₁ [] ⟨hheals, hindex, fun _ => honly.node _
        (offIndex_headPath track track), by simp, fun p hp _ => honly.node p hp, ?_⟩)
      rw [honly.touched]
      exact fun _ => id
    · have hlast : ((init.concat e).map Entry.record).getLast? = some e.record := by simp
      have hseq := hindex.seqs.get (i := init.length) (r := e.record) (by simp)
      have hitem : item e.record (py "seq") = .ok (.int (1 + init.length)) := by
        unfold Dict.get at hseq
        unfold item
        cases hr : Dict.get? e.record (py "seq") with
        | none => simp [hr] at hseq
        | some x => simpa [hr] using hseq
      rw [hlast]
      simp only
      rw [wp_bind, wp_ret, hitem, ok_bind, Store.intOf, Then, wp_bind]
      refine wp_writeHeadOf (hR s₁ hhealed) (fun x => herr x s₁ hhealed)
        fun s₂ hshows hnode htouched => ?_
      have hrebuilt : Rebuilt st signer track s es tail s₂ (init.concat e) :=
        { heals := hheals
          index := hindex.congr fun k => hnode _ (indexPartPath_ne_headPath track k track)
          none := by simp
          head := by
            intro init' e' heq
            rw [List.concat_eq_append] at heq ⊢
            obtain ⟨-, he⟩ := List.append_inj' heq rfl
            obtain rfl := List.singleton_inj.1 he
            refine ⟨king, by simpa using hfold, ?_⟩
            rw [List.length_append, List.length_singleton]
            push_cast
            rwa [add_comm]
          node := fun p hp hne => (hnode p hne).trans (honly.node p hp)
          touched := by rwa [← honly.touched] }
      refine ⟨hR s₂ (.rebuilt hrebuilt), ?_⟩
      rw [Then, wp_read]
      exact fun _ => ⟨hR s₂ (.rebuilt hrebuilt), hQ _ s₂ _ hrebuilt⟩

/-! ## Writing an event -/

/-- The event is written and nothing else, or nothing is. -/
theorem wp_writeEvent {R : Files → Prop} {Q : Except PyError Unit → Files → Prop} {s : Files}
    {event : Dict F} (hR : R s) (herr : ∀ x, Q (.error x) s)
    (hdone : ∀ s' eventId text, item event (py "event_id") = .ok eventId →
      dumps indented true (.obj event) = some text →
      s'.dir.node (eventPath track (strOf eventId)) = .file (encodeUtf8 (text ++ [10])) →
      (∀ p, p ≠ eventPath track (strOf eventId) → s'.dir.node p = s.dir.node p) →
      s.touched ⊆ s'.touched → R s' ∧ Q (.ok ()) s') :
    Wp locked (keep R) Q (Store.writeEvent track event) s := by
  rw [Store.writeEvent, bind_eq, wp_bind, wp_ret]
  cases hid : item event (py "event_id") with
  | error x => exact herr x
  | ok eventId =>
    rw [Then, bind_eq, wp_bind, Store.atomicWriteJson]
    cases hd : dumps indented true (.obj event) with
    | none => exact wp_ret.2 (herr _)
    | some text =>
      simp only [atomicWrite, wp_act, wp_ret, writeResult, Files.replace]
      by_cases hw : (s.dir.node (eventPath track (strOf eventId))).writable
      · simp only [hw, if_true, Then, touch, wp_write]
        have hnode : ∀ p, p ≠ eventPath track (strOf eventId) →
            (s.put (eventPath track (strOf eventId)) (encodeUtf8 (text ++ [10]))).dir.node p =
              s.dir.node p := fun p hp => Dir.node_write_of_ne _ hp _
        have hself := Dir.node_write_self s.dir (eventPath track (strOf eventId))
          (encodeUtf8 (text ++ [10]))
        exact fun _ => ⟨(hdone _ eventId text hid hd hself hnode (List.Subset.refl _)).1,
          fun _ => hdone _ eventId text hid hd hself hnode (Files.subset_touch _ _)⟩
      · simp only [hw, Bool.false_eq_true, if_false, Then]
        exact fun _ => ⟨hR, herr _⟩

end IcilOrchestrator

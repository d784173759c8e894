import Mathlib
import IcilOrchestrator.JsonPrefix
import IcilOrchestrator.WriterVerifies

/-!
# Reading a torn index

An index of whole lines, and a cut of one line more after them. `iter_index` and `last_record`
take a last line whose record is all there, while `repair_tail` keeps one whose signature is all
there too. So a read before the repair says what a read after it does when and only when the cut
is not between the two (`tornReads_iff`).
-/

namespace IcilOrchestrator

open Python Prog

variable {F : Type} [PyFloat F]

/-! ## A cut line -/

namespace Entry

variable (e : Entry F) {c : Crypto} (signer : Signer c)

theorem isAscii_body : IsAscii e.body := fun c hc =>
  lt_of_le_of_lt (e.printable_body c hc).2 (by omega)

/-- A record cut short is not JSON. -/
theorem loads_of_prefix_body {t : PyStr} (h : t <+: e.body) (hne : t ≠ e.body) :
    loads (F := F) true t = none := by
  obtain ⟨-, ht⟩ := dumps_eq_some_iff.1 e.canonical
  rw [Json.sortKeys_obj, e.sorted] at ht
  obtain ⟨hhead, hlast⟩ := print_obj_ends compact 0 e.record
  rw [← ht] at hhead hlast
  refine loads_of_prefix (e.loads_body true) hhead (fun c hc => ?_) h hne
  obtain rfl : 125 = c := by simpa [hlast] using hc
  rfl

/-- What is read of a cut line : its record, once that is all there. -/
def seen (tail : Bytes) : List (Entry F) := if tail.length < e.body.length then [] else [e]

/-- A cut of the line's text, up to its first tab. -/
theorem takeWhile_cut {t : PyStr} (h : t <+: e.text signer) :
    t.takeWhile (· != 9) = if t.length < e.body.length then t else e.body := by
  have hbody : ∀ c ∈ e.body, (c != 9) = true := fun c hc =>
    bne_iff_ne.2 fun h9 => e.tab_notMem_body (h9 ▸ hc)
  split_ifs with hlt
  · have ht : t <+: e.body := List.prefix_of_prefix_length_le h (List.prefix_append _ _) hlt.le
    exact List.takeWhile_eq_self_iff.2 fun c hc => hbody c (ht.subset hc)
  · obtain ⟨u, rfl⟩ : e.body <+: t :=
      List.prefix_of_prefix_length_le (List.prefix_append _ _) h (by omega)
    rw [List.takeWhile_append_of_pos hbody]
    have hu : u <+: 9 :: signer.sign e.body := (List.prefix_append_right_inj _).1 h
    cases u with
    | nil => simp
    | cons x u =>
      rw [(List.cons_prefix_cons.1 hu).1]
      simp

/-- The document of a cut line. -/
theorem loads_cut {t : PyStr} (h : t <+: e.text signer) :
    loads (F := F) true (t.takeWhile (· != 9)) =
      if t.length < e.body.length then none else some (.obj e.record) := by
  rw [e.takeWhile_cut signer h]
  split_ifs with hlt
  · have ht : t <+: e.body := List.prefix_of_prefix_length_le h (List.prefix_append _ _) hlt.le
    exact e.loads_of_prefix_body ht fun heq => by simp [heq] at hlt
  · exact e.loads_body true

/-- A cut of the line is one of its text. -/
theorem cut_eq_map {tail : Bytes} (h : tail <+: e.bytes signer) :
    ∃ t, tail = t.map UInt8.ofNat ∧ t <+: e.text signer := by
  rw [bytes_eq] at h
  obtain ⟨t, ht, rfl⟩ := List.prefix_map_iff.1 h
  exact ⟨t, rfl, ht⟩

/-- The record of a cut line, as the writer reads its last one. -/
theorem recordOf_cut {z : ℤ} (hz : e.record.get (py "seq") = .int z) {tail : Bytes}
    (h : tail <+: e.bytes signer) :
    recordOf (F := F) tail = if tail.length < e.body.length then none else some e.record := by
  obtain ⟨t, rfl, ht⟩ := e.cut_eq_map signer h
  have hascii : IsAscii t := fun c hc => e.isAscii_text signer c (ht.subset hc)
  have htab : ∀ c ∈ t, ((UInt8.ofNat c != 9) = (c != 9)) := by
    intro c hc
    have hlt := hascii c hc
    rw [Bool.eq_iff_iff, bne_iff_ne, bne_iff_ne, not_iff_not]
    refine ⟨fun h9 => ?_, fun h9 => by rw [h9]; rfl⟩
    have := congrArg UInt8.toNat h9
    rwa [UInt8.toNat_ofNat', Nat.mod_eq_of_lt (by omega)] at this
  have htake : (t.map UInt8.ofNat).takeWhile (· != 9) =
      (t.takeWhile (· != 9)).map UInt8.ofNat := by
    clear ht hascii h
    induction t with
    | nil => rfl
    | cons c t ih =>
      have hc := htab c List.mem_cons_self
      rw [List.map_cons, List.takeWhile_cons, List.takeWhile_cons, hc,
        ih fun x hx => htab x (List.mem_cons_of_mem _ hx)]
      cases c != 9 <;> rfl
  have hascii' : IsAscii (t.takeWhile (· != 9)) := fun c hc =>
    hascii c ((List.takeWhile_prefix _).subset hc)
  rw [recordOf, htake, decodeUtf8_map_ofNat hascii', Option.bind_some, e.loads_cut signer ht,
    List.length_map]
  split_ifs with hlt
  · rfl
  · simp [hz, asInt?]

end Entry

/-! ## A torn part -/

variable {c : Crypto} {signer : Signer c} {track : PyStr} {d : Dir} {e : Entry F} {tail : Bytes}

theorem newline_notMem_cut (h : tail <+: e.bytes signer) : 10 ∉ tail :=
  fun hmem => e.newline_notMem_bytes signer (h.subset hmem)

theorem lines_torn (p : List (Entry F)) (h : tail <+: e.bytes signer) :
    lines (render signer p ++ tail) = (p.map fun e => e.bytes signer) ++ [tail] :=
  lines_joinLines (newline_notMem_lines signer p) (newline_notMem_cut h)

/-- The records of a torn part. -/
theorem records_torn {p : List (Entry F)}
    (hseq : ∀ x ∈ p ++ [e], ∃ z, x.record.get (py "seq") = .int z)
    (h : tail <+: e.bytes signer) :
    (lines (render signer p ++ tail)).filterMap (recordOf (F := F)) =
      (p ++ e.seen tail).map Entry.record := by
  obtain ⟨z, hz⟩ := hseq e (by simp)
  rw [lines_torn p h, List.filterMap_append, List.filterMap_map, List.map_append]
  congr 1
  · refine (List.filterMap_congr fun x hx => ?_).trans (congrFun List.filterMap_eq_map p)
    obtain ⟨z, hz⟩ := hseq x (by simp [hx])
    exact x.recordOf_bytes signer hz
  · rw [List.filterMap_cons, e.recordOf_cut signer hz h, Entry.seen]
    split_ifs <;> rfl

/-- The text of a torn part, by its lines. -/
theorem splitOn_torn (p : List (Entry F)) {t : PyStr} (ht : t <+: e.text signer) :
    (renderText signer p ++ t).splitOn 10 = (p.map fun e => e.text signer) ++ [t] := by
  have hnot : ∀ (x : Entry F) (u : PyStr), u <+: x.text signer → 10 ∉ u := by
    intro x u hu hmem
    rcases x.printable_text signer 10 (hu.subset hmem) with h | h
    · exact absurd h.1 (by omega)
    · exact absurd h (by omega)
  induction p with
  | nil => exact List.splitOn_eq_singleton (hnot e t ht)
  | cons x p ih =>
    have hcons : renderText signer (x :: p) ++ t =
        x.text signer ++ 10 :: (renderText signer p ++ t) := by
      simp [renderText]
    rw [hcons, List.splitOn_append_cons_self_of_not_mem (hnot x _ List.prefix_rfl), ih]
    rfl

/-- The documents of a torn part. -/
theorem partDocs_torn (p : List (Entry F)) (h : tail <+: e.bytes signer) :
    partDocs (render signer p ++ tail) = .ok ((p ++ e.seen tail).map fun e => Json.obj e.record) := by
  obtain ⟨t, rfl, ht⟩ := e.cut_eq_map signer h
  have hchars : ∀ c ∈ renderText signer p ++ t, Printable c ∨ c = 9 ∨ c = 10 := by
    intro c hc
    rcases List.mem_append.1 hc with hc | hc
    · exact mem_renderText c hc
    · exact (e.printable_text signer c (ht.subset hc)).imp id Or.inl
  have hcr : 13 ∉ renderText signer p ++ t := by
    intro hmem
    rcases hchars 13 hmem with h | h | h
    · exact absurd h.1 (by omega)
    · exact absurd h (by omega)
    · exact absurd h (by omega)
  have hascii : IsAscii (renderText signer p ++ t) := fun c hc =>
    (List.mem_append.1 hc).elim (isAscii_renderText p c)
      fun hc => e.isAscii_text signer c (ht.subset hc)
  have hnil : ∀ x : Entry F, loads (F := F) true ((x.text signer).takeWhile (· != 9)) =
      some (.obj x.record) := by
    intro x
    rw [x.loads_cut signer List.prefix_rfl, if_neg (by simp [Entry.text])]
  rw [partDocs, render_eq_map, ← List.map_append, decodeUtf8_map_ofNat hascii]
  simp only [universalNewlines_of_notMem hcr, splitOn_torn p ht, List.filterMap_append,
    List.filterMap_map, List.map_append]
  congr 2
  · exact (List.filterMap_congr fun x _ => hnil x).trans (congrFun List.filterMap_eq_map p)
  · rw [List.filterMap_cons, e.loads_cut signer ht, Entry.seen, List.length_map]
    split_ifs <;> rfl

/-! ## A torn index -/

/-- The index of a track on disk : whole lines over its parts, and a cut of one line more with
its newline. The number of every record is an `int`. -/
structure Torn (signer : Signer c) (track : PyStr) (d : Dir) (ps : List (List (Entry F)))
    (e : Entry F) (tail : Bytes) : Prop where
  shows : d.ShowsIndex track (rendered signer tail ps)
  part : tail ≠ [] → ps ≠ []
  cut : tail <+: e.bytes signer ++ [10]
  proper : tail ≠ e.bytes signer ++ [10]
  seqs : ∀ x ∈ ps.flatten ++ [e], ∃ z, x.record.get (py "seq") = .int z

namespace Torn

variable {ps : List (List (Entry F))}

theorem cut_line (h : Torn signer track d ps e tail) : tail <+: e.bytes signer :=
  (List.prefix_concat_iff.1 h.cut).resolve_left h.proper

/-- Before anything was written. -/
theorem seen_nil : e.seen [] = [] := by
  have : 0 < e.body.length := by
    rw [List.length_pos_iff]
    intro hbody
    have := e.loads_body true
    rw [hbody] at this
    simp [loads, scanValue, skipWs] at this
  simp [Entry.seen, this]

/-- What is read of the parts one after another. -/
theorem flatMap_parts (h : Torn signer track d ps e tail) {β : Type} {f : Bytes → List β}
    {g : Entry F → β} (hf : ∀ (p : List (Entry F)) (cut : Bytes), p ∈ ps → cut <+: tail →
      f (render signer p ++ cut) = (p ++ e.seen cut).map g) :
    (rendered signer tail ps).flatMap f = (ps.flatten ++ e.seen tail).map g := by
  rcases List.eq_nil_or_concat ps with rfl | ⟨init, p, rfl⟩
  · obtain rfl : tail = [] := by
      by_contra htail
      exact h.part htail rfl
    simp [rendered, seen_nil]
  · rw [List.concat_eq_append] at hf ⊢
    have hinit : ∀ q ∈ init, f (render signer q) = q.map g := by
      intro q hq
      have := hf q [] (by simp [hq]) List.nil_prefix
      rwa [seen_nil, List.append_nil, List.append_nil] at this
    rw [rendered_concat, List.flatMap_append, List.flatMap_map, List.flatMap_singleton,
      hf p tail (by simp) List.prefix_rfl, List.flatten_concat, List.append_assoc]
    simp only [List.map_append]
    congr 1
    rw [List.map_flatten, ← List.flatMap_def]
    exact List.flatMap_congr hinit

/-- Each part is whole lines, and the last has a cut after them. -/
theorem eq_of_mem (h : Torn signer track d ps e tail) {data : Bytes}
    (hdata : data ∈ rendered signer tail ps) :
    ∃ p : List (Entry F), ∃ cut, cut <+: tail ∧ data = render signer p ++ cut := by
  rcases List.eq_nil_or_concat ps with rfl | ⟨init, p, rfl⟩
  · exact absurd hdata List.not_mem_nil
  · rw [List.concat_eq_append, rendered_concat, List.mem_append, List.mem_map,
      List.mem_singleton] at hdata
    rcases hdata with ⟨q, -, rfl⟩ | rfl
    · exact ⟨q, [], List.nil_prefix, (List.append_nil _).symm⟩
    · exact ⟨p, tail, List.prefix_rfl, rfl⟩

theorem lastRecord (h : Torn signer track d ps e tail) :
    d.lastRecord (F := F) track = .ok ((ps.flatten ++ e.seen tail).map Entry.record).getLast? := by
  rw [h.shows.lastRecord, List.filterMap_flatMap]
  congr 2
  refine h.flatMap_parts fun p cut hp hcut => records_torn (fun x hx => ?_) (hcut.trans h.cut_line)
  refine h.seqs x ?_
  rcases List.mem_append.1 hx with hx | hx
  · exact List.mem_append_left _ (List.mem_flatten.2 ⟨p, hp, hx⟩)
  · exact List.mem_append_right _ hx

theorem iterIndex (h : Torn signer track d ps e tail) :
    d.iterIndex (F := F) track = sortBySeq ((ps.flatten ++ e.seen tail).map Entry.record) := by
  have hlen := h.shows.length_le
  have hpart : ∀ (p : List (Entry F)) (cut : Bytes), cut <+: tail →
      partDocs (render signer p ++ cut) =
        .ok ((p ++ e.seen cut).map fun e => Json.obj e.record) :=
    fun p cut hcut => partDocs_torn p (hcut.trans h.cut_line)
  have hdocs := h.shows.docsFrom (F := F)
    (f := fun data => ((partDocs (F := F) data).toOption).getD []) (fun data hdata => by
      obtain ⟨p, cut, hcut, rfl⟩ := h.eq_of_mem hdata
      rw [hpart p cut hcut]
      rfl) (d.parts + 1) 0 (by omega)
  rw [List.drop_zero, h.flatMap_parts (g := fun e => Json.obj e.record) fun p cut _ hcut => by
    rw [hpart p cut hcut]
    rfl] at hdocs
  rw [Dir.iterIndex, hdocs, ok_bind, asDicts_map, ok_bind]

end Torn

/-- Records with numbers are sorted. -/
theorem sortBySeq_of_ints {rs : List (Dict F)} (h : ∀ r ∈ rs, ∃ z, r.get (py "seq") = .int z) :
    ∃ sorted, sortBySeq rs = .ok sorted ∧ sorted.length = rs.length := by
  have hall : (rs.all fun r => (seqKey r).isSome) = true := by
    rw [List.all_eq_true]
    intro r hr
    obtain ⟨z, hz⟩ := h r hr
    unfold Dict.get at hz
    cases hr' : r.get? (py "seq") with
    | none => simp [hr'] at hz
    | some x =>
      obtain rfl : x = .int z := by simpa [hr'] using hz
      simp [seqKey, hr', Json.num?]
  exact ⟨_, by rw [sortBySeq, if_pos hall], List.length_insertionSort _ _⟩

namespace Store

variable {st : Store} {signer : Signer st.crypto} {ps : List (List (Entry F))}

/-- What the repair keeps of the cut line. -/
def kept (signer : Signer c) (e : Entry F) (tail : Bytes) : List (Entry F) :=
  if tail = e.bytes signer then [e] else []

/-- The repair of an index that has no part. -/
theorem exec_repairTail_nil {s : Files} (h : s.dir.ShowsIndex track []) :
    (st.repairTail track).exec s = (.ok (), s) := by
  rw [Store.repairTail, exec_bind, exec_try, h.indexParts]
  rfl

/-- The repair of an index looks at its newest part only. -/
theorem exec_repairTail_concat {s : Files} {init : List Bytes} {data : Bytes}
    (h : s.dir.ShowsIndex track (init ++ [data])) :
    (st.repairTail track).exec s =
      (.ok (), st.repairFile (indexPartPath track init.length) s) := by
  have hnode : s.dir.node (indexPartPath track init.length) = .file data := by
    simpa using h init.length
  rw [Store.repairTail, exec_bind, exec_try, h.indexParts, List.length_append,
    List.length_singleton, List.range_succ]
  simp only [List.getLast?_append, List.getLast?_singleton, Option.some_or, exec, hnode,
    Node.readBytes_file]
  rfl

/-- The repair ends with whole lines : the whole ones, and the cut one when only its newline was
missing. -/
theorem torn_repairTail (hsigner : st.signer = some signer) {s : Files}
    (h : Torn signer track s.dir ps e tail) :
    ∃ qs, Torn signer track ((st.repairTail track).exec s).2.dir qs e [] ∧
      qs.flatten = ps.flatten ++ kept signer e tail := by
  have hcut : [] <+: e.bytes signer ++ [10] := List.nil_prefix
  have hproper : ([] : Bytes) ≠ e.bytes signer ++ [10] := by simp
  rcases List.eq_nil_or_concat ps with rfl | ⟨init, p, rfl⟩
  · obtain rfl : tail = [] := by
      by_contra htail
      exact h.part htail rfl
    rw [exec_repairTail_nil h.shows, kept, if_neg (e.bytes_ne_nil signer).symm]
    exact ⟨[], h, rfl⟩
  · rw [List.concat_eq_append] at h ⊢
    obtain ⟨q, hq, hrep⟩ := repaired_render hsigner p fun _ => ⟨e, h.cut_line⟩
    have hkept : q = p ++ kept signer e tail := by
      rw [kept]
      cases hq with
      | drop hno => rw [if_neg (hno e), List.append_nil]
      | complete e' he' =>
        obtain rfl : e' = e := by
          have hsigned := isSignedLine_bytes hsigner e'
          rw [← he', e.isSignedLine_of_prefix hsigner h.cut_line] at hsigned
          exact Entry.bytes_inj signer (he'.symm.trans hsigned)
        rw [if_pos he']
    have hshow := h.shows
    rw [rendered_concat] at hshow
    have hnode : s.dir.node (indexPartPath track init.length) =
        .file (render signer p ++ tail) := by
      simpa using hshow init.length
    rw [exec_repairTail_concat hshow, List.length_map, repairFile_of_file hnode, hrep]
    refine ⟨init ++ [q], ⟨?_, by simp, hcut, hproper, ?_⟩, by simp [hkept]⟩
    · rw [rendered_concat, List.append_nil]
      by_cases hsame : render signer q = render signer p ++ tail
      · simpa [hsame] using hshow
      · simpa [hsame] using hshow.write_last (render signer q)
    · intro x hx
      refine h.seqs x ?_
      rw [hkept, kept] at hx
      split_ifs at hx <;> simp at hx ⊢ <;> tauto

/-- The reads before the repair and after it agree when and only when the cut is not between the
end of the record and the end of its signature. -/
theorem tornReads_iff (hsigner : st.signer = some signer) {s : Files}
    (h : Torn signer track s.dir ps e tail) :
    (((st.repairTail track).exec s).2.dir.iterIndex (F := F) track = s.dir.iterIndex track ∧
      ((st.repairTail track).exec s).2.dir.lastRecord (F := F) track = s.dir.lastRecord track) ↔
    tail.length < e.body.length ∨ tail = e.bytes signer := by
  obtain ⟨qs, hqs, hflat⟩ := torn_repairTail hsigner h
  rw [hqs.iterIndex, hqs.lastRecord, h.iterIndex, h.lastRecord, hflat, Torn.seen_nil,
    List.append_nil]
  have hwhole : ¬(e.bytes signer).length < e.body.length := by
    simp [e.bytes_eq, Entry.text]
  constructor
  · rintro ⟨hiter, -⟩
    by_contra hgap
    obtain ⟨hlong, hcut⟩ := not_or.1 hgap
    rw [kept, if_neg hcut, Entry.seen, if_neg hlong, List.append_nil] at hiter
    have hints : ∀ r ∈ (ps.flatten ++ [e]).map Entry.record, ∃ z, r.get (py "seq") = .int z := by
      intro r hr
      obtain ⟨x, hx, rfl⟩ := List.mem_map.1 hr
      exact h.seqs x hx
    have hwholes : ∀ r ∈ ps.flatten.map Entry.record, ∃ z, r.get (py "seq") = .int z :=
      fun r hr => hints r (by
        rw [List.map_append]
        exact List.mem_append_left _ hr)
    obtain ⟨after, hafter, hafterlen⟩ := sortBySeq_of_ints hwholes
    obtain ⟨before, hbefore, hbeforelen⟩ := sortBySeq_of_ints hints
    rw [hafter, hbefore] at hiter
    have hlength := congrArg List.length (Except.ok.inj hiter)
    rw [hafterlen, hbeforelen] at hlength
    simp at hlength
  · intro hcond
    have hsame : kept signer e tail = e.seen tail := by
      rw [kept, Entry.seen]
      rcases hcond with hlt | rfl
      · have hcut : tail ≠ e.bytes signer := by
          rintro rfl
          exact hwhole hlt
        rw [if_pos hlt, if_neg hcut]
      · rw [if_pos rfl, if_neg hwhole]
    rw [hsame]
    exact ⟨rfl, rfl⟩

/-! ## A torn line -/

/-- A record of a number only. -/
def toyRecord : Dict Tenths := [(py "seq", .int 1)]

/-- Its line. -/
def toyEntry : Entry Tenths :=
  .of toyRecord (py "\x7b\"seq\":1\x7d") (by decide +kernel)
    ⟨by simp [Dict.Distinct, toyRecord], strWF_of_isAscii (by decide), trivial, trivial⟩

/-- The key pair of the store. -/
def toyKeys : Signer toy.crypto := toySigner

/-- An index of one cut line. -/
def tornFiles (tail : Bytes) : Files := noFiles.put (indexPartPath (py "t") 0) tail

theorem torn_tornFiles {tail : Bytes} (h : tail <+: toyEntry.bytes toyKeys) :
    Torn toyKeys (py "t") (tornFiles tail).dir [[]] toyEntry tail where
  shows := by
    have hnone : noFiles.dir.ShowsIndex (py "t") [] := fun k => rfl
    exact hnone.write_new tail
  part := by simp
  cut := h.trans (List.prefix_append _ _)
  proper := by
    rintro rfl
    have := h.length_le
    simp at this
  seqs := by
    intro x hx
    obtain rfl : x = toyEntry := by simpa using hx
    exact ⟨1, rfl⟩

/-- The record is all there and its signature is not : it is read until the repair drops it. -/
theorem torn_dropped : ∃ (s : Files) (e : Entry Tenths) (tail : Bytes),
    Torn toyKeys (py "t") s.dir [[]] e tail ∧
      s.dir.iterIndex (F := Tenths) (py "t") = .ok [e.record] ∧
      s.dir.lastRecord (F := Tenths) (py "t") = .ok (some e.record) ∧
      ((toy.repairTail (py "t")).exec s).2.dir.iterIndex (F := Tenths) (py "t") = .ok [] ∧
      ((toy.repairTail (py "t")).exec s).2.dir.lastRecord (F := Tenths) (py "t") = .ok none := by
  have hcut : encodeUtf8 toyEntry.body <+: toyEntry.bytes toyKeys := by
    rw [Entry.bytes, Entry.text, encodeUtf8_append]
    exact List.prefix_append _ _
  have h := torn_tornFiles hcut
  have hsigner : toy.signer = some toyKeys := rfl
  obtain ⟨qs, hqs, hflat⟩ := torn_repairTail hsigner h
  have hseen : toyEntry.seen (encodeUtf8 toyEntry.body) = [toyEntry] := by
    rw [Entry.seen, if_neg (by decide +kernel)]
  have hkept : kept toyKeys toyEntry (encodeUtf8 toyEntry.body) = [] := by
    rw [kept, if_neg (by decide +kernel)]
  refine ⟨_, toyEntry, _, h, ?_, ?_, ?_, ?_⟩
  · rw [h.iterIndex, hseen]
    rfl
  · rw [h.lastRecord, hseen]
    rfl
  · rw [hqs.iterIndex, hflat, hkept, Torn.seen_nil]
    rfl
  · rw [hqs.lastRecord, hflat, hkept, Torn.seen_nil]
    rfl

/-- A line that lost its newline only is read alike before the repair and after it. -/
theorem torn_completed :
    let s := tornFiles (toyEntry.bytes toyKeys)
    ((toy.repairTail (py "t")).exec s).2.dir.iterIndex (F := Tenths) (py "t") =
        s.dir.iterIndex (py "t") ∧
      ((toy.repairTail (py "t")).exec s).2.dir.lastRecord (F := Tenths) (py "t") =
        s.dir.lastRecord (py "t") := by
  have hsigner : toy.signer = some toyKeys := rfl
  exact (tornReads_iff hsigner (torn_tornFiles List.prefix_rfl)).2 (Or.inr rfl)

end Store

end IcilOrchestrator

import Mathlib
import IcilOrchestrator.Chunks
import IcilOrchestrator.Entries
import IcilOrchestrator.Partial

/-!
# The index on disk

`Store.Index` : the index of a track is some entries, numbered from 1, in parts each full
but the newest, with what a kill has left of the next line after them. The writer's reads
find these entries (`Index.lastRecord`, `Index.iterIndex`), and its repair leaves them and
the next one when nothing but its newline was missing (`Store.repaired_render`).
-/

namespace IcilOrchestrator

open Python

variable {F : Type} [PyFloat F] {c : Crypto} {signer : Signer c} {track : PyStr} {d : Dir}

/-! ## Parts -/

/-- The bytes of a part. -/
def render (signer : Signer c) (p : List (Entry F)) : Bytes :=
  joinLines (p.map fun e => e.bytes signer)

/-- The bytes of the parts, the newest with a tail. -/
def rendered (signer : Signer c) (tail : Bytes) : List (List (Entry F)) → List Bytes
  | [] => []
  | [p] => [render signer p ++ tail]
  | p :: q :: ps => render signer p :: rendered signer tail (q :: ps)

theorem rendered_concat (tail : Bytes) (init : List (List (Entry F))) (p : List (Entry F)) :
    rendered signer tail (init ++ [p]) = init.map (render signer) ++ [render signer p ++ tail] := by
  induction init with
  | nil => rfl
  | cons q init ih =>
    cases init with
    | nil => rfl
    | cons r init =>
      rw [List.cons_append, List.cons_append, rendered, ← List.cons_append, ih]
      simp

theorem rendered_nil (ps : List (List (Entry F))) :
    rendered signer [] ps = ps.map (render signer) := by
  rcases List.eq_nil_or_concat ps with rfl | ⟨init, p, rfl⟩
  · rfl
  · rw [List.concat_eq_append, rendered_concat]
    simp

theorem newline_notMem_lines (signer : Signer c) (p : List (Entry F)) : ∀ l ∈ p.map fun e => e.bytes signer, 10 ∉ l := by
  intro l hl
  obtain ⟨e, -, rfl⟩ := List.mem_map.1 hl
  exact e.newline_notMem_bytes signer

theorem lines_render (p : List (Entry F)) :
    lines (render signer p) = (p.map fun e => e.bytes signer) ++ [[]] := by
  have := @lines_joinLines _ [] (newline_notMem_lines signer p) (by simp)
  rwa [List.append_nil] at this

theorem render_append (p q : List (Entry F)) :
    render signer (p ++ q) = render signer p ++ render signer q := by
  rw [render, List.map_append, joinLines_append]
  rfl

theorem render_singleton (e : Entry F) : render signer [e] = e.bytes signer ++ [10] := by
  simp [render, joinLines]

/-! ## Repair -/

/-- What a repair makes of entries with a tail : the next entry when the tail is its line, and
nothing more otherwise. -/
inductive Heals (signer : Signer c) (es : List (Entry F)) (tail : Bytes) :
    List (Entry F) → Prop
  | drop (h : ∀ e : Entry F, tail ≠ e.bytes signer) : Heals signer es tail es
  | complete (e : Entry F) (h : tail = e.bytes signer) : Heals signer es tail (es ++ [e])

theorem heals_nil {es hs : List (Entry F)} : Heals signer es [] hs ↔ hs = es := by
  constructor
  · intro h
    cases h with
    | drop h => rfl
    | complete e h => exact absurd h.symm (e.bytes_ne_nil signer)
  · rintro rfl
    exact .drop fun e h => e.bytes_ne_nil signer h.symm

section

variable {st : Store} {signer : Signer st.crypto}

theorem isSignedLine_bytes (hs : st.signer = some signer) (e : Entry F) :
    st.isSignedLine (e.bytes signer) = true :=
  (e.isSignedLine_of_prefix hs List.prefix_rfl).2 rfl

/-- A file of whole lines and a tail that is no line. -/
theorem repaired_of_torn {data tail : Bytes} (htail : tail ≠ []) (hten : 10 ∉ tail) :
    st.repaired (data ++ tail) =
      if st.isSignedLine (rpartition (data ++ tail)).2 then data ++ tail ++ [10]
      else (data ++ tail).take (if (rpartition (data ++ tail)).1.isEmpty then 0
        else (rpartition (data ++ tail)).1.length + 1) := by
  have hlast : (data ++ tail).getLast? ≠ some 10 := by
    obtain ⟨init, b, rfl⟩ := List.eq_nil_or_concat tail |>.resolve_left htail
    rw [List.concat_eq_append, ← List.append_assoc, List.getLast?_concat]
    rintro hb
    obtain rfl := Option.some.inj hb
    simp at hten
  have hempty : (data ++ tail).isEmpty = false := by simp [htail]
  rw [Store.repaired, if_neg]
  rwa [hempty, Bool.false_or, beq_iff_eq]

/-- What is before the tail of a part, and its tail. -/
theorem rpartition_render (signer : Signer c) (p : List (Entry F)) {tail : Bytes} (hten : 10 ∉ tail) :
    (rpartition (render signer p ++ tail)).2 = tail ∧
    (render signer p ++ tail).take (if (rpartition (render signer p ++ tail)).1.isEmpty then 0
      else (rpartition (render signer p ++ tail)).1.length + 1) = render signer p := by
  rcases List.eq_nil_or_concat p with rfl | ⟨init, x, rfl⟩
  · simp [render, rpartition_of_notMem hten]
  · have hpart := rpartition_joinLines (newline_notMem_lines signer init)
      (x.newline_notMem_bytes signer) hten
    have hrender : joinLines ((init.map fun e => e.bytes signer) ++ [x.bytes signer]) =
        render signer (init.concat x) := by
      rw [render, List.concat_eq_append, List.map_append]
      rfl
    rw [hrender] at hpart
    have hlen : (joinLines (init.map fun e => e.bytes signer) ++ x.bytes signer).length + 1 =
        (render signer (init.concat x)).length := by
      rw [← hrender, joinLines_append]
      simp [joinLines]
      omega
    have hne : (joinLines (init.map fun e => e.bytes signer) ++ x.bytes signer).isEmpty = false := by
      simp [x.bytes_ne_nil signer]
    rw [hpart]
    refine ⟨rfl, ?_⟩
    simp only [hne, Bool.false_eq_true, if_false, hlen, List.take_left]

/-- The repair of a part. -/
theorem repaired_render (hs : st.signer = some signer) (p : List (Entry F)) {tail : Bytes}
    (h : tail ≠ [] → ∃ e : Entry F, tail <+: e.bytes signer) :
    ∃ q, Heals signer p tail q ∧ st.repaired (render signer p ++ tail) = render signer q := by
  by_cases htail : tail = []
  · subst htail
    refine ⟨p, heals_nil.2 rfl, ?_⟩
    rw [List.append_nil]
    unfold Store.repaired
    rw [if_pos]
    rcases List.eq_nil_or_concat p with rfl | ⟨init, e, rfl⟩
    · rfl
    · have hne : (init.concat e).map (fun e => e.bytes signer) ≠ [] := by simp
      rw [render, getLast?_joinLines hne]
      simp
  · obtain ⟨e, he⟩ := h htail
    have hten : 10 ∉ tail := fun hmem => e.newline_notMem_bytes signer (he.subset hmem)
    obtain ⟨htail', htake⟩ := rpartition_render signer p hten
    rw [repaired_of_torn htail hten, htake, htail']
    by_cases hsigned : st.isSignedLine tail
    · obtain rfl := (e.isSignedLine_of_prefix hs he).1 hsigned
      refine ⟨p ++ [e], .complete e rfl, ?_⟩
      rw [if_pos hsigned, render_append, render_singleton, List.append_assoc]
    · refine ⟨p, .drop ?_, by rw [if_neg hsigned]⟩
      rintro e' rfl
      exact hsigned (isSignedLine_bytes hs e')

end

/-! ## Reading parts -/

theorem Dir.ShowsIndex.indexPartsFrom {parts : List Bytes} (h : d.ShowsIndex track parts)
    (fuel part : ℕ) (hf : parts.length < part + fuel) :
    d.indexPartsFrom track fuel part = .ok (List.range' part (parts.length - part)) := by
  induction fuel generalizing part with
  | zero => rw [Nat.sub_eq_zero_of_le (by omega)]; rfl
  | succ fuel ih =>
    rw [Dir.indexPartsFrom]
    rcases Nat.lt_or_ge part parts.length with hlt | hge
    · rw [h.node_of_lt hlt, Node.exists?_file, ok_bind, if_pos rfl, ih (part + 1) (by omega)]
      rw [show parts.length - part = parts.length - (part + 1) + 1 by omega, List.range'_succ]
      rfl
    · rw [h.node_of_le hge, Node.exists?_missing, ok_bind, Nat.sub_eq_zero_of_le hge]
      rfl

theorem Dir.ShowsIndex.indexParts {parts : List Bytes} (h : d.ShowsIndex track parts) :
    d.indexParts track = .ok (List.range parts.length) := by
  have := h.length_le
  rw [Dir.indexParts, h.indexPartsFrom _ _ (by omega), Nat.sub_zero, List.range_eq_range']

/-- The last record of parts is that of their last line with one. -/
theorem Dir.ShowsIndex.lastRecord {parts : List Bytes} (h : d.ShowsIndex track parts) :
    d.lastRecord (F := F) track = .ok ((parts.flatMap lines).filterMap recordOf).getLast? := by
  have key : ∀ k ≤ parts.length, d.lastRecordOf (F := F) track (List.range k).reverse =
      .ok (((parts.take k).flatMap lines).filterMap recordOf).getLast? := by
    intro k
    induction k with
    | zero => intro _; rfl
    | succ k ih =>
      intro hk
      have hrec := ih (by omega)
      rw [List.range_succ, List.reverse_append, List.reverse_singleton, List.singleton_append,
        Dir.lastRecordOf, h.node_of_lt hk, Node.readBytes_file, ok_bind, List.take_succ_eq_append_getElem hk,
        List.flatMap_append, List.filterMap_append, List.getLast?_append, hrec]
      simp only [List.flatMap_singleton, ← List.getLast?_filterMap]
      cases ((lines parts[k]).filterMap (recordOf (F := F))).getLast? <;> rfl
  rw [Dir.lastRecord, h.indexParts, ok_bind, key _ le_rfl, List.take_length]

/-- The documents of parts are those of each, one part after another. -/
theorem Dir.ShowsIndex.docsFrom {parts : List Bytes} (h : d.ShowsIndex track parts)
    {f : Bytes → List (Json F)} (hf : ∀ data ∈ parts, partDocs data = .ok (f data))
    (fuel part : ℕ) (hfuel : parts.length < part + fuel) :
    d.docsFrom track fuel part = .ok ((parts.drop part).flatMap f) := by
  induction fuel generalizing part with
  | zero => rw [List.drop_eq_nil_of_le (by omega)]; rfl
  | succ fuel ih =>
    rw [Dir.docsFrom]
    rcases Nat.lt_or_ge part parts.length with hlt | hge
    · rw [h.node_of_lt hlt, Node.exists?_file, ok_bind, if_pos rfl, Node.readBytes_file, ok_bind,
        hf _ (List.getElem_mem hlt), ok_bind, ih (part + 1) (by omega),
        List.drop_eq_getElem_cons hlt, List.flatMap_cons]
      rfl
    · rw [h.node_of_le hge, Node.exists?_missing, ok_bind, List.drop_eq_nil_of_le hge]
      rfl

/-! ## The documents of a part -/

theorem universalNewlines_of_notMem {s : PyStr} (h : 13 ∉ s) : universalNewlines s = s := by
  induction s using universalNewlines.induct with
  | case1 => rfl
  | case2 s ih => simp at h
  | case3 s hs ih => simp at h
  | case4 c s h1 h2 ih =>
    rw [universalNewlines.eq_4 c s h1 h2, ih fun hmem => h (List.mem_cons_of_mem _ hmem)]

/-- The text of a part. -/
def renderText (signer : Signer c) (p : List (Entry F)) : PyStr :=
  p.flatMap fun e => e.text signer ++ [10]

theorem mem_renderText {p : List (Entry F)} : ∀ c ∈ renderText signer p,
    Printable c ∨ c = 9 ∨ c = 10 := by
  intro c hc
  obtain ⟨e, -, hc⟩ := List.mem_flatMap.1 hc
  rcases List.mem_append.1 hc with hc | hc
  · exact (e.printable_text signer c hc).imp id Or.inl
  · exact Or.inr (Or.inr (List.mem_singleton.1 hc))

theorem isAscii_renderText (p : List (Entry F)) : IsAscii (renderText signer p) := by
  intro c hc
  rcases mem_renderText c hc with h | rfl | rfl
  · exact lt_of_le_of_lt h.2 (by omega)
  · omega
  · omega

theorem render_eq_map (p : List (Entry F)) :
    render signer p = (renderText signer p).map UInt8.ofNat := by
  induction p with
  | nil => rfl
  | cons e p ih =>
    rw [show e :: p = [e] ++ p from rfl, render_append, ih, render_singleton, e.bytes_eq]
    simp [renderText]

theorem decodeUtf8_render (p : List (Entry F)) :
    decodeUtf8 (render signer p) = some (renderText signer p) := by
  rw [render_eq_map, decodeUtf8_map_ofNat (isAscii_renderText p)]

theorem splitOn_renderText (p : List (Entry F)) :
    (renderText signer p).splitOn 10 = (p.map fun e => e.text signer) ++ [[]] := by
  induction p with
  | nil => rfl
  | cons e p ih =>
    have hnot : 10 ∉ e.text signer := by
      intro h
      rcases e.printable_text signer 10 h with h | h
      · exact absurd h.1 (by omega)
      · exact absurd h (by omega)
    have hcons : renderText signer (e :: p) = e.text signer ++ 10 :: renderText signer p := by
      simp [renderText]
    rw [hcons, List.splitOn_append_cons_self_of_not_mem hnot, ih]
    rfl

/-- The documents of a part are its records. -/
theorem partDocs_render (p : List (Entry F)) :
    partDocs (render signer p) = .ok (p.map fun e => Json.obj e.record) := by
  have hcr : 13 ∉ renderText signer p := by
    intro h
    rcases mem_renderText 13 h with h | h | h
    · exact absurd h.1 (by omega)
    · exact absurd h (by omega)
    · exact absurd h (by omega)
  rw [partDocs, decodeUtf8_render]
  simp only [universalNewlines_of_notMem hcr, splitOn_renderText, List.filterMap_append]
  have hnil : [([] : PyStr)].filterMap (fun raw => loads (F := F) true (raw.takeWhile (· != 9))) =
      [] := rfl
  rw [hnil, List.append_nil]
  congr 1
  induction p with
  | nil => rfl
  | cons e p ih =>
    have hp : 13 ∉ renderText signer p := fun h => hcr (by
      rw [renderText, List.flatMap_cons]
      exact List.mem_append_right _ h)
    have htake : (e.text signer).takeWhile (· != 9) = e.body := by
      have := e.splitTab_text signer
      rw [splitTab] at this
      exact (Prod.mk.inj this).1
    rw [List.map_cons, List.filterMap_cons, htake, e.loads_body true, List.map_cons, ih hp]

theorem asDicts_map (es : List (Entry F)) :
    asDicts (es.map fun e => Json.obj e.record) = .ok (es.map Entry.record) := by
  induction es with
  | nil => rfl
  | cons e es ih => rw [List.map_cons, asDicts, ih]; rfl

/-- Records in sequence are sorted. -/
theorem sortBySeq_of_inSequence {rs : List (Dict F)} {seq : ℤ} (h : InSequence seq rs) :
    sortBySeq rs = .ok rs := by
  have hkey : ∀ (i : ℕ) (r : Dict F), rs[i]? = some r → seqKey r = some ((seq + i : ℤ) : ℚ) := by
    intro i r hr
    have hget := h.get hr
    have hsome : r.get? (py "seq") = some (.int (seq + i)) := by
      unfold Dict.get at hget
      cases hr' : r.get? (py "seq") with
      | none => simp [hr'] at hget
      | some x => simpa [hr'] using hget
    simp [seqKey, hsome, Json.num?]
  have hall : (rs.all fun r => (seqKey r).isSome) = true := by
    rw [List.all_eq_true]
    intro r hr
    obtain ⟨i, hi⟩ := List.mem_iff_getElem?.1 hr
    rw [hkey i r hi]
    rfl
  have hsorted : rs.Pairwise fun r s => (seqKey r).getD 0 ≤ (seqKey s).getD 0 := by
    rw [List.pairwise_iff_getElem]
    intro i j hi hj hij
    rw [hkey i _ (List.getElem?_eq_getElem hi), hkey j _ (List.getElem?_eq_getElem hj)]
    simp only [Option.getD_some, Int.cast_add, Int.cast_natCast, add_le_add_iff_left]
    exact_mod_cast hij.le
  rw [sortBySeq, if_pos hall, hsorted.insertionSort_eq]

/-! ## The index -/

namespace Store

variable {st : Store} {signer : Signer st.crypto}

/-- The index of a track on disk is the entries `es`, and `tail` of the line after them. -/
structure Index (st : Store) (signer : Signer st.crypto) (track : PyStr) (d : Dir)
    (es : List (Entry F)) (tail : Bytes) : Prop where
  parts : ∃ ps, Filled st.spec.per ps ∧ ps.flatten = es ∧
    d.ShowsIndex track (rendered signer tail ps) ∧
    (tail ≠ [] → ∃ init p, ps = init ++ [p] ∧ p.length < st.spec.per)
  seqs : InSequence 1 (es.map Entry.record)
  torn : tail ≠ [] → ∃ e : Entry F, e.record.get (py "seq") = .int (es.length + 1) ∧
    tail <+: e.bytes signer

namespace Index

variable {es : List (Entry F)}

theorem nil (h : ∀ k, d.node (indexPartPath track k) = .missing) :
    st.Index signer track d ([] : List (Entry F)) [] where
  parts := ⟨[], Filled.nil, rfl, fun k => h k, by simp⟩
  seqs := trivial
  torn := by simp

/-- Writing elsewhere leaves the index. -/
theorem congr {tail : Bytes} (h : st.Index signer track d es tail) {d' : Dir}
    (hd : ∀ k, d'.node (indexPartPath track k) = d.node (indexPartPath track k)) :
    st.Index signer track d' es tail where
  parts := by
    obtain ⟨ps, hfill, hes, hshow, htail⟩ := h.parts
    exact ⟨ps, hfill, hes, fun k => by rw [hd, hshow k], htail⟩
  seqs := h.seqs
  torn := h.torn

theorem lastRecord (h : st.Index signer track d es []) :
    d.lastRecord (F := F) track = .ok (es.map Entry.record).getLast? := by
  obtain ⟨ps, -, rfl, hshow, -⟩ := h.parts
  have hget : ∀ e ∈ ps.flatten, ∃ z, e.record.get (py "seq") = .int z := by
    intro e he
    obtain ⟨i, hi⟩ := List.mem_iff_getElem?.1 (List.mem_map_of_mem (f := Entry.record) he)
    exact ⟨_, h.seqs.get hi⟩
  have hnil : [([] : Bytes)].filterMap (recordOf (F := F)) = [] := rfl
  rw [hshow.lastRecord, rendered_nil]
  congr 2
  clear hshow h
  induction ps with
  | nil => rfl
  | cons p ps ih =>
    rw [List.map_cons, List.flatMap_cons, List.filterMap_append, List.flatten_cons,
      List.map_append, ih fun e he => hget e (by simp [he]), lines_render, List.filterMap_append,
      hnil, List.append_nil, List.filterMap_map]
    congr 1
    refine (List.filterMap_congr fun e he => ?_).trans (congrFun List.filterMap_eq_map p)
    obtain ⟨z, hz⟩ := hget e (by simp [he])
    exact e.recordOf_bytes signer hz

theorem nextSeq (h : st.Index signer track d es []) :
    nextSeq F d track = .ok (es.length + 1) := by
  rw [IcilOrchestrator.nextSeq, h.lastRecord, ok_bind]
  refine congrArg Except.ok ?_
  rcases List.eq_nil_or_concat es with rfl | ⟨init, e, rfl⟩
  · rfl
  · have hseq := h.seqs.get (i := init.length) (r := e.record) (by simp)
    simp only [List.concat_eq_append, List.map_append, List.map_cons, List.map_nil,
      List.getLast?_append, List.getLast?_singleton, Option.some_or, seqAfter, hseq, asInt?,
      Option.getD_some, List.length_append, List.length_singleton]
    push_cast
    ring

theorem iterIndex (h : st.Index signer track d es []) :
    d.iterIndex (F := F) track = .ok (es.map Entry.record) := by
  obtain ⟨ps, -, rfl, hshow, -⟩ := h.parts
  have hlen := hshow.length_le
  rw [rendered_nil] at hshow hlen
  have hdocs := hshow.docsFrom (F := F)
    (f := fun data => ((partDocs (F := F) data).toOption).getD []) (fun data hdata => by
      obtain ⟨p, -, rfl⟩ := List.mem_map.1 hdata
      rw [partDocs_render]
      rfl) (d.parts + 1) 0 (by omega)
  have hflat : (ps.map (render signer)).flatMap
      (fun data => ((partDocs (F := F) data).toOption).getD []) =
      ps.flatten.map fun e => Json.obj e.record := by
    rw [List.flatMap_map, List.map_flatten, ← List.flatMap_def]
    have hpart : (fun p : List (Entry F) =>
        ((partDocs (F := F) (render signer p)).toOption).getD []) =
        List.map fun e => Json.obj e.record := by
      funext p
      rw [partDocs_render]
      rfl
    rw [hpart]
  rw [List.drop_zero, hflat] at hdocs
  rw [Dir.iterIndex, hdocs, ok_bind, asDicts_map, ok_bind, sortBySeq_of_inSequence h.seqs]

end Index

end Store

end IcilOrchestrator

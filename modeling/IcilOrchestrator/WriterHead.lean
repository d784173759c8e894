import Mathlib
import IcilOrchestrator.StoreSchema
import IcilOrchestrator.Verify
import IcilOrchestrator.WriterSpec

/-!
# The head and the verifier

What the schema says of a record that the head takes over (`Headed`), and the head that an
append or a rebuild leaves, as the verifier reads it : it meets its schema and agrees with
the last record of the index (`Verifier.verifyHead_of_shows`). A store without records has
the head that `init` gave it (`Verifier.verifyHead_of_init`).
-/

set_option linter.unusedSectionVars false

namespace IcilOrchestrator

open Python Schema

variable {F : Type} [PyFloat F]

/-! ## Sorted keys -/

theorem truthy_sortKeys (j : Json F) : j.sortKeys.truthy = j.truthy := by
  cases j with
  | arr xs => simp [Json.sortKeys_arr, Json.truthy]
  | obj kvs =>
    have hlen := (Json.perm_sortDict kvs).length_eq
    rw [List.length_map] at hlen
    rw [Json.sortKeys_obj, Json.truthy, Json.truthy, Bool.eq_iff_iff]
    simp only [Bool.not_eq_true', List.isEmpty_eq_false_iff, ← List.length_pos_iff, hlen]
  | _ => rfl

theorem isStr_sortKeys (j : Json F) (text : String) : isStr j.sortKeys text = isStr j text := by
  cases j <;> rfl

theorem crowns_sortKeys (j : Json F) : crowns j.sortKeys = crowns j := by
  simp only [crowns, isStr_sortKeys]

/-- The crown of a sorted record is the record's, sorted. -/
theorem crownOf_sortDict {record : Dict F} (h : record.Distinct) :
    crownOf (Json.sortDict record) = (crownOf record).sortKeys := by
  unfold crownOf
  simp only [Json.get_sortDict h, isStr_sortKeys, truthy_sortKeys]
  split_ifs <;> rfl

/-- A schema that accepts a value with its keys sorted when it accepts the value. -/
def SortBlind (s : Schema F) : Prop := ∀ j : Json F, j.WF → s j → s j.sortKeys

theorem sortBlind_ofType (t : JsonType) : SortBlind (ofType t : Schema F) := by
  intro j _ h
  cases j <;> cases t <;> exact h

theorem sortBlind_allOf {ss : List (Schema F)} (h : ∀ s ∈ ss, SortBlind s) :
    SortBlind (allOf ss) :=
  fun j hj hs => allOf_iff.2 fun s hmem => h s hmem j hj (allOf_iff.1 hs s hmem)

/-- A schema of strings. -/
theorem sortBlind_string (s : Schema F) : SortBlind (allOf [ofType .string, s]) := by
  intro j _ h
  obtain ⟨t, rfl⟩ := ofType_string_iff.1 (allOf_iff.1 h (ofType .string) (by simp))
  exact h

theorem sortBlind_required (keys : List String) : SortBlind (required keys : Schema F) := by
  intro j hj h
  cases j with
  | obj d =>
    rw [Json.sortKeys_obj]
    refine required_iff.2 fun k hk => ?_
    obtain ⟨v, hv⟩ := required_iff.1 h k hk
    exact ⟨v.sortKeys, by rw [Json.get?_sortDict hj.1, hv]; rfl⟩
  | _ => exact h

theorem sortBlind_property {key : String} {s : Schema F} (hs : SortBlind s) :
    SortBlind (property key s) := by
  intro j hj h
  cases j with
  | obj d =>
    rw [Json.sortKeys_obj]
    refine property_iff.2 fun v hv => ?_
    rw [Json.get?_sortDict hj.1] at hv
    obtain ⟨w, hw, rfl⟩ := Option.map_eq_some_iff.1 hv
    exact hs w (Json.wf_get? hj hw) (property_iff.1 h w hw)
  | _ => exact h

theorem modelRef_null : StoreSchema.modelRef (.null : Json F) = false := by
  simp [StoreSchema.modelRef, allOf, ofType]

theorem sortBlind_modelRef : SortBlind (orNull StoreSchema.modelRef : Schema F) := by
  have href : SortBlind (StoreSchema.modelRef : Schema F) := by
    refine sortBlind_allOf ?_
    simp only [List.mem_cons, List.not_mem_nil, or_false, forall_eq_or_imp, forall_eq]
    exact ⟨sortBlind_ofType _, sortBlind_required _, sortBlind_property (sortBlind_string _),
      sortBlind_property (sortBlind_string _), sortBlind_property (sortBlind_string _)⟩
  intro j hj h
  rcases (orNull_iff modelRef_null).1 h with rfl | h
  · exact h
  · exact (orNull_iff modelRef_null).2 (Or.inr (href j hj h))

/-! ## What a head takes over -/

/-- What the schema says of a record that its head takes over. -/
structure Headed (record : Dict F) : Prop where
  kind : crowns (record.get (py "kind")) = true
  eventId : ∃ s, record.get? (py "event_id") = some (.str s)
  block : ∃ x, record.get? (py "block") = some x ∧ ofType .integer x = true
  finishedAt : ∃ s, record.get? (py "finished_at") = some (.str s)
  king : orNull StoreSchema.modelRef (crownOf record) = true

/-- A record of the schema is one. -/
theorem headed_of_recordBase {record : Dict F} (h : StoreSchema.recordBase (.obj record)) :
    Headed record := by
  simp only [StoreSchema.recordBase, allOf_iff, List.mem_cons, List.not_mem_nil, or_false,
    forall_eq_or_imp, forall_eq, required_iff, property_iff] at h
  obtain ⟨-, hreq, -, hid, hkind, -, hblock, hfin, -, -, hking, -, -, -, -, -, hnew, -⟩ := h
  obtain ⟨-, ⟨id, hid'⟩, ⟨kind, hkind'⟩, -, ⟨block, hblock'⟩, ⟨fin, hfin'⟩, ⟨king, hking'⟩, -, -, -,
    -, -, ⟨new, hnew'⟩, -⟩ := hreq
  have hstring : ∀ {s : Schema F} {j : Json F}, allOf [ofType .string, s] j → ∃ t, j = .str t :=
    fun hs => ofType_string_iff.1 (allOf_iff.1 hs _ (by simp))
  obtain ⟨s, rfl⟩ := hstring (hid id hid')
  obtain ⟨t, rfl⟩ := hstring (hfin fin hfin')
  have hkinds : crowns kind = true := by
    have hk := hkind kind hkind'
    obtain ⟨u, rfl⟩ := hstring hk
    have henum := allOf_iff.1 hk (enum [py "duel", py "genesis", py "succession", py "vacancy"])
      (by simp)
    simpa [enum, crowns, isStr, or_assoc] using henum
  refine ⟨by rwa [Dict.get_eq_of_get? hkind'], ⟨s, hid'⟩, ⟨block, hblock', ?_⟩, ⟨t, hfin'⟩, ?_⟩
  · exact allOf_iff.1 (hblock block hblock') _ (by simp)
  · unfold crownOf
    rw [Dict.get_eq_of_get? hnew', Dict.get_eq_of_get? hking']
    split_ifs
    · rfl
    · exact hnew new hnew'
    · exact hnew new hnew'
    · exact hking king hking'

/-- The fields that an append adds to a record are none of them. -/
theorem Headed.set {record : Dict F} (h : Headed record) {k : String} (v : Json F)
    (hk : k ∉ ["kind", "event_id", "block", "finished_at", "king", "new_king", "dethroned"]) :
    Headed (record.set (py k) v) := by
  simp only [List.mem_cons, List.not_mem_nil, or_false, not_or] at hk
  obtain ⟨h1, h2, h3, h4, h5, h6, h7⟩ := hk
  have hget? : ∀ {k' : String}, k ≠ k' → (record.set (py k) v).get? (py k') = record.get? (py k') :=
    fun hne => Dict.get?_set_of_ne (by simpa using hne) _ _
  have hget : ∀ {k' : String}, k ≠ k' → (record.set (py k) v).get (py k') = record.get (py k') :=
    fun hne => by rw [Dict.get, Dict.get, hget? hne]
  have hcrown : crownOf (record.set (py k) v) = crownOf record := by
    simp only [crownOf, hget h1, hget h5, hget h6, hget h7]
  exact ⟨by rw [hget h1]; exact h.kind, by rw [hget? h2]; exact h.eventId,
    by rw [hget? h3]; exact h.block, by rw [hget? h4]; exact h.finishedAt,
    by rw [hcrown]; exact h.king⟩

theorem wf_crownOf {record : Dict F} (h : (Json.obj record).WF) : (crownOf record).WF := by
  have hget : ∀ k, (record.get k).WF := by
    intro k
    unfold Dict.get
    cases hk : record.get? k with
    | none => trivial
    | some v => exact Json.wf_get? h hk
  unfold crownOf
  split_ifs
  · trivial
  · exact hget _
  · exact hget _
  · exact hget _

/-- Sorting the keys leaves what a head takes over. -/
theorem Headed.sortDict {record : Dict F} (h : Headed record) (hwf : (Json.obj record).WF) :
    Headed (Json.sortDict record) where
  kind := by rw [Json.get_sortDict hwf.1, crowns_sortKeys]; exact h.kind
  eventId := h.eventId.imp fun s hs => by rw [Json.get?_sortDict hwf.1, hs]; rfl
  block := by
    obtain ⟨x, hx, hint⟩ := h.block
    exact ⟨x.sortKeys, by rw [Json.get?_sortDict hwf.1, hx]; rfl,
      sortBlind_ofType _ x (Json.wf_get? hwf hx) hint⟩
  finishedAt := h.finishedAt.imp fun s hs => by rw [Json.get?_sortDict hwf.1, hs]; rfl
  king := by
    rw [crownOf_sortDict hwf.1]
    exact sortBlind_modelRef _ (wf_crownOf hwf) h.king

/-! ## Reading a head back -/

variable {st : Store} {seq block : ℤ} {eventId finishedAt : PyStr} {king : Json F}

theorem wf_headDict (st : Store) (seq block : ℤ) (hid : StrWF eventId) (hfin : StrWF finishedAt) (hking : king.WF) :
    (Json.obj (st.headDict seq eventId block finishedAt king)).WF := by
  refine ⟨?_, Json.wfMembers_iff.2 ?_⟩
  · simp [Dict.Distinct, Store.headDict]
  · have hkey : ∀ s ∈ ["schema", "seq", "event_id", "block", "finished_at", "king"],
        StrWF (py s) := by
      intro s hs
      refine strWF_of_isAscii ?_
      fin_cases hs <;> decide
    simp only [Store.headDict, List.mem_cons, List.not_mem_nil, or_false, forall_eq_or_imp,
      forall_eq]
    exact ⟨⟨hkey _ (by simp), trivial⟩, ⟨hkey _ (by simp), trivial⟩, ⟨hkey _ (by simp), hid⟩,
      ⟨hkey _ (by simp), trivial⟩, ⟨hkey _ (by simp), hfin⟩, ⟨hkey _ (by simp), hking⟩⟩

/-- A head is read back as it was written. -/
theorem readJsonFile_head {text : PyStr} (hid : StrWF eventId) (hfin : StrWF finishedAt)
    (hking : king.WF) (hstrict : king.dumpable false)
    (h : dumps indented true (.obj (st.headDict seq eventId block finishedAt king)) = some text) :
    readJsonFile (.file (encodeUtf8 (text ++ [10]))) =
      .ok (.obj (Json.sortDict (st.headDict seq eventId block finishedAt king))) := by
  have hwf := wf_headDict st seq block hid hfin hking
  obtain ⟨hd, ht⟩ := dumps_eq_some_iff.1 h
  have hd' : (Json.obj (st.headDict seq eventId block finishedAt king)).dumpable false := by
    have hmem := Json.dumpableMembers_iff.1 hd
    refine Json.dumpableMembers_iff.2 ?_
    simp only [Store.headDict, List.mem_cons, List.not_mem_nil, or_false, forall_eq_or_imp,
      forall_eq] at hmem ⊢
    exact ⟨hmem.1, hmem.2.1, hmem.2.2.1, hmem.2.2.2.1, hmem.2.2.2.2.1, hstrict⟩
  have hload := loads_dumps hwf (dumps_eq_some_iff.2 ⟨hd', ht⟩) (w := [10]) (by simp [isWs])
  have hascii : IsAscii (text ++ [10]) :=
    isAscii_append.2 ⟨isAscii_of_dumps h, by decide⟩
  rw [readJsonFile, parseJsonBytes, decodeUtf8_encodeUtf8 hascii]
  simp only [hload, Json.sortKeys_obj]

theorem sortBlind_minimum (m : ℤ) : SortBlind (minimum m : Schema F) := by
  intro j _ h
  cases j <;> exact h

/-- A head of a crown meets the schema. -/
theorem head_headDict (st : Store) (block : ℤ) (hid : StrWF eventId) (hfin : StrWF finishedAt) (hwf : king.WF)
    (hseq : 0 ≤ seq) (hking : orNull StoreSchema.modelRef king) :
    StoreSchema.head
      (.obj (Json.sortDict (st.headDict seq eventId block finishedAt king))) := by
  have hblind : SortBlind (StoreSchema.head : Schema F) := by
    refine sortBlind_allOf ?_
    simp only [List.mem_cons, List.not_mem_nil, or_false, forall_eq_or_imp, forall_eq]
    have hint : SortBlind (StoreSchema.integerFrom 0 : Schema F) := by
      refine sortBlind_allOf ?_
      simp only [List.mem_cons, List.not_mem_nil, or_false, forall_eq_or_imp, forall_eq]
      exact ⟨sortBlind_ofType _, sortBlind_minimum _⟩
    exact ⟨sortBlind_ofType _, sortBlind_required _, sortBlind_property (sortBlind_ofType _),
      sortBlind_property hint, sortBlind_property (sortBlind_ofType _),
      sortBlind_property (sortBlind_ofType _), sortBlind_property (sortBlind_ofType _),
      sortBlind_property sortBlind_modelRef⟩
  refine hblind _ (wf_headDict st seq block hid hfin hwf) (allOf_iff.2 ?_)
  have hget : ∀ (k : String), Dict.get? (st.headDict seq eventId block finishedAt king) (py k) =
      if k = "schema" then some (.int st.spec.schema) else if k = "seq" then some (.int seq)
      else if k = "event_id" then some (.str eventId) else if k = "block" then some (.int block)
      else if k = "finished_at" then some (.str finishedAt)
      else if k = "king" then some king else none := by
    intro k
    simp only [Store.headDict, Dict.get?_cons, py_inj, eq_comm (b := k), Dict.get?_nil]
  simp only [List.mem_cons, List.not_mem_nil, or_false, forall_eq_or_imp, forall_eq,
    required_iff, property_iff, hget]
  refine ⟨rfl, by simp, ?_, ?_, ?_, ?_, ?_, ?_⟩
  · simp [ofType]
  · simp [StoreSchema.integerFrom, allOf, ofType, minimum, hseq]
  · simp [ofType]
  · simp [ofType]
  · simp [ofType]
  · simpa using hking

/-! ## What the verifier says of a head -/

theorem get_headDict (st : Store) (k : String) :
    Dict.get (st.headDict seq eventId block finishedAt king) (py k) =
      if k = "schema" then .int st.spec.schema else if k = "seq" then .int seq
      else if k = "event_id" then .str eventId else if k = "block" then .int block
      else if k = "finished_at" then .str finishedAt
      else if k = "king" then king else .null := by
  simp only [Store.headDict, Dict.get, Dict.get?_cons, py_inj, eq_comm (b := k), Dict.get?_nil]
  split_ifs <;> rfl

theorem get_sortDict_headDict (st : Store) (seq block : ℤ) (hid : StrWF eventId) (hfin : StrWF finishedAt) (hking : king.WF)
    (k : String) :
    Dict.get (Json.sortDict (st.headDict seq eventId block finishedAt king)) (py k) =
      (Dict.get (st.headDict seq eventId block finishedAt king) (py k)).sortKeys :=
  Json.get_sortDict (wf_headDict st seq block hid hfin hking).1 _

/-- The integer that `int` makes of an integer is equal to it. -/
theorem pyEq_intOf {x : Json F} {z : ℤ} (hx : ofType .integer x) (h : st.intOf x = .ok z) :
    (Json.int z : Json F).pyEq x = true := by
  cases x with
  | int z' =>
    obtain rfl := Except.ok.inj h
    simp [Json.pyEq, Json.num?]
  | float f =>
    obtain rfl := Except.ok.inj h
    have hden : (PyFloat.val f).den = 1 := by simpa [ofType] using hx
    simp only [Json.pyEq, Json.num?, hden, Nat.cast_one, Int.tdiv_one]
    rw [beq_iff_eq]
    exact_mod_cast Rat.coe_int_num_of_den_eq_one hden
  | _ => simp [ofType] at hx

theorem pyEq_str_self (s : PyStr) : (Json.str s : Json F).pyEq (.str s) = true := by
  simp [Json.pyEq]

theorem dumpable_get {record : Dict F} (h : (Json.obj record).dumpable false) (k : PyStr) :
    (record.get k).dumpable false := by
  unfold Dict.get
  cases hk : record.get? k with
  | none => rfl
  | some v => exact Json.dumpableMembers_iff.1 h _ (Dict.mem_of_get? hk)

theorem dumpable_crownOf {record : Dict F} (h : (Json.obj record).dumpable false) :
    (crownOf record).dumpable false := by
  unfold crownOf
  split_ifs
  · rfl
  all_goals exact dumpable_get h _

variable [PyRepr F] {v : Verifier F} {track : PyStr}

namespace Verifier

/-- `iter_errors` yields nothing for a document that the schema accepts. -/
def SchemaSilent (v : Verifier F) : Prop :=
  ∀ (ref : PyStr) (doc : Json F), StoreSchema.accepts ref doc → v.iterErrors ref doc = []

theorem SchemaSilent.head (h : v.SchemaSilent) {doc : Json F} (hd : StoreSchema.head doc) :
    v.iterErrors (py "Head") doc = [] := by
  refine h _ _ ?_
  simpa [StoreSchema.accepts] using hd

/-- The verifier has nothing to say of the head that follows the last entry. -/
theorem verifyHead_of_shows (st : Store) {e : Entry F} {signed : Dict F} {n : ℕ}
    (hschema : v.SchemaSilent)
    (he : e.record = Json.sortDict signed) (hwf : (Json.obj signed).WF) (hhead : Headed signed)
    (hseq : e.record.get (py "seq") = .int n)
    (hshows : st.HeadShows track v.dir n signed (crownOf signed)) :
    (v.verifyHead track (some e.record) (crownOf e.record)).errors = [] := by
  obtain ⟨eventId, block, finishedAt, text, hid, hblock, hfin, hd, hnode⟩ := hshows
  obtain ⟨s, hs⟩ := hhead.eventId
  obtain ⟨t, ht⟩ := hhead.finishedAt
  obtain ⟨x, hx, hint⟩ := hhead.block
  obtain rfl : Json.str s = eventId := by simpa [item, hs] using hid
  obtain rfl : Json.str t = finishedAt := by simpa [item, ht] using hfin
  have hblock' : st.intOf x = .ok block := by simpa [item, hx] using hblock
  have hstrict : (crownOf signed).dumpable false := by
    have hc := (dumps_eq_some_iff.1 e.canonical).1
    rw [he, ← Json.sortKeys_obj, Json.dumpable_sortKeys] at hc
    exact dumpable_crownOf hc
  have hids : StrWF s := Json.wf_get? hwf hs
  have hfins : StrWF t := Json.wf_get? hwf ht
  have hkwf := wf_crownOf hwf
  have hget := get_sortDict_headDict st n block hids hfins hkwf
  have hread := readJsonFile_head hids hfins hkwf hstrict hd
  have haccepts := hschema.head (head_headDict st block hids hfins hkwf
    (Int.natCast_nonneg n) hhead.king)
  have hkey : ∀ {k : PyStr} {y : Json F}, signed.get? k = some y →
      e.record.get k = y.sortKeys := by
    intro k y hy
    rw [he, Json.get_sortDict hwf.1, Dict.get_eq_of_get? hy]
  have hblock'' : (Json.int block : Json F).pyEq x.sortKeys = true :=
    pyEq_intOf (sortBlind_ofType _ x (Json.wf_get? hwf hx) hint) (by cases x <;> exact hblock')
  have hking : (crownOf signed).sortKeys.pyEq (crownOf e.record) = true := by
    rw [he, crownOf_sortDict hwf.1]
    exact Json.pyEq_self (Json.wf_sortKeys hkwf) (by rwa [Json.dumpable_sortKeys])
  have hseq' : (Json.int (n : ℤ) : Json F).pyEq (.int n) = true := by simp [Json.pyEq, Json.num?]
  rw [verifyHead, hnode]
  simp only [hread, Found.errors_append, (v.check_errors_eq_nil).2 haccepts, hget, get_headDict,
    hkey hs, hkey ht, hkey hx, hseq, Found.errors_errIf]
  simp [Json.sortKeys, hking, hblock'', hseq', pyEq_str_self]

/-- Nor of the head of a track without records. -/
theorem verifyHead_of_init {text : PyStr}
    (hschema : v.SchemaSilent)
    (hd : dumps indented true (.obj (st.headDict 0 [] 0 [] (.null : Json F))) = some text)
    (hnode : v.dir.node (headPath track) = .file (encodeUtf8 (text ++ [10]))) :
    (v.verifyHead track none .null).errors = [] := by
  have hnil : StrWF [] := strWF_of_isAscii isAscii_nil
  have hwf : (Json.null : Json F).WF := trivial
  have hget := get_sortDict_headDict st 0 0 hnil hnil hwf
  have hread := readJsonFile_head hnil hnil hwf rfl hd
  have haccepts := hschema.head (head_headDict st 0 hnil hnil hwf le_rfl rfl)
  rw [verifyHead, hnode]
  simp only [hread, Found.errors_append, (v.check_errors_eq_nil).2 haccepts, hget, get_headDict,
    Found.errors_errIf]
  simp [Json.sortKeys, Json.pyEq, Json.num?]

end Verifier

end IcilOrchestrator

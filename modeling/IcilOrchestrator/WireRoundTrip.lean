import Mathlib
import IcilOrchestrator.Wire

/-!
# A message is read back as it was sent

`recv_encode` : a message that `encode` accepts (`Accepted`) is what `recv` reads from its
frames, and the frames that follow are left for the next message, when its arrays are
within what the receiver takes (`Accepted.Fits`) and `json.loads` undoes `json.dumps` on
its header (`Accepted.Undone`, which holds for every well-formed header :
`undone_of_wf`).

`recv_messages` : any sequence of messages is read back message by message from the
concatenation of their frames, with nothing left over.
-/

set_option linter.unusedSectionVars false

namespace IcilOrchestrator

open Python

namespace Wire

variable {F : Type} [PyFloat F]

/-! ## What `encode` accepts -/

/-- What a mapping holds under a string. -/
def Mapping.get? {α : Type} (m : Mapping α) (name : PyStr) : Option α :=
  m.items.lookup (.str name)

/-- A message as it was given to `encode`, which made frames of it. -/
structure Accepted (F : Type) [PyFloat F] where
  op : PyStr
  fields : Mapping (Json F)
  arrays : Mapping Value
  frames : List Bytes
  encoded : encode op fields arrays = .ok frames

/-- `array.nbytes` of a value. -/
def Value.nbytes (v : Value) : ℕ :=
  match v.asarray with
  | .ok a => a.nbytes
  | .error _ => 0

/-- The receiver takes the arrays : each has, and in total they have, at most `maxBytes`
bytes. -/
structure Accepted.Fits (m : Accepted F) (maxBytes : ℕ) : Prop where
  each : ∀ p ∈ m.arrays.items, ∀ a, p.2.asarray = .ok a →
    reckoned a.shape a.dtype.itemsize ≤ maxBytes
  total : (m.arrays.items.map fun p => p.2.nbytes).sum ≤ maxBytes

/-- `json.loads` undoes `json.dumps` on a header. -/
def Undoes (j : Json F) : Prop :=
  ∀ b, dumpHeader j = some b → (decodeUtf8 b).bind (loads false) = some j

/-- `json.loads` undoes `json.dumps` on the header of a message. -/
def Accepted.Undone (m : Accepted F) : Prop :=
  ∀ fields described, stringKeyed m.fields.items = some fields →
    describeAll (F := F) m.op (sortedArrays m.arrays) = .ok described →
    Undoes (header m.op fields described)

/-- A message received is the one sent : its op, its fields, and for each name the array,
little-endian. -/
structure Accepted.Same (m : Accepted F) (r : Message F) : Prop where
  op : r.op = m.op
  fields : r.fields.map (fun p => (Key.str p.1, p.2)) = m.fields.items
  names : (r.arrays.map Prod.fst).Nodup
  arrays : ∀ name, r.arrays.lookup name =
    (m.arrays.get? name).bind fun v => v.asarray.toOption.map NdArray.astypeLittle

/-- What one turn of the loop over the names says of its item. -/
structure Describes (p : Key × Value) (d : PyStr × NdArray) : Prop where
  name : p.1 = .str d.1
  name_ne : d.1 ≠ []
  array : ∃ a, p.2.asarray = .ok a ∧ isDtype a.dtype.little = true ∧
    a.shape.length ≤ maxNdim ∧ d.2 = a.astypeLittle

theorem checked_eq_ok {name : PyStr} {v : Value} {b : NdArray}
    (h : checked (F := F) name v = .ok b) : ∃ a, v.asarray = .ok a ∧
      isDtype a.dtype.little = true ∧ a.shape.length ≤ maxNdim ∧ b = a.astypeLittle := by
  unfold checked at h
  split at h
  · simp at h
  · rename_i a ha
    split_ifs at h with hd hn
    have hd' : isDtype a.dtype.little = true := by
      by_contra hne
      exact hd (by simp [hne])
    exact ⟨a, ha, hd', not_lt.1 hn, (Except.ok.inj h).symm⟩

theorem describe_eq_ok {op : PyStr} {p : Key × Value} {d : PyStr × NdArray}
    (h : describe (F := F) op p = .ok d) : Describes p d := by
  unfold describe at h
  split at h
  · rename_i c s hp
    cases hc : checked (F := F) (c :: s) p.2 with
    | error e => simp [hc, Except.map] at h
    | ok b =>
      obtain rfl : (c :: s, b) = d := by simpa [hc, Except.map] using h
      exact ⟨hp, by simp, checked_eq_ok hc⟩
  · simp at h

/-- The arrays are described one by one, in the order of their names. -/
theorem describeAll_eq_ok {op : PyStr} {ps : List (Key × Value)} {ds : List (PyStr × NdArray)}
    (h : describeAll (F := F) op ps = .ok ds) : List.Forall₂ Describes ps ds := by
  induction ps generalizing ds with
  | nil =>
    obtain rfl : [] = ds := by simpa [describeAll] using h
    exact .nil
  | cons p ps ih =>
    unfold describeAll at h
    cases hp : describe (F := F) op p with
    | error e => simp [hp] at h
    | ok d =>
      cases hps : describeAll (F := F) op ps with
      | error e => simp [hp, hps, Except.map] at h
      | ok ds' =>
        obtain rfl : d :: ds' = ds := by simpa [hp, hps, Except.map] using h
        exact .cons (describe_eq_ok hp) (ih hps)

theorem stringKeyed_eq_some {items : List (Key × Json F)} {d : Dict F}
    (h : stringKeyed items = some d) : d.map (fun p => (Key.str p.1, p.2)) = items := by
  induction items generalizing d with
  | nil =>
    obtain rfl : [] = d := by simpa [stringKeyed] using h
    rfl
  | cons p items ih =>
    obtain ⟨k, v⟩ := p
    cases k with
    | other i s => simp [stringKeyed] at h
    | str k =>
      rw [stringKeyed] at h
      obtain ⟨d', hd', rfl⟩ := Option.map_eq_some_iff.1 h
      simp [ih hd']

/-- What `encode` has checked of a message whose frames it returns. -/
structure Encoded (m : Accepted F) (d : Dict F) (ds : List (PyStr × NdArray)) (b : Bytes) :
    Prop where
  op : m.op ∈ clientOps ∨ m.op ∈ replyOps
  fields : stringKeyed m.fields.items = some d
  count : m.arrays.items.length ≤ maxArrays
  described : describeAll (F := F) m.op (sortedArrays m.arrays) = .ok ds
  dumped : dumpHeader (header m.op d ds) = some b
  length : b.length ≤ maxHeaderBytes
  frames : m.frames = b :: ds.map fun p => p.2.tobytes

theorem Accepted.spec (m : Accepted F) : ∃ d ds b, Encoded m d ds b := by
  have h := m.encoded
  unfold encode at h
  by_cases hop : m.op ∉ clientOps ∧ m.op ∉ replyOps
  · simp [hop] at h
  rw [if_neg hop] at h
  cases hd : stringKeyed m.fields.items with
  | none => simp [hd] at h
  | some d =>
    by_cases hn : m.arrays.items.length > maxArrays
    · simp [hd, hn] at h
    cases hds : describeAll (F := F) m.op (sortedArrays m.arrays) with
    | error e => simp [hd, hn, hds] at h
    | ok ds =>
      cases hb : dumpHeader (header m.op d ds) with
      | none => simp [hd, hn, hds, hb] at h
      | some b =>
        by_cases hlen : b.length > maxHeaderBytes
        · simp [hd, hn, hds, hb, hlen] at h
        have hframes : b :: ds.map (fun p => p.2.tobytes) = m.frames := by
          simpa [hd, hn, hds, hb, hlen] using h
        have hop' : m.op ∈ clientOps ∨ m.op ∈ replyOps :=
          or_iff_not_imp_left.2 fun h1 => by_contra fun h2 => hop ⟨h1, h2⟩
        exact ⟨d, ds, b, hop', hd, not_lt.1 hn, hds, hb, not_lt.1 hlen, hframes.symm⟩

/-! ## The arrays of a header -/

theorem sortedArrays_perm (arrays : Mapping Value) :
    (sortedArrays arrays).Perm arrays.items := List.perm_insertionSort _ _

theorem map_fst_eq_of_describes {ps : List (Key × Value)} {ds : List (PyStr × NdArray)}
    (h : List.Forall₂ Describes ps ds) : ps.map Prod.fst = ds.map fun d => Key.str d.1 := by
  induction h with
  | nil => rfl
  | cons hp _ ih => rw [List.map_cons, List.map_cons, hp.name, ih]

theorem nodup_of_describes {ps : List (Key × Value)} {ds : List (PyStr × NdArray)}
    (h : List.Forall₂ Describes ps ds) (hps : (ps.map Prod.fst).Nodup) :
    (ds.map Prod.fst).Nodup := by
  rw [map_fst_eq_of_describes h] at hps
  refine List.Nodup.of_map Key.str ?_
  rwa [List.map_map]

theorem reckoned_of_describes {ps : List (Key × Value)} {ds : List (PyStr × NdArray)} {n : ℕ}
    (h : List.Forall₂ Describes ps ds)
    (hps : ∀ p ∈ ps, ∀ a, p.2.asarray = .ok a → reckoned a.shape a.dtype.itemsize ≤ n) :
    ∀ d ∈ ds, reckoned d.2.shape d.2.dtype.itemsize ≤ n := by
  induction h with
  | nil => simp
  | @cons p d ps ds hp _ ih =>
    obtain ⟨a, ha, -, -, hd⟩ := hp.array
    refine List.forall_mem_cons.2 ⟨?_, ih fun q hq => hps q (List.mem_cons_of_mem _ hq)⟩
    rw [hd]
    exact hps p (by simp) a ha

theorem Describes.nbytes {p : Key × Value} {d : PyStr × NdArray} (h : Describes p d) :
    d.2.nbytes = p.2.nbytes := by
  obtain ⟨a, ha, -, -, hd⟩ := h.array
  simp only [Value.nbytes, ha, hd]
  rfl

theorem sum_nbytes_of_describes {ps : List (Key × Value)} {ds : List (PyStr × NdArray)}
    (h : List.Forall₂ Describes ps ds) :
    (ds.map fun d => d.2.nbytes).sum = (ps.map fun p => p.2.nbytes).sum := by
  induction h with
  | nil => rfl
  | cons hp _ ih => rw [List.map_cons, List.map_cons, List.sum_cons, List.sum_cons, hp.nbytes, ih]

theorem lookup_cons {α β : Type} [BEq α] [LawfulBEq α] [DecidableEq α] (k a : α) (v : β)
    (l : List (α × β)) : ((k, v) :: l).lookup a = if a = k then some v else l.lookup a := by
  rw [List.lookup]
  by_cases h : a = k
  · simp [h]
  · rw [beq_false_of_ne h, if_neg h]

/-- Distinct keys look up the same in any order. -/
theorem lookup_perm {α β : Type} [BEq α] [LawfulBEq α] [DecidableEq α] {l l' : List (α × β)}
    (h : l.Perm l') (hl : (l.map Prod.fst).Nodup) (a : α) : l.lookup a = l'.lookup a := by
  induction h with
  | nil => rfl
  | cons p _ ih => rw [lookup_cons, lookup_cons, ih (List.nodup_cons.1 hl).2]
  | swap p q l =>
    have hne : q.1 ≠ p.1 := by
      intro h
      simp [h] at hl
    obtain ⟨k, v⟩ := p
    obtain ⟨k', v'⟩ := q
    simp only [lookup_cons]
    split_ifs with h1 h2 <;> simp_all
  | trans h₁ _ ih₁ ih₂ => rw [ih₁ hl, ih₂ ((h₁.map Prod.fst).nodup_iff.1 hl)]

/-- The array that one turn describes is the one its name looks up. -/
theorem lookup_of_describes {ps : List (Key × Value)} {ds : List (PyStr × NdArray)}
    (h : List.Forall₂ Describes ps ds) (name : PyStr) :
    ds.lookup name =
      (ps.lookup (.str name)).bind fun v => v.asarray.toOption.map NdArray.astypeLittle := by
  induction h with
  | nil => rfl
  | @cons p d ps ds hp _ ih =>
    obtain ⟨k, v⟩ := p
    obtain ⟨n, b⟩ := d
    obtain rfl : k = .str n := hp.name
    obtain ⟨a, ha, -, -, hb⟩ := hp.array
    simp only at ha hb
    rw [lookup_cons, lookup_cons, ih]
    by_cases hn : name = n <;> simp [hn, ha, hb, Except.toOption]

/-! ## The header is accepted -/

/-- The entry of `specs` that an array's description gives. -/
def specOf (d : PyStr × NdArray) : ArraySpec := ⟨d.1, d.2.dtype, d.2.shape⟩

theorem dimensions_map (shape : List ℕ) :
    dimensions (shape.map fun n : ℕ => (.int n : Json F)) = some shape := by
  induction shape with
  | nil => rfl
  | cons n shape ih => simp [dimensions, dimension, ih]

theorem py_ne {a b : String} (h : a ≠ b) : py a ≠ py b := fun hab => h (py_inj.1 hab)

/-- The description of an array is accepted, when its name is new and its bytes fit. -/
theorem arraySpec_description {maxBytes total : ℕ} {seen : List PyStr} {p : Key × Value}
    {d : PyStr × NdArray} (hd : Describes p d) (hseen : d.1 ∉ seen)
    (hmax : reckoned d.2.shape d.2.dtype.itemsize ≤ maxBytes)
    (htotal : total + d.2.nbytes ≤ maxBytes) :
    arraySpec maxBytes seen total (description d : Json F) = .ok (specOf d) := by
  obtain ⟨name, b⟩ := d
  obtain ⟨a, -, hdt, hndim, hb⟩ := hd.array
  obtain ⟨c, s, hcs⟩ := List.exists_cons_of_ne_nil hd.name_ne
  obtain ⟨n, hn⟩ := Option.isSome_iff_exists.1 hdt
  simp only at hb hcs hmax htotal hseen
  have hkeys : keysAre [(py "name", .str (c :: s)), (py "dtype", .str b.dtype.little),
      (py "shape", .arr (b.shape.map fun n : ℕ => (.int n : Json F)))] arrayKeys = true := by
    simp [keysAre, arrayKeys, Dict.mem, Dict.get?_cons]
  have hof : Dtype.ofStr b.dtype.little = some b.dtype := by
    rw [hb]
    exact Dtype.ofStr_little hn
  have hlen : ¬b.shape.length > maxNdim := by
    rw [hb]
    exact not_lt.2 hndim
  have hbytes : total + b.shape.prod * b.dtype.itemsize ≤ maxBytes := htotal
  subst hcs
  simp only [description, arraySpec, hkeys, Bool.not_true, Bool.false_eq_true, if_false, Dict.get,
    Dict.get?_cons, py_inj, if_true, Option.getD_some, hseen, hof, dimensions_map, hlen,
    not_lt.2 hmax, not_lt.2 hbytes, specOf, String.reduceEq]

/-- The names seen and the bytes counted so far leave room for every array that follows. -/
theorem arraySpecs_description {maxBytes total : ℕ} {seen : List PyStr} {ps : List (Key × Value)}
    {ds : List (PyStr × NdArray)} (h : List.Forall₂ Describes ps ds)
    (hseen : (seen ++ ds.map Prod.fst).Nodup)
    (hmax : ∀ d ∈ ds, reckoned d.2.shape d.2.dtype.itemsize ≤ maxBytes)
    (htotal : total + (ds.map fun d => d.2.nbytes).sum ≤ maxBytes) :
    arraySpecs maxBytes seen total (ds.map description : List (Json F)) =
      .ok (ds.map specOf) := by
  induction h generalizing seen total with
  | nil => rfl
  | @cons p d ps ds hp _ ih =>
    rw [List.map_cons, List.sum_cons] at htotal
    have hnot : d.1 ∉ seen := fun hmem =>
      List.disjoint_of_nodup_append hseen hmem (by simp)
    have hhead : arraySpec maxBytes seen total (description d : Json F) = .ok (specOf d) :=
      arraySpec_description hp hnot (hmax d (by simp)) (by omega)
    have hbytes : (specOf d).nbytes = d.2.nbytes := rfl
    have htail : arraySpecs maxBytes (seen ++ [(specOf d).name]) (total + (specOf d).nbytes)
        (ds.map description : List (Json F)) = .ok (ds.map specOf) :=
      ih (by simpa [specOf] using hseen) (fun e he => hmax e (List.mem_cons_of_mem _ he))
        (by omega)
    rw [List.map_cons, arraySpecs, hhead]
    simp only [htail, Except.map, List.map_cons]

theorem checkHeader_header {maxBytes : ℕ} {op : PyStr} {b : Dict F}
    {ps : List (Key × Value)} {ds : List (PyStr × NdArray)} (hop : op ≠ [])
    (h : List.Forall₂ Describes ps ds) (hcount : ds.length ≤ maxArrays)
    (hnodup : (ds.map Prod.fst).Nodup)
    (hmax : ∀ d ∈ ds, reckoned d.2.shape d.2.dtype.itemsize ≤ maxBytes)
    (htotal : (ds.map fun d => d.2.nbytes).sum ≤ maxBytes) :
    checkHeader maxBytes [(py "protocol", .int protocolVersion), (py "op", .str op),
        (py "fields", .obj b), (py "arrays", .arr (ds.map description))] =
      .ok (op, b, ds.map specOf) := by
  obtain ⟨c, s, rfl⟩ := List.exists_cons_of_ne_nil hop
  have hkeys : keysAre [(py "protocol", .int protocolVersion), (py "op", .str (c :: s)),
      (py "fields", .obj b), (py "arrays", (.arr (ds.map description) : Json F))]
      headerKeys = true := by
    simp [keysAre, headerKeys, Dict.mem, Dict.get?_cons]
  have hspecs : arraySpecs maxBytes [] 0 (ds.map description : List (Json F)) =
      .ok (ds.map specOf) := arraySpecs_description h (by simpa using hnodup) hmax (by omega)
  have hlen : ¬(ds.map (description (F := F))).length > maxArrays := by simpa using hcount
  simp only [checkHeader, Dict.get, Dict.get?_cons, py_inj, if_true, if_false, Option.getD_some,
    String.reduceEq, ne_eq, not_true_eq_false, hkeys, Bool.not_true, Bool.false_eq_true, hlen,
    hspecs, Except.map]

/-- An array is read back from its frame. -/
theorem recvArray_run (d : PyStr × NdArray) (gs : List Bytes) :
    (recvArray (F := F) (specOf d)).run ([d.2.tobytes] ++ gs) = some (.ok d, gs) := by
  have hlen : d.2.tobytes.length = (specOf d).nbytes := NdArray.length_tobytes d.2
  have hle : d.2.tobytes.length ≤ max (specOf d).nbytes 1 := by rw [hlen]; exact le_max_left _ _
  have hback := NdArray.frombuffer_tobytes d.2
  rw [recvArray, frame, List.singleton_append, Reader.run_frame hle, dif_pos hlen]
  simp only [specOf, hback, Reader.run_done]

/-- A message is what `recv` reads from its frames, and the frames after them are left. -/
theorem recv_encode {m : Accepted F} {maxBytes : ℕ} (hfits : m.Fits maxBytes) (hjson : m.Undone) :
    ∃ r, m.Same r ∧ ∀ gs, (recv maxBytes).run (m.frames ++ gs) = some (.ok r, gs) := by
  obtain ⟨d, ds, b, h⟩ := m.spec
  have hdesc := describeAll_eq_ok h.described
  have hperm := sortedArrays_perm m.arrays
  have hsorted : ((sortedArrays m.arrays).map Prod.fst).Nodup :=
    (hperm.map Prod.fst).nodup_iff.2 m.arrays.distinct
  have hnodup := nodup_of_describes hdesc hsorted
  have hcount : ds.length ≤ maxArrays := by
    rw [← hdesc.length_eq, hperm.length_eq]
    exact h.count
  have hmax : ∀ e ∈ ds, reckoned e.2.shape e.2.dtype.itemsize ≤ maxBytes :=
    reckoned_of_describes hdesc fun p hp => hfits.each p (hperm.subset hp)
  have htotal : (ds.map fun e => e.2.nbytes).sum ≤ maxBytes := by
    rw [sum_nbytes_of_describes hdesc, (hperm.map fun p => p.2.nbytes).sum_eq]
    exact hfits.total
  have hop : m.op ≠ [] := by
    intro hnil
    have := h.op
    rw [hnil] at this
    revert this
    decide
  refine ⟨⟨m.op, d, ds⟩, ⟨rfl, stringKeyed_eq_some h.fields, hnodup, fun name => ?_⟩,
    fun gs => ?_⟩
  · rw [lookup_of_describes hdesc name, lookup_perm hperm hsorted]
    rfl
  · have hloads : (decodeUtf8 b).bind (loads false) = some (header m.op d ds) :=
      hjson d ds h.fields h.described b h.dumped
    have hle : b.length ≤ max maxHeaderBytes 1 := h.length.trans (le_max_left _ _)
    have hcheck := checkHeader_header (b := d) hop hdesc hcount hnodup hmax htotal
    have harrays := Reader.run_each (fun e (_ : e ∈ ds) => recvArray_run (F := F) e) gs
    have hframes : ds.map (fun p => p.2.tobytes) = ds.flatMap fun e => [e.2.tobytes] :=
      List.map_eq_flatMap
    rw [h.frames, List.cons_append, recv, frame, Reader.run_frame hle, hloads, header]
    simp only [hcheck]
    rw [hframes, Reader.run_bind_of_ok harrays]
    simp

/-! ## Sequences of messages -/

/-- Messages sent one after another are received one after another, each as it was sent,
and no frame is left. -/
theorem recv_messages (maxBytes : ℕ) (ms : List (Accepted F)) (hfits : ∀ m ∈ ms, m.Fits maxBytes)
    (hjson : ∀ m ∈ ms, m.Undone) :
    ∃ rs, (Reader.times (recv maxBytes) ms.length).run (ms.flatMap fun m => m.frames) =
        some (.ok rs, []) ∧ List.Forall₂ Accepted.Same ms rs := by
  induction ms with
  | nil => exact ⟨[], rfl, .nil⟩
  | cons m ms ih =>
    obtain ⟨r, hsame, hrun⟩ := recv_encode (hfits m (by simp)) (hjson m (by simp))
    obtain ⟨rs, hrs, hall⟩ := ih (fun n hn => hfits n (List.mem_cons_of_mem _ hn))
      fun n hn => hjson n (List.mem_cons_of_mem _ hn)
    refine ⟨r :: rs, ?_, .cons hsame hall⟩
    rw [List.flatMap_cons, List.length_cons, Reader.times, Reader.run_bind_of_ok (hrun _),
      Reader.run_bind_of_ok hrs, Reader.run_done]

/-! ## Well-formed headers -/

/-- A dtype that is sent is spelled in ASCII. -/
theorem isAscii_of_isDtype {s : PyStr} (h : isDtype s = true) : IsAscii s := by
  have key : ∀ (l : List (PyStr × ℕ)), (∀ p ∈ l, IsAscii p.1) → (l.lookup s).isSome → IsAscii s := by
    intro l hl hs
    induction l with
    | nil => simp at hs
    | cons p l ih =>
      obtain ⟨t, n⟩ := p
      rw [lookup_cons] at hs
      by_cases hst : s = t
      · exact hst ▸ hl (t, n) (by simp)
      · exact ih (fun q hq => hl q (List.mem_cons_of_mem _ hq)) (by simpa [hst] using hs)
  exact key plainDtypes (by decide) h

theorem wf_int (z : ℤ) : (Json.int z : Json F).WF := by simp [Json.WF]

theorem wf_py (k : String) (hk : IsAscii (py k)) : StrWF (py k) := strWF_of_isAscii hk

theorem wf_description {d : PyStr × NdArray} (hname : StrWF d.1)
    (hdtype : StrWF d.2.dtype.little) : (description d : Json F).WF := by
  have hshape : Json.WFItems (d.2.shape.map fun n : ℕ => (.int n : Json F)) :=
    Json.wfItems_iff.2 fun x hx => by
      obtain ⟨n, -, rfl⟩ := List.mem_map.1 hx
      exact wf_int n
  have hkeys : StrWF (py "name") ∧ StrWF (py "dtype") ∧ StrWF (py "shape") :=
    ⟨wf_py _ (by decide), wf_py _ (by decide), wf_py _ (by decide)⟩
  have hdistinct : [py "name", py "dtype", py "shape"].Nodup := by decide
  simp only [description, Json.WF, Json.WFMembers, Dict.Distinct, List.map_cons, List.map_nil,
    hdistinct, hname, hdtype, hshape, hkeys, and_self]

theorem wf_header {op : PyStr} {fields : Dict F} {ds : List (PyStr × NdArray)} (hop : StrWF op)
    (hfields : (Json.obj fields).WF)
    (hds : ∀ d ∈ ds, StrWF d.1 ∧ StrWF d.2.dtype.little) : (header op fields ds).WF := by
  have harrays : Json.WFItems (ds.map (description (F := F))) :=
    Json.wfItems_iff.2 fun x hx => by
      obtain ⟨d, hd, rfl⟩ := List.mem_map.1 hx
      exact wf_description (hds d hd).1 (hds d hd).2
  have hkeys : StrWF (py "protocol") ∧ StrWF (py "op") ∧ StrWF (py "fields") ∧
      StrWF (py "arrays") :=
    ⟨wf_py _ (by decide), wf_py _ (by decide), wf_py _ (by decide), wf_py _ (by decide)⟩
  have hdistinct : [py "protocol", py "op", py "fields", py "arrays"].Nodup := by decide
  have hobj : (Dict.Distinct fields ∧ Json.WFMembers fields) := by rwa [Json.WF] at hfields
  simp only [header, Json.WF, Json.WFMembers, Dict.Distinct, List.map_cons, List.map_nil,
    hdistinct, hkeys, hop, harrays, hobj.2, and_self, and_true, true_and]
  exact hobj.1

theorem undoes_of_wf {j : Json F} (hj : j.WF) : Undoes j := by
  intro b hb
  unfold dumpHeader at hb
  split_ifs at hb with hdump
  obtain rfl := Option.some.inj hb
  rw [decodeUtf8_encodeUtf8 (isAscii_print _ _), Option.bind_some]
  simpa using loads_print compact hj hdump (w := []) (by simp)

theorem mem_of_describes {ps : List (Key × Value)} {ds : List (PyStr × NdArray)}
    (h : List.Forall₂ Describes ps ds) :
    ∀ d ∈ ds, (∃ v, (.str d.1, v) ∈ ps) ∧ IsAscii d.2.dtype.little := by
  induction h with
  | nil => simp
  | @cons p d ps ds hp _ ih =>
    obtain ⟨a, -, hdt, -, hd⟩ := hp.array
    refine List.forall_mem_cons.2 ⟨⟨⟨p.2, ?_⟩, ?_⟩, fun e he => ?_⟩
    · rw [← hp.name]
      exact List.mem_cons_self
    · rw [hd]
      exact isAscii_of_isDtype hdt
    · obtain ⟨⟨v, hv⟩, hascii⟩ := ih e he
      exact ⟨⟨v, List.mem_cons_of_mem _ hv⟩, hascii⟩

/-- `json.loads` undoes `json.dumps` on the header of a message whose names are well-formed
strings and whose fields are well-formed JSON. -/
theorem Accepted.undone_of_wf {m : Accepted F}
    (hfields : ∀ d, stringKeyed m.fields.items = some d → (Json.obj d).WF)
    (hnames : ∀ s v, (.str s, v) ∈ m.arrays.items → StrWF s) : m.Undone := by
  intro d ds hd hds
  obtain ⟨d', ds', b, h⟩ := m.spec
  have hop : StrWF m.op := by
    have hops : ∀ op ∈ clientOps ++ replyOps, IsAscii op := by decide
    exact strWF_of_isAscii (hops m.op (List.mem_append.2 h.op))
  refine undoes_of_wf (wf_header hop (hfields d hd) fun e he => ?_)
  obtain ⟨⟨v, hv⟩, hascii⟩ := mem_of_describes (describeAll_eq_ok hds) e he
  exact ⟨hnames _ v ((sortedArrays_perm m.arrays).subset hv), strWF_of_isAscii hascii⟩

/-! ## Every message is read whole -/

theorem length_arraySpecs {maxBytes total : ℕ} {seen : List PyStr} {entries : List (Json F)}
    {specs : List ArraySpec} (h : arraySpecs maxBytes seen total entries = .ok specs) :
    specs.length = entries.length := by
  induction entries generalizing seen total specs with
  | nil =>
    obtain rfl : [] = specs := by simpa [arraySpecs] using h
    rfl
  | cons entry entries ih =>
    rw [arraySpecs] at h
    cases hs : arraySpec maxBytes seen total entry with
    | error e => simp [hs] at h
    | ok s =>
      cases hrest : arraySpecs maxBytes (seen ++ [s.name]) (total + s.nbytes) entries with
      | error e => simp [hs, hrest, Except.map] at h
      | ok specs' =>
        obtain rfl : s :: specs' = specs := by simpa [hs, hrest, Except.map] using h
        simp [ih hrest]

/-- A header that is accepted gives its own op, and an array for each entry. -/
theorem checkHeader_eq_ok {maxBytes : ℕ} {d : Dict F} {op op' : PyStr} {fields : Dict F}
    {entries : List (Json F)} {specs : List ArraySpec}
    (h : checkHeader maxBytes d = .ok (op', fields, specs)) (hop : d.get (py "op") = .str op)
    (harrays : d.get (py "arrays") = .arr entries) :
    op' = op ∧ specs.length = entries.length := by
  unfold checkHeader at h
  rw [hop, harrays] at h
  split at h
  · split_ifs at h with hz hk
    split at h
    · rename_i c s hcs
      obtain rfl : op = c :: s := Json.str.inj hcs
      split at h
      · dsimp only at h
        split_ifs at h with hn
        cases hs : arraySpecs maxBytes [] 0 entries with
        | error e => simp [hs, Except.map] at h
        | ok specs' =>
          simp only [hs, Except.map, Except.ok.injEq, Prod.mk.injEq] at h
          obtain ⟨rfl, -, rfl⟩ := h
          exact ⟨rfl, length_arraySpecs hs⟩
      · simp at h
    · simp at h
  · simp at h

theorem length_of_run_recvArray {s : ArraySpec} {fs gs : List Bytes} {a : PyStr × NdArray}
    (h : (recvArray (F := F) s).run fs = some (.ok a, gs)) : gs.length + 1 = fs.length := by
  unfold recvArray frame at h
  cases fs with
  | nil => simp [Reader.run] at h
  | cons b fs =>
    rw [Reader.run] at h
    split_ifs at h with hb hlen
    · split at h
      · simp at h
      · obtain ⟨-, rfl⟩ : _ ∧ fs = gs := by simpa using h
        simp
    · simp [refuse] at h
    · simp at h

/-- Whatever its fields and its names are, a message that is read from the frames of one that
was accepted has its op, and takes them all. -/
theorem recv_whole {m : Accepted F} {maxBytes : ℕ} {r : Message F} {rest : List Bytes}
    (h : (recv maxBytes).run m.frames = some (.ok r, rest)) : rest = [] ∧ r.op = m.op := by
  obtain ⟨d, ds, b, hm⟩ := m.spec
  have hops : ∀ op ∈ clientOps ++ replyOps, IsAscii op := by decide
  have hop : StrWF m.op := strWF_of_isAscii (hops m.op (List.mem_append.2 hm.op))
  have hdumped := hm.dumped
  unfold dumpHeader at hdumped
  split_ifs at hdumped with hdump
  obtain rfl := Option.some.inj hdumped
  have hparts := Json.dumpableMembers_iff.1 hdump
  obtain ⟨d', hd'⟩ := exists_reads compact false (.obj d) (hparts (py "fields", .obj d) (by simp))
  have hentries : Json.dumpableItems false (ds.map (description (F := F))) :=
    hparts (py "arrays", .arr (ds.map description)) (by simp)
  obtain ⟨ys, hys⟩ := exists_forall₂ fun x hx =>
    exists_reads compact false x (Json.dumpableItems_iff.1 hentries x hx)
  have hkey : ∀ k : String, IsAscii (py k) → StrReads (py k) (py k) := fun k hk =>
    strReads_self (strWF_of_isAscii hk)
  have hmembers : List.Forall₂ (MemberReads compact false)
      [(py "protocol", .int protocolVersion), (py "op", .str m.op), (py "fields", .obj d),
        (py "arrays", .arr (ds.map description))]
      [(py "protocol", .int protocolVersion), (py "op", .str m.op), (py "fields", d'),
        (py "arrays", .arr ys)] :=
    .cons ⟨hkey _ (by decide),
      reads_atom _ rfl (hparts (py "protocol", .int protocolVersion) (by simp))⟩
    (.cons ⟨hkey _ (by decide), reads_str (strReads_self hop)⟩
    (.cons ⟨hkey _ (by decide), hd'⟩
    (.cons ⟨hkey _ (by decide), reads_arr hys⟩ .nil)))
  have hreads := reads_obj hmembers
  have hdistinct : ([(py "protocol", .int protocolVersion), (py "op", .str m.op),
      (py "fields", d'), (py "arrays", .arr ys)].map Prod.fst).Nodup := by
    simp only [List.map_cons, List.map_nil]
    decide
  rw [Dict.ofPairs_of_distinct hdistinct] at hreads
  have hloads := loads_of_reads hreads (w := []) (by simp)
  rw [List.append_nil] at hloads
  rw [hm.frames, recv, frame, Reader.run, if_pos (hm.length.trans (le_max_left _ _)),
    decodeUtf8_encodeUtf8 (isAscii_print _ _), Option.bind_some, header, hloads] at h
  dsimp only at h
  split at h
  · simp [refuse] at h
  · rename_i op fields specs hcheck
    have hget : Dict.get [(py "protocol", .int protocolVersion), (py "op", .str m.op),
        (py "fields", d'), (py "arrays", .arr ys)] (py "arrays") = .arr ys := by
      simp [Dict.get, Dict.get?_cons]
    have hgetop : Dict.get [(py "protocol", .int protocolVersion), (py "op", .str m.op),
        (py "fields", d'), (py "arrays", .arr ys)] (py "op") = .str m.op := by
      simp [Dict.get, Dict.get?_cons]
    obtain ⟨rfl, hlen⟩ := checkHeader_eq_ok hcheck hgetop hget
    obtain ⟨arrays, hs, harrays, hdone⟩ := Reader.run_bind h
    obtain ⟨rfl, rfl⟩ : ⟨m.op, fields, arrays⟩ = r ∧ hs = rest := by simpa using hdone
    have hcount := Reader.length_of_run_each (fun s fs gs b => length_of_run_recvArray) harrays
    rw [List.length_map, hlen, ← hys.length_eq, List.length_map] at hcount
    exact ⟨List.length_eq_zero_iff.1 (by omega), rfl⟩

/-! ## A stream of two messages -/

/-- `>f8`. -/
def toyDtype : Dtype where
  little := py "<f8"
  big := true
  itemsize := 8
  hasobject := false
  plain := fun n hn => ⟨Option.some.inj ((by decide : some 8 = _).trans hn), rfl⟩

/-- Two rows of one element each. -/
def toyRows : NdArray :=
  ⟨toyDtype, [2, 1], [[1, 2, 3, 4, 5, 6, 7, 8], [9, 10, 11, 12, 13, 14, 15, 16]], by decide,
    by decide, by decide⟩

/-- An array of no elements. -/
def vacant (shape : List ℕ) (h : shape.prod = 0) (hle : reckoned shape 8 ≤ intpMax) : NdArray :=
  ⟨toyDtype, shape, [], h.symm, by simp, hle⟩

/-- No rows of three elements each. -/
def toyEmpty : NdArray := vacant [0, 3] (by decide) (by decide)

/-- A rank-0 array. -/
def toyScalar : NdArray := ⟨toyDtype, [], [[1, 2, 3, 4, 5, 6, 7, 8]], by decide, by decide, by decide⟩

/-- An array, as a value. -/
def toyValue (a : NdArray) : Value := ⟨.ok a.shape, .ok a⟩

def toyFields : Mapping (Json Tenths) := ⟨[(.str (py "seed"), .int 3)], by decide⟩

def toyArrays : Mapping Value :=
  ⟨[(.str (py "z"), toyValue toyRows), (.str (py "a"), toyValue toyEmpty),
    (.str (py "b"), toyValue toyScalar)], by decide⟩

/-- The frames of a message that is accepted. -/
def framesOf (r : Except (WireError F) (List Bytes)) : List Bytes :=
  match r with
  | .ok fs => fs
  | .error _ => []

theorem eq_ok_framesOf {r : Except (WireError F) (List Bytes)} (h : r.isOk = true) :
    r = .ok (framesOf r) := by
  cases r with
  | ok fs => rfl
  | error e => simp [Except.isOk, Except.toBool] at h

/-- `act`, with three arrays. -/
def toyAct : Accepted Tenths :=
  ⟨py "act", toyFields, toyArrays, _, eq_ok_framesOf (by decide +kernel)⟩

/-- `reset`, with none. -/
def toyReset : Accepted Tenths :=
  ⟨py "reset", toyFields, ⟨[], List.nodup_nil⟩, _, eq_ok_framesOf (by decide +kernel)⟩

theorem toy_fits : ∀ m ∈ [toyAct, toyReset], m.Fits 24 := by
  have hact : toyAct.Fits 24 :=
    { each := by
        intro p hp a ha
        simp only [toyAct, toyArrays, toyValue, List.mem_cons, List.not_mem_nil, or_false] at hp
        rcases hp with rfl | rfl | rfl
        · obtain rfl := Except.ok.inj ha
          decide
        · obtain rfl := Except.ok.inj ha
          decide
        · obtain rfl := Except.ok.inj ha
          decide
      total := by decide }
  have hreset : toyReset.Fits 24 := ⟨by simp [toyReset], by decide⟩
  simp [hact, hreset]

theorem toy_undone : ∀ m ∈ [toyAct, toyReset], m.Undone := by
  have hfields : ∀ d, stringKeyed toyFields.items = some d → (Json.obj d).WF := by
    intro d hd
    obtain rfl := Option.some.inj hd
    have hseed : StrWF (py "seed") := wf_py _ (by decide)
    have hdistinct : [py "seed"].Nodup := by decide
    simp [Json.WF, Json.WFMembers, Dict.Distinct, hseed, hdistinct]
  have hact : toyAct.Undone := by
    refine Accepted.undone_of_wf hfields fun s v h => strWF_of_isAscii ?_
    simp only [toyAct, toyArrays, List.mem_cons, Prod.mk.injEq, Key.str.injEq, List.not_mem_nil,
      or_false] at h
    rcases h with ⟨rfl, -⟩ | ⟨rfl, -⟩ | ⟨rfl, -⟩ <;> decide
  have hreset : toyReset.Undone :=
    Accepted.undone_of_wf hfields fun s v h => by simp [toyReset] at h
  simp [hact, hreset]

/-- The two messages are read back. -/
theorem toy_messages : ∃ rs, (Reader.times (recv 24) [toyAct, toyReset].length).run
    ([toyAct, toyReset].flatMap fun m => m.frames) = some (.ok rs, []) ∧
      List.Forall₂ Accepted.Same [toyAct, toyReset] rs :=
  recv_messages 24 [toyAct, toyReset] toy_fits toy_undone

end Wire

end IcilOrchestrator

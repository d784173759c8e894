import Mathlib
import IcilOrchestrator.WireRoundTrip

/-!
# Receiving from a hostile peer

`recv` on frames of any bytes, where the peer chose every one of them. The checks of the header
bound what its arrays hold (`arraySpecs_spec`), so that numpy refuses none of their shapes, and
`recv_safe` has what follows : what `recv` may raise, when it reads a second frame, how many bytes
the frames it accepts hold, and what is known of the arrays it returns.
-/

set_option linter.unusedSectionVars false

namespace Python

namespace Reader

variable {ε α β : Type}

/-- One program after another is run one after another. -/
theorem run_bind_eq (r : Reader ε α) (f : α → Reader ε β) (fs : List Bytes) :
    (r.bind f).run fs =
      (match r.run fs with
        | none => none
        | some (.ok a, gs) => (f a).run gs
        | some (.error e, gs) => some (.error e, gs)) := by
  induction r generalizing fs with
  | done v => cases v <;> simp [bind]
  | frame n e k ih =>
    cases fs with
    | nil => simp [bind, run]
    | cons b fs =>
      rw [bind, run, run]
      split_ifs
      · exact ih b fs
      · rfl

/-- The frames that a reader accepts of those that arrive. -/
def accepted : Reader ε α → List Bytes → List Bytes
  | .done _, _ => []
  | .frame _ _ _, [] => []
  | .frame n _ k, b :: fs => if b.length ≤ n then b :: (k b).accepted fs else []

@[simp] theorem accepted_done (r : Except ε α) (fs : List Bytes) : accepted (.done r) fs = [] := by
  cases fs <;> rfl

theorem accepted_bind (r : Reader ε α) (f : α → Reader ε β) (fs : List Bytes) :
    (r.bind f).accepted fs = r.accepted fs ++
      (match r.run fs with
        | some (.ok a, gs) => (f a).accepted gs
        | _ => []) := by
  induction r generalizing fs with
  | done v => cases v <;> simp [bind]
  | frame n e k ih =>
    cases fs with
    | nil => simp [bind, run, accepted]
    | cons b fs =>
      rw [bind, run, accepted, accepted]
      split_ifs
      · rw [ih b fs, List.cons_append]
      · rfl

/-- What is made of a value takes no frame. -/
theorem accepted_bind_done (r : Reader ε α) (g : α → Except ε β) (fs : List Bytes) :
    (r.bind fun a => .done (g a)).accepted fs = r.accepted fs := by
  rw [accepted_bind]
  split <;> simp

/-- How many bytes a reader accepts of the frames for each item. -/
theorem length_accepted_each {r : α → Reader ε β} {bound : α → ℕ}
    (h : ∀ x fs, ((r x).accepted fs).flatten.length ≤ bound x) (xs : List α) (fs : List Bytes) :
    ((each r xs).accepted fs).flatten.length ≤ (xs.map bound).sum := by
  induction xs generalizing fs with
  | nil => simp [each]
  | cons x xs ih =>
    rw [each, accepted_bind, List.flatten_append, List.length_append, List.map_cons, List.sum_cons]
    refine Nat.add_le_add (h x fs) ?_
    split
    · rw [accepted_bind_done]
      exact ih _
    · simp

end Reader

/-- A buffer is its elements one after another. -/
theorem NdArray.flatten_cut {size n : ℕ} {b : Bytes} (hb : b.length = n * size) :
    (cut size n b).flatten = b := by
  induction n generalizing b with
  | zero =>
    have : b = [] := List.eq_nil_of_length_eq_zero (by simpa using hb)
    simp [cut, this]
  | succ n ih =>
    rw [Nat.succ_mul] at hb
    rw [cut, List.flatten_cons, ih (by rw [List.length_drop]; omega), List.take_append_drop]

/-- An array made from a buffer holds its bytes. -/
theorem NdArray.frombuffer_eq_some {payload : Bytes} {d : Dtype} {shape : List ℕ}
    {hlen : payload.length = shape.prod * d.itemsize} {a : NdArray}
    (h : frombuffer payload d shape hlen = some a) :
    a.dtype = d ∧ a.shape = shape ∧ a.tobytes = payload := by
  unfold frombuffer at h
  split_ifs at h
  obtain rfl := Option.some.inj h
  exact ⟨rfl, rfl, flatten_cut hlen⟩

theorem NdArray.frombuffer_ne_none {payload : Bytes} {d : Dtype} {shape : List ℕ}
    {hlen : payload.length = shape.prod * d.itemsize} (h : reckoned shape d.itemsize ≤ intpMax) :
    frombuffer payload d shape hlen ≠ none := by
  unfold frombuffer
  simp [h]

end Python

namespace IcilOrchestrator

open Python

namespace Wire

variable {F : Type} [PyFloat F]

/-! ## What a header announces -/

/-- What is checked of an array before its frame is read. -/
structure Checked (maxBytes : ℕ) (s : ArraySpec) : Prop where
  name : s.name ≠ []
  dtype : isDtype s.dtype.little = true
  reckoned : reckoned s.shape s.dtype.itemsize ≤ maxBytes

theorem isDtype_of_ofStr {t : PyStr} {d : Dtype} (h : Dtype.ofStr t = some d) :
    isDtype d.little = true := by
  unfold Dtype.ofStr at h
  split at h
  · rename_i n hn
    obtain rfl := Option.some.inj h
    simp [isDtype, hn]
  · simp at h

theorem arraySpec_spec {maxBytes total : ℕ} {seen : List PyStr} {entry : Json F} {s : ArraySpec}
    (h : arraySpec maxBytes seen total entry = .ok s) :
    Checked maxBytes s ∧ s.name ∉ seen ∧ total + s.nbytes ≤ maxBytes := by
  unfold arraySpec at h
  split at h
  · split_ifs at h
    split at h
    · rename_i c name _
      split_ifs at h with hseen
      split at h
      · split at h
        · simp at h
        · rename_i dtype hdtype
          split at h
          · split at h
            · simp at h
            · rename_i shape _
              split_ifs at h with hndim hreckoned htotal
              obtain rfl := Except.ok.inj h
              refine ⟨⟨by simp, isDtype_of_ofStr hdtype, not_lt.1 hreckoned⟩, hseen, ?_⟩
              exact not_lt.1 htotal
          · simp at h
      · simp at h
    · simp at h
  · simp at h

/-- What is checked of the arrays of a header. -/
theorem arraySpecs_spec {maxBytes total : ℕ} {seen : List PyStr} {entries : List (Json F)}
    {specs : List ArraySpec} (htotal : total ≤ maxBytes)
    (h : arraySpecs maxBytes seen total entries = .ok specs) :
    (∀ s ∈ specs, Checked maxBytes s) ∧ (specs.map ArraySpec.name).Nodup ∧
      (∀ s ∈ specs, s.name ∉ seen) ∧ total + (specs.map ArraySpec.nbytes).sum ≤ maxBytes := by
  induction entries generalizing seen total specs with
  | nil =>
    obtain rfl : [] = specs := by simpa [arraySpecs] using h
    simpa using htotal
  | cons entry entries ih =>
    rw [arraySpecs] at h
    cases hs : arraySpec maxBytes seen total entry with
    | error e => simp [hs] at h
    | ok s =>
      obtain ⟨hchecked, hseen, hle⟩ := arraySpec_spec hs
      cases hrest : arraySpecs maxBytes (seen ++ [s.name]) (total + s.nbytes) entries with
      | error e => simp [hs, hrest, Except.map] at h
      | ok specs' =>
        obtain rfl : s :: specs' = specs := by simpa [hs, hrest, Except.map] using h
        obtain ⟨hall, hnodup, hnew, hsum⟩ := ih hle hrest
        refine ⟨?_, ?_, ?_, ?_⟩
        · exact List.forall_mem_cons.2 ⟨hchecked, hall⟩
        · rw [List.map_cons, List.nodup_cons, List.mem_map]
          refine ⟨?_, hnodup⟩
          rintro ⟨s', hs', hname⟩
          exact hnew s' hs' (by simp [hname])
        · refine List.forall_mem_cons.2 ⟨hseen, fun s' hs' hmem => ?_⟩
          exact hnew s' hs' (List.mem_append_left _ hmem)
        · rw [List.map_cons, List.sum_cons]
          omega

/-- What is checked of a header. -/
theorem checkHeader_spec {maxBytes : ℕ} {d : Dict F} {op : PyStr} {fields : Dict F}
    {specs : List ArraySpec} (h : checkHeader maxBytes d = .ok (op, fields, specs)) :
    ∃ entries, Dict.get d (py "arrays") = .arr entries ∧ specs.length = entries.length ∧
      arraySpecs maxBytes [] 0 entries = .ok specs := by
  unfold checkHeader at h
  split at h
  · split_ifs at h
    split at h
    · split at h
      · split at h
        · rename_i entries harrays
          split_ifs at h
          cases hs : arraySpecs maxBytes [] 0 entries with
          | error e => simp [hs, Except.map] at h
          | ok specs' =>
            simp only [hs, Except.map, Except.ok.injEq, Prod.mk.injEq] at h
            obtain ⟨-, -, rfl⟩ := h
            exact ⟨entries, harrays, length_arraySpecs hs, hs⟩
        · simp at h
      · simp at h
    · simp at h
  · simp at h

/-! ## The arrays -/

/-- An array read for what the header announces, from its frame. -/
structure ReadAs (s : ArraySpec) (a : PyStr × NdArray) : Prop where
  name : a.1 = s.name
  dtype : a.2.dtype = s.dtype
  shape : a.2.shape = s.shape

theorem run_recvArray {s : ArraySpec} {fs gs : List Bytes} {r : Except (RecvError F) (PyStr × NdArray)}
    (hs : reckoned s.shape s.dtype.itemsize ≤ intpMax)
    (h : (recvArray (F := F) s).run fs = some (r, gs)) :
    (∃ e, r = .error (.wire e)) ∨
      ∃ a, r = .ok a ∧ ReadAs s a ∧ fs = a.2.tobytes :: gs := by
  unfold recvArray frame at h
  cases fs with
  | nil => simp [Reader.run] at h
  | cons b fs =>
    rw [Reader.run] at h
    split_ifs at h with hb hlen
    · split at h
      · rename_i hnone
        exact absurd hnone (NdArray.frombuffer_ne_none hs)
      · rename_i array hsome
        obtain ⟨hdtype, hshape, hbytes⟩ := NdArray.frombuffer_eq_some hsome
        obtain ⟨rfl, rfl⟩ : Except.ok (s.name, array) = r ∧ fs = gs := by simpa using h
        exact Or.inr ⟨_, rfl, ⟨rfl, hdtype, hshape⟩, by rw [hbytes]⟩
    · rw [refuse, Reader.run_done] at h
      obtain ⟨rfl, -⟩ := Prod.mk.inj (Option.some.inj h)
      exact Or.inl ⟨_, rfl⟩
    · obtain ⟨rfl, -⟩ := Prod.mk.inj (Option.some.inj h)
      exact Or.inl ⟨_, rfl⟩

theorem run_each_recvArray {specs : List ArraySpec} {fs gs : List Bytes}
    {r : Except (RecvError F) (List (PyStr × NdArray))}
    (hs : ∀ s ∈ specs, reckoned s.shape s.dtype.itemsize ≤ intpMax)
    (h : (Reader.each (recvArray (F := F)) specs).run fs = some (r, gs)) :
    (∃ e, r = .error (.wire e)) ∨
      ∃ as, r = .ok as ∧ List.Forall₂ ReadAs specs as ∧ fs = (as.map fun a => a.2.tobytes) ++ gs := by
  induction specs generalizing fs gs r with
  | nil =>
    rw [Reader.each, Reader.run_done] at h
    obtain ⟨rfl, rfl⟩ := Prod.mk.inj (Option.some.inj h)
    exact Or.inr ⟨[], rfl, .nil, rfl⟩
  | cons s specs ih =>
    obtain ⟨hs, hspecs⟩ := List.forall_mem_cons.1 hs
    rw [Reader.each, Reader.run_bind_eq] at h
    split at h
    · simp at h
    · rename_i a hs' hrun
      obtain ⟨e, he⟩ | ⟨a', ha', hread, rfl⟩ := run_recvArray hs hrun
      · simp at he
      · obtain rfl := Except.ok.inj ha'
        rw [Reader.run_bind_eq] at h
        split at h
        · simp at h
        · rename_i as gs' hrest
          obtain ⟨e, he⟩ | ⟨as', has', hreads, rfl⟩ := ih hspecs hrest
          · simp at he
          · obtain rfl := Except.ok.inj has'
            rw [Reader.run_done] at h
            obtain ⟨rfl, rfl⟩ := Prod.mk.inj (Option.some.inj h)
            exact Or.inr ⟨_, rfl, .cons hread hreads, rfl⟩
        · rename_i e gs' hrest
          obtain ⟨rfl, -⟩ := Prod.mk.inj (Option.some.inj h)
          obtain ⟨e, he⟩ | ⟨as', has', -⟩ := ih hspecs hrest
          · exact Or.inl ⟨e, he⟩
          · simp at has'
    · rename_i e hs' hrun
      obtain ⟨rfl, -⟩ := Prod.mk.inj (Option.some.inj h)
      obtain ⟨e, he⟩ | ⟨a', ha', -⟩ := run_recvArray hs hrun
      · obtain rfl := Except.error.inj he
        exact Or.inl ⟨e, rfl⟩
      · simp at ha'

/-- The frame of an array holds no more than its bytes, or one. -/
theorem length_accepted_recvArray (s : ArraySpec) (fs : List Bytes) :
    ((recvArray (F := F) s).accepted fs).flatten.length ≤ s.nbytes + 1 := by
  unfold recvArray frame
  cases fs with
  | nil => simp [Reader.accepted]
  | cons b fs =>
    rw [Reader.accepted]
    split_ifs with hb hlen
    · split <;> simp <;> omega
    · simp [refuse]
      omega
    · simp

/-! ## A message -/

/-- How a connection is gone. -/
inductive Gone where
  | eofError
  | osError

/-- What `recv` raises. -/
inductive RecvRaises (F : Type) where
  | wireError (e : WireError F)
  /-- The `ValueError` of `reshape`. -/
  | valueError (shape : List ℕ)
  | gone (how : Gone)

/-- `recv` on the frames that arrive until the connection is gone. -/
def recvFrom (maxBytes : ℕ) (how : Gone) (fs : List Bytes) :
    Except (RecvRaises F) (Message F) :=
  match (recv maxBytes).run fs with
  | none => .error (.gone how)
  | some (.ok m, _) => .ok m
  | some (.error (.wire e), _) => .error (.wireError e)
  | some (.error (.reshape shape), _) => .error (.valueError shape)

/-- `json.loads` of a header frame. -/
def headerOf (raw : Bytes) : Option (Json F) := (decodeUtf8 raw).bind (loads false)

/-- How many arrays a header announces. -/
def announced (F : Type) [PyFloat F] (raw : Bytes) : ℕ :=
  match headerOf (F := F) raw with
  | some (.obj d) =>
    match Dict.get d (py "arrays") with
    | .arr entries => entries.length
    | _ => 0
  | _ => 0

/-- The reader after the header's frame. -/
def afterHeader (maxBytes : ℕ) (raw : Bytes) : Reader (RecvError F) (Message F) :=
  match headerOf raw with
  | none => refuse (.malformedHeader raw)
  | some (.obj d) =>
    match checkHeader maxBytes d with
    | .error e => refuse e
    | .ok (op, fields, specs) =>
      (Reader.each recvArray specs).bind fun arrays => .done (.ok ⟨op, fields, arrays⟩)
  | some _ => refuse .notAnObject

theorem recv_eq (maxBytes : ℕ) :
    (recv maxBytes : Reader (RecvError F) (Message F)) =
      frame maxHeaderBytes none (afterHeader maxBytes) := rfl

/-- A header is refused, or it is checked in full and its arrays are read. -/
theorem afterHeader_cases (maxBytes : ℕ) (raw : Bytes) :
    (∃ e, afterHeader maxBytes raw = (.done (.error (.wire e)) : Reader (RecvError F) (Message F))) ∨
      ∃ (d : Dict F) (op : PyStr) (fields : Dict F) (specs : List ArraySpec),
        headerOf raw = some (.obj d) ∧ checkHeader maxBytes d = .ok (op, fields, specs) ∧
        afterHeader maxBytes raw =
          (Reader.each recvArray specs).bind fun arrays => .done (.ok ⟨op, fields, arrays⟩) := by
  unfold afterHeader
  split
  · exact Or.inl ⟨_, rfl⟩
  · rename_i d hd
    split
    · exact Or.inl ⟨_, rfl⟩
    · rename_i op fields specs hcheck
      exact Or.inr ⟨d, op, fields, specs, hd, hcheck, rfl⟩
  · exact Or.inl ⟨_, rfl⟩

variable {maxBytes : ℕ}

/-- How a message is read, if enough frames arrive : it is refused, or its arrays are those that
its header announces, each from its own frame. -/
theorem run_recv (hmax : maxBytes < 2 ^ 63) {fs gs : List Bytes}
    {r : Except (RecvError F) (Message F)} (h : (recv maxBytes).run fs = some (r, gs)) :
    (∃ e, r = .error (.wire e)) ∨ ∃ (m : Message F) (specs : List ArraySpec), r = .ok m ∧
      (∀ s ∈ specs, Checked maxBytes s) ∧ (specs.map ArraySpec.name).Nodup ∧
        List.Forall₂ ReadAs specs m.arrays := by
  rw [recv_eq, frame] at h
  cases fs with
  | nil => simp [Reader.run] at h
  | cons raw fs =>
    rw [Reader.run] at h
    split_ifs at h
    · obtain ⟨e, he⟩ | ⟨d, op, fields, specs, -, hcheck, hafter⟩ :=
        afterHeader_cases (F := F) maxBytes raw
      · rw [he, Reader.run_done] at h
        obtain ⟨rfl, -⟩ := Prod.mk.inj (Option.some.inj h)
        exact Or.inl ⟨e, rfl⟩
      · obtain ⟨entries, -, -, hspecs⟩ := checkHeader_spec hcheck
        obtain ⟨hall, hnodup, -, -⟩ := arraySpecs_spec (Nat.zero_le _) hspecs
        have hreckoned : ∀ s ∈ specs, reckoned s.shape s.dtype.itemsize ≤ intpMax := by
          intro s hs
          have := (hall s hs).reckoned
          simp only [intpMax]
          omega
        rw [hafter, Reader.run_bind_eq] at h
        split at h
        · simp at h
        · rename_i as hs hrun
          obtain ⟨e, he⟩ | ⟨as', has, hreads, -⟩ := run_each_recvArray hreckoned hrun
          · simp at he
          · obtain rfl := Except.ok.inj has
            rw [Reader.run_done] at h
            obtain ⟨rfl, -⟩ := Prod.mk.inj (Option.some.inj h)
            exact Or.inr ⟨_, specs, rfl, hall, hnodup, hreads⟩
        · rename_i e hs hrun
          obtain ⟨rfl, -⟩ := Prod.mk.inj (Option.some.inj h)
          obtain ⟨e', he⟩ | ⟨as', has, -⟩ := run_each_recvArray hreckoned hrun
          · exact Or.inl ⟨e', by rw [Except.error.inj he]⟩
          · simp at has
    · obtain ⟨rfl, -⟩ := Prod.mk.inj (Option.some.inj h)
      exact Or.inl ⟨_, rfl⟩

/-- How many bytes the frames that are accepted hold. -/
theorem length_accepted_recv (maxBytes : ℕ) (fs : List Bytes) :
    ((recv (F := F) maxBytes).accepted fs).flatten.length ≤
      maxHeaderBytes + maxBytes + (fs.head?.map (announced F)).getD 0 := by
  rw [recv_eq, frame]
  cases fs with
  | nil => simp [Reader.accepted]
  | cons raw fs =>
    rw [Reader.accepted, List.head?_cons, Option.map_some, Option.getD_some]
    split_ifs with hraw
    · have hlen : raw.length ≤ maxHeaderBytes := by
        rwa [max_eq_left (by decide)] at hraw
      rw [List.flatten_cons, List.length_append]
      obtain ⟨e, he⟩ | ⟨d, op, fields, specs, hd, hcheck, hafter⟩ :=
        afterHeader_cases (F := F) maxBytes raw
      · rw [he, Reader.accepted_done]
        simp only [List.flatten_nil, List.length_nil]
        omega
      · obtain ⟨entries, hentries, hcount, hspecs⟩ := checkHeader_spec hcheck
        obtain ⟨-, -, -, hsum⟩ := arraySpecs_spec (Nat.zero_le _) hspecs
        have hannounced : announced F raw = specs.length := by
          simp [announced, hd, hentries, hcount]
        have hbytes := Reader.length_accepted_each (length_accepted_recvArray (F := F)) specs fs
        have htotal : (specs.map fun s => s.nbytes + 1).sum =
            (specs.map ArraySpec.nbytes).sum + specs.length := by
          rw [List.sum_map_add]
          simp
        rw [hafter, Reader.accepted_bind_done, hannounced]
        omega
    · simp

/-- What `recv` keeps to, whatever the peer sends. -/
structure Safe (F : Type) [PyFloat F] (maxBytes : ℕ) : Prop where
  /-- It returns a message, or raises `WireError`, or what says that the connection is gone. -/
  raises : ∀ (how : Gone) (fs : List Bytes), (∃ m : Message F, recvFrom maxBytes how fs = .ok m) ∨
    (∃ e : WireError F, recvFrom maxBytes how fs = .error (.wireError e)) ∨
      recvFrom (F := F) maxBytes how fs = .error (.gone how)
  /-- After a first frame it has ended, or the header is checked in full. -/
  header : ∀ raw, (∃ e, (recv maxBytes).next raw =
      (.done (.error (.wire e)) : Reader (RecvError F) (Message F))) ∨
    ∃ d : Dict F, headerOf raw = some (.obj d) ∧ (checkHeader maxBytes d).isOk = true
  accepts : ∀ fs, ((recv (F := F) maxBytes).accepted fs).flatten.length ≤
    maxHeaderBytes + maxBytes + (fs.head?.map (announced F)).getD 0
  arrays : ∀ (fs gs : List Bytes) (m : Message F), (recv maxBytes).run fs = some (.ok m, gs) →
    (m.arrays.map Prod.fst).Nodup ∧ ∀ a ∈ m.arrays, a.1 ≠ [] ∧ isDtype a.2.dtype.little = true ∧
      a.2.tobytes.length = a.2.shape.prod * a.2.dtype.itemsize

/-- `recv` is safe on hostile input. -/
theorem recv_safe (hmax : maxBytes < 2 ^ 63) : Safe F maxBytes where
  raises how fs := by
    cases hrun : (recv (F := F) maxBytes).run fs with
    | none => exact Or.inr (Or.inr (by rw [recvFrom, hrun]))
    | some p =>
      obtain ⟨r, gs⟩ := p
      obtain ⟨e, rfl⟩ | ⟨m, specs, rfl, -⟩ := run_recv hmax hrun
      · exact Or.inr (Or.inl ⟨e, by rw [recvFrom, hrun]⟩)
      · exact Or.inl ⟨m, by rw [recvFrom, hrun]⟩
  header raw := by
    rw [recv_eq, frame, Reader.next]
    split_ifs
    · obtain he | ⟨d, op, fields, specs, hd, hcheck, -⟩ := afterHeader_cases (F := F) maxBytes raw
      · exact Or.inl he
      · exact Or.inr ⟨d, hd, by rw [hcheck]; rfl⟩
    · exact Or.inl ⟨_, rfl⟩
  accepts := length_accepted_recv maxBytes
  arrays fs gs m h := by
    obtain ⟨e, he⟩ | ⟨m', specs, hm, hall, hnodup, hreads⟩ := run_recv hmax h
    · simp at he
    · obtain rfl := Except.ok.inj hm
      have hnames : m.arrays.map Prod.fst = specs.map ArraySpec.name := by
        clear hall hnodup h hm
        generalize m.arrays = as at hreads
        induction hreads with
        | nil => rfl
        | cons ha _ ih => rw [List.map_cons, List.map_cons, ha.name, ih]
      refine ⟨hnames ▸ hnodup, fun a ha => ?_⟩
      obtain ⟨s, hs, hread⟩ : ∃ s ∈ specs, ReadAs s a := by
        obtain ⟨i, hi, rfl⟩ := List.getElem_of_mem ha
        have hi' : i < specs.length := by rw [hreads.length_eq]; exact hi
        exact ⟨specs[i], List.getElem_mem hi', hreads.get hi' hi⟩
      refine ⟨hread.name ▸ (hall s hs).name, hread.dtype ▸ (hall s hs).dtype, ?_⟩
      rw [NdArray.length_tobytes, NdArray.nbytes]

/-- With the bound that a receiver has unless it asks for less. -/
theorem recv_safe_default : Safe Tenths maxMessageBytes := recv_safe (by decide)

end Wire

end IcilOrchestrator

import Mathlib
import IcilOrchestrator.Text

/-!
# numpy arrays

An `NdArray` is what numpy holds of one : its dtype, its shape, and its elements in C
order, each as the bytes that stand for it in memory. `newbyteorder` and `astype` are
numpy's for a change of byte order alone, `tobytes` is C order, and `frombuffer` cuts a
buffer into elements (`frombuffer_tobytes`).

numpy multiplies out every non-zero dimension of a shape, also of one with a zero in it,
and makes no array for which that product of bytes is past `intpMax`.
-/

namespace Python

/-- The dtypes numbers and booleans have, as numpy spells them little-endian, with the
size of an element. -/
def plainDtypes : List (PyStr × ℕ) :=
  [(py "|b1", 1), (py "|i1", 1), (py "<i2", 2), (py "<i4", 4), (py "<i8", 8), (py "|u1", 1),
    (py "<u2", 2), (py "<u4", 4), (py "<u8", 8), (py "<f2", 2), (py "<f4", 4), (py "<f8", 8)]

/-- A dtype. -/
structure Dtype where
  /-- `dtype.newbyteorder("<").str`. -/
  little : PyStr
  /-- Whether its elements are big-endian. -/
  big : Bool
  itemsize : ℕ
  hasobject : Bool
  plain : ∀ n, plainDtypes.lookup little = some n → itemsize = n ∧ hasobject = false

namespace Dtype

/-- `dtype.newbyteorder("<")`. -/
def newbyteorder (d : Dtype) : Dtype := { d with big := false }

/-- `np.dtype(str)`, for the plain dtypes. -/
def ofStr (s : PyStr) : Option Dtype :=
  match h : plainDtypes.lookup s with
  | some n => some
    { little := s
      big := false
      itemsize := n
      hasobject := false
      plain := fun _ hm => ⟨Option.some.inj (h.symm.trans hm), rfl⟩ }
  | none => none

theorem ext' {d e : Dtype} (h : d.little = e.little) (hb : d.big = e.big)
    (hi : d.itemsize = e.itemsize) (ho : d.hasobject = e.hasobject) : d = e := by
  obtain ⟨_, _, _, _, _⟩ := d
  obtain ⟨_, _, _, _, _⟩ := e
  simp_all

theorem ofStr_little {d : Dtype} {n : ℕ} (h : plainDtypes.lookup d.little = some n) :
    ofStr d.little = some d.newbyteorder := by
  obtain ⟨hi, ho⟩ := d.plain n h
  rw [ofStr]
  split
  · rename_i m hm
    obtain rfl : n = m := Option.some.inj (h.symm.trans hm)
    exact congrArg some (ext' rfl rfl hi.symm ho.symm)
  · simp_all

end Dtype

/-- The most bytes numpy indexes. -/
def intpMax : ℕ := 2 ^ 63 - 1

/-- The bytes numpy reckons for a shape : those of its non-zero dimensions. -/
def reckoned (shape : List ℕ) (itemsize : ℕ) : ℕ := (shape.filter (· ≠ 0)).prod * itemsize

/-- An array. -/
structure NdArray where
  dtype : Dtype
  shape : List ℕ
  items : List Bytes
  length_items : items.length = shape.prod
  length_item : ∀ b ∈ items, b.length = dtype.itemsize
  reckoned_le : reckoned shape dtype.itemsize ≤ intpMax

namespace NdArray

/-- `array.nbytes`. -/
def nbytes (a : NdArray) : ℕ := a.shape.prod * a.dtype.itemsize

/-- `array.astype(array.dtype.newbyteorder("<"), copy=False)`, for a plain dtype. -/
def astypeLittle (a : NdArray) : NdArray where
  dtype := a.dtype.newbyteorder
  shape := a.shape
  items := if a.dtype.big then a.items.map List.reverse else a.items
  length_items := by split_ifs <;> simp [a.length_items]
  length_item := by
    intro b hb
    split_ifs at hb
    · obtain ⟨c, hc, rfl⟩ := List.mem_map.1 hb
      rw [List.length_reverse]
      exact a.length_item c hc
    · exact a.length_item b hb
  reckoned_le := a.reckoned_le

/-- `array.tobytes(order="C")`. -/
def tobytes (a : NdArray) : Bytes := a.items.flatten

theorem length_flatten_of {items : List Bytes} {n : ℕ} (h : ∀ b ∈ items, b.length = n) :
    items.flatten.length = items.length * n := by
  induction items with
  | nil => simp
  | cons b items ih =>
    rw [List.flatten_cons, List.length_append, h b (by simp),
      ih fun c hc => h c (List.mem_cons_of_mem _ hc), List.length_cons]
    ring

theorem length_tobytes (a : NdArray) : a.tobytes.length = a.nbytes := by
  rw [tobytes, length_flatten_of a.length_item, a.length_items, nbytes]

/-- A buffer cut into `n` elements. -/
def cut (size : ℕ) : ℕ → Bytes → List Bytes
  | 0, _ => []
  | n + 1, b => b.take size :: cut size n (b.drop size)

theorem length_cut (size n : ℕ) (b : Bytes) : (cut size n b).length = n := by
  induction n generalizing b with
  | zero => rfl
  | succ n ih => simp [cut, ih]

theorem length_of_mem_cut {size n : ℕ} {b : Bytes} (hb : b.length = n * size) :
    ∀ c ∈ cut size n b, c.length = size := by
  induction n generalizing b with
  | zero => simp [cut]
  | succ n ih =>
    rw [Nat.succ_mul] at hb
    intro c hc
    rcases List.mem_cons.1 hc with rfl | hc
    · rw [List.length_take]
      omega
    · exact ih (by rw [List.length_drop]; omega) c hc

theorem cut_flatten {size : ℕ} {items : List Bytes} (h : ∀ b ∈ items, b.length = size) :
    cut size items.length items.flatten = items := by
  induction items with
  | nil => rfl
  | cons b items ih =>
    have hb : b.length = size := h b (by simp)
    rw [List.length_cons, List.flatten_cons, cut, ← hb, List.take_left, List.drop_left, hb,
      ih fun c hc => h c (List.mem_cons_of_mem _ hc)]

/-- `np.frombuffer(payload, dtype).reshape(shape)`, for a payload of as many bytes as that
takes; none is the `ValueError` of a shape numpy cannot index. -/
def frombuffer (payload : Bytes) (d : Dtype) (shape : List ℕ)
    (hlen : payload.length = shape.prod * d.itemsize) : Option NdArray :=
  if h : reckoned shape d.itemsize ≤ intpMax then some
    { dtype := d
      shape := shape
      items := cut d.itemsize shape.prod payload
      length_items := length_cut _ _ _
      length_item := length_of_mem_cut hlen
      reckoned_le := h }
  else none

theorem ext' {a b : NdArray} (hd : a.dtype = b.dtype) (hs : a.shape = b.shape)
    (hi : a.items = b.items) : a = b := by
  obtain ⟨_, _, _, _, _, _⟩ := a
  obtain ⟨_, _, _, _, _, _⟩ := b
  simp_all

/-- An array's bytes give the array back. -/
theorem frombuffer_tobytes (a : NdArray) :
    frombuffer a.tobytes a.dtype a.shape (length_tobytes a) = some a := by
  unfold frombuffer
  rw [dif_pos a.reckoned_le]
  refine congrArg some (ext' rfl rfl ?_)
  have := cut_flatten a.length_item
  rwa [a.length_items] at this

end NdArray

end Python

import Mathlib
import IcilOrchestrator.Text

/-!
# The values of Python's `json`

`Json F` is what `json.loads` returns : a `dict` is the list of its items in insertion
order, an `int` is unbounded, and a finite `float` is a value of `F`. The type `F` of
finite floats comes with what Python documents of them (`PyFloat`) : the exact value of
each, the literal `repr` prints for it, and the reading of a literal, which gives back
the float whose `repr` it is.

`truthy`, `hashable` and `pyEq` are Python's own `bool(x)`, `hash(x)` and `==` : a
`bool` is equal to the integer it stands for and a float to the integer it is, and two
dicts are equal when they have equal items, in any order.
-/

namespace Python

/-! ## Number literals -/

/-- A JSON number as written. `frac` are the digits after the point, `exp` what follows
the `e`; each is empty when the literal has none. -/
structure NumLit where
  neg : Bool
  int : PyStr
  frac : PyStr
  exp : PyStr
deriving DecidableEq

namespace NumLit

/-- A literal with a fraction or an exponent is a `float`, any other an `int`. -/
def isFloat (l : NumLit) : Bool := !l.frac.isEmpty || !l.exp.isEmpty

/-- The literal's characters. -/
def text (l : NumLit) : PyStr :=
  (if l.neg then [45] else []) ++ l.int ++ (if l.frac = [] then [] else 46 :: l.frac) ++
    (if l.exp = [] then [] else 101 :: l.exp)

/-- The grammar of a JSON number. -/
structure WF (l : NumLit) : Prop where
  int_ne : l.int ≠ []
  int_digit : ∀ c ∈ l.int, isDigit c
  int_head : l.int = [48] ∨ ∀ c ∈ l.int.head?, c ≠ 48
  frac_digit : ∀ c ∈ l.frac, isDigit c
  exp_digit : l.exp = [] ∨ ∃ sign ds, l.exp = sign ++ ds ∧ (sign = [] ∨ sign = [43] ∨ sign = [45]) ∧
    ds ≠ [] ∧ ∀ c ∈ ds, isDigit c

/-- The integer a literal without fraction or exponent names. -/
def toInt (l : NumLit) : ℤ := if l.neg then -(digitsVal l.int : ℤ) else digitsVal l.int

end NumLit

/-- `str` of an `int`, as a literal. -/
def intLit (z : ℤ) : NumLit := ⟨decide (z < 0), decimal z.natAbs, [], []⟩

theorem intLit_wf (z : ℤ) : (intLit z).WF where
  int_ne := decimal_ne_nil _
  int_digit := isDigit_decimal _
  int_head := decimal_head _
  frac_digit := by simp [intLit]
  exp_digit := Or.inl rfl

theorem toInt_intLit (z : ℤ) : (intLit z).toInt = z := by
  simp only [NumLit.toInt, intLit, digitsVal_decimal, decide_eq_true_eq]
  split_ifs <;> omega

/-- `F` is the type of finite floats. -/
class PyFloat (F : Type) where
  /-- The exact value. -/
  val : F → ℚ
  /-- `float.__repr__`. -/
  lit : F → NumLit
  /-- `float` of a literal ; none where it overflows to an infinity. -/
  ofLit : NumLit → Option F
  lit_wf : ∀ x, (lit x).WF
  lit_isFloat : ∀ x, (lit x).isFloat = true
  ofLit_lit : ∀ x, ofLit (lit x) = some x

/-- The decimals with one digit after the point, as a whole number of tenths : floats to
evaluate with. -/
structure Tenths where
  tenths : ℤ
deriving DecidableEq

namespace Tenths

/-- `d.d`. -/
def lit (x : Tenths) : NumLit :=
  ⟨decide (x.tenths < 0), decimal (x.tenths.natAbs / 10), decimal (x.tenths.natAbs % 10), []⟩

/-- Any literal, cut after the first digit of its fraction. -/
def ofLit (l : NumLit) : Option Tenths :=
  let n : ℤ := digitsVal l.int * 10 + digitsVal (l.frac.take 1)
  some ⟨if l.neg then -n else n⟩

theorem length_decimal_mod (n : ℕ) : (decimal (n % 10)).length = 1 := by
  have h : (decimal (n % 10)).length ≤ 1 := (length_decimal_le (by omega)).2 (by omega)
  have := List.length_pos_iff.2 (decimal_ne_nil (n % 10))
  omega

theorem ofLit_lit (x : Tenths) : ofLit (lit x) = some x := by
  have htake : (decimal (x.tenths.natAbs % 10)).take 1 = decimal (x.tenths.natAbs % 10) :=
    List.take_of_length_le (length_decimal_mod _).le
  obtain ⟨z⟩ := x
  simp only [ofLit, lit, htake, digitsVal_decimal, Option.some.injEq, decide_eq_true_eq,
    Tenths.mk.injEq]
  split_ifs <;> omega

instance : PyFloat Tenths where
  val x := x.tenths / 10
  lit := lit
  ofLit := ofLit
  lit_wf x :=
    { int_ne := decimal_ne_nil _
      int_digit := isDigit_decimal _
      int_head := decimal_head _
      frac_digit := isDigit_decimal _
      exp_digit := Or.inl rfl }
  lit_isFloat x := by simp [NumLit.isFloat, lit, decimal_ne_nil]
  ofLit_lit := ofLit_lit

end Tenths

/-! ## Values -/

/-- What `json.loads` returns. -/
inductive Json (F : Type) where
  | null
  | bool (b : Bool)
  | int (z : ℤ)
  | float (x : F)
  /-- `inf`, and `-inf` when `neg`. -/
  | inf (neg : Bool)
  | nan
  | str (s : PyStr)
  | arr (xs : List (Json F))
  | obj (kvs : List (PyStr × Json F))

/-- A `dict` with string keys : its items in insertion order. -/
abbrev Dict (F : Type) := List (PyStr × Json F)

variable {F : Type}

/-- Induction over the values, with the items of a list or a dict as hypotheses. -/
@[elab_as_elim, induction_eliminator]
theorem Json.ind {P : Json F → Prop} (null : P .null) (bool : ∀ b, P (.bool b))
    (int : ∀ z, P (.int z)) (float : ∀ x, P (.float x)) (inf : ∀ b, P (.inf b)) (nan : P .nan)
    (str : ∀ s, P (.str s)) (arr : ∀ xs, (∀ x ∈ xs, P x) → P (.arr xs))
    (obj : ∀ kvs : Dict F, (∀ p ∈ kvs, P p.2) → P (.obj kvs)) (j : Json F) : P j :=
  @Json.rec F P (fun xs => ∀ x ∈ xs, P x) (fun kvs => ∀ p ∈ kvs, P p.2) (fun p => P p.2)
    null bool int float inf nan str arr obj (fun _ h => absurd h List.not_mem_nil)
    (fun _ _ hx hxs => List.forall_mem_cons.2 ⟨hx, hxs⟩) (fun _ h => absurd h List.not_mem_nil)
    (fun _ _ hp hd => List.forall_mem_cons.2 ⟨hp, hd⟩) (fun _ _ h => h) j

/-! ## Dicts -/

namespace Dict

/-- `d[k]`, none where it raises `KeyError`. -/
def get? (d : Dict F) (k : PyStr) : Option (Json F) :=
  (d.find? fun p => p.1 == k).map Prod.snd

/-- `d.get(k)`. -/
def get (d : Dict F) (k : PyStr) : Json F := (d.get? k).getD .null

/-- `k in d`. -/
def mem (d : Dict F) (k : PyStr) : Bool := (d.get? k).isSome

/-- `d[k] = v` : in the key's place when it is there, at the end otherwise. -/
def set : Dict F → PyStr → Json F → Dict F
  | [], k, v => [(k, v)]
  | (k', w) :: d, k, v => if k' = k then (k, v) :: d else (k', w) :: set d k v

/-- `dict(pairs)`. -/
def ofPairs (ps : List (PyStr × Json F)) : Dict F := ps.foldl (fun d p => d.set p.1 p.2) []

/-- The keys, each once. -/
def Distinct (d : Dict F) : Prop := (d.map Prod.fst).Nodup

@[simp] theorem get?_nil (k : PyStr) : get? ([] : Dict F) k = none := rfl

theorem get?_cons (k k' : PyStr) (v : Json F) (d : Dict F) :
    get? ((k', v) :: d) k = if k' = k then some v else d.get? k := by
  by_cases h : k' = k <;> simp [get?, h]

@[simp] theorem get?_cons_self (k : PyStr) (v : Json F) (d : Dict F) :
    get? ((k, v) :: d) k = some v := by simp [get?_cons]

theorem get?_cons_of_ne {k k' : PyStr} (h : k' ≠ k) (v : Json F) (d : Dict F) :
    get? ((k', v) :: d) k = d.get? k := by simp [get?_cons, h]

theorem get_eq_of_get? {d : Dict F} {k : PyStr} {v : Json F} (h : d.get? k = some v) :
    d.get k = v := by simp [get, h]

theorem get_eq_null {d : Dict F} {k : PyStr} (h : d.get? k = none) : d.get k = .null := by
  simp [get, h]

theorem mem_of_get? {d : Dict F} {k : PyStr} {v : Json F} (h : d.get? k = some v) :
    (k, v) ∈ d := by
  unfold get? at h
  obtain ⟨p, hp, rfl⟩ := Option.map_eq_some_iff.1 h
  have hk : p.1 = k := by simpa using List.find?_some hp
  rw [← hk]
  exact List.mem_of_find?_eq_some hp

/-- With distinct keys, an item is what its key looks up. -/
theorem get?_of_mem {d : Dict F} (hd : d.Distinct) {k : PyStr} {v : Json F} (h : (k, v) ∈ d) :
    d.get? k = some v := by
  induction d with
  | nil => simp at h
  | cons p d ih =>
    obtain ⟨k', w⟩ := p
    obtain ⟨hk', hd⟩ := List.nodup_cons.1 hd
    rcases List.mem_cons.1 h with h | h
    · obtain ⟨rfl, rfl⟩ := Prod.mk.inj h
      simp
    · have hne : k' ≠ k := by
        rintro rfl
        exact hk' (List.mem_map.2 ⟨_, h, rfl⟩)
      rw [get?_cons_of_ne hne]
      exact ih hd h

theorem get?_isSome_iff {d : Dict F} {k : PyStr} :
    (d.get? k).isSome ↔ k ∈ d.map Prod.fst := by
  simp [get?]

@[simp] theorem get?_set_self (d : Dict F) (k : PyStr) (v : Json F) :
    (d.set k v).get? k = some v := by
  induction d with
  | nil => simp [set]
  | cons p d ih =>
    obtain ⟨k', w⟩ := p
    by_cases h : k' = k
    · simp [set, h]
    · simp [set, h, get?_cons, ih]

theorem get?_set_of_ne {k k' : PyStr} (h : k' ≠ k) (d : Dict F) (v : Json F) :
    (d.set k' v).get? k = d.get? k := by
  induction d with
  | nil => simp [set, get?_cons, h]
  | cons p d ih =>
    obtain ⟨k'', w⟩ := p
    by_cases h' : k'' = k'
    · subst h'
      simp [set, get?_cons, h]
    · simp [set, h', get?_cons, ih]

theorem set_of_notMem {d : Dict F} {k : PyStr} (h : k ∉ d.map Prod.fst) (v : Json F) :
    d.set k v = d ++ [(k, v)] := by
  induction d with
  | nil => rfl
  | cons p d ih =>
    obtain ⟨k', w⟩ := p
    simp only [List.map_cons, List.mem_cons, not_or] at h
    simp [set, Ne.symm h.1, ih h.2]

theorem map_fst_set (d : Dict F) (k : PyStr) (v : Json F) :
    (d.set k v).map Prod.fst =
      if k ∈ d.map Prod.fst then d.map Prod.fst else d.map Prod.fst ++ [k] := by
  induction d with
  | nil => simp [set]
  | cons p d ih =>
    obtain ⟨k', w⟩ := p
    by_cases h : k' = k
    · simp [set, h]
    · simp only [set, h, if_false, List.map_cons, ih, List.mem_cons, Ne.symm h, false_or]
      split_ifs <;> simp

theorem mem_set {d : Dict F} {k : PyStr} {v : Json F} {p : PyStr × Json F} (h : p ∈ d.set k v) :
    p = (k, v) ∨ p ∈ d := by
  induction d with
  | nil => exact Or.inl (by simpa [set] using h)
  | cons q d ih =>
    obtain ⟨k', w⟩ := q
    rw [set] at h
    split_ifs at h with hk
    · rcases List.mem_cons.1 h with h | h
      · exact Or.inl h
      · exact Or.inr (List.mem_cons_of_mem _ h)
    · rcases List.mem_cons.1 h with rfl | h
      · exact Or.inr (by simp)
      · exact (ih h).imp id (List.mem_cons_of_mem _)

theorem distinct_set {d : Dict F} (hd : d.Distinct) (k : PyStr) (v : Json F) :
    (d.set k v).Distinct := by
  unfold Distinct at hd ⊢
  rw [map_fst_set]
  split_ifs with h
  · exact hd
  · exact List.nodup_append.2 ⟨hd, by simp, by rintro a ha b hb rfl; simp_all⟩

theorem distinct_ofPairs (ps : List (PyStr × Json F)) : (ofPairs ps).Distinct := by
  have key : ∀ (ps : List (PyStr × Json F)) (d : Dict F), d.Distinct →
      (ps.foldl (fun d p => d.set p.1 p.2) d).Distinct := by
    intro ps
    induction ps with
    | nil => exact fun _ hd => hd
    | cons p ps ih => exact fun d hd => ih _ (distinct_set hd _ _)
  exact key ps [] (by simp [Distinct])

/-- Pairs with distinct keys are the dict's items as they stand. -/
theorem ofPairs_of_distinct {ps : List (PyStr × Json F)} (h : (ps.map Prod.fst).Nodup) :
    ofPairs ps = ps := by
  have key : ∀ (ps : List (PyStr × Json F)) (d : Dict F), (d.map Prod.fst ++ ps.map Prod.fst).Nodup →
      ps.foldl (fun d p => d.set p.1 p.2) d = d ++ ps := by
    intro ps
    induction ps with
    | nil => intro d _; simp
    | cons p ps ih =>
      intro d hd
      have hp : p.1 ∉ d.map Prod.fst := by
        intro hmem
        exact List.disjoint_of_nodup_append hd hmem (by simp)
      rw [List.foldl_cons, set_of_notMem hp, ih _ (by simpa using hd)]
      simp
  exact key ps [] (by simpa using h)

end Dict

namespace Json

variable [PyFloat F]

/-- `bool(x)`. -/
def truthy : Json F → Bool
  | .null => false
  | .bool b => b
  | .int z => z != 0
  | .float x => PyFloat.val x != 0
  | .inf _ => true
  | .nan => true
  | .str s => !s.isEmpty
  | .arr xs => !xs.isEmpty
  | .obj kvs => !kvs.isEmpty

omit [PyFloat F] in
/-- Whether `hash(x)` returns : it raises `TypeError` for a list and for a dict. -/
def hashable : Json F → Bool
  | .arr _ => false
  | .obj _ => false
  | _ => true

/-- The value of a number, as `==` compares it. -/
def num? : Json F → Option ℚ
  | .bool b => some (if b then 1 else 0)
  | .int z => some z
  | .float x => some (PyFloat.val x)
  | _ => none

mutual

/-- `x == y`. -/
def pyEq : Json F → Json F → Bool
  | .null, .null => true
  | .inf a, .inf b => a == b
  | .str s, .str t => s == t
  | .arr xs, .arr ys => eqItems xs ys
  | .obj xs, .obj ys => xs.length == ys.length && eqMembers xs ys
  | x, y =>
    match num? x, num? y with
    | some a, some b => a == b
    | _, _ => false

/-- `==` of lists. -/
def eqItems : List (Json F) → List (Json F) → Bool
  | [], [] => true
  | x :: xs, y :: ys => pyEq x y && eqItems xs ys
  | _, _ => false

/-- Every item of the first dict is one of the second. -/
def eqMembers : Dict F → Dict F → Bool
  | [], _ => true
  | (k, v) :: d, e =>
    (match Dict.get? e k with
      | some w => pyEq v w
      | none => false) && eqMembers d e

end

end Json

end Python

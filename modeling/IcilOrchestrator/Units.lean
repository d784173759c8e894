import Mathlib
import IcilOrchestrator.Ids
import IcilOrchestrator.Store

/-!
# The units of a duel

`plugin_units` asks the benchmarks behind a track's skills for their units, and sets on each what
is the competition's to decide (`reserved`) : its id, indexed across the whole track, its skill,
its index and seed within the skill, its benchmark and instance.

A benchmark is whatever it answers (`Benchmarks`), and may answer differently every time it is
asked. `units_identified` : what is reserved of the units is a function of the spec, the duel and
the size, the ids are distinct, and two benchmarks' units agree on it one by one.
-/

namespace IcilOrchestrator

open Python

namespace Units

/-! ## Mappings -/

/-- A key of a mapping. -/
inductive Key where
  | str (s : PyStr)
  | other (n : ℕ)
deriving DecidableEq

/-- What a benchmark puts in its units. -/
inductive Value where
  | str (s : PyStr)
  | int (n : ℕ)
  | mapping (items : List (Key × Value))
  /-- An object of another type, by the name of that. -/
  | other (typeName : PyStr) (n : ℕ)

/-- `type(value).__name__`. -/
def Value.typeName : Value → PyStr
  | .str _ => py "str"
  | .int _ => py "int"
  | .mapping _ => py "dict"
  | .other t _ => t

/-- The items of a mapping. -/
abbrev Items := List (Key × Value)

namespace Items

/-- `get`, of a string. -/
def get? (u : Items) (k : PyStr) : Option Value := (u.find? (·.1 = .str k)).map Prod.snd

/-- A string of a mapping. -/
def text (u : Items) (k : PyStr) : PyStr :=
  match u.get? k with
  | some (.str s) => s
  | _ => []

/-- A mapping of a mapping. -/
def items (u : Items) (k : PyStr) : Items :=
  match u.get? k with
  | some (.mapping v) => v
  | _ => []

/-- An item of a `dict` display. -/
def set (k : PyStr) (v : Value) : Items → Items
  | [] => [(.str k, v)]
  | (k', v') :: u => if k' = .str k then (k', v) :: u else (k', v') :: set k v u

@[simp] theorem get?_set_self (u : Items) (k : PyStr) (v : Value) :
    (u.set k v).get? k = some v := by
  induction u with
  | nil => simp [set, get?]
  | cons kv u ih =>
    rw [set]
    split_ifs with h
    · simp [get?, h]
    · simpa [get?, h] using ih

theorem get?_set_of_ne (u : Items) {k k' : PyStr} (v : Value) (h : k ≠ k') :
    (u.set k' v).get? k = u.get? k := by
  have hne : ¬Key.str k' = Key.str k := fun he => h (Key.str.inj he).symm
  induction u with
  | nil => simp [set, get?, hne]
  | cons kv u ih =>
    rw [set]
    split_ifs with h'
    · simp [get?, h', hne]
    · by_cases hk : kv.1 = .str k
      · simp [get?, hk]
      · simpa [get?, hk] using ih

end Items

/-! ## The spec -/

/-- What the spec says of a skill. -/
structure Skill where
  name : PyStr
  code : PyStr
  benchmark : PyStr
  suite : PyStr
  category : Option PyStr

/-- What the spec says of a track's units. -/
structure TrackSpec where
  track : PyStr
  skills : List Skill
  /-- `units_per_skill` of each size. -/
  sizes : List (PyStr × ℕ)
  defaultSize : PyStr
  default_mem : defaultSize ∈ sizes.map Prod.fst

namespace TrackSpec

variable (S : TrackSpec)

/-- `size_of`. -/
def sizeOf (size : Option PyStr) : PyStr :=
  match size with
  | some s => if s ∈ S.sizes.map Prod.fst then s else S.defaultSize
  | none => S.defaultSize

/-- `units_per_skill`. -/
def unitsPerSkill (size : Option PyStr) : ℕ := (S.sizes.lookup (S.sizeOf size)).getD 0

end TrackSpec

/-! ## Identities -/

/-- `{n:03d}`. -/
def pad3 (n : ℕ) : PyStr := List.replicate (3 - (decimal n).length) 48 ++ decimal n

/-- `unit_id`. -/
def unitId (code : PyStr) (index : ℕ) : PyStr := code ++ 45 :: pad3 index

/-- `int(…, 16)`, of hexadecimal digits. -/
def hexNat (s : PyStr) : ℕ := s.foldl (fun n d => n * 16 + (hexVal d).getD 0) 0

/-- `unit_seed`. -/
def unitSeed (c : Crypto) (duel skill : PyStr) (index : ℕ) : ℕ :=
  hexNat ((c.sha256 (encodeUtf8 (duel ++ py "|" ++ skill ++ py "|" ++ decimal index))).take 8)

/-- `seed_material`. -/
def seedMaterial (duelId skill : PyStr) : PyStr := duelId ++ py "|" ++ skill

/-- `RESERVED`. -/
def reserved : List PyStr :=
  [py "unit_id", py "skill", py "index", py "seed", py "benchmark", py "instance", py "demo"]

/-- `INSTANCE_PARAM_KEYS`. -/
def instanceParamKeys : List PyStr := [py "scene_seed", py "embodiment"]

/-! ## Benchmarks -/

/-- What `derive_units` is asked. -/
structure Ask where
  seedMaterial : PyStr
  count : ℕ
  suite : PyStr
  category : Option PyStr

/-- The benchmarks, each of which may keep a state : `resolve` loads one and `derive` has it derive
units, none where it returns nothing; or what they raise, as text. -/
structure Benchmarks (σ : Type) where
  resolve : PyStr → σ → Except PyStr Unit × σ
  derive : PyStr → Ask → σ → Except PyStr (List Value) × σ

/-- What `plugin_units` raises. -/
inductive Raised where
  /-- What `resolve` raised. -/
  | refused (text : PyStr)
  /-- `DerivationError`. -/
  | derivation (text : PyStr)
deriving DecidableEq

/-! ## Units -/

/-- `check_unit`, and the items of a unit that passes. -/
def checkUnit (skill name : PyStr) (index : ℕ) (unit : Value) : Except PyStr Items :=
  let place := skill ++ py ": " ++ name ++ py " unit " ++ decimal index
  match unit with
  | .mapping u =>
    match [py "task", py "task_label"].find? fun key => (Items.text u key).isEmpty with
    | some key => .error (place ++ py " has no " ++ key)
    | none =>
      match Items.get? u (py "instance_params") with
      | some (.mapping params) =>
        match instanceParamKeys.filter fun key => (Items.get? params key).isNone with
        | [] => .ok u
        | missing =>
          .error (place ++ py " instance_params lacks " ++ List.intercalate (py ", ") missing)
      | _ => .error (place ++ py " has no instance_params mapping")
  | v => .error (place ++ py " is " ++ v.typeName ++ py ", not a mapping")

section Derive

variable (c : Crypto) (duelId : PyStr)

/-- The `n`-th unit of a duel, the `index`-th of its skill. -/
def unitOf (s : Skill) (n index : ℕ) (unit : Items) : Items :=
  let passed : Items := unit.filter fun kv => kv.1 ∉ reserved.map Key.str
  let uid := unitId s.code n
  let named := ((passed.set (py "unit_id") (.str uid)).set (py "skill") (.str s.name)).set
    (py "benchmark") (.str s.benchmark)
  let seeded := (named.set (py "index") (.int index)).set (py "seed")
    (.int (unitSeed c duelId s.name index))
  let labelled := (seeded.set (py "task") (.str (passed.text (py "task")))).set
    (py "task_label") (.str (passed.text (py "task_label")))
  ((labelled.set (py "instance") (.int 0)).set (py "demo") (.str uid)).set
    (py "instance_params") (.mapping (passed.items (py "instance_params")))

/-- The units of one skill, after those of the skills before. -/
def addUnits (s : Skill) (out : List Items) : ℕ → List Value → Except PyStr (List Items)
  | _, [] => .ok out
  | index, unit :: units =>
    match checkUnit s.name s.benchmark index unit with
    | .ok u => addUnits s (out ++ [unitOf c duelId s out.length index u]) (index + 1) units
    | .error e => .error e

variable {σ : Type} (B : Benchmarks σ) (S : TrackSpec) (size : Option PyStr)

/-- The units of some skills, after those of the skills before : `loaded` are the benchmarks that
these have loaded. -/
def addSkills : List Skill → List PyStr → List Items → σ → Except Raised (List Items) × σ
  | [], _, out, w => (.ok out, w)
  | s :: ss, loaded, out, w =>
    match if s.benchmark ∈ loaded then (.ok (), w) else B.resolve s.benchmark w with
    | (.error e, w) => (.error (.refused e), w)
    | (.ok _, w) =>
      match B.derive s.benchmark
        ⟨seedMaterial duelId s.name, S.unitsPerSkill size, s.suite, s.category⟩ w with
      | (.error e, w) =>
        (.error (.derivation (s.name ++ py ": " ++ s.benchmark ++
          py " could not derive its units: " ++ e)), w)
      | (.ok derived, w) =>
        if derived.length ≠ S.unitsPerSkill size then
          (.error (.derivation (s.name ++ py ": " ++ s.benchmark ++ py " returned " ++
            decimal derived.length ++ py " units, not the " ++ decimal (S.unitsPerSkill size) ++
            py " " ++ S.track ++ py "/" ++ S.sizeOf size ++ py " asks for")), w)
        else
          match addUnits c duelId s out 0 derived with
          | .error e => (.error (.derivation e), w)
          | .ok out => addSkills ss (s.benchmark :: loaded) out w

/-- `plugin_units`. -/
def pluginUnits (w : σ) : Except Raised (List Items) × σ :=
  addSkills c duelId B S size S.skills [] [] w

end Derive

/-! ## What is reserved -/

variable {c : Crypto} {duelId : PyStr} {S : TrackSpec} {size : Option PyStr}

/-- What is reserved of a unit. -/
def identity (u : Items) : List (Option Value) := reserved.map u.get?

/-- What is reserved of the `n`-th unit of a duel, the `index`-th of its skill. -/
def identityOf (c : Crypto) (duelId : PyStr) (s : Skill) (n index : ℕ) : List (Option Value) :=
  [some (.str (unitId s.code n)), some (.str s.name), some (.int index),
    some (.int (unitSeed c duelId s.name index)), some (.str s.benchmark), some (.int 0),
    some (.str (unitId s.code n))]

/-- A skill and its indices. -/
def slotsOf (count : ℕ) (s : Skill) : List (Skill × ℕ) := (List.range count).map fun i => (s, i)

/-- What is reserved of the units of some skills, the first of which is the `start`-th unit. -/
def identitiesFrom (c : Crypto) (duelId : PyStr) (count : ℕ) (ss : List Skill) (start : ℕ) :
    List (List (Option Value)) :=
  (ss.flatMap (slotsOf count)).mapIdx fun j p => identityOf c duelId p.1 (start + j) p.2

/-- What is reserved of a duel's units. -/
def identities (c : Crypto) (duelId : PyStr) (S : TrackSpec) (size : Option PyStr) :
    List (List (Option Value)) :=
  identitiesFrom c duelId (S.unitsPerSkill size) S.skills 0

theorem digitsVal_pad3 (n : ℕ) : digitsVal (pad3 n) = n := by
  rw [pad3, digitsVal_zeros, digitsVal_decimal]

theorem isDigit_pad3 (n : ℕ) : ∀ d ∈ pad3 n, isDigit d = true := by
  intro d hd
  rcases List.mem_append.1 hd with hd | hd
  · rw [(List.mem_replicate.1 hd).2]
    rfl
  · exact isDigit_decimal n d hd

/-- The number after the last hyphen of an id. -/
def indexOf (uid : PyStr) : ℕ := digitsVal (uid.reverse.takeWhile (· != 45)).reverse

/-- An id tells its index, whatever the codes are. -/
theorem indexOf_unitId (code : PyStr) (n : ℕ) : indexOf (unitId code n) = n := by
  have hne : ∀ d ∈ (pad3 n).reverse, (d != 45) = true := by
    intro d hd
    have := isDigit_pad3 n d (List.mem_reverse.1 hd)
    simp only [isDigit, decide_eq_true_eq] at this
    simp only [bne_iff_ne, ne_eq]
    omega
  rw [indexOf, unitId, List.reverse_append, List.reverse_cons, List.append_assoc,
    List.takeWhile_append_of_pos hne]
  simp [digitsVal_pad3]

/-- What a benchmark put under a reserved key is overwritten. -/
theorem identity_unitOf (s : Skill) (n index : ℕ) (u : Items) :
    identity (unitOf c duelId s n index u) = identityOf c duelId s n index := by
  simp (disch := decide) [identity, reserved, unitOf, identityOf, Items.get?_set_of_ne]

theorem addUnits_ok {s : Skill} {us : List Value} {out out' : List Items} {index : ℕ}
    (h : addUnits c duelId s out index us = .ok out') :
    out'.map identity = out.map identity ++
      (List.range us.length).map fun j => identityOf c duelId s (out.length + j) (index + j) := by
  induction us generalizing out index with
  | nil =>
    obtain rfl := Except.ok.inj h
    simp
  | cons unit us ih =>
    rw [addUnits] at h
    cases hu : checkUnit s.name s.benchmark index unit with
    | error e => simp [hu] at h
    | ok u =>
      simp only [hu] at h
      rw [ih h, List.length_cons, List.range_succ_eq_map, List.map_append, List.map_singleton,
        identity_unitOf, List.append_assoc, List.map_cons, List.map_map, List.length_append]
      simp only [List.singleton_append, List.length_singleton, Nat.add_zero, Function.comp_def,
        Nat.succ_eq_add_one]
      simp only [Nat.add_assoc, Nat.add_comm 1]

variable {σ : Type} {B : Benchmarks σ}

theorem length_slots (count : ℕ) (s : Skill) : (slotsOf count s).length = count := by
  simp [slotsOf]

theorem identitiesFrom_cons (count : ℕ) (s : Skill) (ss : List Skill) (start : ℕ) :
    identitiesFrom c duelId count (s :: ss) start =
      ((List.range count).map fun j => identityOf c duelId s (start + j) j) ++
        identitiesFrom c duelId count ss (start + count) := by
  rw [identitiesFrom, List.flatMap_cons, List.mapIdx_append, length_slots]
  congr 1
  · refine List.ext_getElem (by simp [slotsOf]) fun j hj _ => ?_
    simp [slotsOf]
  · simp only [identitiesFrom, Nat.add_assoc, Nat.add_comm count]

theorem addSkills_ok {ss : List Skill} {loaded : List PyStr} {out units : List Items} {w : σ}
    (h : (addSkills c duelId B S size ss loaded out w).1 = .ok units) :
    units.map identity = out.map identity ++
      identitiesFrom c duelId (S.unitsPerSkill size) ss out.length := by
  induction ss generalizing loaded out w with
  | nil =>
    obtain rfl := Except.ok.inj h
    simp [identitiesFrom]
  | cons s ss ih =>
    rw [addSkills] at h
    split at h
    · cases h
    · split at h
      · cases h
      · rename_i derived _ _
        split_ifs at h with hlen
        cases hadd : addUnits c duelId s out 0 derived with
        | error e => simp [hadd] at h
        | ok out' =>
          simp only [hadd] at h
          have hout := addUnits_ok hadd
          rw [not_not] at hlen
          have hlength : out'.length = out.length + S.unitsPerSkill size := by
            have := congrArg List.length hout
            simpa [hlen] using this
          rw [ih h, hout, hlength, identitiesFrom_cons, List.append_assoc, hlen]
          simp only [Nat.zero_add]

/-- What is reserved of the units is given by the spec, the duel and the size. -/
theorem identity_pluginUnits {w : σ} {units : List Items}
    (h : (pluginUnits c duelId B S size w).1 = .ok units) :
    units.map identity = identities c duelId S size := addSkills_ok h

/-! ## The units of a duel -/

/-- Every skill of the track has its units, in the spec's order, and no two have one id. -/
structure Identified (S : TrackSpec) (size : Option PyStr) (units : List Items) : Prop where
  skills : units.map (·.get? (py "skill")) =
    S.skills.flatMap fun s => List.replicate (S.unitsPerSkill size) (some (.str s.name))
  named : ∀ u ∈ units, ∃ uid, u.get? (py "unit_id") = some (.str uid)
  distinct : (units.map (·.get? (py "unit_id"))).Nodup

/-- Two units are one unit of a duel. -/
def SameUnit (u u' : Items) : Prop := ∀ k ∈ reserved, u.get? k = u'.get? k

theorem sameUnit_iff {u u' : Items} : SameUnit u u' ↔ identity u = identity u' :=
  List.map_inj_left.symm

/-- A column of what is reserved of the units. -/
theorem map_get? {units : List Items} {k : PyStr} (i : ℕ) (hi : reserved[i]? = some k)
    (h : units.map identity = identities c duelId S size) :
    units.map (·.get? k) = (identities c duelId S size).map fun row => (row[i]?).getD none := by
  rw [← h, List.map_map]
  refine List.map_congr_left fun u _ => ?_
  simp [identity, hi]

theorem identified_of_identity {units : List Items}
    (h : units.map identity = identities c duelId S size) : Identified S size units := by
  have hids := map_get? 0 (k := py "unit_id") rfl h
  have hrow : ∀ row ∈ identities c duelId S size, ∃ (s : Skill) (n : ℕ),
      (row[0]?).getD none = some (.str (unitId s.code n)) := by
    intro row hrow
    obtain ⟨n, hn, rfl⟩ := List.mem_mapIdx.1 hrow
    exact ⟨_, _, rfl⟩
  refine ⟨?_, fun u hu => ?_, ?_⟩
  · rw [map_get? 1 (k := py "skill") rfl h]
    have hcolumn : (identities c duelId S size).map (fun row => (row[1]?).getD none) =
        (S.skills.flatMap (slotsOf (S.unitsPerSkill size))).map fun p => some (.str p.1.name) :=
      List.ext_getElem (by simp [identities, identitiesFrom]) fun j hj _ => by
        simp [identities, identitiesFrom, identityOf]
    rw [hcolumn, List.map_flatMap]
    refine List.flatMap_congr fun s _ => ?_
    simp [slotsOf, Function.comp_def]
  · have hmem : u.get? (py "unit_id") ∈ units.map (·.get? (py "unit_id")) :=
      List.mem_map_of_mem hu
    rw [hids] at hmem
    obtain ⟨row, hr, heq⟩ := List.mem_map.1 hmem
    obtain ⟨s, n, hs⟩ := hrow row hr
    exact ⟨_, heq.symm.trans hs⟩
  · -- the index of each id is its place
    let place : Option Value → ℕ := fun v =>
      match v with
      | some (.str uid) => indexOf uid
      | _ => 0
    refine List.Nodup.of_map place ?_
    have hrange : (units.map (·.get? (py "unit_id"))).map place =
        List.range (identities c duelId S size).length := by
      rw [hids, List.map_map]
      refine List.ext_getElem (by simp) fun j hj _ => ?_
      simp [identities, identitiesFrom, identityOf, place, indexOf_unitId]
    rw [hrange]
    exact List.nodup_range

/-- Benchmarks that load, and answer with as many units as they are asked for, which pass
`check_unit`. -/
structure Benchmarks.Answers (B : Benchmarks σ) : Prop where
  loads : ∀ name w, (B.resolve name w).1 = .ok ()
  units : ∀ name ask w, ∃ us, (B.derive name ask w).1 = .ok us ∧ us.length = ask.count ∧
    ∀ u ∈ us, ∀ skill index, ∃ items, checkUnit skill name index u = .ok items

theorem addUnits_returns {s : Skill} {us : List Value}
    (h : ∀ u ∈ us, ∀ skill index, ∃ items, checkUnit skill s.benchmark index u = .ok items)
    (out : List Items) (index : ℕ) : ∃ out', addUnits c duelId s out index us = .ok out' := by
  induction us generalizing out index with
  | nil => exact ⟨out, rfl⟩
  | cons u us ih =>
    obtain ⟨items, hu⟩ := h u (List.mem_cons_self ..) s.name index
    simp only [addUnits, hu]
    exact ih (fun u hu => h u (List.mem_cons_of_mem _ hu)) _ _

theorem addSkills_returns (hB : B.Answers) (ss : List Skill) (loaded : List PyStr)
    (out : List Items) (w : σ) :
    ∃ units, (addSkills c duelId B S size ss loaded out w).1 = .ok units := by
  induction ss generalizing loaded out w with
  | nil => exact ⟨out, rfl⟩
  | cons s ss ih =>
    rw [addSkills]
    have hload : (if s.benchmark ∈ loaded then (.ok (), w) else B.resolve s.benchmark w).1 =
        (Except.ok () : Except PyStr Unit) := by
      split_ifs
      · rfl
      · exact hB.loads _ _
    cases hl : (if s.benchmark ∈ loaded then (.ok (), w) else B.resolve s.benchmark w) with
    | mk r w' =>
      rw [hl] at hload
      obtain rfl : r = .ok () := hload
      dsimp only
      let ask : Ask := ⟨seedMaterial duelId s.name, S.unitsPerSkill size, s.suite, s.category⟩
      obtain ⟨us, hus, hlen, hcheck⟩ := hB.units s.benchmark ask w'
      cases hd : B.derive s.benchmark ask w' with
      | mk r w'' =>
        rw [hd] at hus
        obtain rfl : r = .ok us := hus
        obtain ⟨out', hout⟩ : ∃ out', addUnits c duelId s out 0 us = .ok out' :=
          addUnits_returns hcheck out 0
        dsimp only
        rw [if_neg (not_not.2 hlen), hout]
        exact ih _ _ _

/-- Whatever two benchmarks answer, the units are those of the spec, the duel and the size, and
both have the same units one by one; and units are returned where a benchmark answers as it is
asked. -/
theorem units_identified (c : Crypto) (duelId : PyStr) (S : TrackSpec) (size : Option PyStr)
    {σ σ' : Type} (B : Benchmarks σ) (B' : Benchmarks σ') (w : σ) (w' : σ') :
    (∀ units, (pluginUnits c duelId B S size w).1 = .ok units → Identified S size units) ∧
      (∀ units units', (pluginUnits c duelId B S size w).1 = .ok units →
        (pluginUnits c duelId B' S size w').1 = .ok units' → List.Forall₂ SameUnit units units') ∧
      (B.Answers → ∃ units, (pluginUnits c duelId B S size w).1 = .ok units) := by
  refine ⟨fun units h => identified_of_identity (identity_pluginUnits h),
    fun units units' h h' => ?_, fun hB => addSkills_returns hB _ _ _ _⟩
  have hsame : units.map identity = units'.map identity :=
    (identity_pluginUnits h).trans (identity_pluginUnits h').symm
  have hall : List.Forall₂ (· = ·) (units.map identity) (units'.map identity) := by
    rw [hsame]
    exact List.forall₂_same.2 fun _ _ => rfl
  rw [List.forall₂_map_left_iff, List.forall₂_map_right_iff] at hall
  exact hall.imp fun _ _ h => sameUnit_iff.2 h

/-! ### A track of two skills -/

def toySpec : TrackSpec where
  track := py "t"
  skills := [⟨py "push", py "pu", py "b", py "s", none⟩, ⟨py "pull", py "pl", py "b", py "s", none⟩]
  sizes := [(py "small", 2)]
  defaultSize := py "small"
  default_mem := by decide

/-- A unit with a seed and an id of the benchmark's own. -/
def toyUnit (seed : ℕ) : Value := .mapping
  [(.str (py "unit_id"), .str (py "mine")), (.str (py "seed"), .int seed),
    (.str (py "task"), .str (py "a")), (.str (py "task_label"), .str (py "b")),
    (.str (py "instance_params"),
      .mapping [(.str (py "scene_seed"), .int seed), (.str (py "embodiment"), .int 0)]),
    (.other 1, .int 2)]

/-- A benchmark that counts what it is asked. -/
def toyBenchmarks : Benchmarks ℕ where
  resolve _ n := (.ok (), n)
  derive _ ask n := (.ok (List.replicate ask.count (toyUnit n)), n + 1)

theorem toyBenchmarks_answers : toyBenchmarks.Answers where
  loads _ _ := rfl
  units _ ask n := ⟨_, rfl, List.length_replicate, fun u hu skill index => by
    rw [List.eq_of_mem_replicate hu]
    exact ⟨_, rfl⟩⟩

/-- Its units are the same whatever it was asked before. -/
theorem toy_identified : ∃ units units',
    (pluginUnits toyCrypto (py "d") toyBenchmarks toySpec none 0).1 = .ok units ∧
      (pluginUnits toyCrypto (py "d") toyBenchmarks toySpec none 7).1 = .ok units' ∧
      List.Forall₂ SameUnit units units' := by
  obtain ⟨-, hsame, hret⟩ := units_identified toyCrypto (py "d") toySpec none toyBenchmarks
    toyBenchmarks 0 7
  obtain ⟨-, -, hret'⟩ := units_identified toyCrypto (py "d") toySpec none toyBenchmarks
    toyBenchmarks 7 0
  obtain ⟨units, h⟩ := hret toyBenchmarks_answers
  obtain ⟨units', h'⟩ := hret' toyBenchmarks_answers
  exact ⟨units, units', h, h', hsame units units' h h'⟩

end Units

end IcilOrchestrator

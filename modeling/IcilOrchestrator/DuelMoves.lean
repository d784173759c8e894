import Mathlib
import IcilOrchestrator.DuelRun

/-!
# What a run of a duel does to the disk

A run changes the disk by moves (`Move`), each with what the run has made sure of before : a prompt
is materialized where the manifest has none, a unit is recorded once, and published is what the
manifest and the results say. `Steps` is any number of moves, in a world that anything may change.

`steps_of_reach` is that every run, with every kill and restart, goes by moves. What is claimed of
all runs is then proved of moves.
-/

set_option linter.unusedSectionVars false

namespace IcilOrchestrator

open Python Prog

namespace DuelRun

variable {F : Type} [PyFloat F]

/-! ## Moves -/

/-- The image that a side was prepared with by a deed. -/
def Deed.image (side : Side) : Deed F → Option PyStr
  | .prepared s image => if s = side then some image else none
  | _ => none

/-- The image that a side was last prepared with. -/
def lastPrepared (side : Side) (log : List (Deed F)) : Option PyStr :=
  log.reverse.findSome? (Deed.image side)

/-- A king's forfeit is recorded. -/
def Disk.Forfeited (d : Disk F) : Prop := ∃ reason, d.forfeit = some reason ∧ reason ≠ []

/-- A record that is scored : its unit has a prompt, and was played from it or forfeited. -/
structure Scored (d : Disk F) (side : Side) (r : Record F) (made : Made) : Prop where
  prompt : d.promptOf r.unitId = some ⟨r.unitId, .ok made⟩
  sha : r.promptSha256 = some made.sha256
  how : (∃ image, [.hashed r.unitId (.ok made.sha256), .played side r.unitId image,
      .hashed r.unitId (.ok made.sha256)] <:+ d.log) ∧ ¬(side = .king ∧ d.Forfeited) ∨
    side = .king ∧ d.forfeit.isSome = true ∧ r.success = some false

/-- A record that a side may write : each unit has a prompt, and the king comes after. -/
structure Recordable (D : Duel) (d : Disk F) (side : Side) (r : Record F) : Prop where
  plays : side ∈ D.sides
  prompts : ∀ u ∈ D.units, (d.promptOf u.unitId).isSome = true
  after : side = .king → ∀ u ∈ D.units, (d.recordOf .challenger u.unitId).isSome = true
  unit : r.unitId ∈ D.units.map UnitDef.unitId
  once : ∀ r' ∈ d.results side, r'.unitId ≠ r.unitId
  scored : r.void = false → ∃ made, Scored d side r made

/-- The rows that the journals give. -/
def rowsOf (D : Duel) (d : Disk F) : List (Row F) :=
  D.units.map fun u => rowOf u (d.promptOf u.unitId) (d.recordOf .challenger u.unitId)
    (d.recordOf .king u.unitId)

/-- The units before this one have a prompt. -/
def Covered (D : Duel) (d : Disk F) (unitId : PyStr) : Prop :=
  ∀ pre post, D.units.map UnitDef.unitId = pre ++ unitId :: post →
    ∀ before ∈ pre, (d.promptOf before).isSome = true

/-- An event that says what the journals say. -/
structure Describes (D : Duel) (d : Disk F) (e : Event F) : Prop where
  eq : ∃ prompts forfeit images, e = eventOf D (rowsOf D d) prompts forfeit images ∧
    (∀ reason, forfeit = some reason → d.forfeit = some reason ∧ D.hasKing = true) ∧
    ∀ side ∈ D.sides, images side = lastPrepared side d.log ∧ (images side).isSome = true ∨
      side = .king ∧ images side = none ∧ forfeit.isSome = true
  prompts : ∀ u ∈ D.units, (d.promptOf u.unitId).isSome = true
  records : ∀ side ∈ D.sides, ∀ u ∈ D.units, (d.recordOf side u.unitId).isSome = true
  stands : tooVoid D.maxVoidFraction (rowsOf D d) = false

/-- What a run of a duel does to the disk, in a world; the acts that `meets` is about are done
under it. -/
inductive Move (D : Duel) (meets : Tag → Bench F → Prop) (w : World F) : Disk F → Disk F → Prop
  | prepare {d} (side : Side) (image : PyStr) (hopen : d.line = none)
      (hmeets : meets (.prepares side) ⟨w, d⟩) (himage : w.prepare side = .ok image) :
      Move D meets w d (d.note (.prepared side image))
  | forfeit {d} (reason : PyStr) (hopen : d.line = none) (hreason : reason ≠ [])
      (hmeets : meets .forfeits ⟨w, d⟩) : Move D meets w d (d.forfeits reason)
  | materialize {d} (unitId : PyStr) (hopen : d.line = none) (hnew : d.promptOf unitId = none)
      (hstands : tooVoid D.maxVoidFraction (rowsOf D d) = false) :
      Move D meets w d (d.note (.materialized unitId))
  | prompt {d} (p : Prompt) (hopen : d.line = none)
      (hkept : p.void = true ∨ d.promptOf p.unitId = none) (hbefore : Covered D d p.unitId) :
      Move D meets w d (d.prompt p)
  | hash {d} (unitId : PyStr) (hopen : d.line = none) :
      Move D meets w d (d.note (.hashed unitId (w.file unitId)))
  | play {d} (side : Side) (unitId : PyStr) (image : Option PyStr) (hopen : d.line = none)
      (himage : image = lastPrepared side d.log) (hking : ¬(side = .king ∧ d.Forfeited))
      (hstands : tooVoid D.maxVoidFraction (rowsOf D d) = false)
      (hmeets : meets (.plays side image) ⟨w, d⟩) :
      Move D meets w d (d.note (.played side unitId (w.tags (D.tag side))))
  | record {d} (side : Side) (r : Record F) (hopen : d.line = none)
      (h : Recordable D d side r) : Move D meets w d (d.record side r)
  | publish {d} (e : Event F) (hopen : d.line = none) (h : Describes D d e) :
      Move D meets w d { d with event := some e }
  | line {d} (e : Event F) (hopen : d.line = none) (h : Describes D d e)
      (hevent : d.event = some e) : Move D meets w d { d with line := some e.line }
  | decide {d} (r : DuelResult F) : Move D meets w d { d with outcome := some r }
  | moveAside {d} (hopen : d.line = none) : Move D meets w d d.moveAside

/-- A move, or anything that leaves the disk as it is. -/
def Step (D : Duel) (meets : Tag → Bench F → Prop) (s s' : Bench F) : Prop :=
  s'.disk = s.disk ∨ Move D meets s.world s.disk s'.disk

/-- Any number of steps. -/
def Steps (D : Duel) (meets : Tag → Bench F → Prop) : Bench F → Bench F → Prop :=
  Relation.ReflTransGen (Step D meets)

/-- What every move keeps, all runs keep. -/
theorem Steps.inv {D : Duel} {meets : Tag → Bench F → Prop} {I : Disk F → Prop}
    (hmove : ∀ w d d', I d → Move D meets w d d' → I d') {s s' : Bench F}
    (h : Steps D meets s s') (hs : I s.disk) : I s'.disk := by
  induction h with
  | refl => exact hs
  | tail _ hstep ih =>
    rcases hstep with heq | hmoves
    · exact heq ▸ ih
    · exact hmove _ _ _ ih hmoves

/-! ## Journals -/

section Journals

variable {α : Type} {unitOf : α → PyStr} {xs : List α} {unitId : PyStr}

theorem lastOf_append (x : α) : lastOf unitOf (xs ++ [x]) unitId =
    if unitOf x = unitId then some x else lastOf unitOf xs unitId := by
  rw [lastOf, List.reverse_append, List.reverse_singleton, List.singleton_append, List.find?_cons,
    ← lastOf]
  by_cases h : unitOf x = unitId <;> simp [h]

theorem lastOf_eq_none : lastOf unitOf xs unitId = none ↔ ∀ x ∈ xs, unitOf x ≠ unitId := by
  simp [lastOf]

theorem lastOf_mem {x : α} (h : lastOf unitOf xs unitId = some x) : x ∈ xs ∧ unitOf x = unitId := by
  have hmem := List.mem_of_find?_eq_some h
  have hp := List.find?_some h
  exact ⟨List.mem_reverse.1 hmem, by simpa using hp⟩

theorem find?_eq_some_of_nodup (h : (xs.map unitOf).Nodup) {x : α} (hx : x ∈ xs) :
    xs.find? (fun y => unitOf y = unitOf x) = some x := by
  induction xs with
  | nil => simp at hx
  | cons y ys ih =>
    obtain ⟨hy, hys⟩ := List.nodup_cons.1 h
    rw [List.find?_cons]
    rcases List.mem_cons.1 hx with rfl | hx
    · simp
    · have hne : unitOf y ≠ unitOf x := fun heq => hy (heq ▸ List.mem_map_of_mem hx)
      simpa [hne] using ih hys hx

theorem lastOf_of_nodup (h : (xs.map unitOf).Nodup) {x : α} (hx : x ∈ xs) :
    lastOf unitOf xs (unitOf x) = some x := by
  refine find?_eq_some_of_nodup ?_ (List.mem_reverse.2 hx)
  rw [List.map_reverse]
  exact List.nodup_reverse.2 h

theorem lastPrepared_append (side : Side) (log : List (Deed F)) (deed : Deed F) :
    lastPrepared side (log ++ [deed]) = (deed.image side).or (lastPrepared side log) := by
  rw [lastPrepared, List.reverse_append, List.reverse_singleton, List.singleton_append,
    List.findSome?_cons, ← lastPrepared]
  cases deed.image side <;> rfl

theorem readResults_of_nodup {rs : List (Record F)} (h : (rs.map Record.unitId).Nodup) :
    readResults rs = rs := by
  have hids : (rs.map Record.unitId).reverse.dedup.reverse = rs.map Record.unitId := by
    rw [(List.nodup_reverse.2 h).dedup, List.reverse_reverse]
  rw [readResults, hids, List.filterMap_map]
  have hall : ∀ r ∈ rs, (lastOf Record.unitId rs ∘ Record.unitId) r = some r := fun r hr =>
    lastOf_of_nodup h hr
  rw [List.filterMap_congr hall, List.filterMap_some]

end Journals

/-! ## What the journals hold -/

/-- A side has a record of a unit once, and of the duel's units only. -/
structure Disk.Kept (D : Duel) (d : Disk F) (side : Side) : Prop where
  once : ((d.results side).map Record.unitId).Nodup
  units : ∀ r ∈ d.results side, r.unitId ∈ D.units.map UnitDef.unitId
  plays : d.results side ≠ [] → side ∈ D.sides

variable {D : Duel} {meets : Tag → Bench F → Prop}

theorem results_record (d : Disk F) (side : Side) (r : Record F) : (d.record side r).results =
    Function.update d.results side (d.results side ++ [r]) := rfl

theorem Disk.Kept.record {d : Disk F} (h : ∀ side, d.Kept D side) {side : Side} {r : Record F}
    (hr : Recordable D d side r) (other : Side) : (d.record side r).Kept D other := by
  by_cases hside : other = side
  · subst hside
    have hother : (d.record other r).results other = d.results other ++ [r] := by
      rw [results_record, Function.update_self]
    refine ⟨?_, ?_, fun _ => hr.plays⟩
    · rw [hother, List.map_append, List.nodup_append]
      refine ⟨(h other).once, by simp, ?_⟩
      rintro a ha b hb rfl
      obtain ⟨r', hr', rfl⟩ := List.mem_map.1 ha
      exact hr.once r' hr' (by simpa using hb)
    · rw [hother]
      intro r' hr'
      rcases List.mem_append.1 hr' with hr' | hr'
      · exact (h other).units r' hr'
      · rw [List.mem_singleton.1 hr']
        exact hr.unit
  · have hother : (d.record side r).results other = d.results other := by
      rw [results_record, Function.update_of_ne hside]
    exact ⟨hother ▸ (h other).once, hother ▸ (h other).units, hother ▸ (h other).plays⟩

/-- The journals of a duel that is run from the start. -/
theorem Steps.kept {s s' : Bench F} (h : Steps D meets s s') (hs : s.Fresh) (side : Side) :
    s'.disk.Kept D side := by
  have hfresh : ∀ side, (Disk.fresh : Disk F).Kept D side := fun side =>
    ⟨List.nodup_nil, by simp [Disk.fresh], fun h => absurd rfl h⟩
  refine h.inv (I := fun d => ∀ side, d.Kept D side) (fun w d d' hd hmove side => ?_)
    (fun side => hs ▸ hfresh side) side
  cases hmove with
  | record side' r _ hr => exact Disk.Kept.record hd hr side
  | moveAside => exact ⟨(hfresh side).once, (hfresh side).units, (hfresh side).plays⟩
  | _ => exact ⟨(hd side).once, (hd side).units, (hd side).plays⟩

/-! ## The order of a duel's parts -/

theorem promptOf_prompt (d : Disk F) (p : Prompt) :
    (d.prompt p).promptOf = Function.update d.promptOf p.unitId (some p) := by
  funext unitId
  have happend : (d.prompt p).promptOf unitId =
    if p.unitId = unitId then some p else d.promptOf unitId := lastOf_append p
  rw [happend]
  by_cases h : p.unitId = unitId
  · subst h
    simp
  · rw [if_neg h, Function.update_of_ne fun heq => h heq.symm]

/-- What was found once is found when more is recorded. -/
theorem isSome_recordOf_record {d : Disk F} {side other : Side} {r : Record F} {unitId : PyStr}
    (h : (d.recordOf other unitId).isSome = true) :
    ((d.record side r).recordOf other unitId).isSome = true := by
  rw [Disk.recordOf, results_record]
  by_cases hside : other = side
  · subst hside
    rw [Function.update_self, lastOf_append]
    split_ifs
    · rfl
    · exact h
  · rwa [Function.update_of_ne hside]

theorem isSome_promptOf_prompt {d : Disk F} {p : Prompt} {unitId : PyStr}
    (h : (d.promptOf unitId).isSome = true) : ((d.prompt p).promptOf unitId).isSome = true := by
  rw [promptOf_prompt]
  by_cases heq : unitId = p.unitId
  · rw [heq, Function.update_self]
    rfl
  · rwa [Function.update_of_ne heq]

/-- Prompts come in the order of the units, before any record, and the challenger's records before
the king's. -/
structure Disk.Phased (D : Duel) (d : Disk F) : Prop where
  covered : ∀ unitId, (d.promptOf unitId).isSome = true → Covered D d unitId
  prompts : ∀ side, d.results side ≠ [] → ∀ u ∈ D.units, (d.promptOf u.unitId).isSome = true
  challenger : d.results .king ≠ [] → ∀ u ∈ D.units,
    (d.recordOf .challenger u.unitId).isSome = true

theorem phased_fresh : (Disk.fresh : Disk F).Phased D where
  covered unitId h := by simp [Disk.fresh, Disk.promptOf, lastOf] at h
  prompts side h := absurd rfl h
  challenger h := absurd rfl h

theorem Disk.Phased.move {w : World F} {d d' : Disk F} (h : d.Phased D)
    (hmove : Move D meets w d d') : d'.Phased D := by
  cases hmove with
  | prompt p _ _ hbefore =>
    refine ⟨fun unitId hunit pre post hsplit before hmem => isSome_promptOf_prompt ?_,
      fun side hne u hu => isSome_promptOf_prompt (h.prompts side hne u hu), h.challenger⟩
    by_cases heq : unitId = p.unitId
    · exact hbefore pre post (heq ▸ hsplit) before hmem
    · rw [promptOf_prompt, Function.update_of_ne heq] at hunit
      exact h.covered unitId hunit pre post hsplit before hmem
  | record side r _ hr =>
    refine ⟨h.covered, fun _ _ => hr.prompts, fun hne u hu => isSome_recordOf_record ?_⟩
    by_cases hside : side = .king
    · exact hr.after hside u hu
    · refine h.challenger (fun hnil => hne ?_) u hu
      rw [results_record, Function.update_of_ne (Ne.symm hside)]
      exact hnil
  | moveAside =>
    have hfresh : (Disk.fresh : Disk F).Phased D := phased_fresh
    exact ⟨hfresh.covered, hfresh.prompts, hfresh.challenger⟩
  | _ => exact ⟨h.covered, h.prompts, h.challenger⟩

theorem Steps.phased {s s' : Bench F} (h : Steps D meets s s') (hs : s.Fresh) :
    s'.disk.Phased D :=
  h.inv (fun _ _ _ hd hmove => hd.move hmove) (hs ▸ phased_fresh)

end DuelRun

end IcilOrchestrator

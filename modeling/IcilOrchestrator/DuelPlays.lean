import Mathlib
import IcilOrchestrator.DuelSteps

/-!
# Playing and publishing by moves

A unit that is played is scored only when its prompt's file was found as it was recorded before and
after (`runs_playUnit`). `runs_evaluate` is about a side, whose rows are what its journal says,
`runs_publish` about a duel that stands, and `steps_of_reach` is the whole : every run of a duel
goes by moves, whatever is killed, restarted and changed.
-/

set_option linter.unusedSectionVars false

namespace IcilOrchestrator

open Python Prog

namespace DuelRun

variable {F : Type} [PyFloat F]

variable {D : Duel} {meets : Tag → Bench F → Prop} {s₀ : Bench F} {α β : Type}
  {P : Disk F → Prop} {A : α → Disk F → Prop}

/-! ## Playing -/

section Playing

variable {forfeit : Option PyStr} {images : Images} {side : Side} {m : PyStr → Option Prompt}
  {rs os : List (Record F)} {prompts : List Prompt} {d : Disk F}

/-- What holds while a side plays : its results, the other side's, and the manifest. -/
structure During (D : Duel) (forfeit : Option PyStr) (images : Images) (side : Side)
    (m : PyStr → Option Prompt) (rs os : List (Record F)) (d : Disk F) : Prop where
  playing : Playing D forfeit images d
  manifest : d.promptOf = m
  results : d.results side = rs
  other : d.results side.other = os

theorem During.note (h : During D forfeit images side m rs os d) {deed : Deed F}
    (hdeed : ∀ side, deed.image side = none) :
    During D forfeit images side m rs os (d.note deed) :=
  ⟨h.playing.note hdeed, h.manifest, h.results, h.other⟩

/-- A prompt's file is hashed, and found as it was recorded or not. -/
theorem runs_changed {Q : Disk F → Prop} (hopen : ∀ d, Q d → d.line = none)
    (hnote : ∀ (d : Disk F) unitId file, Q d → Q (d.note (.hashed unitId file))) {p : Prompt}
    {made : Made} (hp : p.made = .ok made) (deeds : List (Deed F)) :
    (frame D meets s₀).Runs (fun d => Q d ∧ deeds <:+ d.log)
      (fun r d => Q d ∧ (r = none → deeds ++ [.hashed p.unitId (.ok made.sha256)] <:+ d.log))
      (changed p) := by
  have hvoid : p.void = false := by rw [Prompt.void, hp]; rfl
  unfold changed
  rw [hvoid]
  refine runs_act fun s _ hs _ => ⟨Or.inr (.hash p.unitId (hopen _ hs.1)), hnote _ _ _ hs.1, ?_⟩
  intro hnone
  have hfile : s.world.file p.unitId = .ok made.sha256 := by
    unfold Prompt.changed at hnone
    rw [hp] at hnone
    cases hfile : s.world.file p.unitId with
    | error exc => simp [hfile] at hnone
    | ok found =>
      by_cases hsha : found = made.sha256
      · rw [hsha]
      · simp [hfile, hsha] at hnone
  rw [← hfile]
  obtain ⟨pre, hpre⟩ := hs.2
  exact ⟨pre, by simp [Disk.note, Bench.on, ← hpre]⟩

/-- What makes an outcome a scored one. -/
def Justified (side : Side) (prompts : List Prompt) (unitId : PyStr) (outcome : Outcome F)
    (d : Disk F) : Prop :=
  outcome.void = false → ∃ made, prompts.find? (·.unitId = unitId) = some ⟨unitId, .ok made⟩ ∧
    ((∃ image, [.hashed unitId (.ok made.sha256), .played side unitId image,
        .hashed unitId (.ok made.sha256)] <:+ d.log) ∧ ¬(side = .king ∧ d.Forfeited) ∨
      side = .king ∧ d.forfeit.isSome = true ∧ outcome.success = some false)

theorem justified_voided (reason : PyStr) (unitId : PyStr) :
    Justified side prompts unitId (voided reason) d := fun h => by simp [voided] at h

/-- While a side plays a unit, the rows that the journals give are not too void. -/
def Stands (D : Duel) (forfeit : Option PyStr) (images : Images) (side : Side)
    (m : PyStr → Option Prompt) (rs os : List (Record F)) : Prop :=
  ∀ d : Disk F, d.Phased D → During D forfeit images side m rs os d →
    tooVoid D.maxVoidFraction (rowsOf D d) = false

theorem runs_playUnit (hs₀ : s₀.Fresh) {voids : PyStr → Option PyStr} (hside : side ∈ D.sides)
    (hstands : Stands D forfeit images side m rs os)
    (hrefusal : (playerOf prompts forfeit images side voids).refusal = none) {p : Prompt}
    {made : Made} (hp : p.made = .ok made)
    (hfind : prompts.find? (·.unitId = p.unitId) = some p) :
    (frame D meets s₀).Runs (During D forfeit images side m rs os)
      (fun outcome d => During D forfeit images side m rs os d ∧
        Justified side prompts p.unitId outcome d)
      (playUnit D (playerOf prompts forfeit images side voids) p made) := by
  have hopen : ∀ d : Disk F, During D forfeit images side m rs os d → d.line = none :=
    fun d h => h.playing.opened
  have hnote : ∀ (d : Disk F) unitId file, During D forfeit images side m rs os d →
      During D forfeit images side m rs os (d.note (.hashed unitId file)) :=
    fun d unitId file h => h.note fun _ => rfl
  have hvoided : ∀ (reason : PyStr) (R : Disk F → Prop),
      (frame D meets s₀).Runs (fun d => During D forfeit images side m rs os d ∧ R d)
        (fun outcome d => During D forfeit images side m rs os d ∧
          Justified side prompts p.unitId outcome d) (pure (voided reason)) :=
    fun reason R => runs_pure fun d h => ⟨h.1, justified_voided reason p.unitId⟩
  -- the side was prepared and is not refused
  have himage : images side ≠ none := by
    intro hnone
    simp [Player.refusal, playerOf, hnone] at hrefusal
  have hrefused : side = .king → forfeit = none := by
    intro hking
    subst hking
    simpa [Player.refusal, playerOf, himage] using hrefusal
  have hnotking : ∀ d : Disk F, During D forfeit images side m rs os d →
      ¬(side = .king ∧ d.Forfeited) := by
    rintro d hd ⟨hking, hforfeited⟩
    refine hd.playing.kept ?_ (hrefused hking) hforfeited
    by_contra hno
    simp [Duel.sides, hno, hking] at hside
  unfold playUnit
  refine Frame.Goes.bind ((runs_changed hopen hnote hp []).from fun d h => ⟨h, List.nil_suffix⟩)
    fun r => ?_
  cases r with
  | some reason => exact hvoided _ _
  | none =>
    refine Frame.Goes.bind (A := fun _ d => During D forfeit images side m rs os d ∧
      ∃ image, [.hashed p.unitId (.ok made.sha256), .played side p.unitId image] <:+ d.log) ?_
      fun outcome => ?_
    · unfold play
      refine runs_act fun s hsteps hs hmeets => ?_
      have hlast : images side = lastPrepared side s.disk.log := by
        rcases hs.1.playing.prepared side hside with h | h
        · exact h.1
        · exact absurd h.2.1 himage
      refine ⟨Or.inr (.play side p.unitId (images side) hs.1.playing.opened hlast
          (hnotking _ hs.1) (hstands _ (hsteps.phased hs₀) hs.1) hmeets),
        hs.1.note fun _ => rfl, s.world.tags (D.tag side), ?_⟩
      obtain ⟨pre, hpre⟩ := hs.2 rfl
      exact ⟨pre, by simp [Disk.note, Bench.on, ← hpre, playerOf]⟩
    · refine Frame.Goes.bind (A := fun r d => During D forfeit images side m rs os d ∧
        (r = none → ∃ image, [.hashed p.unitId (.ok made.sha256), .played side p.unitId image,
          .hashed p.unitId (.ok made.sha256)] <:+ d.log)) ?_ fun r => ?_
      · intro s hinv hs
        obtain ⟨hduring, image, himage'⟩ := hs
        refine ((runs_changed hopen hnote hp _).to fun r d h => ⟨h.1, fun hr => ⟨image, ?_⟩⟩)
          s hinv ⟨hduring, himage'⟩
        exact h.2 hr
      · have hscored : ∀ d : Disk F, During D forfeit images side m rs os d →
            (∃ image, [.hashed p.unitId (.ok made.sha256), .played side p.unitId image,
              .hashed p.unitId (.ok made.sha256)] <:+ d.log) →
            Justified side prompts p.unitId outcome d := by
          intro d hd hlog _
          exact ⟨made, by rw [hfind, ← hp], Or.inl ⟨hlog, hnotking d hd⟩⟩
        cases r with
        | some reason => exact hvoided _ _
        | none =>
          cases hreported : outcome.reported with
          | none => exact runs_pure fun d h => ⟨h.1, hscored d h.1 (h.2 rfl)⟩
          | some found =>
            refine Frame.Goes.ite (fun _ => ?_) fun _ => hvoided _ _
            exact runs_pure fun d h => ⟨h.1, hscored d h.1 (h.2 rfl)⟩

theorem runs_outcomeOf (hs₀ : s₀.Fresh) {voids : PyStr → Option PyStr} (hside : side ∈ D.sides)
    (hstands : Stands D forfeit images side m rs os) {unitId : PyStr} :
    (frame D meets s₀).Runs (During D forfeit images side m rs os)
      (fun outcome d => During D forfeit images side m rs os d ∧
        Justified side prompts unitId outcome d)
      (outcomeOf D (playerOf prompts forfeit images side voids) unitId) := by
  have hvoided : ∀ reason : PyStr, (frame D meets s₀).Runs (During D forfeit images side m rs os)
      (fun outcome d => During D forfeit images side m rs os d ∧
        Justified side prompts unitId outcome d) (pure (voided reason)) :=
    fun reason => runs_pure fun d h => ⟨h, justified_voided reason unitId⟩
  have hprompts : (playerOf prompts forfeit images side voids).prompts = prompts := rfl
  unfold outcomeOf
  rw [hprompts]
  cases hfind : prompts.find? (·.unitId = unitId) with
  | none => exact hvoided _
  | some p =>
    have hunit : p.unitId = unitId := by simpa using List.find?_some hfind
    subst hunit
    simp only
    cases hp : p.made with
    | error error => exact hvoided _
    | ok made =>
      simp only
      cases (playerOf prompts forfeit images side voids).voidUnits p.unitId with
      | some reason => exact hvoided _
      | none =>
        cases hrefusal : (playerOf prompts forfeit images side voids).refusal with
        | some reason =>
          -- only a king's forfeit refuses a side that plays
          refine runs_pure fun d hd => ⟨hd, fun _ => ⟨made, ?_, Or.inr ?_⟩⟩
          · rw [hfind, ← hp]
          · rcases hd.playing.prepared side hside with h | ⟨hking, -, hforfeit⟩
            · have hsome : ¬(playerOf prompts forfeit images side voids).image.isNone = true := by
                simp [playerOf, Option.isSome_iff_ne_none.1 h.2]
              rw [Player.refusal, if_neg hsome] at hrefusal
              have hking : side = .king := by
                by_contra hne
                simp [playerOf, hne] at hrefusal
              have hforfeit : forfeit = some reason := by simpa [playerOf, hking] using hrefusal
              exact ⟨hking, by rw [(hd.playing.recorded reason hforfeit).1]; rfl, rfl⟩
            · obtain ⟨reason', hreason'⟩ := Option.isSome_iff_exists.1 hforfeit
              exact ⟨hking, by rw [(hd.playing.recorded reason' hreason').1]; rfl, rfl⟩
        | none =>
          refine runs_see.bind fun late => Frame.Goes.ite (fun _ => hvoided _) fun _ => ?_
          exact runs_playUnit hs₀ hside hstands hrefusal hp hfind

/-- What a side needs to play : it is one of the duel's, each unit has a prompt, and the king
comes after the challenger. -/
structure Plays (D : Duel) (side : Side) (prompts : List Prompt) (m : PyStr → Option Prompt)
    (os : List (Record F)) : Prop where
  plays : side ∈ D.sides
  prompts : ∀ p ∈ prompts, m p.unitId = some p
  all : ∀ u ∈ D.units, (m u.unitId).isSome = true
  after : side = .king → ∀ u ∈ D.units, (lastOf Record.unitId os u.unitId).isSome = true

/-- What a unit came to is recorded. -/
theorem runs_record {voids : PyStr → Option PyStr} (hplays : Plays D side prompts m os)
    {unitId : PyStr}
    (hunit : unitId ∈ D.units.map UnitDef.unitId) (hnew : ∀ r ∈ rs, r.unitId ≠ unitId)
    {outcome : Outcome F} :
    (frame D meets s₀).Runs
      (fun d => During D forfeit images side m rs os d ∧ Justified side prompts unitId outcome d)
      (fun _ => During D forfeit images side m
        (rs ++ [unitRecord (playerOf prompts forfeit images side voids) unitId outcome]) os)
      (put (·.record side
        (unitRecord (playerOf prompts forfeit images side voids) unitId outcome))) := by
  refine runs_put fun s _ hs => ⟨.record side _ hs.1.playing.opened ?_, ?_⟩
  · refine ⟨hplays.plays, fun u hu => hs.1.manifest ▸ hplays.all u hu, fun hking u hu => ?_, hunit,
      fun r hr => hnew r (hs.1.results ▸ hr), fun hvoid => ?_⟩
    · subst hking
      have hother : s.disk.results .challenger = os := hs.1.other
      rw [Disk.recordOf, hother]
      exact hplays.after rfl u hu
    obtain ⟨made, hfind, hhow⟩ := hs.2 hvoid
    refine ⟨made, ?_, ?_, hhow⟩
    · rw [hs.1.manifest]
      exact hplays.prompts _ (List.mem_of_find?_eq_some hfind)
    · have hprompts : (playerOf prompts forfeit images side voids).prompts = prompts := rfl
      rw [unitRecord, hprompts, hfind]
      rfl
  · have hnote : Playing D forfeit images (s.disk.note (.recorded side
        (unitRecord (playerOf prompts forfeit images side voids) unitId outcome))) :=
      hs.1.playing.note fun _ => rfl
    refine ⟨hnote.next rfl rfl fun _ => rfl, hs.1.manifest, ?_, ?_⟩
    · simp [Disk.record, hs.1.results]
    · have hne : side.other ≠ side := by cases side <;> decide
      simp [Disk.record, Function.update_of_ne hne, hs.1.other]

/-- A row, with what a side made of its unit. -/
def mergeOpt (side : Side) (r : Option (Record F)) (row : Row F) : Row F :=
  r.elim row (row.merge side)

theorem unitId_mergeOpt {r : Option (Record F)} {row : Row F} :
    (mergeOpt side r row).unitId = row.unitId := by
  cases r with
  | none => rfl
  | some r => exact unitId_merge

/-- The rows `g`, with what a side's records say. -/
def mergedRows (D : Duel) (side : Side) (rs : List (Record F)) (g : UnitDef → Row F) :
    List (Row F) :=
  D.units.map fun u => mergeOpt side (lastOf Record.unitId rs u.unitId) (g u)

variable {g : UnitDef → Row F}

/-- One more record is merged. -/
theorem update_mergedRows (hg : ∀ u, (g u).unitId = u.unitId) {r : Record F}
    (hunit : r.unitId ∈ D.units.map UnitDef.unitId) (hnew : ∀ r' ∈ rs, r'.unitId ≠ r.unitId) :
    update r.unitId (·.merge side r) (mergedRows D side rs g) =
      pure (mergedRows D side (rs ++ [r]) g) := by
  obtain ⟨u, hu, heq⟩ := List.mem_map.1 hunit
  rw [← heq]
  refine (update_map (g := fun u => mergeOpt side (lastOf Record.unitId rs u.unitId) (g u))
    (fun u => unitId_mergeOpt.trans (hg u)) _ hu).trans
      (congrArg pure (List.map_congr_left fun v _ => ?_))
  rw [lastOf_append, ← heq]
  by_cases hv : v.unitId = u.unitId
  · have hnone : lastOf Record.unitId rs v.unitId = none :=
      lastOf_eq_none.2 fun r' hr' => by rw [hv, heq]; exact hnew r' hr'
    rw [if_pos hv, if_pos hv.symm, hnone]
    rfl
  · rw [if_neg hv, if_neg fun h => hv h.symm]

theorem mergeAll_mergedRows (hg : ∀ u, (g u).unitId = u.unitId) (rs pre : List (Record F))
    (hnodup : ((pre ++ rs).map Record.unitId).Nodup)
    (hunits : ∀ r ∈ rs, r.unitId ∈ D.units.map UnitDef.unitId) :
    mergeAll side rs (mergedRows D side pre g) = pure (mergedRows D side (pre ++ rs) g) := by
  induction rs generalizing pre with
  | nil =>
    rw [List.append_nil]
    rfl
  | cons r rs ih =>
    have hnew : ∀ r' ∈ pre, r'.unitId ≠ r.unitId := fun r' hr' heq => by
      rw [List.map_append, List.map_cons, List.nodup_append] at hnodup
      exact hnodup.2.2 _ (List.mem_map_of_mem hr') _ List.mem_cons_self heq
    have hsplit : pre ++ r :: rs = (pre ++ [r]) ++ rs := by simp
    rw [hsplit] at hnodup ⊢
    rw [mergeAll, update_mergedRows hg (hunits r List.mem_cons_self) hnew]
    exact ih (pre ++ [r]) hnodup fun r' hr' => hunits r' (List.mem_cons_of_mem _ hr')

/-- What a side leaves : its rows are what its records say, of all units unless the loop halts. -/
def Merged (D : Duel) (halts : List (Row F) → Bool) (forfeit : Option PyStr) (images : Images)
    (side : Side) (m : PyStr → Option Prompt) (os : List (Record F)) (g : UnitDef → Row F)
    (rows : List (Row F)) (d : Disk F) : Prop :=
  ∃ rs, (rows = mergedRows D side rs g ∧ (halts rows = true ∨
    ∀ u ∈ D.units, (lastOf Record.unitId rs u.unitId).isSome = true)) ∧
      During D forfeit images side m rs os d

/-- While a unit has no record, the rows that the journals give are a side's, merged. -/
def Shows (D : Duel) (side : Side) (m : PyStr → Option Prompt) (os : List (Record F))
    (g : UnitDef → Row F) : Prop :=
  ∀ (rs : List (Record F)) (d : Disk F), d.Phased D → d.promptOf = m → d.results side = rs →
    d.results side.other = os → (∃ u ∈ D.units, ∀ r ∈ rs, r.unitId ≠ u.unitId) →
      rowsOf D d = mergedRows D side rs g

/-- The rows of a side's units, up to where the loop halts. -/
theorem runs_runSide (hs₀ : s₀.Fresh) {halts : List (Row F) → Bool}
    (hhalts : ∀ rows, halts rows = false → tooVoid D.maxVoidFraction rows = false)
    {voids : PyStr → Option PyStr} {done : List (Record F)} (hplays : Plays D side prompts m os)
    (hg : ∀ u, (g u).unitId = u.unitId) (hshows : Shows D side m os g) (us pre : List UnitDef)
    (hus : D.units = pre ++ us) (rs : List (Record F))
    (hpre : ∀ u ∈ pre, (lastOf Record.unitId rs u.unitId).isSome = true)
    (hdone : ∀ u ∈ us, (∃ r ∈ rs, r.unitId = u.unitId) ↔
      done.any (·.unitId = u.unitId) = true) :
    (frame D meets s₀).Runs (During D forfeit images side m rs os)
      (Merged D halts forfeit images side m os g)
      (runSide D halts (playerOf prompts forfeit images side voids) done us
        (mergedRows D side rs g)) := by
  induction us generalizing pre rs with
  | nil =>
    refine runs_pure fun d hd => ⟨rs, ⟨rfl, Or.inr fun u hu => hpre u ?_⟩, hd⟩
    rwa [hus, List.append_nil] at hu
  | cons u us ih =>
    have hus' : D.units = (pre ++ [u]) ++ us := by simpa using hus
    have hmem : u ∈ D.units := hus ▸ by simp
    unfold runSide
    refine Frame.Goes.ite (fun hin => ?_) fun hout =>
      Frame.Goes.ite (fun hhalt => ?_) fun hgoes => ?_
    · obtain ⟨r, hr, hru⟩ := (hdone u List.mem_cons_self).2 hin
      refine ih (pre ++ [u]) hus' rs (fun v hv => ?_) fun v hv =>
        hdone v (List.mem_cons_of_mem _ hv)
      rcases List.mem_append.1 hv with hv | hv
      · exact hpre v hv
      · rw [List.mem_singleton.1 hv, Option.isSome_iff_ne_none, ne_eq, lastOf_eq_none]
        exact fun h => h r hr hru
    · exact runs_pure fun d hd => ⟨rs, ⟨rfl, Or.inl hhalt⟩, hd⟩
    · have hnew : ∀ r ∈ rs, r.unitId ≠ u.unitId := fun r hr heq =>
        hout ((hdone u List.mem_cons_self).1 ⟨r, hr, heq⟩)
      have hstands : Stands D forfeit images side m rs os := fun d hd hduring => by
        rw [hshows rs d hd hduring.manifest hduring.results hduring.other ⟨u, hmem, hnew⟩]
        exact hhalts _ (by simpa using hgoes)
      refine (runs_outcomeOf hs₀ hplays.plays hstands).bind fun outcome => ?_
      have hr : ∀ r : Record F,
          r = unitRecord (playerOf prompts forfeit images side voids) u.unitId outcome →
          (frame D meets s₀).Runs (During D forfeit images side m (rs ++ [r]) os)
            (Merged D halts forfeit images side m os g)
            (update u.unitId (·.merge side r) (mergedRows D side rs g) >>= fun rows =>
              runSide D halts (playerOf prompts forfeit images side voids) done us rows) := by
        rintro r hr
        have hru : r.unitId = u.unitId := by rw [hr]; rfl
        rw [← hru]
        rw [update_mergedRows hg (hru ▸ List.mem_map_of_mem hmem) (hru ▸ hnew)]
        refine ih (pre ++ [u]) hus' (rs ++ [r]) (fun v hv => ?_) fun v hv => ?_
        · rw [lastOf_append]
          split_ifs with heq
          · rfl
          · refine hpre v ((List.mem_append.1 hv).resolve_right fun h => heq ?_)
            rw [hru, List.mem_singleton.1 h]
        · have hne : r.unitId ≠ v.unitId := by
            have hdistinct := D.distinct
            rw [hus, List.map_append, List.map_cons, List.nodup_append] at hdistinct
            intro heq
            refine (List.nodup_cons.1 hdistinct.2.1).1 ?_
            rw [← hru, heq]
            exact List.mem_map_of_mem hv
          rw [← hdone v (List.mem_cons_of_mem _ hv)]
          simp [hne]
      exact (runs_record hplays (List.mem_map_of_mem hmem) hnew).bind fun _ => hr _ rfl

/-- `_evaluate` : the rows, with what the side's journal then says. -/
theorem runs_evaluate {halts : List (Row F) → Bool}
    (hhalts : ∀ rows, halts rows = false → tooVoid D.maxVoidFraction rows = false)
    (hs₀ : s₀.Fresh) (hplays : Plays D side prompts m os) (hg : ∀ u, (g u).unitId = u.unitId)
    (hshows : Shows D side m os g) :
    (frame D meets s₀).Runs (During D forfeit images side m rs os)
      (Merged D halts forfeit images side m os g)
      (evaluate D halts prompts forfeit images side (D.units.map g)) := by
  have hmap : D.units.map g = mergedRows D side [] g := rfl
  unfold evaluate
  refine Frame.Goes.bind (A := fun found d => (found = rs ∧ (rs.map Record.unitId).Nodup ∧
    ∀ r ∈ rs, r.unitId ∈ D.units.map UnitDef.unitId) ∧
      During D forfeit images side m rs os d) (runs_look fun s hs hd => ?_) fun found =>
        Frame.Goes.assume fun ⟨hfound, hnodup, hunits⟩ => ?_
  · have hkept := hs.kept hs₀ side
    rw [← hd.results]
    exact ⟨⟨readResults_of_nodup hkept.once, hkept.once, hkept.units⟩, by rw [hd.results]; exact hd⟩
  · rw [hfound, hmap, mergeAll_mergedRows hg rs [] hnodup hunits]
    refine runs_see.bind fun others => ?_
    refine Frame.Goes.bind (A := fun done d => done = rs ∧ During D forfeit images side m rs os d)
      (runs_look fun s _ hd => ?_) fun done => Frame.Goes.assume fun hdone => ?_
    · rw [hd.results]
      exact ⟨readResults_of_nodup hnodup, hd⟩
    · exact runs_runSide hs₀ hhalts hplays hg hshows D.units [] rfl rs (by simp) fun u _ => by
        simp [hdone]

theorem During.flip (h : During D forfeit images side m rs os d) :
    During D forfeit images side.other m os rs d :=
  ⟨h.playing, h.manifest, h.other, by
    have : side.other.other = side := by cases side <;> rfl
    rw [this, h.results]⟩

theorem runs_decided {r : DuelResult F} :
    (frame D meets s₀).Runs P (fun _ _ => True) (decided r) :=
  runs_act fun _ _ _ _ => ⟨Or.inr (.decide r), trivial⟩

/-- What holds when all units are played, and the duel stands. -/
structure Played (D : Duel) (halts : List (Row F) → Bool) (forfeit : Option PyStr)
    (images : Images) (rows : List (Row F)) (d : Disk F) : Prop where
  playing : Playing D forfeit images d
  eq : rows = rowsOf D d
  stands : halts rows = false
  records : ∀ side ∈ D.sides, ∀ u ∈ D.units, (d.recordOf side u.unitId).isSome = true

/-- The king has no record until the challenger has one of every unit. -/
theorem shows_challenger : Shows D .challenger m os fun u => rowOf u (m u.unitId) none none := by
  rintro rs d hd rfl hrs hos ⟨u, hu, hnew⟩
  have hnil : d.results .king = [] := by
    by_contra hne
    have hsome := hd.challenger hne u hu
    rw [Disk.recordOf, hrs, lastOf_eq_none.2 hnew] at hsome
    simp at hsome
  simp only [rowsOf, mergedRows, Disk.recordOf, hrs, hnil]
  rfl

theorem shows_king : Shows D .king m os fun u =>
    rowOf u (m u.unitId) (lastOf Record.unitId os u.unitId) none := by
  rintro rs d hd rfl hrs hos -
  have hother : d.results .challenger = os := hos
  simp only [rowsOf, mergedRows, Disk.recordOf, hrs, hother]
  rfl

/-- Both sides' units are played, or the duel is void. -/
theorem runs_evaluateAll {halts : List (Row F) → Bool}
    (hhalts : ∀ rows, halts rows = false → tooVoid D.maxVoidFraction rows = false)
    (hs₀ : s₀.Fresh) (hprompts : ∀ p ∈ prompts, m p.unitId = some p)
    (hall : ∀ u ∈ D.units, (m u.unitId).isSome = true) :
    (frame D meets s₀).Runs (fun d => Playing D forfeit images d ∧ d.promptOf = m)
      (fun out d => out.1.isSome = true ∨
        Played D halts forfeit images out.2 d ∧ d.promptOf = m)
      (evaluateAll D halts prompts forfeit images D.sides
        (D.units.map fun u => rowOf u (m u.unitId) none none)) := by
  have hchallenger : Side.challenger ∈ D.sides := by
    rw [Duel.sides]
    split_ifs <;> simp
  have hvoid : ∀ (P : Disk F → Prop) (reason : PyStr) (rows : List (Row F)),
      (frame D meets s₀).Runs P (fun out d => out.1.isSome = true ∨
          Played D halts forfeit images out.2 d ∧ d.promptOf = m)
        (do let result ← void rows reason; pure (some result, rows)) := fun P reason rows =>
    runs_decided.bind fun r => runs_pure fun _ _ => Or.inl rfl
  have hduring : (frame D meets s₀).Runs (fun d => ∃ rs os,
      During D forfeit images .challenger m rs os d)
      (fun out d => out.1.isSome = true ∨ Played D halts forfeit images out.2 d ∧ d.promptOf = m)
      (evaluateAll D halts prompts forfeit images D.sides
        (D.units.map fun u => rowOf u (m u.unitId) none none)) := by
    refine Frame.Goes.exist fun rs => Frame.Goes.exist fun os => ?_
    let g : UnitDef → Row F := fun u => rowOf u (m u.unitId) none none
    have hfirst : (frame D meets s₀).Runs (During D forfeit images .challenger m rs os)
        (Merged D halts forfeit images .challenger m os g)
        (evaluate D halts prompts forfeit images .challenger (D.units.map g)) :=
      runs_evaluate hhalts hs₀ ⟨hchallenger, hprompts, hall, by simp⟩ (fun _ => unitId_rowOf _ _ _)
        shows_challenger
    cases hking : D.hasKing with
    | false =>
      have hsides : D.sides = [.challenger] := by rw [Duel.sides, hking]; rfl
      -- the king of a genesis has no records
      refine Frame.Goes.known (φ := os = []) (fun s hs hd => ?_) fun hos => ?_
      · by_contra hne
        have hother : s.disk.results .king = os := hd.other
        have hmem := (Steps.kept hs hs₀ .king).plays (hother ▸ hne)
        simp [hsides] at hmem
      rw [hsides]
      unfold evaluateAll
      refine hfirst.bind fun rows => Frame.Goes.exist fun rs' =>
        Frame.Goes.assume fun hrs => ?_
      obtain ⟨hrows, hdone⟩ := hrs
      refine Frame.Goes.ite (fun _ => hvoid _ _ _) fun hstands => ?_
      unfold evaluateAll
      refine runs_pure fun d hd =>
        Or.inr ⟨⟨hd.playing, ?_, by simpa using hstands, ?_⟩, hd.manifest⟩
      · have hother : d.results .king = [] := hd.other.trans hos
        rw [hrows, rowsOf, mergedRows, hd.manifest]
        simp only [Disk.recordOf, hd.results, hother]
        rfl
      · intro side hside
        rw [hsides, List.mem_singleton] at hside
        subst hside
        rw [Disk.recordOf, hd.results]
        exact hdone.resolve_left hstands
    | true =>
      have hsides : D.sides = [.challenger, .king] := by rw [Duel.sides, hking]; rfl
      rw [hsides]
      unfold evaluateAll
      refine hfirst.bind fun rows => Frame.Goes.exist fun rs' =>
        Frame.Goes.assume fun hrs => ?_
      obtain ⟨hrows, hdone⟩ := hrs
      refine Frame.Goes.ite (fun _ => hvoid _ _ _) fun hstands => ?_
      have hnext : rows = D.units.map fun u =>
        rowOf u (m u.unitId) (lastOf Record.unitId rs' u.unitId) none := hrows
      have hplays : Side.king ∈ D.sides := by simp [hsides]
      let h : UnitDef → Row F := fun u =>
        rowOf u (m u.unitId) (lastOf Record.unitId rs' u.unitId) none
      have hsecond : (frame D meets s₀).Runs (During D forfeit images .king m os rs')
          (Merged D halts forfeit images .king m rs' h)
          (evaluate D halts prompts forfeit images .king (D.units.map h)) :=
        runs_evaluate hhalts hs₀ ⟨hplays, hprompts, hall, fun _ => hdone.resolve_left hstands⟩
          (fun _ => unitId_rowOf _ _ _) shows_king
      rw [hnext]
      unfold evaluateAll
      refine (hsecond.from fun d hd => hd.flip).bind fun rows => Frame.Goes.exist fun ks =>
        Frame.Goes.assume fun hks => ?_
      obtain ⟨hrows', hdone'⟩ := hks
      refine Frame.Goes.ite (fun _ => hvoid _ _ _) fun hstands' => ?_
      unfold evaluateAll
      refine runs_pure fun d hd => Or.inr ⟨⟨hd.playing, ?_, by simpa using hstands', ?_⟩,
        hd.manifest⟩
      · have hother : d.results .challenger = rs' := hd.other
        rw [hrows', rowsOf, mergedRows, hd.manifest]
        simp only [Disk.recordOf, hd.results, hother]
        rfl
      · intro side hside
        cases side with
        | challenger =>
          rw [Disk.recordOf, show d.results .challenger = rs' from hd.other]
          exact hdone.resolve_left hstands
        | king =>
          rw [Disk.recordOf, hd.results]
          exact hdone'.resolve_left hstands'
  exact hduring.from fun d hd => ⟨_, _, hd.1, hd.2, rfl, rfl⟩

end Playing

/-! ## The whole run -/

section

variable {forfeit : Option PyStr} {images : Images} {m : PyStr → Option Prompt}

/-- The crown is where it was, or the run is moved aside. -/
theorem runs_checkCrown (hopen : ∀ d, P d → d.line = none) :
    (frame D meets s₀).Runs P (fun _ => P) checkCrown := by
  unfold checkCrown
  refine runs_see.bind fun holds => Frame.Goes.ite (fun _ => runs_pure fun _ hp => hp) fun _ => ?_
  have hmove : (frame D meets s₀).Runs P (fun _ _ => True) (put Disk.moveAside) :=
    runs_put fun s _ hp => ⟨.moveAside (hopen _ hp), trivial⟩
  exact hmove.bind fun _ => runs_raise _

/-- A duel that stands is published, by what its journals say. -/
theorem runs_publish {rows : List (Row F)} {prompts : List Prompt}
    (hprompts : ∀ u ∈ D.units, (m u.unitId).isSome = true) :
    (frame D meets s₀).Runs
      (fun d => Played D (tooVoid D.maxVoidFraction) forfeit images rows d ∧ d.promptOf = m)
      (fun _ _ => True) (publish D rows prompts forfeit images) := by
  have hdescribes : ∀ d : Disk F,
      Played D (tooVoid D.maxVoidFraction) forfeit images rows d ∧ d.promptOf = m →
        Describes D d (eventOf D rows prompts forfeit images) := by
    rintro d ⟨hd, hm⟩
    refine ⟨⟨prompts, forfeit, images, by rw [hd.eq], hd.playing.recorded, hd.playing.prepared⟩,
      fun u hu => hm ▸ hprompts u hu, hd.records, ?_⟩
    rw [← hd.eq]
    exact hd.stands
  unfold publish
  refine Frame.Goes.bind (A := fun line d => line = none ∧
    Played D (tooVoid D.maxVoidFraction) forfeit images rows d ∧ d.promptOf = m)
    (runs_look fun s _ hd => ⟨hd.1.playing.opened, hd⟩) fun line =>
      Frame.Goes.assume fun hline => ?_
  subst hline
  refine (runs_checkCrown fun d hd => hd.1.playing.opened).bind fun _ => ?_
  refine Frame.Goes.bind (A := fun _ d => d.line = none ∧
    d.event = some (eventOf D rows prompts forfeit images) ∧
      Describes D d (eventOf D rows prompts forfeit images)) (runs_put fun s _ hd => ?_) fun _ => ?_
  · have h := hdescribes _ hd
    exact ⟨.publish _ hd.1.playing.opened h, hd.1.playing.opened, rfl, h.eq, h.prompts, h.records,
      h.stands⟩
  · refine Frame.Goes.bind (A := fun _ _ => True)
      (runs_put fun s _ hd => ⟨.line _ hd.1 hd.2.2 hd.2.1, trivial⟩) fun _ => runs_decided

/-- What comes once the sides are prepared. -/
theorem runs_materializeAndPlay (hs₀ : s₀.Fresh) :
    (frame D meets s₀).Runs (Playing D forfeit images) (fun _ _ => True)
      (materializeAndPlay D (tooVoid D.maxVoidFraction) forfeit images) := by
  have hunit : ∀ (d : Disk F) unitId p, d.promptOf unitId = some p → p.unitId = unitId :=
    fun d unitId p h => (lastOf_mem h).2
  have hstart : (D.units.map Row.ofUnit : List (Row F)) = rowsP D [] :=
    List.map_congr_left fun u _ => rfl
  unfold materializeAndPlay
  refine Frame.Goes.bind (A := fun done d => (∃ d' : Disk F, done = d'.promptOf) ∧
    Playing D forfeit images d ∧ d.promptOf = done) (runs_look fun s _ hd => ⟨⟨_, rfl⟩, hd, rfl⟩)
    fun done => Frame.Goes.assume fun ⟨d', hdone⟩ => ?_
  rw [hstart]
  refine (runs_materialize hs₀ (fun _ h => h) (hdone ▸ hunit d') D.units [] rfl [] rfl done
    (by simp) fun _ _ => rfl).bind fun out => ?_
  obtain ⟨prompts, rows⟩ := out
  refine Frame.Goes.ite (fun _ => runs_decided) fun hstands => ?_
  refine Frame.Goes.from (P := fun d => ∃ m, (rows = rowsP D prompts ∧
      (∀ p ∈ prompts, m p.unitId = some p) ∧
        prompts.map Prompt.unitId = D.units.map UnitDef.unitId) ∧
      Playing D forfeit images d ∧ d.promptOf = m) (Frame.Goes.exist fun m =>
        Frame.Goes.assume fun ⟨hrows, hm, hall⟩ => ?_)
    fun d hd => ⟨d.promptOf, ⟨hd.2.1, hd.2.2.1, hd.2.2.2.resolve_left hstands⟩, hd.1, rfl⟩
  -- the prompts are the manifest's, as each unit has one
  have hfind : ∀ u ∈ D.units, ∃ p, prompts.find? (·.unitId = u.unitId) = some p ∧
      m u.unitId = some p := by
    intro u hu
    have hmem : u.unitId ∈ prompts.map Prompt.unitId := hall ▸ List.mem_map_of_mem hu
    obtain ⟨q, hq, hqu⟩ := List.mem_map.1 hmem
    cases hfound : prompts.find? (·.unitId = u.unitId) with
    | none => exact absurd hqu (by simpa using List.find?_eq_none.1 hfound q hq)
    | some p =>
      have hp := hm p (List.mem_of_find?_eq_some hfound)
      have hpu : p.unitId = u.unitId := by simpa using List.find?_some hfound
      exact ⟨p, rfl, hpu ▸ hp⟩
  have hrows' : rows = D.units.map fun u => rowOf u (m u.unitId) none none := by
    rw [hrows]
    refine List.map_congr_left fun u hu => ?_
    obtain ⟨p, hp, hmp⟩ := hfind u hu
    rw [hp, hmp]
  rw [hrows']
  have hsome : ∀ u ∈ D.units, (m u.unitId).isSome = true := by
    intro u hu
    obtain ⟨p, -, hmp⟩ := hfind u hu
    rw [hmp]
    rfl
  refine (runs_evaluateAll (fun _ h => h) hs₀ hm hsome).bind fun out => ?_
  obtain ⟨result, rows''⟩ := out
  cases result with
  | some result => exact runs_pure fun _ _ => trivial
  | none =>
    exact (runs_publish hsome).from fun d hd => hd.resolve_left (by simp)

/-- The sides are prepared or refused, and a king's forfeit is recorded. -/
theorem runs_prepareAll {next : Option PyStr → Images → RProg F (DuelResult F)}
    (hnext : ∀ forfeit images, (frame D meets s₀).Runs (Playing D forfeit images)
      (fun _ _ => True) (next forfeit images)) :
    (frame D meets s₀).Runs (fun d => d.line = none) (fun _ _ => True) (prepareAll D next) := by
  have hnodup : ([] ++ D.sides).Nodup := by
    rw [List.nil_append, Duel.sides]
    split_ifs <;> decide
  have hsides : ∀ side ∈ D.sides, side = .king → D.hasKing = true := by
    rintro side hside rfl
    by_contra hno
    simp [Duel.sides, hno] at hside
  unfold prepareAll
  refine Frame.Goes.from (P := fun d => ∃ forfeit, Opened forfeit d)
    (Frame.Goes.exist fun forfeit => ?_) fun d hd => ⟨d.forfeit, hd, rfl⟩
  refine Frame.Goes.bind (A := fun recorded d =>
    (recorded .king = (if D.hasKing then forfeit.filter (· ≠ []) else none) ∧
      recorded .challenger = none) ∧ Opened forfeit d)
    (runs_look fun s _ hd => ⟨⟨by rw [recordedForfeit, hd.2], rfl⟩, hd⟩) fun recorded =>
      Frame.Goes.assume fun ⟨hking, hchallenger⟩ => ?_
  have htexts : Texts recorded := by
    intro side reason h
    cases side with
    | challenger => simp [hchallenger] at h
    | king =>
      rw [hking] at h
      split_ifs at h
      simpa using (Option.filter_eq_some_iff.1 h).2
  refine (runs_fetchAll D.sides recorded []).bind fun out => ?_
  obtain ⟨refused, fetched⟩ := out
  refine Frame.Goes.from (P := fun d => Fetched D.sides recorded [] (refused, fetched) ∧
    Opened forfeit d) (Frame.Goes.assume fun hfetched => ?_) fun d hd => ⟨hd.2, hd.1⟩
  have hcheck : (frame D meets s₀).Runs
      (fun d => Opened forfeit d ∧ Checked [] refused (fun _ => none) d)
      (fun out d => (Opened forfeit d ∧ ((out.1 .challenger).isSome = true ∨
        Checked ([] ++ D.sides) out.1 out.2 d)) ∧ Ready D.sides refused out)
      (checkAll D fetched D.sides refused fun _ => none) :=
    runs_checkAll D.sides [] hnodup refused _ (fun _ _ => rfl) hfetched.all
  refine (hcheck.from fun d hd => ⟨hd, by simp [Checked]⟩).bind fun out => ?_
  obtain ⟨refused', images⟩ := out
  refine Frame.Goes.from (P := fun (d : Disk F) => Ready D.sides refused (refused', images) ∧
    Opened forfeit d ∧ ((refused' .challenger).isSome = true ∨ Checked D.sides refused' images d))
    (Frame.Goes.assume fun hready => ?_) fun d hd => ⟨hd.2, hd.1.1, hd.1.2⟩
  -- a forfeit that was recorded before is kept
  have hkept : D.hasKing = true → ∀ d : Disk F, Opened forfeit d → d.Forfeited →
      (refused' .king).isSome = true := by
    rintro hhas d hd ⟨reason, hreason, hne⟩
    refine hready.grows _ (hfetched.grows _ ?_)
    rw [hking, if_pos hhas, ← hd.2, hreason]
    simp [hne]
  cases hc : refused' .challenger with
  | some why =>
    simp only [hc]
    exact runs_decided
  | none =>
    have hprepared : ∀ d : Disk F, (refused' .challenger).isSome = true ∨
        Checked D.sides refused' images d → ∀ side ∈ D.sides,
          images side = lastPrepared side d.log ∧ (images side).isSome = true ∨
            side = .king ∧ images side = none ∧ (refused' .king).isSome = true := by
      intro d hd side hside
      rcases hd.resolve_left (by simp [hc]) side hside with h | h
      · exact Or.inl h
      · cases side with
        | challenger => simp [hc] at h
        | king => exact Or.inr ⟨rfl, h⟩
    cases hk : refused' .king with
    | none =>
      simp only [hc, hk]
      refine (hnext none images).from fun d hd => ⟨hd.1.1, fun side hside => ?_, by simp, ?_⟩
      · exact (hprepared d (by rw [hc]; exact hd.2) side hside).imp_right fun h => by simp [hk] at h
      · intro hhas _ hforfeited
        simpa [hk] using hkept hhas d hd.1 hforfeited
    | some reason =>
      have hhas : D.hasKing = true := by
        by_contra hno
        have hrest : Side.king ∉ D.sides := fun h => hno (hsides _ h rfl)
        have hsame : refused' .king = recorded .king :=
          (hready.rest _ hrest).trans (hfetched.rest _ hrest)
        rw [hsame, hking, if_neg hno] at hk
        simp at hk
      have hreason : reason ≠ [] := hready.texts (hfetched.texts htexts) .king reason hk
      simp only [hc, hk]
      refine Frame.Goes.bind (A := fun _ d => Playing D (some reason) images d)
        (runs_act fun s _ hd hmeets => ⟨Or.inr (.forfeit reason hd.1.1 hreason hmeets), ?_⟩)
        fun _ => hnext (some reason) images
      have hlog : ∀ side, lastPrepared side (s.disk.forfeits reason).log =
          lastPrepared side s.disk.log := fun side =>
        (lastPrepared_append side s.disk.log (.forfeited reason)).trans (Option.none_or ..)
      have hplaying : Playing D (some reason) images (s.disk.forfeits reason) := by
        refine ⟨hd.1.1, fun side hside => ?_, ?_, by simp⟩
        · rw [hlog]
          exact (hprepared s.disk (by rw [hc]; exact hd.2) side hside).imp_right fun h =>
            ⟨h.1, h.2.1, rfl⟩
        · rintro reason' ⟨⟩
          exact ⟨rfl, hhas⟩
      exact hplaying

/-- `run` goes by moves. -/
theorem runs_run (hs₀ : s₀.Fresh) :
    (frame D meets s₀).Runs (fun _ => True) (fun _ _ => True) (run D) := by
  unfold run
  refine runs_see.bind fun outcome => ?_
  cases outcome with
  | some result => exact runs_pure fun _ _ => trivial
  | none =>
    refine Frame.Goes.bind (A := fun line d => d.line = line) (runs_look fun s _ _ => rfl)
      fun line => ?_
    cases line with
    | some line => exact runs_see.bind fun event => runs_decided
    | none =>
      refine (runs_checkCrown fun _ hd => hd).bind fun _ => ?_
      exact runs_prepareAll fun forfeit images => runs_materializeAndPlay hs₀

/-- Every run of a duel goes by moves, whatever is killed, restarted and changed. -/
theorem steps_of_reach (hs₀ : s₀.Fresh) {c : System.Conf (Bench F) Tag Raised (DuelResult F) Unit}
    (h : (system D).Reach (others meets) s₀ c) : Steps D meets s₀ c.state :=
  Frame.inv_of_reach (Φ := frame D meets s₀) (J := fun _ => True)
    (fun _ _ _ => (runs_run hs₀).weaken (fun _ h => h) (fun _ _ h => h) fun _ _ h => h)
    (fun _ hinv _ => ⟨hinv, trivial⟩) .refl trivial h

end

end DuelRun

end IcilOrchestrator

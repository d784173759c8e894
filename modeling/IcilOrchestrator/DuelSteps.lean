import Mathlib
import IcilOrchestrator.DuelMoves

/-!
# Preparing and materializing by moves

Each part of a run is described by what it needs of the disk and what it leaves of it, in a world
that anything may change between its acts, and every act is shown to be a move. `runs_fetchAll` and
`runs_checkAll` are about the submissions, and `runs_materialize` is about the prompts.
-/

set_option linter.unusedSectionVars false

namespace IcilOrchestrator

open Python Prog

namespace DuelRun

variable {F : Type} [PyFloat F]

/-- What the runs of a duel keep, from a duel that was not run yet. -/
def frame (D : Duel) (meets : Tag → Bench F → Prop) (s₀ : Bench F) :
    Frame (Bench F) Tag (Disk F) where
  env := others meets
  core := Bench.disk
  inv := Steps D meets s₀
  core_eq h := h
  inv_rely h hs := hs.tail (Or.inl h)

variable {D : Duel} {meets : Tag → Bench F → Prop} {s₀ : Bench F} {α β : Type}
  {P : Disk F → Prop} {A : α → Disk F → Prop}

/-! ## Rules -/

theorem runs_act {t : Tag} {f : Bench F → Bench F} {g : Bench F → α}
    (hact : ∀ s, Steps D meets s₀ s → P s.disk → meets t s →
      Step D meets s (f s) ∧ A (g s) (f s).disk) :
    (frame D meets s₀).Runs P A (act t f g) := by
  refine Frame.goes_fallible (fun s hs hp ht => ?_) fun _ _ _ _ _ _ => trivial
  obtain ⟨hstep, hA⟩ := hact s hs hp ht
  exact ⟨Relation.ReflTransGen.tail hs hstep, hA⟩

theorem runs_look {g : Bench F → α} (hlook : ∀ s, Steps D meets s₀ s → P s.disk → A (g s) s.disk) :
    (frame D meets s₀).Runs P A (look g) :=
  runs_act fun s hs hp _ => ⟨Or.inl rfl, hlook s hs hp⟩

/-- A look that nothing is to be learnt of. -/
theorem runs_see {g : Bench F → α} : (frame D meets s₀).Runs P (fun _ => P) (look g) :=
  runs_look fun _ _ hp => hp

theorem runs_put {f : Disk F → Disk F} {A : Unit → Disk F → Prop}
    (hput : ∀ s, Steps D meets s₀ s → P s.disk →
      Move D meets s.world s.disk (f s.disk) ∧ A () (f s.disk)) :
    (frame D meets s₀).Runs P A (put f) :=
  runs_act fun s hs hp _ => ⟨Or.inr (hput s hs hp).1, (hput s hs hp).2⟩

theorem runs_pure {a : α} (h : ∀ d, P d → A a d) :
    (frame D meets s₀).Runs P A (pure a : RProg F α) :=
  Frame.goes_ret h

theorem runs_raise (e : Raised) : (frame D meets s₀).Runs P A (raise e) := Frame.runs_raise e

/-- A row of a unit is changed. -/
theorem update_map {g : UnitDef → Row F} (hg : ∀ u, (g u).unitId = u.unitId) (f : Row F → Row F)
    {u : UnitDef} (hu : u ∈ D.units) : update u.unitId f (D.units.map g) =
      pure (D.units.map fun v => if v.unitId = u.unitId then f (g v) else g v) := by
  unfold update
  rw [onRow_map D.distinct hg f hu]

/-! ## Fetching and preparing -/

/-- Whoever is refused is told why. -/
def Texts (refused : Refused) : Prop := ∀ side reason, refused side = some reason → reason ≠ []

theorem refusedText_ne_nil (step reason : PyStr) : refusedText step reason ≠ [] := by
  simp [refusedText, py]

theorem Texts.update {refused : Refused} (h : Texts refused) (side : Side) (step reason : PyStr) :
    Texts (Function.update refused side (some (refusedText step reason))) := by
  intro other text htext
  by_cases heq : other = side
  · rw [heq, Function.update_self] at htext
    exact Option.some.inj htext ▸ refusedText_ne_nil step reason
  · rw [Function.update_of_ne heq] at htext
    exact h other text htext

/-- Whoever was refused still is. -/
theorem isSome_update {refused : Refused} {side : Side} (reason : PyStr) (other : Side)
    (h : (refused other).isSome = true) :
    (Function.update refused side (some reason) other).isSome = true := by
  by_cases heq : other = side
  · rw [heq, Function.update_self]
    rfl
  · rwa [Function.update_of_ne heq]

/-- What the loop that fetches ends with. -/
structure Fetched (sides : List Side) (refused : Refused) (fetched : List Side)
    (out : Refused × List Side) : Prop where
  grows : ∀ side, (refused side).isSome = true → (out.1 side).isSome = true
  more : ∀ side ∈ fetched, side ∈ out.2
  all : (out.1 .challenger).isSome = true ∨
    ∀ side ∈ sides, (out.1 side).isSome = true ∨ side ∈ out.2
  rest : ∀ side, side ∉ sides → out.1 side = refused side
  texts : Texts refused → Texts out.1

theorem runs_fetchAll (sides : List Side) (refused : Refused) (fetched : List Side) :
    (frame D meets s₀).Runs P (fun out d => P d ∧ Fetched sides refused fetched out)
      (fetchAll sides refused fetched) := by
  induction sides generalizing refused fetched with
  | nil =>
    exact runs_pure fun d hp => ⟨hp, fun _ h => h, fun _ h => h, Or.inr (by simp), fun _ _ => rfl,
      fun h => h⟩
  | cons side sides ih =>
    unfold fetchAll
    refine Frame.Goes.ite (fun hrefused => ?_) fun _ => runs_see.bind fun trouble => ?_
    · refine (ih refused fetched).to fun out d h => ⟨h.1, ?_⟩
      refine ⟨h.2.grows, h.2.more, h.2.all.imp_right fun hall => ?_, fun s hs => ?_, h.2.texts⟩
      · exact List.forall_mem_cons.2 ⟨Or.inl (h.2.grows _ hrefused), hall⟩
      · exact h.2.rest s fun hmem => hs (List.mem_cons_of_mem _ hmem)
    · rcases trouble with - | ⟨step, reason⟩ | -
      · refine (ih refused (fetched ++ [side])).to fun out d h => ⟨h.1, ?_⟩
        refine ⟨h.2.grows, fun s hs => h.2.more s (List.mem_append_left _ hs),
          h.2.all.imp_right fun hall => ?_, fun s hs => ?_, h.2.texts⟩
        · exact List.forall_mem_cons.2 ⟨Or.inr (h.2.more _ (by simp)), hall⟩
        · exact h.2.rest s fun hmem => hs (List.mem_cons_of_mem _ hmem)
      · refine Frame.Goes.ite (fun hside => ?_) fun _ => ?_
        · subst hside
          refine runs_pure fun d hp => ⟨hp, isSome_update _, fun _ h => h, Or.inl (by simp), ?_,
            fun h => h.update _ step reason⟩
          intro s hs
          exact Function.update_of_ne (fun heq => hs (by simp [heq])) _ _
        · refine (ih _ fetched).to fun out d h => ⟨h.1, ?_⟩
          refine ⟨fun s hs => h.2.grows s (isSome_update _ s hs), h.2.more,
            h.2.all.imp_right fun hall => ?_, fun s hs => ?_,
            fun htexts => h.2.texts (htexts.update _ step reason)⟩
          · exact List.forall_mem_cons.2 ⟨Or.inl (h.2.grows _ (by simp)), hall⟩
          · rw [h.2.rest s fun hmem => hs (List.mem_cons_of_mem _ hmem),
              Function.update_of_ne fun heq => hs (by simp [heq])]
      · exact runs_raise _

/-- These sides are prepared, or refused. -/
def Checked (sides : List Side) (refused : Refused) (images : Images) (d : Disk F) : Prop :=
  ∀ side ∈ sides, images side = lastPrepared side d.log ∧ (images side).isSome = true ∨
    images side = none ∧ (refused side).isSome = true

/-- Nothing is published, and what is recorded of a forfeit is this. -/
def Opened (forfeit : Option PyStr) (d : Disk F) : Prop := d.line = none ∧ d.forfeit = forfeit

/-- What the loop that prepares ends with. -/
structure Ready (sides : List Side) (refused : Refused) (out : Refused × Images) : Prop where
  grows : ∀ side, (refused side).isSome = true → (out.1 side).isSome = true
  rest : ∀ side, side ∉ sides → out.1 side = refused side
  texts : Texts refused → Texts out.1

theorem runs_prepare {side : Side} {sides : List Side} (hside : side ∉ sides) {refused : Refused}
    {images : Images} {forfeit : Option PyStr} :
    (frame D meets s₀).Runs (fun d => Opened forfeit d ∧ Checked sides refused images d)
      (fun r d => Opened forfeit d ∧ Checked sides refused images d ∧
        ∀ image, r = .ok image → lastPrepared side d.log = some image)
      (prepare D side) := by
  refine runs_act fun s _ hp hmeets => ?_
  cases hprepare : s.world.prepare side with
  | error e =>
    simp only
    exact ⟨Or.inl rfl, hp.1, hp.2, by simp⟩
  | ok image =>
    simp only
    have hlast : ∀ other, lastPrepared other (s.disk.note (.prepared side image)).log =
        if side = other then some image else lastPrepared other s.disk.log := by
      intro other
      refine (lastPrepared_append other s.disk.log (.prepared side image)).trans ?_
      by_cases h : side = other <;> simp [Deed.image, h]
    refine ⟨Or.inr (.prepare side image hp.1.1 hmeets hprepare), hp.1, fun other hother => ?_, ?_⟩
    · have hne : side ≠ other := fun heq => hside (heq ▸ hother)
      rw [hlast, if_neg hne]
      exact hp.2 other hother
    · rintro image' ⟨⟩
      rw [hlast, if_pos rfl]

theorem runs_checkAll {fetched : List Side} {forfeit : Option PyStr} (sides pre : List Side)
    (hnodup : (pre ++ sides).Nodup) (refused : Refused) (images : Images)
    (himages : ∀ side ∈ sides, images side = none)
    (hfetched : (refused .challenger).isSome = true ∨
      ∀ side ∈ sides, (refused side).isSome = true ∨ side ∈ fetched) :
    (frame D meets s₀).Runs (fun d => Opened forfeit d ∧ Checked pre refused images d)
      (fun out d => (Opened forfeit d ∧ ((out.1 .challenger).isSome = true ∨
        Checked (pre ++ sides) out.1 out.2 d)) ∧ Ready sides refused out)
      (checkAll D fetched sides refused images) := by
  induction sides generalizing pre refused images with
  | nil =>
    refine runs_pure fun d hp => ⟨⟨hp.1, Or.inr ?_⟩, fun _ h => h, fun _ _ => rfl, fun h => h⟩
    rw [List.append_nil]
    exact hp.2
  | cons side sides ih =>
    have hpre : side ∉ pre := fun h =>
      (List.nodup_append.1 hnodup).2.2 side h side List.mem_cons_self rfl
    have hrest : side ∉ sides := (List.nodup_cons.1 (List.nodup_append.1 hnodup).2.1).1
    have hnodup' : ((pre ++ [side]) ++ sides).Nodup := by simpa using hnodup
    have hne : ∀ other ∈ sides, other ≠ side := fun other h heq => hrest (heq ▸ h)
    have hready : ∀ {refused' : Refused} {out : Refused × Images},
        (∀ other, (refused other).isSome = true → (refused' other).isSome = true) →
        (∀ other, other ≠ side → refused' other = refused other) →
        (Texts refused → Texts refused') → Ready sides refused' out →
          Ready (side :: sides) refused out := fun hgrows hsame htexts h =>
      ⟨fun other ho => h.grows other (hgrows other ho), fun other ho => by
        rw [h.rest other fun hmem => ho (List.mem_cons_of_mem _ hmem),
          hsame other fun heq => ho (by simp [heq])], fun ht => h.texts (htexts ht)⟩
    unfold checkAll
    refine Frame.Goes.ite (fun hchallenger => ?_) fun hchallenger =>
      Frame.Goes.ite (fun hskip => ?_) fun hskip => (runs_prepare hpre).bind fun r => ?_
    · exact runs_pure fun d hp => ⟨⟨hp.1, Or.inl hchallenger⟩, fun _ h => h, fun _ _ => rfl,
        fun h => h⟩
    · have hfetched' := hfetched.resolve_left hchallenger
      have hrefused : (refused side).isSome = true :=
        hskip.elim id fun h => (hfetched' side List.mem_cons_self).resolve_right h
      refine ((ih (pre ++ [side]) hnodup' refused images
        (fun other h => himages other (List.mem_cons_of_mem _ h))
        (Or.inr fun other h => hfetched' other (List.mem_cons_of_mem _ h))).from
          fun d hp => ⟨hp.1, ?_⟩).to fun out d h => ?_
      · intro other hother
        rcases List.mem_append.1 hother with hother | hother
        · exact hp.2 other hother
        · rw [List.mem_singleton.1 hother]
          exact Or.inr ⟨himages side List.mem_cons_self, hrefused⟩
      · rw [List.append_assoc] at h
        exact ⟨h.1, hready (fun _ h => h) (fun _ _ => rfl) (fun h => h) h.2⟩
    · have hfetched' := hfetched.resolve_left hchallenger
      rcases r with ⟨reason⟩ | image
      · rcases reason with ⟨step, reason⟩ | -
        · refine ((ih (pre ++ [side]) hnodup'
            (Function.update refused side (some (refusedText step reason))) images
            (fun other h => himages other (List.mem_cons_of_mem _ h))
            (Or.inr fun other h => ?_)).from fun d hp => ⟨hp.1, ?_⟩).to fun out d h => ?_
          · rw [Function.update_of_ne (hne other h)]
            exact hfetched' other (List.mem_cons_of_mem _ h)
          · intro other hother
            rcases List.mem_append.1 hother with hother | hother
            · exact (hp.2.1 other hother).imp_right fun h => ⟨h.1, isSome_update _ other h.2⟩
            · rw [List.mem_singleton.1 hother]
              exact Or.inr ⟨himages side List.mem_cons_self, by simp⟩
          · rw [List.append_assoc] at h
            exact ⟨h.1, hready (isSome_update _) (fun other ho => Function.update_of_ne ho _ _)
              (fun ht => ht.update side step reason) h.2⟩
        · exact runs_raise _
      · refine ((ih (pre ++ [side]) hnodup' refused (Function.update images side (some image))
          (fun other h => ?_)
          (Or.inr fun other h => hfetched' other (List.mem_cons_of_mem _ h))).from
            fun d hp => ⟨hp.1, ?_⟩).to fun out d h => ?_
        · rw [Function.update_of_ne (hne other h)]
          exact himages other (List.mem_cons_of_mem _ h)
        · intro other hother
          rcases List.mem_append.1 hother with hother | hother
          · have hother' : other ≠ side := fun heq => hpre (heq ▸ hother)
            rw [Function.update_of_ne hother']
            exact hp.2.1 other hother
          · rw [List.mem_singleton.1 hother, Function.update_self]
            exact Or.inl ⟨(hp.2.2 image rfl).symm, rfl⟩
        · rw [List.append_assoc] at h
          exact ⟨h.1, hready (fun _ h => h) (fun _ _ => rfl) (fun h => h) h.2⟩

/-! ## Materializing -/

/-- What holds while a duel is materialized and played. -/
structure Playing (D : Duel) (forfeit : Option PyStr) (images : Images) (d : Disk F) : Prop where
  opened : d.line = none
  prepared : ∀ side ∈ D.sides, images side = lastPrepared side d.log ∧ (images side).isSome = true ∨
    side = .king ∧ images side = none ∧ forfeit.isSome = true
  recorded : ∀ reason, forfeit = some reason → d.forfeit = some reason ∧ D.hasKing = true
  kept : D.hasKing = true → forfeit = none → ¬d.Forfeited

section Materializing

variable {forfeit : Option PyStr} {images : Images} {d d' : Disk F}

theorem Playing.next (h : Playing D forfeit images d) (hline : d'.line = d.line)
    (hforfeit : d'.forfeit = d.forfeit)
    (hlog : ∀ side, lastPrepared side d'.log = lastPrepared side d.log) :
    Playing D forfeit images d' where
  opened := hline ▸ h.opened
  prepared side hside := (hlog side).symm ▸ h.prepared side hside
  recorded reason hreason := hforfeit ▸ h.recorded reason hreason
  kept hking hnone := by
    rw [Disk.Forfeited, hforfeit]
    exact h.kept hking hnone

theorem Playing.note (h : Playing D forfeit images d) {deed : Deed F}
    (hdeed : ∀ side, deed.image side = none) : Playing D forfeit images (d.note deed) :=
  h.next rfl rfl fun side => by
    refine (lastPrepared_append side d.log deed).trans ?_
    rw [hdeed, Option.none_or]

/-- The units before this one have a prompt in `m`. -/
def CoveredBy (D : Duel) (m : PyStr → Option Prompt) (unitId : PyStr) : Prop :=
  ∀ pre post, D.units.map UnitDef.unitId = pre ++ unitId :: post →
    ∀ before ∈ pre, (m before).isSome = true

/-- A prompt is appended that is void, or the first of its unit. -/
theorem runs_prompted {m : PyStr → Option Prompt} {p : Prompt}
    (hkept : p.void = true ∨ m p.unitId = none) (hbefore : CoveredBy D m p.unitId) :
    (frame D meets s₀).Runs (fun d => Playing D forfeit images d ∧ d.promptOf = m)
      (fun q d => q = p ∧ Playing D forfeit images d ∧
        d.promptOf = Function.update m p.unitId (some p))
      (prompted p) := by
  refine runs_act fun s _ hp _ => ⟨Or.inr (.prompt p hp.1.opened ?_ ?_), rfl, ?_, ?_⟩
  · rw [hp.2]
    exact hkept
  · rw [Covered, hp.2]
    exact hbefore
  · have hnote : Playing D forfeit images (s.disk.note (.prompted p)) := hp.1.note fun _ => rfl
    exact hnote.next rfl rfl fun _ => rfl
  · rw [← hp.2]
    exact promptOf_prompt s.disk p

/-- A unit has a prompt in the manifest once the loop has come by it. -/
theorem runs_promptFor (hs₀ : s₀.Fresh) {m done : PyStr → Option Prompt} {unitId : PyStr}
    (hdone : m unitId = done unitId) (hunit : ∀ p, done unitId = some p → p.unitId = unitId)
    (hbefore : CoveredBy D m unitId)
    (hstands : m unitId = none → ∀ d : Disk F, d.Phased D → d.promptOf = m →
      tooVoid D.maxVoidFraction (rowsOf D d) = false) :
    (frame D meets s₀).Runs (fun d => Playing D forfeit images d ∧ d.promptOf = m)
      (fun p d => p.unitId = unitId ∧ Playing D forfeit images d ∧
        d.promptOf = Function.update m unitId (some p))
      (promptFor done unitId) := by
  have hprompted : ∀ p : Prompt, p.unitId = unitId → (p.void = true ∨ m p.unitId = none) →
      (frame D meets s₀).Runs (fun d => Playing D forfeit images d ∧ d.promptOf = m)
        (fun p d => p.unitId = unitId ∧ Playing D forfeit images d ∧
          d.promptOf = Function.update m unitId (some p))
        (prompted p) := fun p hp hkept =>
    (runs_prompted hkept (hp.symm ▸ hbefore)).to fun q d h => by
      obtain ⟨rfl, hplay, hm⟩ := h
      exact ⟨hp, hplay, hp ▸ hm⟩
  unfold promptFor
  cases hfound : done unitId with
  | some p =>
    have hp := hunit p hfound
    refine Frame.Goes.bind (A := fun _ d => Playing D forfeit images d ∧ d.promptOf = m) ?_
      fun r => ?_
    · unfold changed
      refine Frame.Goes.ite (fun _ => runs_pure fun _ hp => hp) fun _ => ?_
      refine runs_act fun s _ hs _ => ⟨Or.inr (.hash p.unitId hs.1.opened), ?_, hs.2⟩
      exact hs.1.note fun _ => rfl
    · cases r with
      | none =>
        refine runs_pure fun d h => ⟨hp, h.1, ?_⟩
        rw [h.2, ← hfound, ← hdone, Function.update_eq_self]
      | some reason => exact hprompted _ rfl (Or.inl rfl)
  | none =>
    refine runs_see.bind fun late =>
      Frame.Goes.ite (fun _ => hprompted _ rfl (Or.inl rfl)) fun _ => ?_
    have hnew : m unitId = none := hdone.trans hfound
    refine Frame.Goes.bind (A := fun (p : Prompt) d => p.unitId = unitId ∧
      Playing D forfeit images d ∧ d.promptOf = m) ?_ fun p => ?_
    · refine runs_act fun s hsteps hs _ => ⟨Or.inr ?_, rfl, ?_, hs.2⟩
      · exact .materialize unitId hs.1.opened (by rw [hs.2]; exact hnew)
          (hstands hnew _ (hsteps.phased hs₀) hs.2)
      · have hnote : Playing D forfeit images (s.disk.note (.materialized unitId)) :=
          hs.1.note fun _ => rfl
        exact hnote
    · exact Frame.Goes.assume fun hp => hprompted p hp (Or.inr (hp ▸ hnew))

/-- The rows of these prompts. -/
def rowsP (D : Duel) (prompts : List Prompt) : List (Row F) :=
  D.units.map fun u => rowOf u (prompts.find? (·.unitId = u.unitId)) none none

/-- The units before one are the ones that are split off before it. -/
theorem before_unique {us pre : List UnitDef} {u : UnitDef} (hus : D.units = pre ++ u :: us)
    {ids rest : List PyStr} (h : D.units.map UnitDef.unitId = ids ++ u.unitId :: rest) :
    ids = pre.map UnitDef.unitId := by
  have hdistinct := D.distinct
  rw [hus, List.map_append, List.map_cons] at hdistinct h
  have hpre : u.unitId ∉ pre.map UnitDef.unitId := fun hmem =>
    (List.nodup_append.1 hdistinct).2.2 _ hmem _ List.mem_cons_self rfl
  have hus' : u.unitId ∉ us.map UnitDef.unitId :=
    (List.nodup_cons.1 (List.nodup_append.1 hdistinct).2.1).1
  exact ((List.append_cons_inj_of_notMem hpre hus').1 h).1.symm

/-- While a unit has no prompt, the rows that the journals give are those of the prompts before. -/
theorem rowsOf_materializing {us pre : List UnitDef} {u : UnitDef} (hus : D.units = pre ++ u :: us)
    {prompts : List Prompt} (hprompts : prompts.map Prompt.unitId = pre.map UnitDef.unitId)
    (hm : ∀ p ∈ prompts, d.promptOf p.unitId = some p) (hnone : d.promptOf u.unitId = none)
    (hd : d.Phased D) : rowsOf D d = rowsP D prompts := by
  have hmem : u ∈ D.units := hus ▸ by simp
  have hresults : ∀ side, d.results side = [] := by
    intro side
    by_contra hne
    simpa [hnone] using hd.prompts side hne u hmem
  have hdistinct := D.distinct
  rw [hus, List.map_append, List.map_cons, ← hprompts] at hdistinct
  obtain ⟨hnodup, hrest, hdisjoint⟩ := List.nodup_append.1 hdistinct
  refine List.map_congr_left fun v hv => ?_
  have hprompt : d.promptOf v.unitId = prompts.find? (·.unitId = v.unitId) := by
    rw [hus] at hv
    rcases List.mem_append.1 hv with hv | hv
    · have hin : v.unitId ∈ prompts.map Prompt.unitId := hprompts ▸ List.mem_map_of_mem hv
      obtain ⟨p, hp, heq⟩ := List.mem_map.1 hin
      rw [← heq, hm p hp]
      exact (find?_eq_some_of_nodup hnodup hp).symm
    · have hout : prompts.find? (·.unitId = v.unitId) = none := by
        refine List.find?_eq_none.2 fun p hp heq => ?_
        refine hdisjoint _ (List.mem_map_of_mem hp) v.unitId ?_ (of_decide_eq_true heq)
        rw [← List.map_cons (f := UnitDef.unitId)]
        exact List.mem_map_of_mem hv
      rw [hout]
      rcases List.mem_cons.1 hv with rfl | hv
      · exact hnone
      · -- the units after have none either, as prompts come in order
        by_contra hsome
        obtain ⟨mid, post, rfl⟩ := List.append_of_mem hv
        have hcovered := hd.covered v.unitId (Option.isSome_iff_ne_none.2 hsome)
          ((pre ++ u :: mid).map UnitDef.unitId) (post.map UnitDef.unitId) (by simp [hus]) u.unitId
          (List.mem_map_of_mem (by simp))
        simp [hnone] at hcovered
  simp only [Disk.recordOf, hresults, hprompt]
  rfl

/-- One more prompt. -/
theorem update_rowsP {prompts : List Prompt} {p : Prompt} {u : UnitDef} (hu : u ∈ D.units)
    (hp : p.unitId = u.unitId) (hnew : u.unitId ∉ prompts.map Prompt.unitId) :
    update u.unitId (Row.onPrompt p) (rowsP (F := F) D prompts) =
      pure (rowsP D (prompts ++ [p])) := by
  refine (update_map (g := fun v => rowOf v (prompts.find? (·.unitId = v.unitId)) none none)
    (fun _ => unitId_rowOf _ _ _) _ hu).trans (congrArg pure (List.map_congr_left fun v _ => ?_))
  rw [List.find?_append]
  by_cases hv : v.unitId = u.unitId
  · have hnone : prompts.find? (·.unitId = v.unitId) = none := by
      refine List.find?_eq_none.2 fun q hq heq => hnew ?_
      rw [← hv, ← of_decide_eq_true heq]
      exact List.mem_map_of_mem hq
    have hfind : [p].find? (·.unitId = v.unitId) = some p := by simp [hp, hv]
    rw [if_pos hv, hnone, hfind]
    rfl
  · have hfind : [p].find? (·.unitId = v.unitId) = none := by
      simpa [hp] using fun heq : u.unitId = v.unitId => hv heq.symm
    rw [if_neg hv, hfind, Option.or_none]

/-- The prompts of the units up to where the loop halts. -/
theorem runs_materialize (hs₀ : s₀.Fresh) {halts : List (Row F) → Bool}
    (hhalts : ∀ rows, halts rows = false → tooVoid D.maxVoidFraction rows = false)
    {done : PyStr → Option Prompt}
    (hunit : ∀ unitId p, done unitId = some p → p.unitId = unitId) (us pre : List UnitDef)
    (hus : D.units = pre ++ us) (prompts : List Prompt)
    (hprompts : prompts.map Prompt.unitId = pre.map UnitDef.unitId) (m : PyStr → Option Prompt)
    (hm : ∀ p ∈ prompts, m p.unitId = some p) (hrest : ∀ u ∈ us, m u.unitId = done u.unitId) :
    (frame D meets s₀).Runs (fun d => Playing D forfeit images d ∧ d.promptOf = m)
      (fun out d => Playing D forfeit images d ∧ out.2 = rowsP D out.1 ∧
        (∀ p ∈ out.1, d.promptOf p.unitId = some p) ∧
        (halts out.2 = true ∨ out.1.map Prompt.unitId = D.units.map UnitDef.unitId))
      (materializeUnits halts done us prompts (rowsP D prompts)) := by
  induction us generalizing pre prompts m with
  | nil =>
    refine runs_pure fun d hp => ⟨hp.1, rfl, fun p h => hp.2 ▸ hm p h, Or.inr ?_⟩
    rw [hprompts, hus, List.append_nil]
  | cons u us ih =>
    unfold materializeUnits
    refine Frame.Goes.ite (fun hhalt => ?_) fun hgoes => ?_
    · exact runs_pure fun d hp => ⟨hp.1, rfl, fun p h => hp.2 ▸ hm p h, Or.inl hhalt⟩
    · have hdistinct := D.distinct
      rw [hus, List.map_append, List.map_cons, ← hprompts] at hdistinct
      have hnew : u.unitId ∉ prompts.map Prompt.unitId := fun h =>
        (List.nodup_append.1 hdistinct).2.2 _ h _ List.mem_cons_self rfl
      have hothers : ∀ v ∈ us, v.unitId ≠ u.unitId := fun v hv heq =>
        (List.nodup_cons.1 (List.nodup_append.1 hdistinct).2.1).1 (heq ▸ List.mem_map_of_mem hv)
      have hbefore : CoveredBy D m u.unitId := by
        intro ids rest hsplit id hid
        rw [before_unique hus hsplit, ← hprompts] at hid
        obtain ⟨p, hp, rfl⟩ := List.mem_map.1 hid
        rw [hm p hp]
        rfl
      have hstands : m u.unitId = none → ∀ d : Disk F, d.Phased D → d.promptOf = m →
          tooVoid D.maxVoidFraction (rowsOf D d) = false := by
        rintro hnone d hd rfl
        rw [rowsOf_materializing hus hprompts hm hnone hd]
        exact hhalts _ (by simpa using hgoes)
      refine (runs_promptFor hs₀ (hrest u List.mem_cons_self) (hunit u.unitId) hbefore
        hstands).bind fun p => ?_
      refine Frame.Goes.assume fun hp => ?_
      rw [update_rowsP (hus ▸ by simp) hp hnew]
      refine ih (pre ++ [u]) (by simpa using hus) (prompts ++ [p]) (by simp [hprompts, hp])
        (Function.update m u.unitId (some p)) (fun q hq => ?_) fun v hv => ?_
      · rcases List.mem_append.1 hq with hq | hq
        · have hne : q.unitId ≠ u.unitId := fun heq => hnew (heq ▸ List.mem_map_of_mem hq)
          rw [Function.update_of_ne hne]
          exact hm q hq
        · rw [List.mem_singleton.1 hq, hp, Function.update_self]
      · rw [Function.update_of_ne (hothers v hv)]
        exact hrest v (List.mem_cons_of_mem _ hv)

end Materializing

end DuelRun

end IcilOrchestrator

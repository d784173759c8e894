import Mathlib
import IcilOrchestrator.DuelFair

/-!
# Stopping early

Void units only ever add up, so a duel is void once too many of them are, whatever the others come
to. The loops that materialize and play ask for it before each unit, and end there.

`begun_standing` : in every run, no unit is materialized and none is played once the journals make
the duel void. `stops_agree` : a duel that is run on from wherever it was left ends as the plain run
does, which asks once, when every unit was materialized and played (`plainDuel`).
-/

set_option linter.unusedSectionVars false

namespace IcilOrchestrator

open Python Prog

namespace DuelRun

variable {F : Type} [PyFloat F]

variable {D : Duel} {meets : Tag → Bench F → Prop} {s₀ : Bench F}
  {c : System.Conf (Bench F) Tag Raised (DuelResult F) Unit}

/-! ## Nothing begins once a duel is void -/

/-- The line that a deed writes to the manifest. -/
def Deed.prompt : Deed F → Option Prompt
  | .prompted p => some p
  | _ => none

/-- The line that a deed writes to a side's results. -/
def Deed.record (side : Side) : Deed F → Option (Record F)
  | .recorded side' r => if side' = side then some r else none
  | _ => none

/-- The journals that a log tells. -/
def journals (log : List (Deed F)) : Disk F :=
  { Disk.fresh with
    manifest := log.filterMap Deed.prompt
    results := fun side => log.filterMap (Deed.record side) }

/-- A unit is materialized or played. -/
def Deed.begins : Deed F → Bool
  | .materialized _ => true
  | .played .. => true
  | _ => false

/-- The log tells the journals, and each unit was begun where they left the duel standing. -/
structure Disk.Logged (D : Duel) (d : Disk F) : Prop where
  manifest : d.manifest = d.log.filterMap Deed.prompt
  results : ∀ side, d.results side = d.log.filterMap (Deed.record side)
  begun : ∀ pre deed post, d.log = pre ++ deed :: post → deed.begins = true →
    tooVoid D.maxVoidFraction (rowsOf D (journals pre)) = false

section

variable {d d' : Disk F}

/-- The rows are those of the journals that the log tells. -/
theorem Disk.Logged.rows (h : d.Logged D) : rowsOf D (journals d.log) = rowsOf D d := by
  simp only [rowsOf, Disk.promptOf, Disk.recordOf, journals, h.manifest, h.results]

/-- One more deed. -/
theorem Disk.Logged.next (h : d.Logged D) {deed : Deed F} (hlog : d'.log = d.log ++ [deed])
    (hmanifest : d'.manifest = d.manifest ++ deed.prompt.toList)
    (hresults : ∀ side, d'.results side = d.results side ++ (deed.record side).toList)
    (hbegins : deed.begins = true → tooVoid D.maxVoidFraction (rowsOf D d) = false) :
    d'.Logged D := by
  refine ⟨?_, fun side => ?_, fun pre deed' post hsplit hb => ?_⟩
  · rw [hmanifest, hlog, List.filterMap_append, h.manifest, List.filterMap_cons,
      List.filterMap_nil]
    cases deed.prompt <;> rfl
  · rw [hresults, hlog, List.filterMap_append, h.results, List.filterMap_cons,
      List.filterMap_nil]
    cases deed.record side <;> rfl
  · rw [hlog] at hsplit
    rcases split_concat hsplit with ⟨rfl, rfl⟩ | ⟨post', hsplit⟩
    · rw [h.rows]
      exact hbegins hb
    · exact h.begun pre deed' post' hsplit hb

/-- A deed that no journal is about. -/
theorem Disk.Logged.note (h : d.Logged D) {deed : Deed F} (hprompt : deed.prompt = none)
    (hrecord : ∀ side, deed.record side = none)
    (hbegins : deed.begins = true → tooVoid D.maxVoidFraction (rowsOf D d) = false) :
    (d.note deed).Logged D :=
  h.next rfl (by rw [hprompt]; exact (List.append_nil _).symm)
    (fun side => by rw [hrecord]; exact (List.append_nil _).symm) hbegins

theorem Disk.Logged.move {w : World F} (h : d.Logged D) (hmove : Move D meets w d d') :
    d'.Logged D := by
  cases hmove with
  | prepare => exact h.note rfl (fun _ => rfl) (by simp [Deed.begins])
  | hash => exact h.note rfl (fun _ => rfl) (by simp [Deed.begins])
  | materialize _ _ _ hstands => exact h.note rfl (fun _ => rfl) fun _ => hstands
  | play _ _ _ _ _ _ hstands => exact h.note rfl (fun _ => rfl) fun _ => hstands
  | forfeit =>
    refine h.next rfl ?_ (fun _ => ?_) (by simp [Deed.begins]) <;> exact (List.append_nil _).symm
  | prompt =>
    exact h.next rfl rfl (fun _ => (List.append_nil _).symm) (by simp [Deed.begins])
  | record side r =>
    refine h.next rfl (List.append_nil _).symm (fun other => ?_) (by simp [Deed.begins])
    rw [results_record]
    by_cases hside : side = other
    · subst hside
      simp [Deed.record]
    · rw [Function.update_of_ne (Ne.symm hside)]
      simp [Deed.record, hside]
  | moveAside => exact ⟨rfl, fun _ => rfl, by simp [Disk.moveAside, Disk.fresh]⟩
  | _ => exact ⟨h.manifest, h.results, h.begun⟩

end

/-- A loop that asks nothing. -/
def never (_ : List (Row F)) : Bool := false

/-- Both sides play every unit, and then it is asked whether the duel is void. -/
def plainPlay (D : Duel) (prompts : List Prompt) (forfeit : Option PyStr) (images : Images)
    (rows : List (Row F)) : RProg F (DuelResult F) := do
  match ← evaluateAll D never prompts forfeit images D.sides rows with
  | (some result, _) => pure result
  | (none, rows) =>
    if tooVoid D.maxVoidFraction rows then void rows (py "too many units are void")
    else publish D rows prompts forfeit images

/-- `_run`, once the sides are prepared, that materializes and plays every unit. -/
def plain (D : Duel) (forfeit : Option PyStr) (images : Images) : RProg F (DuelResult F) := do
  let done ← look fun s => s.disk.promptOf
  let (prompts, rows) ← materializeUnits never done D.units [] (D.units.map Row.ofUnit)
  plainPlay D prompts forfeit images rows

/-- `_run`, that asks once. -/
def plainDuel (D : Duel) : RProg F (DuelResult F) := prepareAll D (plain D)

/-- Rows of the same units, more of which may be void. -/
def Grown (rows rows' : List (Row F)) : Prop :=
  List.Forall₂ (fun row row' : Row F => row'.unitId = row.unitId ∧
    (row.void = true → row'.void = true)) rows rows'

theorem Grown.refl (rows : List (Row F)) : Grown rows rows :=
  List.forall₂_same.2 fun _ _ => ⟨rfl, id⟩

theorem Grown.trans {rows rows' rows'' : List (Row F)} (h : Grown rows rows')
    (h' : Grown rows' rows'') : Grown rows rows'' := by
  induction h generalizing rows'' with
  | nil => exact h'
  | cons hrow _ ih =>
    cases h' with
    | cons hrow' hrest' =>
      exact .cons ⟨hrow'.1.trans hrow.1, fun hv => hrow'.2 (hrow.2 hv)⟩ (ih hrest')

theorem Grown.units {rows rows' : List (Row F)} (h : Grown rows rows') :
    rows'.map Row.unitId = rows.map Row.unitId := by
  induction h with
  | nil => rfl
  | cons hrow _ ih => rw [List.map_cons, List.map_cons, hrow.1, ih]

theorem Grown.tooVoid {rows rows' : List (Row F)} (h : Grown rows rows') {maxVoidFraction : ℚ}
    (hvoid : tooVoid maxVoidFraction rows = true) : tooVoid maxVoidFraction rows' = true :=
  tooVoid_mono (h.imp fun _ _ h => h.2) hvoid

/-- A bench on which no act raises, and whose journals are about the duel's units. -/
structure Bench.Steady (D : Duel) (s : Bench F) : Prop where
  calm : s.world.faulty = false
  units : ∀ side, ∀ r ∈ s.disk.results side, r.unitId ∈ D.units.map UnitDef.unitId

/-- Nobody else is at the bench. -/
def steady (D : Duel) : Frame (Bench F) Tag Unit where
  env := .alone fun _ _ => True
  core _ := ()
  inv := Bench.Steady D
  core_eq _ := rfl
  inv_rely h hs := h ▸ hs

/-- A program that ends, with a result. -/
def Ends (D : Duel) {α : Type} (A : α → Prop) (p : RProg F α) : Prop :=
  (steady D).Goes (fun _ => True) (fun a _ => A a) (fun _ _ => False) p

section

variable {α β : Type} {A : α → Prop} {B : β → Prop} {s : Bench F}

theorem Ends.exec {p : RProg F α} (h : Ends D A p) (hs : s.Steady D) :
    ∃ a t, p.exec s = (.ok a, t) ∧ t.Steady D ∧ A a := by
  obtain ⟨hsteady, hA⟩ := Wp.exec (fun _ _ => trivial) (h s hs trivial)
  cases hr : p.exec s with
  | mk r t =>
    rw [hr] at hsteady hA
    cases r with
    | ok a => exact ⟨a, t, rfl, hsteady, hA⟩
    | error e => exact hA.elim

theorem Ends.bind {p : RProg F α} {f : α → RProg F β} (hp : Ends D A p)
    (hf : ∀ a, A a → Ends D B (f a)) : Ends D B (p >>= f) :=
  Frame.Goes.bind hp fun a => (Frame.Goes.assume (φ := A a) (P := fun _ => True) (hf a)).from
    fun _ h => ⟨h, trivial⟩

theorem Ends.to {A' : α → Prop} {p : RProg F α} (h : Ends D A p) (hA : ∀ a, A a → A' a) :
    Ends D A' p :=
  Frame.Goes.to h fun a _ => hA a

theorem ends_pure {a : α} (h : A a) : Ends D A (pure a : RProg F α) :=
  Frame.goes_ret fun _ _ => h

theorem ends_act {t : Tag} {f : Bench F → Bench F} {g : Bench F → α}
    (hact : ∀ s, s.Steady D → (f s).Steady D ∧ A (g s)) : Ends D A (act t f g) := by
  refine Frame.goes_fallible (fun s hs _ _ => hact s hs) fun s e hs _ _ hbad => ?_
  simp [Bench.fault, hs.calm] at hbad

theorem ends_look {g : Bench F → α} (hlook : ∀ s, s.Steady D → A (g s)) : Ends D A (look g) :=
  ends_act fun s hs => ⟨hs, hlook s hs⟩

/-! ### Whatever is asked, the loops end -/

/-- The rows are those of the duel's units. -/
def Rowed (D : Duel) (rows : List (Row F)) : Prop :=
  rows.map Row.unitId = D.units.map UnitDef.unitId

theorem Rowed.grown {rows rows' : List (Row F)} (h : Rowed D rows) (hrows : Grown rows rows') :
    Rowed D rows' :=
  hrows.units.trans h

theorem Bench.Steady.next {s s' : Bench F} (h : s.Steady D)
    (hcalm : s'.world.faulty = s.world.faulty) (hresults : s'.disk.results = s.disk.results) :
    s'.Steady D :=
  ⟨hcalm.trans h.calm, fun side r hr => h.units side r (hresults ▸ hr)⟩

/-- A row is changed, and stays void if it was. -/
def Keeping (f : Row F → Row F) : Prop :=
  ∀ row, (f row).unitId = row.unitId ∧ (row.void = true → (f row).void = true)

theorem keeping_onPrompt (p : Prompt) : Keeping (F := F) (Row.onPrompt p) := fun row =>
  ⟨unitId_onPrompt, fun h => by rw [void_onPrompt, h, Bool.true_or]⟩

theorem keeping_merge (side : Side) (r : Record F) : Keeping (·.merge side r) := fun row =>
  ⟨unitId_merge, fun h => by rw [void_merge, h, Bool.true_or]⟩

theorem onRow_grown {f : Row F → Row F} (hf : Keeping f) {unitId : PyStr} {rows : List (Row F)}
    (h : unitId ∈ rows.map Row.unitId) :
    ∃ rows', onRow unitId f rows = some rows' ∧ Grown rows rows' := by
  induction rows with
  | nil => simp at h
  | cons row rows ih =>
    rw [onRow]
    split_ifs with heq
    · exact ⟨_, rfl, .cons (hf row) (Grown.refl rows)⟩
    · have hmem : unitId ∈ rows.map Row.unitId :=
        (List.mem_cons.1 h).resolve_left fun h => heq h.symm
      obtain ⟨rows', hrows', hgrown⟩ := ih hmem
      exact ⟨row :: rows', by rw [hrows']; rfl, .cons ⟨rfl, id⟩ hgrown⟩

theorem ends_update {f : Row F → Row F} (hf : Keeping f) {unitId : PyStr} {rows : List (Row F)}
    (hrows : Rowed D rows) (h : unitId ∈ D.units.map UnitDef.unitId) :
    Ends D (Grown rows) (update unitId f rows) := by
  obtain ⟨rows', heq, hgrown⟩ := onRow_grown hf (hrows ▸ h)
  unfold update
  rw [heq]
  exact ends_pure hgrown

theorem ends_changed (p : Prompt) : Ends (F := F) D (fun _ => True) (changed p) := by
  unfold changed
  split_ifs
  · exact ends_pure trivial
  · exact ends_act fun s hs => ⟨hs.next rfl rfl, trivial⟩

theorem ends_promptFor (done : PyStr → Option Prompt) (unitId : PyStr) :
    Ends (F := F) D (fun _ => True) (promptFor done unitId) := by
  have hprompted : ∀ p : Prompt, Ends (F := F) D (fun _ => True) (prompted p) := fun p =>
    ends_act fun s hs => ⟨hs.next rfl rfl, trivial⟩
  unfold promptFor
  cases done unitId with
  | some p =>
    refine (ends_changed p).bind fun r _ => ?_
    cases r with
    | none => exact ends_pure trivial
    | some reason => exact hprompted _
  | none =>
    refine (ends_look (A := fun _ => True) fun _ _ => trivial).bind fun late _ => ?_
    cases late with
    | true => exact hprompted _
    | false =>
      refine Ends.bind (A := fun _ => True) (ends_act fun s hs => ⟨hs.next ?_ rfl, trivial⟩)
        fun p _ => hprompted p
      simp only
      split <;> rfl

variable (halts : List (Row F) → Bool)

theorem ends_materialize (done : PyStr → Option Prompt) (us : List UnitDef)
    (hus : ∀ u ∈ us, u ∈ D.units) (prompts : List Prompt) {rows : List (Row F)}
    (hrows : Rowed D rows) :
    Ends D (fun out => Grown rows out.2) (materializeUnits halts done us prompts rows) := by
  induction us generalizing prompts rows with
  | nil => exact ends_pure (.refl rows)
  | cons u us ih =>
    unfold materializeUnits
    split_ifs
    · exact ends_pure (.refl rows)
    · have hmem := List.mem_map_of_mem (f := UnitDef.unitId) (hus u List.mem_cons_self)
      refine (ends_promptFor done u.unitId).bind fun p _ => ?_
      refine (ends_update (keeping_onPrompt p) hrows hmem).bind fun rows' hgrown => ?_
      exact (ih (fun v hv => hus v (List.mem_cons_of_mem _ hv)) _ (hrows.grown hgrown)).to
        fun out h => hgrown.trans h

theorem ends_outcomeOf (P : Player) (unitId : PyStr) :
    Ends (F := F) D (fun _ => True) (outcomeOf D P unitId) := by
  unfold outcomeOf
  cases P.prompts.find? (·.unitId = unitId) with
  | none => exact ends_pure trivial
  | some p =>
    simp only
    cases p.made with
    | error error => exact ends_pure trivial
    | ok made =>
      simp only
      cases P.voidUnits unitId with
      | some reason => exact ends_pure trivial
      | none =>
        cases P.refusal with
        | some reason => exact ends_pure trivial
        | none =>
          refine (ends_look (A := fun _ => True) fun _ _ => trivial).bind fun late _ => ?_
          cases late with
          | true => exact ends_pure trivial
          | false =>
            refine Ends.bind (ends_changed p) fun r _ => ?_
            cases r with
            | some reason => exact ends_pure trivial
            | none =>
              have hplay : Ends (F := F) D (fun _ => True) (play D P p.unitId) :=
                ends_act fun s hs => ⟨hs.next rfl rfl, trivial⟩
              refine hplay.bind fun outcome _ => (ends_changed p).bind fun r _ => ?_
              cases r with
              | some reason => exact ends_pure trivial
              | none =>
                simp only
                cases outcome.reported with
                | none => exact ends_pure trivial
                | some found =>
                  simp only
                  split_ifs <;> exact ends_pure trivial

/-- A record of one of the duel's units is written. -/
theorem ends_record (side : Side) {r : Record F} (hr : r.unitId ∈ D.units.map UnitDef.unitId) :
    Ends D (fun _ => True) (put (·.record side r)) := by
  refine ends_act fun s hs => ⟨⟨hs.calm, fun other r' hr' => ?_⟩, trivial⟩
  by_cases hside : other = side
  · subst hside
    have hmem : r' ∈ s.disk.results other ++ [r] := by simpa [Bench.on, results_record] using hr'
    rcases List.mem_append.1 hmem with hmem | hmem
    · exact hs.units other r' hmem
    · rw [List.mem_singleton.1 hmem]
      exact hr
  · refine hs.units other r' ?_
    simpa [Bench.on, results_record, Function.update_of_ne hside] using hr'

theorem ends_runSide (P : Player) (done : List (Record F)) (us : List UnitDef)
    (hus : ∀ u ∈ us, u ∈ D.units) {rows : List (Row F)} (hrows : Rowed D rows) :
    Ends D (Grown rows) (runSide D halts P done us rows) := by
  induction us generalizing rows with
  | nil => exact ends_pure (.refl rows)
  | cons u us ih =>
    have hrest : ∀ v ∈ us, v ∈ D.units := fun v hv => hus v (List.mem_cons_of_mem _ hv)
    unfold runSide
    split_ifs
    · exact ih hrest hrows
    · exact ends_pure (.refl rows)
    · have hmem := List.mem_map_of_mem (f := UnitDef.unitId) (hus u List.mem_cons_self)
      refine (ends_outcomeOf P u.unitId).bind fun outcome _ =>
        (ends_record P.side hmem).bind fun _ _ => ?_
      refine (ends_update (keeping_merge _ _) hrows hmem).bind fun rows' hgrown => ?_
      exact (ih hrest (hrows.grown hgrown)).to fun _ h => hgrown.trans h

theorem ends_mergeAll {side : Side} (rs : List (Record F))
    (hrs : ∀ r ∈ rs, r.unitId ∈ D.units.map UnitDef.unitId) {rows : List (Row F)}
    (hrows : Rowed D rows) : Ends D (Grown rows) (mergeAll side rs rows) := by
  induction rs generalizing rows with
  | nil => exact ends_pure (.refl rows)
  | cons r rs ih =>
    unfold mergeAll
    refine (ends_update (keeping_merge side r) hrows (hrs r List.mem_cons_self)).bind
      fun rows' hgrown => ?_
    exact (ih (fun r' hr' => hrs r' (List.mem_cons_of_mem _ hr')) (hrows.grown hgrown)).to
      fun _ h => hgrown.trans h

theorem mem_readResults {rs : List (Record F)} {r : Record F} (h : r ∈ readResults rs) :
    r ∈ rs := by
  obtain ⟨unitId, -, hlast⟩ := List.mem_filterMap.1 h
  exact (lastOf_mem hlast).1

theorem ends_evaluate (prompts : List Prompt) (forfeit : Option PyStr) (images : Images)
    (side : Side) {rows : List (Row F)} (hrows : Rowed D rows) :
    Ends D (Grown rows) (evaluate D halts prompts forfeit images side rows) := by
  unfold evaluate
  refine Ends.bind (A := fun found => ∀ r ∈ found, r.unitId ∈ D.units.map UnitDef.unitId)
    (ends_look fun s hs r hr => hs.units side r (mem_readResults hr)) fun found hfound => ?_
  refine (ends_mergeAll found hfound hrows).bind fun rows' hgrown => ?_
  refine (ends_look (A := fun _ => True) fun _ _ => trivial).bind fun others _ => ?_
  refine (ends_look (A := fun _ => True) fun _ _ => trivial).bind fun done _ => ?_
  exact (ends_runSide halts _ done D.units (fun _ h => h) (hrows.grown hgrown)).to
    fun _ h => hgrown.trans h

/-- Both sides are played to the end. -/
theorem ends_evaluateAll (prompts : List Prompt) (forfeit : Option PyStr) (images : Images)
    (sides : List Side) {rows : List (Row F)} (hrows : Rowed D rows) :
    Ends D (fun out => out.1 = none ∧ Grown rows out.2)
      (evaluateAll D never prompts forfeit images sides rows) := by
  induction sides generalizing rows with
  | nil => exact ends_pure ⟨rfl, .refl rows⟩
  | cons side sides ih =>
    unfold evaluateAll
    refine (ends_evaluate never prompts forfeit images side hrows).bind fun rows' hgrown => ?_
    exact (ih (hrows.grown hgrown)).to fun _ h => ⟨h.1, hgrown.trans h.2⟩

/-! ### The loops that ask -/

/-- A loop that asks does what the one that does not ask does, or it ends where it is told to, and
the other has no fewer void rows in the end. -/
def Stops (D : Duel) {α : Type} (halts : List (Row F) → Bool) (g : α → List (Row F))
    (x y : Except Raised α × Bench F) : Prop :=
  x = y ∨ ∃ a t b t', x = (.ok a, t) ∧ y = (.ok b, t') ∧ (t.Steady D ∧ t'.Steady D) ∧
    halts (g a) = true ∧ Grown (g a) (g b)

variable {s : Bench F}

theorem stops_materialize (done : PyStr → Option Prompt) (us : List UnitDef)
    (hus : ∀ u ∈ us, u ∈ D.units) (prompts : List Prompt) {rows : List (Row F)}
    (hrows : Rowed D rows) (hs : s.Steady D) :
    Stops D halts Prod.snd ((materializeUnits halts done us prompts rows).exec s)
      ((materializeUnits never done us prompts rows).exec s) := by
  induction us generalizing prompts rows s with
  | nil => exact Or.inl rfl
  | cons u us ih =>
    by_cases hhalts : halts rows = true
    · obtain ⟨out, t, hexec, hsteady, hgrown⟩ :=
        (ends_materialize never done (u :: us) hus prompts hrows).exec hs
      refine Or.inr ⟨(prompts, rows), s, out, t, ?_, hexec, ⟨hs, hsteady⟩, hhalts, hgrown⟩
      unfold materializeUnits
      rw [if_pos hhalts, exec_pure]
    · have hmem := List.mem_map_of_mem (f := UnitDef.unitId) (hus u List.mem_cons_self)
      obtain ⟨p, t, hprompt, ht, -⟩ := (ends_promptFor done u.unitId).exec hs
      obtain ⟨rows', t', hupdate, ht', hgrown⟩ :=
        (ends_update (keeping_onPrompt p) hrows hmem).exec ht
      unfold materializeUnits
      rw [if_neg hhalts, if_neg (by simp [never]), exec_bind_ok hprompt, exec_bind_ok hprompt,
        exec_bind_ok hupdate, exec_bind_ok hupdate]
      exact ih (fun v hv => hus v (List.mem_cons_of_mem _ hv)) _ (hrows.grown hgrown) ht'

theorem stops_runSide (P : Player) (done : List (Record F)) (us : List UnitDef)
    (hus : ∀ u ∈ us, u ∈ D.units) {rows : List (Row F)} (hrows : Rowed D rows)
    (hs : s.Steady D) :
    Stops D halts id ((runSide D halts P done us rows).exec s)
      ((runSide D never P done us rows).exec s) := by
  induction us generalizing rows s with
  | nil => exact Or.inl rfl
  | cons u us ih =>
    have hrest : ∀ v ∈ us, v ∈ D.units := fun v hv => hus v (List.mem_cons_of_mem _ hv)
    by_cases hdone : done.any (·.unitId = u.unitId) = true
    · unfold runSide
      rw [if_pos hdone, if_pos hdone]
      exact ih hrest hrows hs
    · by_cases hhalts : halts rows = true
      · obtain ⟨rows', t, hexec, hsteady, hgrown⟩ :=
          (ends_runSide never P done (u :: us) hus hrows).exec hs
        refine Or.inr ⟨rows, s, rows', t, ?_, hexec, ⟨hs, hsteady⟩, hhalts, hgrown⟩
        unfold runSide
        rw [if_neg hdone, if_pos hhalts, exec_pure]
      · have hmem := List.mem_map_of_mem (f := UnitDef.unitId) (hus u List.mem_cons_self)
        obtain ⟨outcome, t, houtcome, ht, -⟩ := (ends_outcomeOf P u.unitId).exec hs
        obtain ⟨_, t', hrecord, ht', -⟩ := (ends_record P.side
          (r := unitRecord P u.unitId outcome) hmem).exec ht
        obtain ⟨rows', t'', hupdate, ht'', hgrown⟩ := (ends_update
          (keeping_merge P.side (unitRecord P u.unitId outcome)) hrows hmem).exec ht'
        unfold runSide
        rw [if_neg hdone, if_neg hdone, if_neg hhalts, if_neg (by simp [never]),
          exec_bind_ok houtcome, exec_bind_ok houtcome, exec_bind_ok hrecord, exec_bind_ok hrecord,
          exec_bind_ok hupdate, exec_bind_ok hupdate]
        exact ih hrest (hrows.grown hgrown) ht''

theorem stops_evaluate (prompts : List Prompt) (forfeit : Option PyStr) (images : Images)
    (side : Side) {rows : List (Row F)} (hrows : Rowed D rows) (hs : s.Steady D) :
    Stops D halts id ((evaluate D halts prompts forfeit images side rows).exec s)
      ((evaluate D never prompts forfeit images side rows).exec s) := by
  obtain ⟨found, t, hfound, ht, hunits⟩ := (ends_look (D := D)
    (A := fun found => ∀ r ∈ found, r.unitId ∈ D.units.map UnitDef.unitId)
    (g := fun s : Bench F => readResults (s.disk.results side))
    fun s hs r hr => hs.units side r (mem_readResults hr)).exec hs
  obtain ⟨rows', t', hmerge, ht', hgrown⟩ := (ends_mergeAll found hunits hrows).exec ht
  obtain ⟨others, t₁, hothers, ht₁, -⟩ := (ends_look (D := D) (A := fun _ => True)
    (g := fun s : Bench F => readResults (s.disk.results side.other)) fun _ _ => trivial).exec ht'
  obtain ⟨done, t₂, hdone, ht₂, -⟩ := (ends_look (D := D) (A := fun _ => True)
    (g := fun s : Bench F => readResults (s.disk.results side)) fun _ _ => trivial).exec ht₁
  unfold evaluate
  rw [exec_bind_ok hfound, exec_bind_ok hfound, exec_bind_ok hmerge, exec_bind_ok hmerge,
    exec_bind_ok hothers, exec_bind_ok hothers, exec_bind_ok hdone, exec_bind_ok hdone]
  exact stops_runSide halts _ done D.units (fun _ h => h) (hrows.grown hgrown) ht₂

/-- A duel that ends void. -/
def Voided (D : Duel) (x : Except Raised (DuelResult F) × Bench F) : Prop :=
  ∃ r t, x = (.ok r, t) ∧ r.status = .void ∧ tooVoid D.maxVoidFraction r.units = true

theorem exec_void (hs : s.Steady D) (rows : List (Row F)) (reason : PyStr) :
    ∃ t, (void rows reason).exec s = (.ok ⟨.void, reason, none, rows⟩, t) := by
  have hends : Ends D (· = ⟨.void, reason, none, rows⟩) (void rows reason) :=
    ends_act fun s hs => ⟨hs.next rfl rfl, rfl⟩
  obtain ⟨r, t, hexec, -, rfl⟩ := hends.exec hs
  exact ⟨t, hexec⟩

/-- The check after a side. -/
theorem exec_check {p : RProg F (List (Row F))} {rows : List (Row F)} {t : Bench F}
    (hp : p.exec s = (.ok rows, t)) (ht : t.Steady D) (hhalts : halts rows = true)
    (reason : List (Row F) → PyStr)
    (q : List (Row F) → RProg F (Option (DuelResult F) × List (Row F))) :
    ∃ r t', (p >>= fun rows => if halts rows then do
        let result ← void rows (reason rows)
        pure (some result, rows)
      else q rows).exec s = (.ok (some r, rows), t') ∧ r.status = .void ∧ r.units = rows := by
  obtain ⟨t', hvoid⟩ := exec_void ht rows (reason rows)
  refine ⟨⟨.void, reason rows, none, rows⟩, t', ?_, rfl, rfl⟩
  rw [exec_bind_ok hp, if_pos hhalts, exec_bind_ok hvoid, exec_pure]

/-- Both sides are played alike, or the duel is void and stays it. -/
def Alike (D : Duel) (x y : Except Raised (Option (DuelResult F) × List (Row F)) × Bench F) :
    Prop :=
  ∃ out t rows t', x = (.ok out, t) ∧ y = (.ok (none, rows), t') ∧ t'.Steady D ∧
    (out = (none, rows) ∧ t = t' ∧ tooVoid D.maxVoidFraction rows = false ∨
      tooVoid D.maxVoidFraction rows = true ∧ ∃ r, out.1 = some r ∧ r.status = .void ∧
        tooVoid D.maxVoidFraction r.units = true)

theorem stops_evaluateAll (prompts : List Prompt) (forfeit : Option PyStr) (images : Images)
    (sides : List Side) {rows : List (Row F)} (hrows : Rowed D rows) (hs : s.Steady D)
    (hstands : tooVoid D.maxVoidFraction rows = false) :
    Alike D
      ((evaluateAll D (tooVoid D.maxVoidFraction) prompts forfeit images sides rows).exec s)
      ((evaluateAll D never prompts forfeit images sides rows).exec s) := by
  induction sides generalizing rows s with
  | nil => exact ⟨(none, rows), s, rows, s, rfl, rfl, hs, Or.inl ⟨rfl, rfl, hstands⟩⟩
  | cons side sides ih =>
    obtain ⟨rows₁, t₁, hplain, ht₁, hgrown⟩ := (ends_evaluate never prompts forfeit images side
      hrows).exec hs
    obtain ⟨⟨result, rows₂⟩, t₂, hrest, ht₂, hnone, hgrown'⟩ := (ends_evaluateAll prompts forfeit
      images sides (hrows.grown hgrown)).exec ht₁
    obtain rfl : result = none := hnone
    have hnever : (evaluateAll D never prompts forfeit images (side :: sides) rows).exec s =
        (evaluateAll D never prompts forfeit images sides rows₁).exec t₁ := by
      rw [evaluateAll, exec_bind_ok hplain, if_neg (by simp [never])]
    -- where the side leaves the duel void it is decided, and the plain run has no fewer void rows
    have hvoids : ∀ rows' t', (evaluate D (tooVoid D.maxVoidFraction) prompts forfeit images side
        rows).exec s = (.ok rows', t') → t'.Steady D → tooVoid D.maxVoidFraction rows' = true →
          Grown rows' rows₁ → Alike D ((evaluateAll D (tooVoid D.maxVoidFraction) prompts forfeit
            images (side :: sides) rows).exec s)
              ((evaluateAll D never prompts forfeit images (side :: sides) rows).exec s) := by
      intro rows' t' hexec ht' hvoid hmore
      obtain ⟨r, t, hchecked, hstatus, hunits⟩ := exec_check _ hexec ht' hvoid
        (fun rows => decimal (rows.countP Row.void) ++ py " of " ++ decimal rows.length ++
          py " units are void after the " ++ side.text ++ py "'s side")
        (evaluateAll D (tooVoid D.maxVoidFraction) prompts forfeit images sides)
      exact ⟨_, t, rows₂, t₂, hchecked, hnever.trans hrest, ht₂,
        Or.inr ⟨(hmore.trans hgrown').tooVoid hvoid, r, rfl, hstatus, hunits ▸ hvoid⟩⟩
    rcases stops_evaluate (tooVoid D.maxVoidFraction) prompts forfeit images side hrows hs with
      heq | ⟨rows', t', rows'', t'', hstop, hplain', ⟨ht', -⟩, hhalts, hmore⟩
    · cases hvoid : tooVoid D.maxVoidFraction rows₁ with
      | true => exact hvoids rows₁ t₁ (heq.trans hplain) ht₁ hvoid (.refl rows₁)
      | false =>
        rw [hnever, evaluateAll, exec_bind_ok (heq.trans hplain), if_neg (by simp [hvoid])]
        exact ih (hrows.grown hgrown) ht₁ hvoid
    · rw [hplain] at hplain'
      obtain ⟨hrows', -⟩ := Prod.mk.inj hplain'
      exact hvoids rows' t' hstop ht' hhalts (Except.ok.inj hrows' ▸ hmore)

theorem voided_void (hs : s.Steady D) {rows : List (Row F)} (reason : PyStr)
    (hvoid : tooVoid D.maxVoidFraction rows = true) : Voided D ((void rows reason).exec s) := by
  obtain ⟨t, hexec⟩ := exec_void hs rows reason
  exact ⟨⟨.void, reason, none, rows⟩, t, hexec, rfl, hvoid⟩

/-- The plain run ends void where the rows are too void before. -/
theorem voided_plainPlay {prompts : List Prompt} {forfeit : Option PyStr} {images : Images}
    {rows : List (Row F)} (hrows : Rowed D rows) (hs : s.Steady D)
    (hvoid : tooVoid D.maxVoidFraction rows = true) :
    Voided D ((plainPlay D prompts forfeit images rows).exec s) := by
  obtain ⟨⟨result, rows'⟩, t, hexec, ht, hnone, hgrown⟩ := (ends_evaluateAll prompts forfeit images
    D.sides hrows).exec hs
  obtain rfl : result = none := hnone
  have hvoid' : tooVoid D.maxVoidFraction rows' = true := hgrown.tooVoid hvoid
  unfold plainPlay
  rw [exec_bind_ok hexec]
  simp only
  rw [if_pos hvoid']
  exact voided_void ht _ hvoid'

/-- Two runs that both end void, or are the same. -/
def Matches (D : Duel) (x y : Except Raised (DuelResult F) × Bench F) : Prop :=
  Voided D x ∧ Voided D y ∨ x = y

/-- Once the sides are prepared. -/
theorem matches_play {forfeit : Option PyStr} {images : Images} (hs : s.Steady D) :
    Matches D ((materializeAndPlay D (tooVoid D.maxVoidFraction) forfeit images).exec s)
      ((plain D forfeit images).exec s) := by
  have hrows : Rowed D (D.units.map Row.ofUnit : List (Row F)) := by
    rw [Rowed, List.map_map]
    rfl
  obtain ⟨done, t, hdone, ht, -⟩ := (ends_look (D := D) (A := fun _ => True)
    (g := fun s : Bench F => s.disk.promptOf) fun _ _ => trivial).exec hs
  obtain ⟨⟨prompts, rows⟩, t₁, hplain, ht₁, hgrown⟩ := (ends_materialize never done D.units
    (fun _ h => h) [] hrows).exec ht
  unfold materializeAndPlay plain
  rw [exec_bind_ok hdone, exec_bind_ok hdone, exec_bind_ok hplain]
  rcases stops_materialize (tooVoid D.maxVoidFraction) done D.units (fun _ h => h) [] hrows ht with
    heq | ⟨⟨prompts', rows'⟩, t', out, t'', hstop, hplain', ⟨ht', -⟩, hhalts, hmore⟩
  · rw [exec_bind_ok (heq.trans hplain)]
    simp only
    cases hvoid : tooVoid D.maxVoidFraction rows with
    | true =>
      exact Or.inl ⟨voided_void ht₁ _ hvoid, voided_plainPlay (hrows.grown hgrown) ht₁ hvoid⟩
    | false =>
      obtain ⟨⟨result, rows₂⟩, t₂, rows₃, t₃, hx, hy, ht₃, hcase⟩ := stops_evaluateAll prompts
        forfeit images D.sides (hrows.grown hgrown) ht₁ hvoid
      unfold plainPlay
      rw [if_neg (by simp), exec_bind_ok hx, exec_bind_ok hy]
      rcases hcase with ⟨hout, rfl, hstands⟩ | ⟨hvoid', r, hout, hstatus, hunits⟩
      · obtain ⟨rfl, rfl⟩ := Prod.mk.inj hout
        simp only
        rw [if_neg (by simp [hstands])]
        exact Or.inr rfl
      · obtain rfl : result = some r := hout
        simp only
        rw [if_pos hvoid']
        exact Or.inl ⟨⟨r, t₂, rfl, hstatus, hunits⟩, voided_void ht₃ _ hvoid'⟩
  · rw [hplain] at hplain'
    obtain ⟨hout, -⟩ := Prod.mk.inj hplain'
    obtain rfl : (prompts, rows) = out := Except.ok.inj hout
    rw [exec_bind_ok hstop]
    simp only
    rw [if_pos hhalts]
    exact Or.inl ⟨voided_void ht' _ hhalts,
      voided_plainPlay (hrows.grown hgrown) ht₁ (hmore.tooVoid hhalts)⟩

/-! ### The whole run -/

/-- A program that may raise. -/
abbrev Safe (D : Duel) {α : Type} (p : RProg F α) : Prop :=
  (steady D).Runs (fun _ => True) (fun _ _ => True) p

theorem Safe.exec {α : Type} {p : RProg F α} (h : Safe D p) (hs : s.Steady D) :
    (∃ e t, p.exec s = (.error e, t)) ∨ ∃ a t, p.exec s = (.ok a, t) ∧ t.Steady D := by
  obtain ⟨hsteady, -⟩ := Wp.exec (fun _ _ => trivial) (h s hs trivial)
  cases hr : p.exec s with
  | mk r t =>
    rw [hr] at hsteady
    cases r with
    | ok a => exact Or.inr ⟨a, t, rfl, hsteady⟩
    | error e => exact Or.inl ⟨e, t, rfl⟩

theorem safe_look {α : Type} (g : Bench F → α) : Safe D (look g) :=
  Frame.goes_fallible (fun _ hs _ _ => ⟨hs, trivial⟩) fun _ _ _ _ _ _ => trivial

theorem safe_pure {α : Type} (a : α) : Safe (F := F) D (pure a) := Frame.goes_ret fun _ _ => trivial

theorem safe_fetchAll (sides : List Side) (refused : Refused) (fetched : List Side) :
    Safe (F := F) D (fetchAll sides refused fetched) := by
  induction sides generalizing refused fetched with
  | nil => exact safe_pure _
  | cons side sides ih =>
    unfold fetchAll
    refine Frame.Goes.ite (fun _ => ih _ _) fun _ => (safe_look _).bind fun trouble => ?_
    rcases trouble with - | ⟨step, reason⟩ | -
    · exact ih _ _
    · exact Frame.Goes.ite (fun _ => safe_pure _) fun _ => ih _ _
    · exact Frame.runs_raise _

theorem safe_checkAll (fetched : List Side) (sides : List Side) (refused : Refused)
    (images : Images) : Safe (F := F) D (checkAll D fetched sides refused images) := by
  induction sides generalizing refused images with
  | nil => exact safe_pure _
  | cons side sides ih =>
    have hprepare : Safe (F := F) D (prepare D side) := by
      refine Frame.goes_fallible (fun s hs _ _ => ⟨?_, trivial⟩) fun _ _ _ _ _ _ => trivial
      cases hprepare : s.world.prepare side with
      | error e => simpa only [hprepare] using hs
      | ok image =>
        simp only
        exact hs.next rfl rfl
    unfold checkAll
    refine Frame.Goes.ite (fun _ => safe_pure _) fun _ => Frame.Goes.ite (fun _ => ih _ _) fun _ =>
      hprepare.bind fun r => ?_
    rcases r with (⟨step, reason⟩ | -) | image
    · exact ih _ _
    · exact Frame.runs_raise _
    · exact ih _ _

/-- What comes once the sides are prepared is run, or nothing of it matters. -/
theorem exec_prepareAll (hs : s.Steady D) :
    (∃ x, ∀ next, (prepareAll D next).exec s = x) ∨ ∃ forfeit images t, t.Steady D ∧
      ∀ next, (prepareAll D next).exec s = (next forfeit images).exec t := by
  have hraise : ∀ {α β : Type} {p : RProg F α} {e : Raised} {s t : Bench F},
      p.exec s = (.error e, t) → ∀ f : α → RProg F β, (p >>= f).exec s = (.error e, t) :=
    fun h f => by rw [exec_bind, h]
  unfold prepareAll
  obtain ⟨recorded, t, hrecorded, ht, -⟩ := (ends_look (D := D) (A := fun _ => True)
    (g := fun s : Bench F => recordedForfeit D s.disk) fun _ _ => trivial).exec hs
  simp only [exec_bind_ok hrecorded]
  rcases (safe_fetchAll D.sides recorded []).exec ht with
    ⟨e, t₁, hfetch⟩ | ⟨⟨refused, fetched⟩, t₁, hfetch, ht₁⟩
  · exact Or.inl ⟨_, fun next => hraise hfetch _⟩
  simp only [exec_bind_ok hfetch]
  rcases (safe_checkAll fetched D.sides refused fun _ => none).exec ht₁ with
    ⟨e, t₂, hcheck⟩ | ⟨⟨refused', images⟩, t₂, hcheck, ht₂⟩
  · exact Or.inl ⟨_, fun next => hraise hcheck _⟩
  simp only [exec_bind_ok hcheck]
  cases hchallenger : refused' .challenger with
  | some why => exact Or.inl ⟨_, fun next => rfl⟩
  | none =>
    cases hking : refused' .king with
    | none => exact Or.inr ⟨none, images, t₂, ht₂, fun next => rfl⟩
    | some reason =>
      have hforfeit : Ends (F := F) D (fun _ => True)
          (act .forfeits (Bench.on · (·.forfeits reason)) fun _ => ()) :=
        ends_act fun s hs => ⟨hs.next rfl rfl, trivial⟩
      obtain ⟨_, t₃, hexec, ht₃, -⟩ := hforfeit.exec ht₂
      exact Or.inr ⟨some reason, images, t₃, ht₃, fun next => exec_bind_ok hexec _⟩

theorem exec_prepareAll_faulty (hfaulty : s.world.faulty = true)
    (next : Option PyStr → Images → RProg F (DuelResult F)) :
    (prepareAll D next).exec s = (.error .crashed, s) := by
  have hlook : (look fun s : Bench F => recordedForfeit D s.disk).exec s =
      (.error .crashed, s) := by
    simp [look, act, fallible, Prog.exec, Bench.fault, hfaulty]
  rw [prepareAll, exec_bind, hlook]

/-- A duel that is run on from wherever it was left ends void exactly when the plain run does,
which materializes and plays every unit, and ends in the same, whatever it is, when not. -/
theorem stops_agree (hs₀ : s₀.Fresh) (h : (system D).Reach (others meets) s₀ c) :
    (Voided D ((runDuel D).exec c.state) ↔ Voided D ((plainDuel D).exec c.state)) ∧
      (¬Voided D ((plainDuel D).exec c.state) →
        (runDuel D).exec c.state = (plainDuel D).exec c.state) := by
  have hmatches : Matches D ((runDuel D).exec c.state) ((plainDuel D).exec c.state) := by
    cases hfaulty : c.state.world.faulty with
    | true => exact Or.inr ((exec_prepareAll_faulty hfaulty _).trans
        (exec_prepareAll_faulty hfaulty _).symm)
    | false =>
      have hsteady : c.state.Steady D :=
        ⟨hfaulty, fun side => ((steps_of_reach hs₀ h).kept hs₀ side).units⟩
      rcases exec_prepareAll hsteady with ⟨x, hx⟩ | ⟨forfeit, images, t, ht, hnext⟩
      · exact Or.inr ((hx _).trans (hx _).symm)
      · rw [runDuel, plainDuel, hnext, hnext]
        exact matches_play ht
  rcases hmatches with ⟨hvoid, hvoid'⟩ | heq
  · exact ⟨iff_of_true hvoid hvoid', fun hno => absurd hvoid' hno⟩
  · exact ⟨by rw [heq], fun _ => heq⟩

/-- A duel that was left after 20 acts is run on. -/
theorem toy_agree : (runDuel toyDuel).exec ((run toyDuel).after 20 ⟨toyWorld, .fresh⟩).2 =
    (plainDuel toyDuel).exec ((run toyDuel).after 20 ⟨toyWorld, .fresh⟩).2 := by
  have hstart : (system toyDuel).Reach (others fun _ _ => True) ⟨toyWorld, .fresh⟩
      ⟨⟨toyWorld, .fresh⟩, some ((), run toyDuel)⟩ := .single (.start trivial)
  have hcut := (System.Reach.after (fun _ _ => trivial) hstart 20).tail (.kill trivial)
  refine (stops_agree (fresh_toy _) hcut).2 ?_
  rintro ⟨r, t, hexec, hstatus, -⟩
  have hpublished : ((plainDuel toyDuel).exec ((run toyDuel).after 20
      ⟨toyWorld, .fresh⟩).2).1.toOption.map DuelResult.status = some .published := by
    decide +kernel
  have hplain : (plainDuel toyDuel).exec ((run toyDuel).after 20 ⟨toyWorld, .fresh⟩).2 =
      (.ok r, t) := hexec
  rw [hplain] at hpublished
  simp [Except.toOption, hstatus] at hpublished

end

end DuelRun

end IcilOrchestrator

import Mathlib
import IcilOrchestrator.DuelPlays
import IcilOrchestrator.Follows

/-!
# What a published duel can be held to

`published_described` : once a duel is published, its event says what its journals say, for good.

Both sides are scored on the same units, and the record counts the published rows (`rows_sound`).
Both played every unit that is not void from the same bytes, and no prompt that was recorded is
produced again (`prompts_same`). A king that forfeits wins no unit, as long as it is refused only
while it has won none (`forfeit_total`), and every container of a side was made from the image that
is published for it, as long as its tag names that image when one is made, and the side is prepared
again only as the same image (`images_recorded`).
-/

set_option linter.unusedSectionVars false

namespace IcilOrchestrator

open Python Prog

namespace DuelRun

variable {F : Type} [PyFloat F]

variable {D : Duel} {meets : Tag → Bench F → Prop} {s₀ : Bench F}
  {c : System.Conf (Bench F) Tag Raised (DuelResult F) Unit}

/-! ## The event and the journals -/

/-- What was published is what the journals say. -/
def Disk.Published (D : Duel) (d : Disk F) : Prop :=
  ∀ l, d.line = some l → ∃ e, d.event = some e ∧ l = e.line ∧ Describes D d e

/-- Nothing is published by a move but of what the journals say. -/
theorem Move.opens {w : World F} {d d' : Disk F} (h : Move D meets w d d') : d'.line = none ∨
    (∃ e, Describes D d e ∧ d.event = some e ∧ d' = { d with line := some e.line }) ∨
      ∃ r, d' = { d with outcome := some r } := by
  cases h with
  | line e _ hdescribes hevent => exact Or.inr (Or.inl ⟨e, hdescribes, hevent, rfl⟩)
  | decide r => exact Or.inr (Or.inr ⟨r, rfl⟩)
  | prepare _ _ hopen => exact Or.inl hopen
  | forfeit _ hopen => exact Or.inl hopen
  | materialize _ hopen => exact Or.inl hopen
  | prompt _ hopen => exact Or.inl hopen
  | hash _ hopen => exact Or.inl hopen
  | play _ _ _ hopen => exact Or.inl hopen
  | record _ _ hopen => exact Or.inl hopen
  | publish _ hopen => exact Or.inl hopen
  | moveAside hopen => exact Or.inl hopen

theorem Steps.published {s s' : Bench F} (h : Steps D meets s s') (hs : s.Fresh) :
    s'.disk.Published D := by
  refine h.inv (I := Disk.Published D) (fun w d d' hd hmove l hl => ?_) fun l hl => ?_
  · rcases hmove.opens with hnone | ⟨e, h, hevent, rfl⟩ | ⟨r, rfl⟩
    · simp [hnone] at hl
    · exact ⟨e, hevent, (Option.some.inj hl).symm, h.eq, h.prompts, h.records, h.stands⟩
    · obtain ⟨e, hevent, hline, h⟩ := hd l hl
      exact ⟨e, hevent, hline, h.eq, h.prompts, h.records, h.stands⟩
  · rw [hs] at hl
    simp [Disk.fresh] at hl

/-! ## Rows -/

/-- What holds of the rows of a published event. -/
structure Sound (D : Duel) (e : Event F) : Prop where
  /-- The rows are the duel's units. -/
  units : e.units.map Row.unitId = D.units.map UnitDef.unitId
  /-- Both sides of a duel are scored on a row or neither is; the king of a genesis is. -/
  rows : ∀ row ∈ e.units, row.Voided ∨ D.hasKing = true ∧ row.Scored ∨
    D.hasKing = false ∧ row.Crowned
  scored : D.hasKing = true → ∀ skill, ∀ side ∈ [py "king", py "challenger"],
    (Score.counts (e.units.map Row.dict) side skill).scored =
      e.units.countP fun row => row.skill == skill && !row.void
  tally : e.line.tally = unitTally (e.units.map Row.dict)
  counted : D.hasKing = true → counted (Score.tally (e.units.map Row.dict)) = e.line.tally
  total : e.line.tally.wins + e.line.tally.losses + e.line.tally.ties + e.line.tally.void =
    D.units.length
  fraction : e.voidFraction = Score.voidFraction (e.units.map Row.dict)
  stands : e.voidFraction ≤ D.maxVoidFraction

theorem rowsOf_units (d : Disk F) :
    (rowsOf D d).map Row.unitId = D.units.map UnitDef.unitId := by
  simp [rowsOf, Function.comp_def]

theorem voidFraction_asKing (rows : List (Row F)) :
    Score.voidFraction ((rows.map Row.asKing).map Row.dict) =
      Score.voidFraction (rows.map Row.dict) := by
  simp only [voidFraction_dict, List.countP_map, List.map_eq_nil_iff, List.length_map]
  rfl

theorem Describes.sound {d : Disk F} {e : Event F} (h : Describes D d e)
    (hkept : d.Kept D .king) : Sound D e := by
  obtain ⟨⟨prompts, forfeit, images, rfl, -, -⟩, hprompts, hrecords, hstands⟩ := h
  have hfraction : Score.voidFraction ((rowsOf D d).map Row.dict) ≤ D.maxVoidFraction := by
    simpa [tooVoid, Score.tooVoid] using hstands
  have hlength : (rowsOf D d).length = D.units.length := by simp [rowsOf]
  cases hking : D.hasKing with
  | true =>
    have hshape : ∀ row ∈ rowsOf D d, row.Voided ∨ row.Scored := by
      intro row hrow
      obtain ⟨u, hu, rfl⟩ := List.mem_map.1 hrow
      have hsides : D.sides = [.challenger, .king] := by rw [Duel.sides, hking]; rfl
      obtain ⟨c, hc⟩ := Option.isSome_iff_exists.1 (hrecords .challenger (by simp [hsides]) u hu)
      obtain ⟨k, hk⟩ := Option.isSome_iff_exists.1 (hrecords .king (by simp [hsides]) u hu)
      rw [hc, hk]
      exact rowOf_shape _
    have htotal := total_rows ((rowsOf D d).map Row.dict)
    rw [List.length_map, hlength] at htotal
    simp only [eventOf, hking, if_true]
    exact ⟨rowsOf_units d, fun row hrow => (hshape row hrow).imp_right fun h => Or.inl ⟨hking, h⟩,
      fun _ skill => scored_rows hshape skill, rfl, fun _ => tally_rows hshape, htotal, rfl,
      hfraction⟩
  | false =>
    have htotal := total_rows (((rowsOf D d).map Row.asKing).map Row.dict)
    rw [List.length_map, List.length_map, hlength] at htotal
    simp only [eventOf, hking, Bool.false_eq_true, if_false]
    refine ⟨?_, fun row hrow => ?_, by simp [hking], rfl, by simp [hking], htotal, rfl, ?_⟩
    · rw [List.map_map, ← rowsOf_units d]
      rfl
    · obtain ⟨row', hrow', rfl⟩ := List.mem_map.1 hrow
      obtain ⟨u, hu, rfl⟩ := List.mem_map.1 hrow'
      have hsides : D.sides = [.challenger] := by rw [Duel.sides, hking]; rfl
      obtain ⟨c, hc⟩ := Option.isSome_iff_exists.1 (hrecords .challenger (by simp [hsides]) u hu)
      have hnil : d.results .king = [] := by
        by_contra hne
        simpa [hsides] using hkept.plays hne
      have hk : d.recordOf .king u.unitId = none := by rw [Disk.recordOf, hnil]; rfl
      rw [hc, hk]
      exact (asKing_shape _).imp_right fun h => Or.inr ⟨hking, h⟩
    · rw [voidFraction_asKing]
      exact hfraction

/-- The rows that a duel publishes, whatever was killed, restarted and changed before. -/
theorem rows_sound (hs₀ : s₀.Fresh) (h : (system D).Reach (others meets) s₀ c) {l : IndexLine}
    (hl : c.state.disk.line = some l) :
    ∃ e, c.state.disk.event = some e ∧ l = e.line ∧ Sound D e := by
  have hsteps := steps_of_reach hs₀ h
  obtain ⟨e, hevent, hline, hdescribes⟩ := hsteps.published hs₀ l hl
  exact ⟨e, hevent, hline, hdescribes.sound (hsteps.kept hs₀ .king)⟩

/-- A duel of two units. -/
def toyDuel : Duel where
  units := [⟨py "u0", py "reach", none⟩, ⟨py "u1", py "reach", some 7⟩]
  distinct := by decide
  hasKing := true
  maxVoidFraction := 1 / 2
  scoreMargin := 1 / 10
  skills := [py "reach"]
  tag := Side.text

/-- A world in which the challenger wins every unit. -/
def toyWorld : World Tenths where
  fetch _ := none
  prepare side := .ok (py "image of the " ++ side.text)
  material unitId := .ok ⟨py "prompt of " ++ unitId, none⟩
  play side _ := ⟨some (side = .challenger), false, some 3, none, none, none, none⟩
  file _ := .error (py "no such file")
  tags := id
  late := false
  sideLate := false
  kingHolds := true
  faulty := false

/-- What a run of the duel that was killed leaves, and the run that goes on from there. -/
def toyEnd (w : World Tenths) : Bench Tenths :=
  ((run toyDuel).exec ((run toyDuel).after 20 ⟨w, .fresh⟩).2).2

theorem fresh_toy (w : World Tenths) : Bench.Fresh ⟨w, .fresh⟩ := rfl

theorem reach_toyEnd {w : World Tenths} (meets : Tag → Bench Tenths → Prop)
    {m : Tag → Bench Tenths → Bool} (hm : ∀ t s, m t s = true → meets t s)
    (hfirst : checked m 20 (run toyDuel) ⟨w, .fresh⟩ = true)
    (hsecond : (run toyDuel).meetsAll m ((run toyDuel).after 20 ⟨w, .fresh⟩).2 = true) :
    ∃ p, (system toyDuel).Reach (others meets) ⟨w, .fresh⟩ ⟨toyEnd w, some p⟩ := by
  have hstart : (system toyDuel).Reach (others meets) ⟨w, .fresh⟩
      ⟨⟨w, .fresh⟩, some ((), run toyDuel)⟩ := .single (.start trivial)
  have hcut := reach_checked hm 20 hfirst hstart
  have hagain := (hcut.tail (.kill trivial)).tail (.start (c := ()) trivial)
  exact ⟨_, System.Reach.exec_of_meets hm hsecond hagain⟩

/-- Where nothing is asked of the acts. -/
theorem reach_toyEnd_any (w : World Tenths) :
    ∃ p, (system toyDuel).Reach (others fun _ _ => True) ⟨w, .fresh⟩ ⟨toyEnd w, some p⟩ := by
  have hstart : (system toyDuel).Reach (others fun _ _ => True) ⟨w, .fresh⟩
      ⟨⟨w, .fresh⟩, some ((), run toyDuel)⟩ := .single (.start trivial)
  have hcut := System.Reach.after (fun _ _ => trivial) hstart 20
  have hagain := (hcut.tail (.kill trivial)).tail (.start (c := ()) trivial)
  exact ⟨_, System.Reach.exec (fun _ _ => trivial) hagain⟩

theorem published_toyEnd : ∃ l, (toyEnd toyWorld).disk.line = some l ∧ l.dethroned = true :=
  Option.map_eq_some_iff.1 (by decide +kernel)

theorem toy_sound : ∃ e, (toyEnd toyWorld).disk.event = some e ∧ e.line.dethroned = true ∧
    Sound toyDuel e := by
  obtain ⟨p, hp⟩ := reach_toyEnd_any toyWorld
  obtain ⟨l, hl, hwon⟩ := published_toyEnd
  obtain ⟨e, hevent, rfl, hsound⟩ := rows_sound (fresh_toy _) hp hl
  exact ⟨e, hevent, hwon, hsound⟩

/-! ## Prompts -/

/-- The deeds of a unit that is played and scored. -/
def playing (side : Side) (r : Record F) (made : Made) (image : PyStr) : List (Deed F) :=
  [.hashed r.unitId (.ok made.sha256), .played side r.unitId image,
    .hashed r.unitId (.ok made.sha256), .recorded side r]

/-- Where a record that is scored comes from : its unit was played, with its prompt's file as it
was recorded before and after, or the king forfeited it. -/
structure Comes (d : Disk F) (side : Side) (r : Record F) (made : Made) : Prop where
  prompt : ⟨r.unitId, .ok made⟩ ∈ d.manifest
  sha : r.promptSha256 = some made.sha256
  how : (∃ image, playing side r made image <:+: d.log) ∨ side = .king ∧
    d.forfeit.isSome = true ∧ r.success = some false

/-- What the manifest, the results and the log have to do with each other. -/
structure Disk.Traced (d : Disk F) : Prop where
  /-- The manifest is what the log says. -/
  manifest : ∀ p, p ∈ d.manifest ↔ Deed.prompted p ∈ d.log
  /-- A unit has one prompt at most. -/
  once : ∀ p ∈ d.manifest, ∀ q ∈ d.manifest, p.unitId = q.unitId → p.void = false →
    q.void = false → p = q
  records : ∀ side, ∀ r ∈ d.results side, r.void = false → ∃ made, Comes d side r made
  /-- No prompt is produced that was recorded before. -/
  materialized : ∀ pre post unitId, d.log = pre ++ .materialized unitId :: post →
    ∀ p, Deed.prompted p ∈ pre → p.unitId ≠ unitId

/-- The last entry of a list is the one split off, or it is in what follows. -/
theorem split_concat {α : Type} {xs pre post : List α} {x y : α}
    (h : xs ++ [x] = pre ++ y :: post) : pre = xs ∧ y = x ∨ ∃ post', xs = pre ++ y :: post' := by
  rcases List.eq_nil_or_concat post with rfl | ⟨post', z, rfl⟩
  · obtain ⟨hpre, hy⟩ := List.append_inj' h rfl
    exact Or.inl ⟨hpre.symm, (List.singleton_inj.1 hy).symm⟩
  · have hsplit : xs ++ [x] = (pre ++ y :: post') ++ [z] := by simpa using h
    exact Or.inr ⟨post', (List.append_inj' hsplit rfl).1⟩

section

variable {d d' : Disk F} {deed : Deed F}

theorem Comes.mono {side : Side} {r : Record F} {made : Made} (h : Comes d side r made)
    (hmanifest : d.manifest ⊆ d'.manifest) (hlog : d.log <+: d'.log)
    (hforfeit : d.forfeit.isSome = true → d'.forfeit.isSome = true) : Comes d' side r made where
  prompt := hmanifest h.prompt
  sha := h.sha
  how := h.how.imp (fun ⟨image, himage⟩ => ⟨image, himage.trans hlog.isInfix⟩) fun hking =>
    ⟨hking.1, hforfeit hking.2.1, hking.2.2⟩

/-- One more deed. -/
theorem Disk.Traced.next (h : d.Traced) (hlog : d'.log = d.log ++ [deed])
    (hmanifest : ∀ p, p ∈ d'.manifest ↔ p ∈ d.manifest ∨ deed = .prompted p)
    (honce : ∀ p ∈ d'.manifest, ∀ q ∈ d'.manifest, p.unitId = q.unitId → p.void = false →
      q.void = false → p = q)
    (hresults : ∀ side, ∀ r ∈ d'.results side, r.void = false →
      r ∈ d.results side ∨ ∃ made, Comes d' side r made)
    (hforfeit : d.forfeit.isSome = true → d'.forfeit.isSome = true)
    (hnew : ∀ unitId, deed = .materialized unitId → ∀ p ∈ d.manifest, p.unitId ≠ unitId) :
    d'.Traced where
  manifest p := by
    rw [hmanifest, hlog, h.manifest, List.mem_append, List.mem_singleton]
    exact or_congr_right eq_comm
  once := honce
  records side r hr hvoid := by
    refine (hresults side r hr hvoid).elim (fun hr => ?_) id
    obtain ⟨made, hmade⟩ := h.records side r hr hvoid
    exact ⟨made, hmade.mono (fun p hp => (hmanifest p).2 (Or.inl hp)) ⟨[deed], hlog.symm⟩ hforfeit⟩
  materialized pre post unitId hsplit p hp := by
    rw [hlog] at hsplit
    rcases split_concat hsplit with ⟨rfl, hdeed⟩ | ⟨post', hsplit⟩
    · exact hnew unitId hdeed.symm p ((h.manifest p).2 hp)
    · exact h.materialized pre post' unitId hsplit p hp

/-- A deed that neither journal is about. -/
theorem Disk.Traced.note (h : d.Traced) (hdeed : ∀ p, deed ≠ .prompted p)
    (hnew : ∀ unitId, deed = .materialized unitId → d.promptOf unitId = none) :
    (d.note deed).Traced :=
  h.next rfl (fun p => by simp [Disk.note, hdeed p]) h.once (fun _ _ hr _ => Or.inl hr) id
    fun unitId hd p hp => lastOf_eq_none.1 (hnew unitId hd) p hp

theorem Disk.Traced.move {w : World F} (h : d.Traced) (hmove : Move D meets w d d') :
    d'.Traced := by
  cases hmove with
  | prepare => exact h.note (by simp) (by simp)
  | hash => exact h.note (by simp) (by simp)
  | play => exact h.note (by simp) (by simp)
  | materialize unitId _ hnew => exact h.note (by simp) fun u hu => by cases hu; exact hnew
  | forfeit reason =>
    exact h.next rfl (fun p => by simp [Disk.forfeits, Disk.note]) h.once
      (fun _ _ hr _ => Or.inl hr) (fun _ => rfl) (by simp)
  | prompt p _ hkept =>
    have hmanifest : ∀ q, q ∈ (d.prompt p).manifest ↔ q ∈ d.manifest ∨ q = p := by
      simp [Disk.prompt]
    refine h.next rfl (fun q => ?_) ?_ (fun _ _ hr _ => Or.inl hr) id (by simp)
    · rw [hmanifest, Deed.prompted.injEq, eq_comm (a := q)]
    · -- a prompt that is not void is the first of its unit
      have hfirst : ∀ q ∈ d.manifest, p.unitId = q.unitId → p.void = false → False :=
        fun q hq heq hvoid => by
          rcases hkept with hkept | hkept
          · simp [hkept] at hvoid
          · exact lastOf_eq_none.1 hkept q hq heq.symm
      intro q hq q' hq' heq hvoid hvoid'
      rcases (hmanifest q).1 hq with hold | hnew <;> rcases (hmanifest q').1 hq' with hold' | hnew'
      · exact h.once q hold q' hold' heq hvoid hvoid'
      · subst hnew'
        exact (hfirst q hold heq.symm hvoid').elim
      · subst hnew
        exact (hfirst q' hold' heq hvoid).elim
      · rw [hnew, hnew']
  | record side r _ hr =>
    refine h.next rfl (fun p => by simp [Disk.record, Disk.note]) h.once
      (fun side' r' hr' hvoid => ?_) id (by simp)
    by_cases hside : side' = side
    · subst hside
      simp only [Disk.record, Function.update_self, List.mem_append, List.mem_singleton] at hr'
      refine hr'.imp_right fun heq => ?_
      subst heq
      obtain ⟨made, hscored⟩ := hr.scored hvoid
      refine ⟨made, (lastOf_mem hscored.prompt).1, hscored.sha, hscored.how.imp ?_ id⟩
      rintro ⟨⟨image, pre, hpre⟩, -⟩
      exact ⟨image, pre, [], by simp [playing, Disk.record, Disk.note, ← hpre]⟩
    · exact Or.inl (by simpa [Disk.record, Function.update_of_ne hside] using hr')
  | publish => exact ⟨h.manifest, h.once, fun side r hr hv => (h.records side r hr hv).imp
      fun _ hc => hc.mono (List.Subset.refl _) (List.prefix_refl _) id, h.materialized⟩
  | line => exact ⟨h.manifest, h.once, fun side r hr hv => (h.records side r hr hv).imp
      fun _ hc => hc.mono (List.Subset.refl _) (List.prefix_refl _) id, h.materialized⟩
  | decide => exact ⟨h.manifest, h.once, fun side r hr hv => (h.records side r hr hv).imp
      fun _ hc => hc.mono (List.Subset.refl _) (List.prefix_refl _) id, h.materialized⟩
  | moveAside =>
    exact ⟨fun p => by simp [Disk.moveAside, Disk.fresh], by simp [Disk.moveAside, Disk.fresh],
      by simp [Disk.moveAside, Disk.fresh], fun pre post unitId hsplit => by
        simp [Disk.moveAside, Disk.fresh] at hsplit⟩

end

/-- A king's forfeit is recorded only where the king has won no unit. -/
def NoneWon : Tag → Bench F → Prop
  | .forfeits, s => ∀ r ∈ s.disk.results .king, r.void = true ∨ r.scored = false
  | _, _ => True

/-- A king that forfeits has won no unit. -/
structure Disk.Lost (d : Disk F) : Prop where
  texts : ∀ reason, d.forfeit = some reason → reason ≠ []
  lost : d.forfeit.isSome = true → ∀ r ∈ d.results .king, r.void = true ∨ r.scored = false

theorem Disk.Lost.forfeited {d : Disk F} (h : d.Lost) (hd : d.forfeit.isSome = true) :
    d.Forfeited :=
  (Option.isSome_iff_exists.1 hd).imp fun reason hreason => ⟨hreason, h.texts reason hreason⟩

theorem Disk.Lost.move {w : World F} {d d' : Disk F} (h : d.Lost)
    (hmove : Move D NoneWon w d d') : d'.Lost := by
  cases hmove with
  | forfeit reason _ hreason hmeets =>
    exact ⟨fun reason' heq => Option.some.inj heq ▸ hreason, fun _ => hmeets⟩
  | record side r _ hr =>
    refine ⟨h.texts, fun hd r' hr' => ?_⟩
    cases side with
    | challenger => exact h.lost hd r' (by simpa [Disk.record] using hr')
    | king =>
      simp only [Disk.record, Function.update_self, List.mem_append, List.mem_singleton] at hr'
      rcases hr' with hr' | rfl
      · exact h.lost hd r' hr'
      · cases hvoid : r'.void with
        | true => exact Or.inl rfl
        | false =>
          obtain ⟨made, hscored⟩ := hr.scored hvoid
          rcases hscored.how with ⟨-, hnot⟩ | ⟨-, -, hfalse⟩
          · exact absurd ⟨rfl, h.forfeited hd⟩ hnot
          · exact Or.inr (by rw [Record.scored, hfalse]; rfl)
  | moveAside => exact ⟨by simp [Disk.moveAside, Disk.fresh], by simp [Disk.moveAside, Disk.fresh]⟩
  | _ => exact ⟨h.texts, h.lost⟩

/-- A side that wins no row has no score but zero. -/
theorem skillRate_of_lost {rows : List (Row F)}
    (h : ∀ row ∈ rows, row.void = false → row.king.success = some false) (skill : PyStr) :
    Score.skillRate (rows.map Row.dict) (py "king") skill ∈ [none, some 0] := by
  have hzero : (rows.map Row.dict).countP (Score.isSuccess (py "king") skill) = 0 := by
    rw [List.countP_eq_zero]
    rintro u hu
    obtain ⟨row, hrow, rfl⟩ := List.mem_map.1 hu
    cases hvoid : row.void with
    | true => simp [Score.isSuccess, hvoid]
    | false => simp [Score.isSuccess, h row hrow hvoid]
  rw [Score.skillRate, Score.counts_eq, hzero]
  split_ifs <;> simp

/-- A king that forfeits wins no unit of a published duel, as long as it is refused only while it
has won none. -/
theorem forfeit_total (hs₀ : s₀.Fresh)
    (h : (system D).Reach (others (NoneWon (F := F))) s₀ c) {l : IndexLine}
    (hl : c.state.disk.line = some l) :
    ∃ e, c.state.disk.event = some e ∧ (e.forfeit.isSome = true →
      (∀ row ∈ e.units, row.void = false → row.king.success = some false) ∧
        ∀ skill, Score.skillRate (e.units.map Row.dict) (py "king") skill ∈ [none, some 0]) := by
  have hsteps := steps_of_reach hs₀ h
  have hlost : c.state.disk.Lost := hsteps.inv (fun _ _ _ hd hmove => hd.move hmove)
    (hs₀ ▸ ⟨by simp [Disk.fresh], by simp [Disk.fresh]⟩)
  obtain ⟨e, hevent, -, hdescribes⟩ := hsteps.published hs₀ l hl
  refine ⟨e, hevent, fun hnote => ?_⟩
  have hrows : ∀ row ∈ e.units, row.void = false → row.king.success = some false := by
    obtain ⟨⟨prompts, forfeit, images, rfl, hforfeit, -⟩, -, hrecords, -⟩ := hdescribes
    obtain ⟨reason, hreason⟩ : ∃ reason, forfeit = some reason := by
      cases forfeit with
      | none => cases hking : D.hasKing <;> simp [eventOf, hking] at hnote
      | some reason => exact ⟨reason, rfl⟩
    obtain ⟨hrecorded, hking⟩ := hforfeit reason hreason
    intro row hrow hvoid
    simp only [eventOf, hking, if_true] at hrow
    obtain ⟨u, hu, rfl⟩ := List.mem_map.1 hrow
    have hplays : Side.king ∈ D.sides := by simp [Duel.sides, hking]
    obtain ⟨k, hk⟩ := Option.isSome_iff_exists.1 (hrecords .king hplays u hu)
    rw [hk] at hvoid ⊢
    rw [king_rowOf _ _ hvoid]
    have hkvoid : k.void = false := by
      rw [rowOf_void, Bool.or_eq_false_iff] at hvoid
      exact hvoid.2
    rw [(hlost.lost (by rw [hrecorded]; rfl) k (lastOf_mem hk).1).resolve_left (by simp [hkvoid])]
  exact ⟨hrows, skillRate_of_lost hrows⟩

/-- A world in which the king is refused. -/
def toyRefused : World Tenths :=
  { toyWorld with
    prepare := fun side =>
      if side = .king then .error (.refused (py "build") (py "no such image")) else .ok (py "c") }

/-- Whether the king has won no unit where its forfeit is recorded. -/
def noneWon : Tag → Bench F → Bool
  | .forfeits, s => (s.disk.results .king).all fun r => r.void || !r.scored
  | _, _ => true

theorem noneWon_of {t : Tag} {s : Bench F} (h : noneWon t s = true) : NoneWon t s := by
  cases t with
  | forfeits => simpa [NoneWon, noneWon] using h
  | _ => trivial

theorem checked_toyRefused : checked noneWon 20 (run toyDuel) ⟨toyRefused, .fresh⟩ = true ∧
    (run toyDuel).meetsAll noneWon ((run toyDuel).after 20 ⟨toyRefused, .fresh⟩).2 = true ∧
    (toyEnd toyRefused).disk.line.isSome = true ∧
    ((toyEnd toyRefused).disk.event.map Event.forfeit).any Option.isSome = true := by
  decide +kernel

theorem toy_forfeit : ∃ e, (toyEnd toyRefused).disk.event = some e ∧ e.forfeit.isSome = true ∧
    ∀ row ∈ e.units, row.void = false → row.king.success = some false := by
  obtain ⟨hfirst, hsecond, hsome, hnoted⟩ := checked_toyRefused
  obtain ⟨p, hp⟩ := reach_toyEnd (w := toyRefused) (m := noneWon) _ (fun _ _ => noneWon_of)
    hfirst hsecond
  obtain ⟨l, hl⟩ := Option.isSome_iff_exists.1 hsome
  obtain ⟨e, hevent, hlost⟩ := forfeit_total (fresh_toy _) hp hl
  rw [hevent] at hnoted
  exact ⟨e, hevent, hnoted, (hlost hnoted).1⟩

/-! ## Images -/

/-- A tag names the image that its side was prepared with whenever a container is made from it, a
side is prepared again only as the image that its containers were made from, and a king forfeits
only before it has any. -/
def Named (D : Duel) : Tag → Bench F → Prop
  | .nothing, _ => True
  | .plays side image, s => image = some (s.world.tags (D.tag side))
  | .prepares side, s => ∀ image, s.world.prepare side = .ok image →
      ∀ unitId image', Deed.played side unitId image' ∈ s.disk.log → image' = image
  | .forfeits, s => ∀ unitId image, Deed.played .king unitId image ∉ s.disk.log

/-- Every container of a side was made from the image that it was last prepared with. -/
structure Disk.Imaged (d : Disk F) : Prop where
  texts : ∀ reason, d.forfeit = some reason → reason ≠ []
  played : ∀ side unitId image, Deed.played side unitId image ∈ d.log →
    lastPrepared side d.log = some image
  forfeit : d.forfeit.isSome = true → ∀ unitId image, Deed.played .king unitId image ∉ d.log

section

variable {d d' : Disk F} {deed : Deed F}

/-- A deed that no container and no image is about. -/
theorem Disk.Imaged.next (h : d.Imaged) (hlog : d'.log = d.log ++ [deed])
    (hforfeit : d'.forfeit = d.forfeit) (himage : ∀ side, deed.image side = none)
    (hplayed : ∀ side unitId image, deed ≠ .played side unitId image) : d'.Imaged := by
  have hmem : ∀ side unitId image, Deed.played side unitId image ∈ d'.log →
      Deed.played side unitId image ∈ d.log := fun side unitId image hin => by
    rw [hlog, List.mem_append, List.mem_singleton] at hin
    exact hin.resolve_right fun heq => hplayed side unitId image heq.symm
  refine ⟨hforfeit ▸ h.texts, fun side unitId image hin => ?_, fun hd unitId image hin => ?_⟩
  · rw [hlog, lastPrepared_append, himage, Option.none_or]
    exact h.played side unitId image (hmem side unitId image hin)
  · exact h.forfeit (hforfeit ▸ hd) unitId image (hmem _ unitId image hin)

theorem Disk.Imaged.move {w : World F} (h : d.Imaged) (hmove : Move D (Named D) w d d') :
    d'.Imaged := by
  cases hmove with
  | prepare side image _ hmeets himage =>
    have hmem : ∀ other unitId image', Deed.played other unitId image' ∈
        (d.note (.prepared side image)).log → Deed.played other unitId image' ∈ d.log := by
      simp [Disk.note]
    refine ⟨h.texts, fun other unitId image' hin => ?_, fun hd unitId image' hin =>
      h.forfeit hd unitId image' (hmem _ _ _ hin)⟩
    have hold := hmem other unitId image' hin
    refine (lastPrepared_append other d.log (.prepared side image)).trans ?_
    by_cases hside : side = other
    · subst hside
      simp [Deed.image, hmeets image himage unitId image' hold]
    · simpa [Deed.image, hside] using h.played other unitId image' hold
  | play side unitId image _ hlast hking _ hmeets =>
    have hmem : ∀ other unitId' image', Deed.played other unitId' image' ∈
        (d.note (.played side unitId (w.tags (D.tag side)))).log →
          Deed.played other unitId' image' ∈ d.log ∨
            other = side ∧ image' = w.tags (D.tag side) := by
      intro other unitId' image' hin
      simp only [Disk.note, List.mem_append, List.mem_singleton, Deed.played.injEq] at hin
      exact hin.imp_right fun heq => ⟨heq.1, heq.2.2⟩
    refine ⟨h.texts, fun other unitId' image' hin => ?_, fun hd unitId' image' hin => ?_⟩
    · refine (lastPrepared_append other d.log _).trans ?_
      refine Option.none_or.trans ?_
      rcases hmem other unitId' image' hin with hold | ⟨rfl, rfl⟩
      · exact h.played other unitId' image' hold
      · exact hlast.symm.trans hmeets
    · rcases hmem .king unitId' image' hin with hold | ⟨rfl, -⟩
      · exact h.forfeit hd unitId' image' hold
      · obtain ⟨reason, hreason⟩ := Option.isSome_iff_exists.1 hd
        exact hking ⟨rfl, reason, hreason, h.texts reason hreason⟩
  | forfeit reason _ hreason hmeets =>
    have hnone : ∀ unitId image, Deed.played .king unitId image ∉ (d.forfeits reason).log := by
      intro unitId image hin
      exact hmeets unitId image (by simpa [Disk.forfeits, Disk.note] using hin)
    refine ⟨fun reason' heq => Option.some.inj heq ▸ hreason, fun side unitId image hin => ?_,
      fun _ => hnone⟩
    refine (lastPrepared_append side d.log (.forfeited reason)).trans (Option.none_or.trans ?_)
    exact h.played side unitId image (by simpa [Disk.forfeits, Disk.note] using hin)
  | materialize => exact h.next rfl rfl (fun _ => rfl) (by simp)
  | prompt => exact h.next rfl rfl (fun _ => rfl) (by simp)
  | hash => exact h.next rfl rfl (fun _ => rfl) (by simp)
  | record => exact h.next rfl rfl (fun _ => rfl) (by simp)
  | moveAside =>
    exact ⟨by simp [Disk.moveAside, Disk.fresh], by simp [Disk.moveAside, Disk.fresh],
      by simp [Disk.moveAside, Disk.fresh]⟩
  | _ => exact ⟨h.texts, h.played, h.forfeit⟩

end

/-- The side that a published event has a side's image under. -/
def Duel.slot (D : Duel) (side : Side) : Side := if D.hasKing then side else .king

/-- Every container of a side was made from the image that is published for it. -/
theorem images_recorded (hs₀ : s₀.Fresh) (h : (system D).Reach (others (Named D)) s₀ c)
    {l : IndexLine} (hl : c.state.disk.line = some l) :
    ∃ e, c.state.disk.event = some e ∧ ∀ side ∈ D.sides, ∀ unitId image,
      Deed.played side unitId image ∈ c.state.disk.log → e.images (D.slot side) = some image := by
  have hsteps := steps_of_reach hs₀ h
  have himaged : c.state.disk.Imaged := hsteps.inv (fun _ _ _ hd hmove => hd.move hmove)
    (hs₀ ▸ ⟨by simp [Disk.fresh], by simp [Disk.fresh], by simp [Disk.fresh]⟩)
  obtain ⟨e, hevent, -, hdescribes⟩ := hsteps.published hs₀ l hl
  refine ⟨e, hevent, fun side hside unitId image hplayed => ?_⟩
  obtain ⟨⟨prompts, forfeit, images, rfl, hforfeit, himages⟩, -⟩ := hdescribes
  have himage : images side = some image := by
    rcases himages side hside with ⟨hlast, -⟩ | ⟨rfl, -, hsome⟩
    · exact hlast.trans (himaged.played side unitId image hplayed)
    · obtain ⟨reason, hreason⟩ := Option.isSome_iff_exists.1 hsome
      have hrecorded := (hforfeit reason hreason).1
      exact absurd hplayed (himaged.forfeit (by rw [hrecorded]; rfl) unitId image)
  cases hking : D.hasKing with
  | true => simpa [eventOf, Duel.slot, hking] using himage
  | false =>
    have hchallenger : side = .challenger := by simpa [Duel.sides, hking] using hside
    subst hchallenger
    simpa [eventOf, Duel.slot, hking] using himage

/-- Whether the tags name what they are to name. -/
def named (D : Duel) : Tag → Bench F → Bool
  | .nothing, _ => true
  | .plays side image, s => image == some (s.world.tags (D.tag side))
  | .prepares side, s =>
    match s.world.prepare side with
    | .ok image => s.disk.log.all fun deed => playedFrom side deed == none ||
        playedFrom side deed == some image
    | .error _ => true
  | .forfeits, s => s.disk.log.all fun deed => playedFrom .king deed == none
where
  /-- The image of a container of the side. -/
  playedFrom (side : Side) : Deed F → Option PyStr
    | .played side' _ image => if side' = side then some image else none
    | _ => none

theorem named_of {t : Tag} {s : Bench F} (h : named D t s = true) : Named D t s := by
  cases t with
  | nothing => trivial
  | plays side image => exact beq_iff_eq.1 h
  | prepares side =>
    intro image himage unitId image' hplayed
    simp only [named, himage, List.all_eq_true] at h
    simpa [named.playedFrom] using h _ hplayed
  | forfeits =>
    intro unitId image hplayed
    simp only [named, List.all_eq_true] at h
    simpa [named.playedFrom] using h _ hplayed

theorem checked_toyWorld : checked (named toyDuel) 20 (run toyDuel) ⟨toyWorld, .fresh⟩ = true ∧
    (run toyDuel).meetsAll (named toyDuel)
      ((run toyDuel).after 20 ⟨toyWorld, .fresh⟩).2 = true := by
  decide +kernel

theorem toy_images : ∃ e, (toyEnd toyWorld).disk.event = some e ∧ ∀ side ∈ toyDuel.sides,
    ∀ unitId image, Deed.played side unitId image ∈ (toyEnd toyWorld).disk.log →
      e.images side = some image := by
  obtain ⟨hfirst, hsecond⟩ := checked_toyWorld
  obtain ⟨p, hp⟩ := reach_toyEnd (w := toyWorld) (m := named toyDuel) _ (fun _ _ => named_of)
    hfirst hsecond
  obtain ⟨l, hl, -⟩ := published_toyEnd
  exact images_recorded (fresh_toy _) hp hl

end DuelRun

end IcilOrchestrator

import Mathlib
import IcilOrchestrator.Daemon

/-!
# The entry that a duel is run for

A step builds its request from the entry it has peeked, and takes an entry by its key. Between
the two others may queue the key anew : behind other entries, or at another size. Where nobody
does (`Fair`), every duel is run for the entry at the queue's head, as that entry asks
(`fits_of_reach`).
-/

set_option linter.unusedSectionVars false

namespace IcilOrchestrator

open Python Prog

namespace Daemon

section Takes

variable {F : Type} [PyFloat F] [PyRepr F] [Unicode] {c : Crypto} {S : Contract F}

/-! ## The peeked entry, while it waits -/

/-- An entry asks for what another does. -/
structure Like (S : Contract F) (e x : QueueEntry F) : Prop where
  same : (ref e).Same (ref x)
  size : S.sizeOf e.duelSize = S.sizeOf x.duelSize

theorem Like.refl (e : QueueEntry F) : Like S e e := ⟨⟨rfl, rfl, rfl⟩, rfl⟩

theorem sizeOf_sortKeys (j : Json F) : S.sizeOf j.sortKeys = S.sizeOf j := by
  cases j <;> rfl

theorem Like.sorted {e x : QueueEntry F} (h : Like S e x) : Like S e x.sorted := by
  obtain ⟨⟨hkey, hrepo, hrev⟩, hsize⟩ := h
  refine ⟨⟨?_, ?_, ?_⟩, ?_⟩
  · exact hkey.trans (Json.sortKeys_sortKeys _).symm
  · exact hrepo.trans (Json.sortKeys_sortKeys _).symm
  · exact hrev.trans (Json.sortKeys_sortKeys _).symm
  · exact hsize.trans (sizeOf_sortKeys _).symm

theorem hasKey_sorted (e : QueueEntry F) (k : PyStr) :
    e.sorted.hasKey (.str k) = e.hasKey (.str k) := by
  rw [Bool.eq_iff_iff, hasKey_str, hasKey_str, strKey_sorted]

/-- Of the entries of a key the first is the queue's first, and asks for what `e` does. -/
def First (S : Contract F) (e : QueueEntry F) (k : PyStr) (es : List (QueueEntry F)) : Prop :=
  ∀ x, es.find? (·.hasKey (.str k)) = some x → es.head? = some x ∧ Like S e x

variable {e : QueueEntry F} {k : PyStr} {es : List (QueueEntry F)}

theorem First.sorted (h : First S e k es) : First S e k (es.map QueueEntry.sorted) := by
  intro x hx
  have hcomp : (fun y : QueueEntry F => y.hasKey (.str k)) ∘ QueueEntry.sorted =
      fun y => y.hasKey (.str k) := funext fun y => hasKey_sorted y k
  rw [List.find?_map, hcomp] at hx
  obtain ⟨y, hy, rfl⟩ := Option.map_eq_some_iff.1 hx
  obtain ⟨hhead, hlike⟩ := h y hy
  exact ⟨by rw [List.head?_map, hhead]; rfl, hlike.sorted⟩

/-- The entries of another key go away, or all of this one. -/
theorem First.without (h : First S e k es) (k' : PyStr) :
    First S e k (IcilOrchestrator.without (.str k') es) := by
  intro x hx
  have hkey := List.find?_some hx
  have hmem := List.mem_filter.1 (List.mem_of_find?_eq_some hx)
  have hne : k ≠ k' := by
    rintro rfl
    simp [hkey] at hmem
  -- an entry of the key stays
  have hstays : ∀ y : QueueEntry F, y.hasKey (.str k) = true → (!y.hasKey (.str k')) = true := by
    intro y hy
    rw [hasKey_str] at hy
    simp [← Bool.not_eq_true, hasKey_str, hy, hne]
  have hfind : es.find? (·.hasKey (.str k)) = some x := by
    rw [IcilOrchestrator.without, List.find?_filter] at hx
    rw [← hx]
    congr 1
    funext y
    cases hy : y.hasKey (.str k) with
    | false => simp
    | true => simp [hstays y hy]
  obtain ⟨hhead, hlike⟩ := h x hfind
  refine ⟨?_, hlike⟩
  cases es with
  | nil => simp at hhead
  | cons y es =>
    obtain rfl : y = x := by simpa using hhead
    rw [IcilOrchestrator.without, List.filter_cons, if_pos (hstays y hkey), List.head?_cons]

/-- An entry more, of the key only if it is the first, and asks for what `e` does. -/
theorem First.concat (h : First S e k es) {y : QueueEntry F}
    (hy : y.hasKey (.str k) = true → (∀ z ∈ es, z.hasKey (.str k) = true) ∧ Like S e y) :
    First S e k (es ++ [y]) := by
  intro x hx
  rw [List.find?_append] at hx
  cases hfind : es.find? (·.hasKey (.str k)) with
  | some z =>
    rw [hfind, Option.some_or] at hx
    obtain rfl := Option.some.inj hx
    obtain ⟨hhead, hlike⟩ := h z hfind
    exact ⟨by rw [List.head?_append, hhead]; rfl, hlike⟩
  | none =>
    rw [hfind, Option.none_or] at hx
    have hkey := List.find?_some hx
    obtain rfl : x = y := List.mem_singleton.1 (List.mem_of_find?_eq_some hx)
    obtain ⟨hall, hlike⟩ := hy hkey
    obtain rfl : es = [] := by
      refine List.eq_nil_iff_forall_not_mem.2 fun z hz => ?_
      have := List.find?_eq_none.1 hfind z hz
      exact this (hall z hz)
    exact ⟨rfl, hlike⟩

/-- What is still so of an entry that was peeked : it is the first of the queue, or gone. -/
def Waits (S : Contract F) (e : QueueEntry F) (file : Option Bytes) : Prop :=
  ∀ s k, load file = .ok s → e.key = .str k → First S e k s.entries

/-- The entry that was peeked is the first one. -/
theorem waits_head {file : Option Bytes} {s : QueueState F} (hload : load file = .ok s)
    (hhead : s.entries.head? = some e) : Waits S e file := by
  intro s' k hs' hk x hx
  obtain rfl : s = s' := Except.ok.inj (hload.symm.trans hs')
  cases hes : s.entries with
  | nil => simp [hes] at hhead
  | cons y es =>
    rw [hes] at hhead hx
    obtain rfl : y = e := by simpa using hhead
    have hkey : y.hasKey (.str k) = true := hasKey_str.2 (strKey_eq_some.2 hk)
    rw [List.find?_cons, hkey] at hx
    obtain rfl := Option.some.inj hx
    exact ⟨rfl, .refl y⟩

/-- What others ask of the queue leaves it so, where they are fair. -/
theorem Waits.apply {h : Host F} (hw : Waits S e h.file) (he : h.peeked = some e) {m : Mutation F}
    (hm : byOthers m) (hfair : Fair c S h m) {file : Option Bytes} {a : Answer F}
    (happly : m.apply c h.file = .ok (file, a)) : Waits S e file := by
  obtain ⟨b, s, t, hb, hs, hexec, hload⟩ := load_apply happly
  intro s' k hs' hk
  obtain rfl : t.sorted = s' := Except.ok.inj (hload.symm.trans hs')
  have hfirst := hw s k hs hk
  refine First.sorted ?_
  have hqueued : ∀ x, queued c s m = some x → x.hasKey (.str k) = true →
      (∀ y ∈ s.entries, y.hasKey (.str k) = true) ∧ Like S e x := by
    intro x hx hkey
    obtain ⟨hall, hsame, hsize⟩ := hfair e s x he hs hx (by rwa [hk])
    exact ⟨by rwa [hk] at hall, hsame, hsize⟩
  cases m with
  | add repo revision duelSize source now =>
    rw [Mutation.body] at hb
    split at hb
    · rename_i r hr
      obtain rfl := Except.ok.inj hb
      rw [exec_addBody] at hexec
      obtain ⟨-, rfl⟩ := Prod.mk.inj hexec
      refine (hfirst.without r.key).concat fun hkey => ?_
      obtain ⟨hall, hlike⟩ := hqueued _ (by simp [queued, hr]) hkey
      exact ⟨fun z hz => hall z (List.mem_filter.1 hz).1, hlike⟩
    · simp at hb
  | offer repo revision duelSize source now =>
    rw [Mutation.body] at hb
    split at hb
    · rename_i r hr
      obtain rfl := Except.ok.inj hb
      cases hfind : s.entries.findIdx? fun y => y.hasKey (.str r.key) with
      | some n =>
        have hexec' : ((offerBody r duelSize source now).exec s).2 = s := exec_offerBody_some hfind
        rw [hexec] at hexec'
        obtain rfl : t = s := hexec'
        exact hfirst
      | none =>
        have hexec' : ((offerBody r duelSize source now).exec s).2 =
            { s with entries := s.entries ++ [entryFor r s.block duelSize source now] } :=
          exec_offerBody_none hfind
        rw [hexec] at hexec'
        obtain rfl : t = _ := hexec'
        exact hfirst.concat (hqueued _ (by
          simpa [queued, hr] using List.findIdx?_eq_none_iff.1 hfind))
    · simp at hb
  | remove key =>
    obtain rfl := Except.ok.inj hb
    rw [exec_removeBody] at hexec
    obtain ⟨-, rfl⟩ := Prod.mk.inj hexec
    exact hfirst.without key
  | _ => exact absurd hm id

/-! ## What programs keep -/

/-- No act runs a duel but for the entry that is to be. -/
def Runs (S : Contract F) (_ : Unit) (h h' : Host F) : Prop :=
  ∀ x ∈ h'.ran, x ∈ h.ran ∨ x.Fits S

/-- A program of a step keeps what holds of the host, and runs duels as it is to. -/
def Keeps {α : Type} (c : Crypto) (S : Contract F) (P : Host F → Prop) (p : HProg F α) : Prop :=
  ∀ h, P h → Wp (world c (Fair c S)) (Runs S) (fun _ => P) p h

/-- What others do leaves it so. -/
def Stays (c : Crypto) (S : Contract F) (P : Host F → Prop) : Prop :=
  ∀ h h', P h → (world c (Fair c S)).rely h h' → P h'

variable {α β : Type} {P : Host F → Prop}

theorem stays_true : Stays c S (fun _ : Host F => True) := fun _ _ _ _ => trivial

theorem runs_of_eq {h h' : Host F} (heq : h'.ran = h.ran) : Runs S () h h' :=
  fun _ hx => Or.inl (heq ▸ hx)

theorem keeps_ret (hP : Stays c S P) (r : Except PyError α) : Keeps c S P (.ret r : HProg F α) :=
  fun _ hp => Wp.done hp hP fun _ h => h

theorem keeps_act (hP : Stays c S P) {f : Host F → Host F} {k : Host F → HProg F α}
    (hf : ∀ h, P h → (f h).ran = h.ran ∧ P (f h)) (hk : ∀ h, Keeps c S P (k h)) :
    Keeps c S P (.act () f k) := fun _ hp =>
  Wp.step hp hP fun h hh _ => ⟨runs_of_eq (hf h hh).1, hk h _ (hf h hh).2⟩

theorem Keeps.bind {p : HProg F α} {f : α → HProg F β} (hp : Keeps c S P p)
    (hf : ∀ a, Keeps c S P (f a)) : Keeps c S P (p >>= f) := by
  refine fun h hh => wp_bind.2 ((hp h hh).mono fun r h' hh' => ?_)
  cases r with
  | ok a => exact hf a h' hh'
  | error e => exact hh'

theorem keeps_read (hP : Stays c S P) (g : Host F → α) : Keeps c S P (.read () g : HProg F α) :=
  keeps_act hP (fun _ hh => ⟨rfl, hh⟩) fun _ => keeps_ret hP _

theorem keeps_try (hP : Stays c S P) (g : Host F → Except PyError α) :
    Keeps c S P (.try' () g : HProg F α) :=
  keeps_act hP (fun _ hh => ⟨rfl, hh⟩) fun _ => keeps_ret hP _

theorem keeps_write (hP : Stays c S P) {f : Host F → Host F}
    (hf : ∀ h, P h → (f h).ran = h.ran ∧ P (f h)) : Keeps c S P (.write () f : HProg F Unit) :=
  keeps_act hP hf fun _ => keeps_ret hP _

theorem keeps_nextBlock (hP : Stays c S P) : Keeps c S P (nextBlock : HProg F ℤ) :=
  (keeps_try hP _).bind fun _ => (keeps_try hP _).bind fun _ => keeps_ret hP _

/-- What is said of the run directories is no matter. -/
theorem keeps_recordRequest (hP : Stays c S P)
    (hrequests : ∀ h, P h → ∀ requests, P { h with requests := requests }) (req : DuelRequest F) :
    Keeps c S P (recordRequest c S req) := by
  have hrecord : ∀ dir wanted, Keeps c S P (recordRequest.record dir wanted : HProg F Unit) :=
    fun dir wanted => keeps_write hP fun h hh => ⟨rfl, hrequests h hh _⟩
  unfold recordRequest
  split_ifs
  · refine (keeps_try hP _).bind fun dir => (keeps_try hP _).bind fun wanted =>
      (keeps_read hP _).bind fun existing => (keeps_read hP _).bind fun holds => ?_
    split
    · exact keeps_ret hP _
    · refine Keeps.bind (keeps_write hP ?_) fun _ => hrecord dir wanted
      exact fun h hh => ⟨rfl, hrequests h hh _⟩
    · exact hrecord dir wanted
  · exact keeps_ret hP _

/-- A change of the queue by the step itself. -/
theorem keeps_change (b : Body F (Answer F)) : Keeps c S (fun _ => True) (change b) := by
  refine keeps_act stays_true (fun h _ => ⟨?_, trivial⟩) fun _ => keeps_ret stays_true _
  cases applyBody b h.file <;> rfl

theorem keeps_publishQueue (hP : Stays c S P) : Keeps c S P (publishQueue : HProg F Unit) :=
  keeps_write hP fun _ hh => ⟨rfl, hh⟩

theorem keeps_finish : Keeps c S (fun _ : Host F => True) runDuel.finish :=
  (keeps_change _).bind fun _ => (keeps_publishQueue stays_true).bind fun _ => keeps_ret stays_true _

/-- A duel is run that fits its entry. -/
theorem keeps_runDuel {req : DuelRequest F} {taken : Option (QueueState F × QueueEntry F)}
    (hfits : Ran.Fits S ⟨req, taken⟩) : Keeps c S (fun _ => True) (runDuel S req taken) := by
  have hran : Keeps c S (fun _ : Host F => True)
      (.write () fun h => { h with ran := h.ran ++ [⟨req, taken⟩] } : HProg F Unit) := fun _ hp =>
    Wp.step hp stays_true fun h _ _ => by
      refine ⟨fun x hx => ?_, keeps_ret stays_true _ _ trivial⟩
      rcases List.mem_append.1 hx with hx | hx
      · exact Or.inl hx
      · exact Or.inr (List.mem_singleton.1 hx ▸ hfits)
  refine hran.bind fun _ => (keeps_read stays_true _).bind fun outcome => ?_
  cases outcome with
  | returned => exact keeps_finish
  | failed => exact keeps_finish
  | unavailable => exact keeps_ret stays_true _
  | crownMoved =>
    exact (keeps_read stays_true _).bind fun _ => (keeps_change _).bind fun _ =>
      (keeps_publishQueue stays_true).bind fun _ => keeps_ret stays_true _
  | raised e => exact keeps_ret stays_true _

theorem fits_none (req : DuelRequest F) : Ran.Fits S ⟨req, none⟩ := by
  intro s e h
  simp at h

theorem keeps_resume (mark : InProgress F) : Keeps c S (fun _ => True) (resume c S mark) := by
  unfold resume
  split
  · refine (keeps_try stays_true _).bind fun req => ?_
    cases req with
    | none => exact keeps_finish
    | some req =>
      dsimp only
      split_ifs
      · exact keeps_runDuel (fits_none req)
      · exact keeps_finish
  · exact keeps_ret stays_true _

theorem keeps_stalled (b : Bool) : Keeps c S (fun _ : Host F => True) (do
    .write () fun h => { h with stalled := true }
    pure b : HProg F Bool) := by
  refine Keeps.bind (keeps_write stays_true ?_) fun _ => keeps_ret stays_true _
  exact fun _ _ => ⟨rfl, trivial⟩

theorem keeps_baselineGenesis (baseline : Dict F) :
    Keeps c S (fun _ => True) (baselineGenesis c S baseline) := by
  unfold baselineGenesis
  split
  · exact keeps_stalled false
  · refine (keeps_read stays_true _).bind fun ready => ?_
    cases ready with
    | false => exact keeps_ret stays_true _
    | true =>
      refine (keeps_nextBlock stays_true).bind fun block =>
        (keeps_recordRequest stays_true (fun (_ : Host F) _ _ => trivial) _).bind fun _ =>
        (keeps_change _).bind fun _ => (keeps_try stays_true _).bind fun _ =>
        (keeps_read stays_true _).bind fun _ => (keeps_change _).bind fun _ =>
        (keeps_publishQueue stays_true).bind fun _ =>
        (keeps_runDuel (fits_none _)).bind fun ran => ?_
      cases ran with
      | false => exact keeps_ret stays_true _
      | true =>
        refine (keeps_try stays_true _).bind fun king => ?_
        cases king with
        | none => exact keeps_stalled true
        | some k => exact keeps_ret stays_true _

/-! ## From the peek to the run -/

/-- A step has peeked an entry, which waits where it was, or is gone. -/
def Peeked (S : Contract F) (e : QueueEntry F) (h : Host F) : Prop :=
  h.peeked = some e ∧ Waits S e h.file

theorem stays_peeked : Stays c S (Peeked S e) := by
  intro h h' hh hrely
  induction hrely with
  | refl => exact hh
  | tail _ hstep ih =>
    cases hstep with
    | mutates hm hfair happly => exact ⟨ih.1, ih.2.apply ih.1 hm hfair happly⟩
    | finds => exact ih

/-- What is left of a program, from what holds until then. -/
theorem Keeps.wp {p : HProg F α} {f : α → HProg F β} (hp : Keeps c S P p)
    (hf : ∀ a h, P h → Wp (world c (Fair c S)) (Runs S) (fun _ _ => True) (f a) h) {h : Host F}
    (hh : P h) : Wp (world c (Fair c S)) (Runs S) (fun _ _ => True) (p >>= f) h := by
  refine wp_bind.2 ((hp h hh).mono fun r h' hh' => ?_)
  cases r with
  | ok a => exact hf a h' hh'
  | error e => exact trivial

/-- What `take` returns is the peeked entry, at the queue's head, or one like it. -/
theorem taken_fits {h : Host F} (hh : Peeked S e h) (hk : e.key = .str k) {block : ℤ}
    {eventId now : Str} {s : QueueState F} {x : QueueEntry F}
    (htake : took k block eventId now h.file = .ok (some (s, x))) :
    s.entries.head? = some x ∧ Like S e x := by
  unfold took at htake
  cases hload : load (F := F) h.file with
  | error err =>
    rw [hload] at htake
    simp [Bind.bind, Except.bind] at htake
  | ok s' =>
    have hfirst := hh.2 s' k hload hk
    rw [hload] at htake
    simp only [applyBody, hload] at htake
    cases hfind : s'.entries.find? fun y => y.hasKey (.str k) with
    | none =>
      rw [exec_takeBody_none hfind] at htake
      cases hsave : save s' <;>
        simp [hsave, Bind.bind, Except.bind, Pure.pure, Except.pure, entryTaken] at htake
    | some y =>
      rw [exec_takeBody_some hfind] at htake
      cases hsave : save (s'.taken k block eventId now y) with
      | error err => simp [hsave, Bind.bind, Except.bind] at htake
      | ok data =>
        obtain ⟨rfl, rfl⟩ : s' = s ∧ y = x := by
          simpa [hsave, Bind.bind, Except.bind, Pure.pure, Except.pure, entryTaken] using htake
        exact hfirst y hfind

theorem wp_duelEntry (king : Option SubmissionRef) {h : Host F} (hh : Peeked S e h) :
    Wp (world c (Fair c S)) (Runs S) (fun _ _ => True) (duelEntry c S king e) h := by
  refine (keeps_nextBlock stays_peeked).wp (fun block h hh => ?_) hh
  refine (keeps_recordRequest stays_peeked (fun _ hh _ => hh) _).wp (fun _ h hh => ?_) hh
  refine (keeps_try stays_peeked _).wp (fun eid h hh => ?_) hh
  refine (keeps_read stays_peeked _).wp (fun now h hh => ?_) hh
  split
  · rename_i key hkey
    refine wp_bind.2 (Wp.step hh stays_peeked fun h hh _ => ⟨runs_of_eq ?_, ?_⟩)
    · cases applyBody (F := F) (takeBody key _ eid now) h.file <;> rfl
    · refine Wp.done (P := fun _ => True) trivial stays_true fun h' _ => ?_
      cases hr : took (F := F) key block eid now h.file with
      | error err => exact trivial
      | ok taken =>
        cases taken with
        | none => exact keeps_ret stays_true _ h' trivial
        | some t =>
          obtain ⟨s, x⟩ := t
          obtain ⟨hhead, hlike⟩ := taken_fits hh hkey hr
          refine (keeps_publishQueue stays_true).bind (fun _ => keeps_runDuel ?_) h' trivial
          intro s' x' heq
          obtain ⟨rfl, rfl⟩ := Prod.mk.inj (Option.some.inj heq)
          exact ⟨hhead, hlike.same, hlike.size⟩
  · exact Wp.done (P := fun _ => True) trivial stays_true fun _ _ => trivial

/-- A step runs each duel for the entry at the queue's head, where others are fair. -/
theorem keeps_step : Keeps c S (fun _ => True) (step c S) := by
  unfold step
  refine (keeps_try stays_true _).bind fun s => ?_
  cases s.inProgress with
  | some mark =>
    refine (keeps_read stays_true _).bind fun ready => ?_
    cases ready with
    | true => exact keeps_resume mark
    | false => exact keeps_ret stays_true _
  | none =>
    refine (keeps_read stays_true _).bind fun stalled => ?_
    cases stalled with
    | true => exact keeps_ret stays_true _
    | false =>
      refine (keeps_try stays_true _).bind fun king => ?_
      split
      · rename_i baseline _
        exact keeps_baselineGenesis baseline
      · -- the peek
        intro h _
        refine wp_bind.2 (Wp.step (P := fun _ => True) trivial stays_true fun h _ _ =>
          ⟨runs_of_eq ?_, ?_⟩)
        · cases load (F := F) h.file <;> rfl
        · cases hload : load (F := F) h.file with
          | error err => exact Wp.done (P := fun _ => True) trivial stays_true fun _ _ => trivial
          | ok s =>
            cases hhead : s.entries.head? with
            | none =>
              simp only [Except.map, hhead]
              exact Wp.done (P := fun _ => True) trivial stays_true fun h _ =>
                keeps_ret stays_true _ h trivial
            | some entry =>
              simp only [Except.map, hhead]
              have hpeeked : Peeked S entry { h with peeked := some entry } :=
                ⟨rfl, waits_head hload hhead⟩
              refine Wp.done hpeeked stays_peeked fun h hh => ?_
              refine (keeps_read stays_peeked _).wp (fun ready h hh => ?_) hh
              cases ready with
              | false => exact keeps_ret stays_true _ h trivial
              | true =>
                simp only [if_true]
                split
                · split_ifs
                  · exact ((keeps_change _).bind fun _ => (keeps_publishQueue stays_true).bind
                      fun _ => keeps_ret stays_true _) h trivial
                  · exact wp_duelEntry _ hh
                · exact wp_duelEntry _ hh

end Takes

/-! ## A step in whose way another one comes -/

section Toy

open Ascii

variable {c : Crypto} {fair : Host Tenths → Mutation Tenths → Prop}

/-- The host once another has asked for a change of its queue. -/
def Host.asked (c : Crypto) (h : Host Tenths) (m : Mutation Tenths) : Host Tenths :=
  match m.apply c h.file with
  | .ok (file, _) => { h with file := file }
  | .error _ => h

/-- A track of two sizes. -/
def toyContract : Contract Tenths :=
  ⟨7, py "t", [py "t"], [py "large", py "small"], py "small", none⟩

def toyStr (s : PyStr) (h : IsAscii s) : Str := ⟨s, strWF_of_isAscii h⟩

/-- A submission is queued. -/
def toyAdd (repo : PyStr) (size : Option Str) : Mutation Tenths :=
  .add repo (List.replicate 40 97) size (toyStr [] isAscii_nil) (toyStr [] isAscii_nil)

/-- A host on whose queue nothing waits. -/
def toyHost : Host Tenths where
  file := none
  requests _ := none
  king := .ok none
  headBlock := .ok 0
  ready := true
  outcome := .returned
  clock := toyStr [] isAscii_nil
  luck := none
  stalled := false
  peeked := none
  ran := []

/-- Two submissions wait. -/
def toyWaiting : Host Tenths :=
  (toyHost.asked toyCrypto (toyAdd (py "alice/xx") none)).asked toyCrypto (toyAdd (py "bob/yyyy") none)

/-- A step is interrupted once, by what another asks of the queue. -/
def Host.interrupted (c : Crypto) (S : Contract Tenths) (h : Host Tenths) (n : ℕ)
    (m : Mutation Tenths) : Host Tenths :=
  let p := ((system c S).prog ()).after n h
  (p.1.exec (p.2.asked c m)).2

/-- The host after a step that is interrupted once it has peeked the first entry, by an `add`
of its submission at another size. -/
def toyStray : Host Tenths :=
  toyWaiting.interrupted toyCrypto toyContract 4
    (toyAdd (py "alice/xx") (some (toyStr (py "large") (by decide))))

end Toy

end Daemon

end IcilOrchestrator

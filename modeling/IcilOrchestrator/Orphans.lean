import Mathlib
import IcilOrchestrator.Processes
import IcilOrchestrator.Text

/-!
# The reaper of orphans

A process group that a unit starts is recorded in a ledger, and whoever comes after a kill ends the
groups it names that are still the ones recorded. The reaper looks for a group's leader, then for
its members, and then kills the group, while processes fork, exit and are waited for as they like.

`reaped_descend` : what it kills descends from the process that was recorded, in every run where
no later process of that number makes a group behind the reaper's back, or leaves one without its
leader (`Allowed`). The reaper takes a group without a leader for the one recorded, and
`reused_killed` is a run where it is another's.
-/

namespace IcilOrchestrator

open Python Posix

namespace Orphans

/-- An entry of the ledger. -/
structure Entry where
  pgid : ℕ
  start : ℕ
  boot : PyStr
  /-- The process it was recorded for, which the file does not say. -/
  who : ℕ
deriving DecidableEq

/-- How far the reaper is with an entry : its leader is still to be looked at, the leader was the
one recorded or gone, or a member was seen. -/
inductive Phase where
  | fresh
  | led
  | seen
deriving DecidableEq

/-- The processes, a ledger and its reaper. -/
structure World where
  /-- `boot_id`. -/
  boot : PyStr
  table : Table
  ledger : List Entry
  /-- The entries that a reaper has read and not yet dealt with, and how far it is with the first. -/
  todo : List Entry
  phase : Phase
  /-- What was killed, and for which entry. -/
  kills : List (Entry × Proc)

/-- What may happen next. -/
inductive Act where
  | proc (e : Event)
  /-- `Ledger.started`, of a process that leads a session of its own. -/
  | started (pid : ℕ)
  /-- `Ledger.ended`. -/
  | ended (pid : ℕ)
  /-- `reap_ledger` reads the ledger. -/
  | reap
  /-- `_still_recorded`, up to its look at the leader. -/
  | lookLeader
  /-- `_members`. -/
  | lookMembers
  /-- `os.killpg`. -/
  | kill
  /-- `_members` met none, or `os.killpg` raised. -/
  | missed
  /-- The ledger is removed. -/
  | unlink

namespace World

variable (w : World)

/-- The reaper goes on to the entry before. -/
def drop (rest : List Entry) : World := { w with todo := rest, phase := .fresh }

/-- Whether the group of an entry may still be the one recorded, for all its leader says. -/
def leaderFits (e : Entry) : Prop :=
  1 < e.pgid ∧ e.boot ≠ [] ∧ e.boot = w.boot ∧ ∀ q ∈ w.table.get e.pgid, q.start = e.start

instance (e : Entry) : Decidable (w.leaderFits e) :=
  inferInstanceAs (Decidable (_ ∧ _ ∧ _ ∧ ∀ q ∈ w.table.get e.pgid, _))

/-- One act, where it may happen. -/
def step : Act → Option World
  | .proc e => (w.table.step e).map fun t => { w with table := t }
  | .started pid =>
    match w.table.get pid with
    | some q =>
      if q.maker = q.uid then
        some { w with ledger := w.ledger ++ [⟨pid, q.start, w.boot, q.uid⟩] }
      else none
    | none => none
  | .ended pid => some { w with ledger := w.ledger.filter (·.pgid != pid) }
  | .reap =>
    if w.todo = [] then some { w with todo := w.ledger.reverse, phase := .fresh } else none
  | .lookLeader =>
    match w.todo, w.phase with
    | e :: rest, .fresh =>
      if w.leaderFits e then some { w with phase := .led } else some (w.drop rest)
    | _, _ => none
  | .lookMembers =>
    match w.todo, w.phase with
    | e :: rest, .led =>
      if ∃ m ∈ w.table.group e.pgid, m.sid = e.pgid then some { w with phase := .seen }
      else some (w.drop rest)
    | _, _ => none
  | .kill =>
    match w.todo, w.phase with
    | e :: rest, .seen =>
      some { w.drop rest with kills := w.kills ++ (w.table.group e.pgid).map fun q => (e, q) }
    | _, _ => none
  | .missed =>
    match w.todo, w.phase with
    | _ :: rest, .led => some (w.drop rest)
    | _ :: rest, .seen => some (w.drop rest)
    | _, _ => none
  | .unlink => if w.todo = [] then some { w with ledger := [] } else none

/-- The acts one after another. -/
def run : World → List Act → Option World
  | w, [] => some w
  | w, a :: as =>
    match w.step a with
    | some w' => run w' as
    | none => none

/-- The entries that are on the ledger, or that a reaper is to deal with. -/
def watched : List Entry := w.ledger ++ w.todo

/-- The reaper has looked at the leader of an entry's group. -/
def Past (e : Entry) : Prop := w.todo.head? = some e ∧ w.phase ≠ .fresh

instance (e : Entry) : Decidable (w.Past e) := inferInstanceAs (Decidable (_ ∧ _))

/-- A later process of a recorded number makes no group while the reaper is between its look at the
leader and the kill, makes no session when it started when the recorded one did, and is not gone
before the other members of the session and group that it made. -/
def Allowed : Act → Prop
  | .proc (.setsid pid) => ∀ e ∈ w.watched, e.pgid = pid →
      ¬w.Past e ∧ ∀ q ∈ w.table.procs, q.pid = pid → q.start ≠ e.start
  | .proc (.setpgid pid pgrp) => pgrp = pid → ∀ e ∈ w.watched, w.Past e → e.pgid ≠ pid
  | .proc (.wait pid) => ∀ e ∈ w.watched, e.pgid = pid →
      ∀ q ∈ w.table.procs, q.pid = pid → q.uid ≠ e.who → ∀ r ∈ w.table.group pid, r.sid ≠ pid
  | _ => True

instance : DecidablePred w.Allowed
  | .proc (.setsid _) => inferInstanceAs (Decidable (∀ e ∈ w.watched, _ → _))
  | .proc (.setpgid _ _) => inferInstanceAs (Decidable (_ → ∀ e ∈ w.watched, _ → _))
  | .proc (.wait _) => inferInstanceAs (Decidable (∀ e ∈ w.watched, _ → _))
  | .proc (.fork _ _ _) => isTrue trivial
  | .proc (.exit _ _) => isTrue trivial
  | .started _ => isTrue trivial
  | .ended _ => isTrue trivial
  | .reap => isTrue trivial
  | .lookLeader => isTrue trivial
  | .lookMembers => isTrue trivial
  | .kill => isTrue trivial
  | .missed => isTrue trivial
  | .unlink => isTrue trivial

/-- Every act of a run is allowed. -/
def Meets : World → List Act → Prop
  | _, [] => True
  | w, a :: as => w.Allowed a ∧ ∀ w' ∈ w.step a, Meets w' as

instance Meets.decidable : ∀ (w : World) (as : List Act), Decidable (Meets w as)
  | _, [] => isTrue trivial
  | w, a :: as =>
    have : ∀ w', Decidable (Meets w' as) := fun w' => Meets.decidable w' as
    inferInstanceAs (Decidable (w.Allowed a ∧ ∀ w' ∈ w.step a, Meets w' as))

/-- The first process, and nothing recorded. -/
def init (boot : PyStr) : World where
  boot := boot
  table := ⟨[⟨0, 1, 0, 0, 1, 1, false, [0], 0⟩], 1⟩
  ledger := []
  todo := []
  phase := .fresh
  kills := []

end World

/-! ## What is known of a recorded group -/

/-- A session that has the group's number is the recorded process's, or one whose maker is there
and started at another time. -/
def Known (t : Table) (e : Entry) : Prop :=
  ∀ q ∈ t.group e.pgid, q.sid = e.pgid → q.maker = e.who ∨
    ∃ v ∈ t.procs, v.uid = q.maker ∧ v.pid = e.pgid ∧ v.start ≠ e.start

/-- A session that has the group's number is the recorded process's. -/
def OwnSession (t : Table) (e : Entry) : Prop :=
  ∀ q ∈ t.group e.pgid, q.sid = e.pgid → q.maker = e.who

/-- The group is of the recorded process's session. -/
def OwnGroup (t : Table) (e : Entry) : Prop := ∀ q ∈ t.group e.pgid, q.maker = e.who

section

variable {t t' : Table} {e : Entry}

theorem OwnGroup.session (h : OwnGroup t e) : OwnSession t e := fun q hq _ => h q hq

/-- What the reaper knows once it has looked at a leader that fits. -/
theorem Known.ownSession (hs : t.Sound) (h : Known t e)
    (hleader : ∀ q ∈ t.get e.pgid, q.start = e.start) : OwnSession t e := by
  intro q hq hsid
  rcases h q hq hsid with hmaker | ⟨v, hv, -, hpid, hstart⟩
  · exact hmaker
  · cases hget : t.get e.pgid with
    | none => exact absurd hpid (Table.get_eq_none hget v hv)
    | some q₀ =>
      obtain ⟨hq₀, hpid₀⟩ := Table.get_eq_some hget
      obtain rfl := hs.pids v hv q₀ hq₀ (hpid.trans hpid₀.symm)
      exact absurd (hleader v hget) hstart

/-- What it knows once it has seen a member. -/
theorem OwnSession.ownGroup (hs : t.Sound) (h : OwnSession t e) {m : Proc}
    (hm : m ∈ t.group e.pgid) (hsid : m.sid = e.pgid) : OwnGroup t e := by
  intro q hq
  obtain ⟨hm', hmlive, hmgroup⟩ := Table.mem_group.1 hm
  obtain ⟨hq', hqlive, hqgroup⟩ := Table.mem_group.1 hq
  rw [(hs.group q hq' m hm' hqlive hmlive (hqgroup.trans hmgroup.symm)).2]
  exact h m hm hsid

/-- What is recorded of a process that leads its session. -/
theorem known_recorded (hs : t.Sound) {v : Proc} (hv : v ∈ t.procs) (start : ℕ) (boot : PyStr) :
    Known t ⟨v.pid, start, boot, v.uid⟩ := by
  intro q hq hsid
  obtain ⟨hq', hqlive, -⟩ := Table.mem_group.1 hq
  exact Or.inl (hs.session v hv q hq' hqlive hsid).2

/-! ## What an event changes of it -/

/-- The live members of every group are as they were, but for new ones that have the groups and the
session of an old one ; no process that is of interest is gone. -/
structure Carries (t t' : Table) (e : Entry) : Prop where
  members : ∀ q ∈ t'.group e.pgid, ∃ q₀ ∈ t.group e.pgid, q.sid = q₀.sid ∧ q.maker = q₀.maker
  makers : ∀ v ∈ t.procs, v.pid = e.pgid → v.uid ≠ e.who →
    (∃ q ∈ t.group e.pgid, q.sid = e.pgid) →
    ∃ v' ∈ t'.procs, v'.uid = v.uid ∧ v'.pid = v.pid ∧ v'.start = v.start

theorem Carries.known (hc : Carries t t' e) (h : Known t e) : Known t' e := by
  intro q hq hsid
  obtain ⟨q₀, hq₀, hs, hm⟩ := hc.members q hq
  rw [hs] at hsid
  rw [hm]
  rcases h q₀ hq₀ hsid with hmaker | ⟨v, hv, huid, hpid, hstart⟩
  · exact Or.inl hmaker
  · by_cases hwho : v.uid = e.who
    · exact Or.inl (huid.symm.trans hwho)
    · obtain ⟨v', hv', hu, hp, hst⟩ := hc.makers v hv hpid hwho ⟨q₀, hq₀, hsid⟩
      exact Or.inr ⟨v', hv', hu.trans huid, hp.trans hpid, hst ▸ hstart⟩

theorem Carries.ownSession (hc : Carries t t' e) (h : OwnSession t e) : OwnSession t' e := by
  intro q hq hsid
  obtain ⟨q₀, hq₀, hs, hm⟩ := hc.members q hq
  rw [hm]
  exact h q₀ hq₀ (hs ▸ hsid)

theorem Carries.ownGroup (hc : Carries t t' e) (h : OwnGroup t e) : OwnGroup t' e := by
  intro q hq
  obtain ⟨q₀, hq₀, -, hm⟩ := hc.members q hq
  rw [hm]
  exact h q₀ hq₀

theorem carries_fork {q : Proc} (hq : q ∈ t.procs) (hlive : q.zombie = false)
    (uid pid start parent next : ℕ) (line : List ℕ) (e : Entry) :
    Carries t ⟨t.procs ++ [{ q with uid, pid, start, parent, line }], next⟩ e where
  members r hr := by
    obtain ⟨hr, hr', hgroup⟩ := Table.mem_group.1 hr
    rcases List.mem_append.1 hr with hr | hr
    · exact ⟨r, Table.mem_group.2 ⟨hr, hr', hgroup⟩, rfl, rfl⟩
    · obtain rfl := List.mem_singleton.1 hr
      exact ⟨q, Table.mem_group.2 ⟨hq, hlive, hgroup⟩, rfl, rfl⟩
  makers v hv _ _ _ := ⟨v, List.mem_append_left _ hv, rfl, rfl, rfl⟩

theorem carries_thinned (f : Proc → Proc) (c : Proc → Bool)
    (hf : ∀ q, ∃ parent zombie, f q = { q with parent, zombie } ∧
      (zombie = false → q.zombie = false))
    (hc : ∀ v ∈ t.procs, v.pid = e.pgid → v.uid ≠ e.who →
      (∃ q ∈ t.group e.pgid, q.sid = e.pgid) → c v = true) :
    Carries t ⟨(t.procs.filter c).map f, t.next⟩ e where
  members r hr := by
    obtain ⟨hr, hr', hgroup⟩ := Table.mem_group.1 hr
    obtain ⟨q, hq, rfl⟩ := List.mem_map.1 hr
    obtain ⟨_, _, hfq, hlive⟩ := hf q
    rw [hfq] at hr' hgroup ⊢
    exact ⟨q, Table.mem_group.2 ⟨(List.mem_filter.1 hq).1, hlive hr', hgroup⟩, rfl, rfl⟩
  makers v hv hpid hwho hmember := by
    obtain ⟨_, _, hfv, -⟩ := hf v
    refine ⟨f v, List.mem_map_of_mem (List.mem_filter.2 ⟨hv, hc v hv hpid hwho hmember⟩), ?_⟩
    rw [hfv]
    exact ⟨rfl, rfl, rfl⟩

theorem mem_update_of_ne {pid : ℕ} {q' v : Proc} (hv : v ∈ t.procs) (hne : v.pid ≠ pid) :
    v ∈ (t.update pid q').procs := List.mem_map.2 ⟨v, hv, if_neg hne⟩

theorem mem_update_self {q q' : Proc} (hq : q ∈ t.procs) : q' ∈ (t.update q.pid q').procs :=
  List.mem_map.2 ⟨q, hq, if_pos rfl⟩

/-- A process that moves to another's group is one more of its session. -/
theorem carries_setpgid (hs : t.Sound) {q : Proc} (hq : q ∈ t.procs) (hlive : q.zombie = false)
    {pgrp : ℕ} (hjoins : t.Joins q pgrp) (hown : pgrp = q.pid → e.pgid ≠ q.pid) :
    Carries t (t.update q.pid { q with pgrp }) e where
  members r hr := by
    obtain ⟨hr, hr', hgroup⟩ := Table.mem_group.1 hr
    rcases Table.mem_update hr with rfl | ⟨hr, -⟩
    · rcases hjoins with hpid | ⟨x, hx, hsid⟩
      · exact absurd (hgroup.symm.trans hpid) (hown hpid)
      · obtain rfl : pgrp = e.pgid := hgroup
        obtain ⟨hx', hxlive, -⟩ := Table.mem_group.1 hx
        exact ⟨x, hx, hsid.symm, hs.maker q hq x hx' hlive hxlive hsid.symm⟩
    · exact ⟨r, Table.mem_group.2 ⟨hr, hr', hgroup⟩, rfl, rfl⟩
  makers v hv _ _ _ := by
    by_cases hpid : v.pid = q.pid
    · obtain rfl := hs.pids v hv q hq hpid
      exact ⟨_, mem_update_self hv, rfl, rfl, rfl⟩
    · exact ⟨v, mem_update_of_ne hv hpid, rfl, rfl, rfl⟩

/-- A group of its own, of a process that leads no session, is in none of its number. -/
theorem known_setpgid (hs : t.Sound) {q : Proc} (hq : q ∈ t.procs) {pgrp : ℕ}
    (hsid : q.sid ≠ q.pid) (hown : e.pgid = q.pid) (h : Known t e) :
    Known (t.update q.pid { q with pgrp }) e := by
  intro r hr hrsid
  obtain ⟨hr, hr', hgroup⟩ := Table.mem_group.1 hr
  rcases Table.mem_update hr with rfl | ⟨hr, -⟩
  · exact absurd (hrsid.trans hown) hsid
  · refine (h r (Table.mem_group.2 ⟨hr, hr', hgroup⟩) hrsid).imp_right ?_
    rintro ⟨v, hv, hu, hp, hst⟩
    obtain rfl := hs.pids v hv q hq (hp.trans hown)
    exact ⟨_, mem_update_self hv, hu, hp, hst⟩

theorem carries_setsid {q q' : Proc} (hgroup' : q'.pgrp = q.pid) (hne : e.pgid ≠ q.pid) :
    Carries t (t.update q.pid q') e where
  members r hr := by
    obtain ⟨hr, hr', hgroup⟩ := Table.mem_group.1 hr
    rcases Table.mem_update hr with rfl | ⟨hr, -⟩
    · exact absurd (hgroup.symm.trans hgroup') hne
    · exact ⟨r, Table.mem_group.2 ⟨hr, hr', hgroup⟩, rfl, rfl⟩
  makers v hv hpid _ _ := ⟨v, mem_update_of_ne hv (hpid ▸ hne), rfl, rfl, rfl⟩

/-- A process of the recorded number that makes a session is there to be looked at. -/
theorem known_setsid {q : Proc} (hq : q ∈ t.procs) (hgroup' : t.group q.pid = [])
    (hown : e.pgid = q.pid) (hstart : q.start ≠ e.start) :
    Known (t.update q.pid { q with pgrp := q.pid, sid := q.pid, maker := q.uid }) e := by
  intro r hr _
  obtain ⟨hr, hr', hgroup⟩ := Table.mem_group.1 hr
  rcases Table.mem_update hr with rfl | ⟨hr, -⟩
  · exact Or.inr ⟨_, mem_update_self hq, rfl, hown.symm, hstart⟩
  · have : r ∈ t.group q.pid := Table.mem_group.2 ⟨hr, hr', hgroup.trans hown⟩
    simp [hgroup'] at this

end

/-! ## Runs -/

namespace World

variable {w w' : World} {a : Act}

/-- What an allowed event leaves of what is known of a watched entry. -/
theorem known_event {ev : Event} {t' : Table} (hs : w.table.Sound)
    (hstep : w.table.step ev = some t') (hallowed : w.Allowed (.proc ev)) {e : Entry}
    (hw : e ∈ w.watched) :
    (Known w.table e → Known t' e) ∧ (w.Past e → Carries w.table t' e) := by
  have hcarries : Carries w.table t' e →
      (Known w.table e → Known t' e) ∧ (w.Past e → Carries w.table t' e) :=
    fun hc => ⟨hc.known, fun _ => hc⟩
  cases Table.does_of_step hstep with
  | fork parent pid start hq hlive _ =>
    exact hcarries (carries_fork hq hlive _ _ _ _ _ _ e)
  | @setsid q hq hlive hgroup =>
    by_cases hown : e.pgid = q.pid
    · obtain ⟨hpast, hstart⟩ := hallowed e hw hown
      exact ⟨fun _ => known_setsid hq hgroup hown (hstart q hq rfl), fun h => absurd h hpast⟩
    · exact hcarries (carries_setsid rfl hown)
  | @setpgid q pgrp hq hlive hsid hjoins =>
    by_cases hown : pgrp = q.pid ∧ e.pgid = q.pid
    · exact ⟨known_setpgid hs hq hsid hown.2, fun h => absurd hown.2 (hallowed hown.1 e hw h)⟩
    · exact hcarries (carries_setpgid hs hq hlive hjoins fun h1 h2 => hown ⟨h1, h2⟩)
  | exit pid heir =>
    have hthin : Carries w.table _ e := carries_thinned (fun r => { r with
      zombie := r.zombie || r.pid == pid
      parent := if r.parent = pid then heir else r.parent }) (fun _ => true)
      (fun r => ⟨_, _, rfl, by simp +contextual⟩) fun _ _ _ _ _ => rfl
    exact hcarries (by simpa using hthin)
  | wait pid =>
    have hthin : Carries w.table _ e := carries_thinned id (·.pid != pid)
      (fun r => ⟨_, _, rfl, id⟩) fun v hv hpid hwho ⟨q, hq, hsid⟩ => by
        rw [bne_iff_ne]
        rintro rfl
        rw [← hpid] at hq hsid
        exact hallowed e hw hpid.symm v hv rfl hwho q hq hsid
    exact hcarries (by simpa using hthin)

/-- What holds of a world whose acts were all allowed. -/
structure Inv (w : World) : Prop where
  sound : w.table.Sound
  known : ∀ e ∈ w.watched, Known w.table e
  led : ∀ e, w.todo.head? = some e → w.phase = .led → OwnSession w.table e
  seen : ∀ e, w.todo.head? = some e → w.phase = .seen → OwnGroup w.table e
  kills : ∀ k ∈ w.kills, k.1.who ∈ k.2.line

theorem Inv.drop (h : w.Inv) {e : Entry} {rest : List Entry} (htodo : w.todo = e :: rest) :
    (w.drop rest).Inv where
  sound := h.sound
  known x hx := h.known x (by
    rcases List.mem_append.1 hx with hx | hx
    · exact List.mem_append_left _ hx
    · exact List.mem_append_right _ (htodo ▸ List.mem_cons_of_mem _ hx))
  led _ _ hphase := by simp [World.drop] at hphase
  seen _ _ hphase := by simp [World.drop] at hphase
  kills := h.kills

theorem init_inv (boot : PyStr) : (init boot).Inv where
  sound := by
    constructor <;> simp [init]
  known e he := by simp [watched, init] at he
  led e he := by simp [init] at he
  seen e he := by simp [init] at he
  kills := by simp [init]

/-- An allowed act keeps what holds. -/
theorem inv_step (h : w.Inv) (hallowed : w.Allowed a) (hstep : w.step a = some w') : w'.Inv := by
  cases a with
  | proc ev =>
    obtain ⟨t', ht', rfl⟩ := Option.map_eq_some_iff.1 hstep
    have hevent : ∀ e ∈ w.watched, _ := fun e hw => known_event h.sound ht' hallowed hw
    have hhead : ∀ e, w.todo.head? = some e → e ∈ w.watched := fun e he =>
      List.mem_append_right _ (List.mem_of_mem_head? he)
    refine ⟨Table.sound_step h.sound ht', fun e he => (hevent e he).1 (h.known e he),
      fun e he hphase => ?_, fun e he hphase => ?_, h.kills⟩
    · have hpast : w.Past e := ⟨he, by simp [show w.phase = .led from hphase]⟩
      exact ((hevent e (hhead e he)).2 hpast).ownSession (h.led e he hphase)
    · have hpast : w.Past e := ⟨he, by simp [show w.phase = .seen from hphase]⟩
      exact ((hevent e (hhead e he)).2 hpast).ownGroup (h.seen e he hphase)
  | started pid =>
    simp only [step] at hstep
    split at hstep
    · rename_i q hget
      split_ifs at hstep with hmaker
      obtain rfl := Option.some.inj hstep
      obtain ⟨hq, rfl⟩ := Table.get_eq_some hget
      refine ⟨h.sound, fun e he => ?_, h.led, h.seen, h.kills⟩
      rcases List.mem_append.1 he with he | he
      · rcases List.mem_append.1 he with he | he
        · exact h.known e (List.mem_append_left _ he)
        · obtain rfl := List.mem_singleton.1 he
          exact known_recorded h.sound hq _ _
      · exact h.known e (List.mem_append_right _ he)
    · simp at hstep
  | ended pid =>
    obtain rfl := Option.some.inj hstep
    refine ⟨h.sound, fun e he => h.known e ?_, h.led, h.seen, h.kills⟩
    rcases List.mem_append.1 he with he | he
    · exact List.mem_append_left _ (List.mem_filter.1 he).1
    · exact List.mem_append_right _ he
  | reap =>
    simp only [step] at hstep
    split_ifs at hstep
    obtain rfl := Option.some.inj hstep
    refine ⟨h.sound, fun e he => h.known e (List.mem_append_left _ ?_), by simp, by simp, h.kills⟩
    exact (List.mem_append.1 he).elim id List.mem_reverse.1
  | lookLeader =>
    simp only [step] at hstep
    split at hstep
    · rename_i e rest htodo hphase
      split_ifs at hstep with hfits
      · obtain rfl := Option.some.inj hstep
        refine ⟨h.sound, h.known, fun x hx _ => ?_, by simp, h.kills⟩
        obtain rfl : e = x := by simpa [htodo] using hx
        exact (h.known e (by simp [watched, htodo])).ownSession h.sound hfits.2.2.2
      · obtain rfl := Option.some.inj hstep
        exact h.drop htodo
    · simp at hstep
  | lookMembers =>
    simp only [step] at hstep
    split at hstep
    · rename_i e rest htodo hphase
      split_ifs at hstep with hmember
      · obtain rfl := Option.some.inj hstep
        refine ⟨h.sound, h.known, by simp, fun x hx _ => ?_, h.kills⟩
        obtain rfl : e = x := by simpa [htodo] using hx
        obtain ⟨m, hm, hsid⟩ := hmember
        exact (h.led e (by simp [htodo]) hphase).ownGroup h.sound hm hsid
      · obtain rfl := Option.some.inj hstep
        exact h.drop htodo
    · simp at hstep
  | kill =>
    simp only [step] at hstep
    split at hstep
    · rename_i e rest htodo hphase
      obtain rfl := Option.some.inj hstep
      have hdrop := h.drop htodo
      refine ⟨hdrop.sound, hdrop.known, hdrop.led, hdrop.seen, fun k hk => ?_⟩
      rcases List.mem_append.1 hk with hk | hk
      · exact h.kills k hk
      · obtain ⟨q, hq, rfl⟩ := List.mem_map.1 hk
        have hmaker := h.seen e (by simp [htodo]) hphase q hq
        exact hmaker ▸ (h.sound.descends q (Table.mem_group.1 hq).1).2
    · simp at hstep
  | missed =>
    simp only [step] at hstep
    split at hstep
    · rename_i e rest htodo hphase
      obtain rfl := Option.some.inj hstep
      exact h.drop htodo
    · rename_i e rest htodo hphase
      obtain rfl := Option.some.inj hstep
      exact h.drop htodo
    · simp at hstep
  | unlink =>
    simp only [step] at hstep
    split_ifs at hstep with htodo
    obtain rfl := Option.some.inj hstep
    exact ⟨h.sound, fun e he => h.known e (List.mem_append_right _ (by simpa [watched] using he)),
      h.led, h.seen, h.kills⟩

theorem inv_run {as : List Act} (h : w.Inv) (hmeets : w.Meets as) (hrun : w.run as = some w') :
    w'.Inv := by
  induction as generalizing w with
  | nil => exact Option.some.inj hrun ▸ h
  | cons a as ih =>
    rw [run] at hrun
    split at hrun
    · rename_i w₁ hstep
      exact ih (inv_step h hmeets.1 hstep) (hmeets.2 w₁ hstep) hrun
    · simp at hrun

end World

/-- What the reaper kills descends from the process that the entry was recorded for, in every run
whose acts are all allowed. -/
theorem reaped_descend {boot : PyStr} {as : List Act} {w : World}
    (hmeets : (World.init boot).Meets as) (hrun : (World.init boot).run as = some w) :
    ∀ k ∈ w.kills, k.1.who ∈ k.2.line :=
  (World.inv_run (World.init_inv boot) hmeets hrun).kills

/-- A unit's group outlives its leader, and is killed. -/
def orphaned : List Act :=
  [.proc (.fork 1 10 5), .proc (.setsid 10), .started 10, .proc (.fork 10 11 6), .proc (.exit 10 1),
    .proc (.wait 10), .reap, .lookLeader, .lookMembers, .kill, .unlink]

theorem orphaned_descend :
    ∃ w, (World.init (py "boot")).run orphaned = some w ∧ w.kills.length = 1 ∧
      ∀ k ∈ w.kills, k.1.who ∈ k.2.line := by
  have hkills : ((World.init (py "boot")).run orphaned).map (fun w => w.kills.length) =
      some 1 := by decide +kernel
  obtain ⟨w, hw, hlen⟩ := Option.map_eq_some_iff.1 hkills
  exact ⟨w, hw, hlen, reaped_descend (by decide +kernel) hw⟩

/-- The unit's process is gone with all its group ; a later one is given its pid, makes a session,
forks and is gone too. -/
def reused : List Act :=
  [.proc (.fork 1 10 5), .proc (.setsid 10), .started 10, .proc (.exit 10 1), .proc (.wait 10),
    .proc (.fork 1 10 7), .proc (.setsid 10), .proc (.fork 10 11 8), .proc (.exit 10 1),
    .proc (.wait 10), .reap, .lookLeader, .lookMembers, .kill, .unlink]

/-- The later process's child is killed. -/
theorem reused_killed :
    ∃ w, (World.init (py "boot")).run reused = some w ∧ ∃ k ∈ w.kills, k.1.who ∉ k.2.line := by
  have hkills : ((World.init (py "boot")).run reused).map
      (fun w => decide (∃ k ∈ w.kills, k.1.who ∉ k.2.line)) = some true := by decide +kernel
  obtain ⟨w, hw, hkill⟩ := Option.map_eq_some_iff.1 hkills
  exact ⟨w, hw, of_decide_eq_true hkill⟩

end Orphans

end IcilOrchestrator

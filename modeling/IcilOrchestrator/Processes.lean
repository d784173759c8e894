import Mathlib

/-!
# Processes, their groups and their sessions

A table of processes, some of them exited and not waited for. A process forks, makes a session of
its own, moves between the groups of its session, exits and is waited for. A pid is given again
once no process has it, and no live process has it as its group or session.

Numbers come back, so which process is meant is kept beside them : `uid` numbers the processes of a
history, `line` holds a process and those it descends from, `maker` the process that made its
session. `Sound.group_maker` is what the numbers do say : live processes of one group are of one
session, made by one process.
-/

namespace Posix

/-- A process. -/
structure Proc where
  uid : ℕ
  pid : ℕ
  /-- When it started. -/
  start : ℕ
  parent : ℕ
  pgrp : ℕ
  sid : ℕ
  zombie : Bool
  /-- Itself, and the processes it descends from. -/
  line : List ℕ
  /-- The process that made its session. -/
  maker : ℕ
deriving DecidableEq

/-- Every process that was not waited for, and how many there have been. -/
structure Table where
  procs : List Proc
  next : ℕ
deriving DecidableEq

/-- What a process does. -/
inductive Event where
  | fork (parent pid start : ℕ)
  | setsid (pid : ℕ)
  | setpgid (pid pgrp : ℕ)
  /-- Its children are another's then. -/
  | exit (pid heir : ℕ)
  /-- It is waited for by its parent. -/
  | wait (pid : ℕ)

namespace Table

/-- The process of a pid. -/
def get (t : Table) (pid : ℕ) : Option Proc := t.procs.find? (·.pid == pid)

/-- The live processes of a group. -/
def group (t : Table) (pgrp : ℕ) : List Proc := t.procs.filter fun q => !q.zombie && q.pgrp == pgrp

/-- A pid that may be given. -/
def Free (t : Table) (pid : ℕ) : Prop :=
  ∀ q ∈ t.procs, q.pid ≠ pid ∧ (q.zombie = false → q.pgrp ≠ pid ∧ q.sid ≠ pid)

instance (t : Table) (pid : ℕ) : Decidable (t.Free pid) :=
  inferInstanceAs (Decidable (∀ q ∈ t.procs, _))

/-- The process of a pid becomes another. -/
def update (t : Table) (pid : ℕ) (q' : Proc) : Table :=
  { t with procs := t.procs.map fun q => if q.pid = pid then q' else q }

/-- A process may move to a group of its own, or to one of its session. -/
def Joins (t : Table) (q : Proc) (pgrp : ℕ) : Prop :=
  pgrp = q.pid ∨ ∃ r ∈ t.group pgrp, r.sid = q.sid

instance (t : Table) (q : Proc) (pgrp : ℕ) : Decidable (t.Joins q pgrp) :=
  inferInstanceAs (Decidable (_ ∨ ∃ r ∈ t.group pgrp, _))

/-- One event, where it may happen. -/
def step (t : Table) : Event → Option Table
  | .fork parent pid start =>
    match t.get parent with
    | some q =>
      if q.zombie = false ∧ t.Free pid then
        some ⟨t.procs ++ [{ q with uid := t.next, pid, start, parent, line := t.next :: q.line }],
          t.next + 1⟩
      else none
    | none => none
  | .setsid pid =>
    match t.get pid with
    | some q =>
      if q.zombie = false ∧ t.group pid = [] then
        some (t.update pid { q with pgrp := pid, sid := pid, maker := q.uid })
      else none
    | none => none
  | .setpgid pid pgrp =>
    match t.get pid with
    | some q =>
      if q.zombie = false ∧ q.sid ≠ pid ∧ t.Joins q pgrp then some (t.update pid { q with pgrp })
      else none
    | none => none
  | .exit pid heir =>
    match t.get pid with
    | some q =>
      if q.zombie = false then
        some { t with procs := t.procs.map fun r =>
          { r with
            zombie := r.zombie || r.pid == pid
            parent := if r.parent = pid then heir else r.parent } }
      else none
    | none => none
  | .wait pid =>
    match t.get pid with
    | some q =>
      if q.zombie = true then some { t with procs := t.procs.filter (·.pid != pid) } else none
    | none => none

/-- What the numbers of a table say. -/
structure Sound (t : Table) : Prop where
  pids : ∀ p ∈ t.procs, ∀ q ∈ t.procs, p.pid = q.pid → p = q
  bound : ∀ p ∈ t.procs, ∀ x ∈ p.line, x < t.next
  descends : ∀ p ∈ t.procs, p.uid ∈ p.line ∧ p.maker ∈ p.line
  /-- The maker of a session has its number. -/
  leads : ∀ p ∈ t.procs, p.maker = p.uid → p.sid = p.pid
  /-- It leads its group. -/
  leader : ∀ p ∈ t.procs, p.zombie = false → p.sid = p.pid → p.pgrp = p.pid
  /-- A session with a process's number is of its making. -/
  session : ∀ p ∈ t.procs, ∀ q ∈ t.procs, q.zombie = false → q.sid = p.pid →
    p.maker = p.uid ∧ q.maker = p.uid
  /-- A group with a process's number is of its session. -/
  own : ∀ p ∈ t.procs, ∀ q ∈ t.procs, q.zombie = false → q.pgrp = p.pid →
    q.sid = p.sid ∧ q.maker = p.maker
  group : ∀ p ∈ t.procs, ∀ q ∈ t.procs, p.zombie = false → q.zombie = false → p.pgrp = q.pgrp →
    p.sid = q.sid ∧ p.maker = q.maker
  maker : ∀ p ∈ t.procs, ∀ q ∈ t.procs, p.zombie = false → q.zombie = false → p.sid = q.sid →
    p.maker = q.maker

theorem get_eq_some {t : Table} {pid : ℕ} {q : Proc} (h : t.get pid = some q) :
    q ∈ t.procs ∧ q.pid = pid :=
  ⟨List.mem_of_find?_eq_some h, by simpa using List.find?_some h⟩

theorem get_eq_none {t : Table} {pid : ℕ} (h : t.get pid = none) : ∀ q ∈ t.procs, q.pid ≠ pid := by
  simpa [get] using h

theorem mem_group {t : Table} {pgrp : ℕ} {q : Proc} :
    q ∈ t.group pgrp ↔ q ∈ t.procs ∧ q.zombie = false ∧ q.pgrp = pgrp := by
  simp [group]

/-- What is in the table after an update. -/
theorem mem_update {t : Table} {pid : ℕ} {q' r : Proc} (h : r ∈ (t.update pid q').procs) :
    r = q' ∨ r ∈ t.procs ∧ r.pid ≠ pid := by
  obtain ⟨q, hq, rfl⟩ := List.mem_map.1 h
  split_ifs with hpid
  · exact Or.inl rfl
  · exact Or.inr ⟨hq, hpid⟩

namespace Sound

variable {t t' : Table} {q : Proc}

/-- The maker of a session is not the process that is forked next. -/
theorem maker_ne (h : t.Sound) (hq : q ∈ t.procs) : q.maker ≠ t.next :=
  (h.bound q hq _ (h.descends q hq).2).ne

/-- A live process that leads no group leads no session. -/
theorem sid_ne (h : t.Sound) (hq : q ∈ t.procs) (hlive : q.zombie = false)
    (hgroup : t.group q.pid = []) {r : Proc} (hr : r ∈ t.procs) (hrlive : r.zombie = false) :
    r.pgrp ≠ q.pid ∧ r.sid ≠ q.pid := by
  have hpgrp : ∀ r ∈ t.procs, r.zombie = false → r.pgrp ≠ q.pid := fun r hr hrlive heq => by
    have : r ∈ t.group q.pid := mem_group.2 ⟨hr, hrlive, heq⟩
    simp [hgroup] at this
  refine ⟨hpgrp r hr hrlive, fun hsid => ?_⟩
  have hmaker := (h.session q hq r hr hrlive hsid).1
  exact hpgrp q hq hlive (h.leader q hq hlive (h.leads q hq hmaker))

/-- A process with the groups and the session of another, under a number that is free. -/
theorem fork (h : t.Sound) (hq : q ∈ t.procs) (hlive : q.zombie = false) {pid : ℕ}
    (hfree : t.Free pid) (start parent : ℕ) :
    Sound ⟨t.procs ++ [{ q with uid := t.next, pid, start, parent, line := t.next :: q.line }],
      t.next + 1⟩ := by
  obtain ⟨hpid, hsid⟩ := hfree q hq
  have hpids : ∀ r ∈ t.procs, r.pid ≠ pid := fun r hr => (hfree r hr).1
  have hlead : q.maker ≠ t.next := h.maker_ne hq
  have hfree' : ∀ r ∈ t.procs, r.zombie = false → r.pgrp ≠ pid ∧ r.sid ≠ pid := fun r hr =>
    (hfree r hr).2
  have hmem : ∀ {r : Proc}, r ∈ t.procs ++ [{ q with
      uid := t.next, pid := pid, start := start, parent := parent, line := t.next :: q.line }] →
      r ∈ t.procs ∨ r = { q with
        uid := t.next, pid := pid, start := start, parent := parent, line := t.next :: q.line } := by
    simp
  constructor
  · intro p hp r hr
    rcases hmem hp with hp | rfl <;> rcases hmem hr with hr | rfl
    · exact h.pids p hp r hr
    · exact fun heq => absurd heq (hpids p hp)
    · exact fun heq => absurd heq.symm (hpids r hr)
    · exact fun _ => rfl
  · intro p hp x hx
    rcases hmem hp with hp | rfl
    · exact (h.bound p hp x hx).trans (Nat.lt_succ_self _)
    · rcases List.mem_cons.1 hx with rfl | hx
      · exact Nat.lt_succ_self _
      · exact (h.bound q hq x hx).trans (Nat.lt_succ_self _)
  · intro p hp
    rcases hmem hp with hp | rfl
    · exact h.descends p hp
    · exact ⟨List.mem_cons_self, List.mem_cons_of_mem _ (h.descends q hq).2⟩
  · intro p hp
    rcases hmem hp with hp | rfl
    · exact h.leads p hp
    · exact fun heq => absurd heq hlead
  · intro p hp
    rcases hmem hp with hp | rfl
    · exact h.leader p hp
    · exact fun _ heq => absurd heq (hsid hlive).2
  · intro p hp r hr
    rcases hmem hp with hp | rfl <;> rcases hmem hr with hr | rfl
    · exact h.session p hp r hr
    · exact fun _ heq => h.session p hp q hq hlive heq
    · exact fun hr' heq => absurd heq (hfree' r hr hr').2
    · exact fun _ heq => absurd heq (hsid hlive).2
  · intro p hp r hr
    rcases hmem hp with hp | rfl <;> rcases hmem hr with hr | rfl
    · exact h.own p hp r hr
    · exact fun _ heq => h.own p hp q hq hlive heq
    · exact fun hr' heq => absurd heq (hfree' r hr hr').1
    · exact fun _ heq => absurd heq (hsid hlive).1
  · intro p hp r hr
    rcases hmem hp with hp | rfl <;> rcases hmem hr with hr | rfl
    · exact h.group p hp r hr
    · exact fun hp' _ heq => h.group p hp q hq hp' hlive heq
    · exact fun _ hr' heq => h.group q hq r hr hlive hr' heq
    · exact fun _ _ _ => ⟨rfl, rfl⟩
  · intro p hp r hr
    rcases hmem hp with hp | rfl <;> rcases hmem hr with hr | rfl
    · exact h.maker p hp r hr
    · exact fun hp' _ heq => h.maker p hp q hq hp' hlive heq
    · exact fun _ hr' heq => h.maker q hq r hr hlive hr' heq
    · exact fun _ _ _ => rfl

/-- A live process that leads no group makes a session and a group of its own. -/
theorem setsid (h : t.Sound) (hq : q ∈ t.procs) (hlive : q.zombie = false)
    (hgroup : t.group q.pid = []) :
    (t.update q.pid { q with pgrp := q.pid, sid := q.pid, maker := q.uid }).Sound := by
  have hne : ∀ r ∈ t.procs, r.zombie = false → r.pgrp ≠ q.pid ∧ r.sid ≠ q.pid := fun r hr hr' =>
    h.sid_ne hq hlive hgroup hr hr'
  constructor
  · intro p hp r hr
    rcases mem_update hp with rfl | ⟨hp, hpq⟩ <;> rcases mem_update hr with rfl | ⟨hr, hrq⟩
    · exact fun _ => rfl
    · exact fun heq => absurd heq.symm hrq
    · exact fun heq => absurd heq hpq
    · exact h.pids p hp r hr
  · intro p hp
    rcases mem_update hp with rfl | ⟨hp, -⟩
    · exact h.bound q hq
    · exact h.bound p hp
  · intro p hp
    rcases mem_update hp with rfl | ⟨hp, -⟩
    · exact ⟨(h.descends q hq).1, (h.descends q hq).1⟩
    · exact h.descends p hp
  · intro p hp
    rcases mem_update hp with rfl | ⟨hp, -⟩
    · exact fun _ => rfl
    · exact h.leads p hp
  · intro p hp
    rcases mem_update hp with rfl | ⟨hp, -⟩
    · exact fun _ _ => rfl
    · exact h.leader p hp
  · intro p hp r hr
    rcases mem_update hp with rfl | ⟨hp, hpq⟩ <;> rcases mem_update hr with rfl | ⟨hr, hrq⟩
    · exact fun _ _ => ⟨rfl, rfl⟩
    · exact fun hr' heq => absurd heq (hne r hr hr').2
    · exact fun _ heq => absurd heq.symm hpq
    · exact h.session p hp r hr
  · intro p hp r hr
    rcases mem_update hp with rfl | ⟨hp, hpq⟩ <;> rcases mem_update hr with rfl | ⟨hr, hrq⟩
    · exact fun _ _ => ⟨rfl, rfl⟩
    · exact fun hr' heq => absurd heq (hne r hr hr').1
    · exact fun _ heq => absurd heq.symm hpq
    · exact h.own p hp r hr
  · intro p hp r hr
    rcases mem_update hp with rfl | ⟨hp, hpq⟩ <;> rcases mem_update hr with rfl | ⟨hr, hrq⟩
    · exact fun _ _ _ => ⟨rfl, rfl⟩
    · exact fun _ hr' heq => absurd heq.symm (hne r hr hr').1
    · exact fun hp' _ heq => absurd heq (hne p hp hp').1
    · exact h.group p hp r hr
  · intro p hp r hr
    rcases mem_update hp with rfl | ⟨hp, hpq⟩ <;> rcases mem_update hr with rfl | ⟨hr, hrq⟩
    · exact fun _ _ _ => rfl
    · exact fun _ hr' heq => absurd heq.symm (hne r hr hr').2
    · exact fun hp' _ heq => absurd heq (hne p hp hp').2
    · exact h.maker p hp r hr

/-- Who else is in the group that a process joins is of its session. -/
theorem joins (h : t.Sound) (hq : q ∈ t.procs) (hlive : q.zombie = false) {pgrp : ℕ}
    (hjoins : t.Joins q pgrp) {r : Proc} (hr : r ∈ t.procs) (hr' : r.zombie = false)
    (hgroup : r.pgrp = pgrp) : r.sid = q.sid ∧ r.maker = q.maker := by
  rcases hjoins with rfl | ⟨x, hx, hsid⟩
  · exact h.own q hq r hr hr' hgroup
  · obtain ⟨hx, hx', hxgroup⟩ := mem_group.1 hx
    have hs := (h.group r hr x hx hr' hx' (hgroup.trans hxgroup.symm)).1.trans hsid
    exact ⟨hs, h.maker r hr q hq hr' hlive hs⟩

/-- The process whose number a group has is of the session of those who join it. -/
theorem joins_own (h : t.Sound) (hq : q ∈ t.procs) (hlive : q.zombie = false) {pgrp : ℕ}
    (hjoins : t.Joins q pgrp) {p : Proc} (hp : p ∈ t.procs) (hpid : pgrp = p.pid) :
    q.sid = p.sid ∧ q.maker = p.maker := by
  rcases hjoins with rfl | ⟨x, hx, hsid⟩
  · obtain rfl := h.pids q hq p hp hpid
    exact ⟨rfl, rfl⟩
  · obtain ⟨hx, hx', hxgroup⟩ := mem_group.1 hx
    obtain ⟨hs, hm⟩ := h.own p hp x hx hx' (hxgroup.trans hpid)
    exact ⟨hsid.symm.trans hs, (h.maker q hq x hx hlive hx' hsid.symm).trans hm⟩

/-- A process that leads no session moves to another group of its session. -/
theorem setpgid (h : t.Sound) (hq : q ∈ t.procs) (hlive : q.zombie = false) (hsid : q.sid ≠ q.pid)
    {pgrp : ℕ} (hjoins : t.Joins q pgrp) : (t.update q.pid { q with pgrp }).Sound := by
  constructor
  · intro p hp r hr
    rcases mem_update hp with rfl | ⟨hp, hpq⟩ <;> rcases mem_update hr with rfl | ⟨hr, hrq⟩
    · exact fun _ => rfl
    · exact fun heq => absurd heq.symm hrq
    · exact fun heq => absurd heq hpq
    · exact h.pids p hp r hr
  · intro p hp
    rcases mem_update hp with rfl | ⟨hp, -⟩
    · exact h.bound q hq
    · exact h.bound p hp
  · intro p hp
    rcases mem_update hp with rfl | ⟨hp, -⟩
    · exact h.descends q hq
    · exact h.descends p hp
  · intro p hp
    rcases mem_update hp with rfl | ⟨hp, -⟩
    · exact h.leads q hq
    · exact h.leads p hp
  · intro p hp
    rcases mem_update hp with rfl | ⟨hp, -⟩
    · exact fun _ heq => absurd heq hsid
    · exact h.leader p hp
  · intro p hp r hr
    rcases mem_update hp with rfl | ⟨hp, hpq⟩ <;> rcases mem_update hr with rfl | ⟨hr, hrq⟩
    · exact h.session q hq q hq
    · exact h.session q hq r hr
    · exact h.session p hp q hq
    · exact h.session p hp r hr
  · intro p hp r hr
    rcases mem_update hp with rfl | ⟨hp, hpq⟩ <;> rcases mem_update hr with rfl | ⟨hr, hrq⟩
    · exact fun _ _ => ⟨rfl, rfl⟩
    · exact h.own q hq r hr
    · exact fun _ heq => h.joins_own hq hlive hjoins hp heq
    · exact h.own p hp r hr
  · intro p hp r hr
    rcases mem_update hp with rfl | ⟨hp, hpq⟩ <;> rcases mem_update hr with rfl | ⟨hr, hrq⟩
    · exact fun _ _ _ => ⟨rfl, rfl⟩
    · exact fun _ hr' heq => (h.joins hq hlive hjoins hr hr' heq.symm).imp Eq.symm Eq.symm
    · exact fun hp' _ heq => h.joins hq hlive hjoins hp hp' heq
    · exact h.group p hp r hr
  · intro p hp r hr
    rcases mem_update hp with rfl | ⟨hp, hpq⟩ <;> rcases mem_update hr with rfl | ⟨hr, hrq⟩
    · exact fun _ _ _ => rfl
    · exact h.maker q hq r hr
    · exact h.maker p hp q hq
    · exact h.maker p hp r hr

/-- Processes that are gone, or live no longer, and numbers of parents, change nothing else. -/
theorem thinned (h : t.Sound) (f : Proc → Proc) (c : Proc → Bool)
    (hf : ∀ q, ∃ parent zombie, f q = { q with parent, zombie } ∧
      (zombie = false → q.zombie = false)) :
    Sound ⟨(t.procs.filter c).map f, t.next⟩ := by
  have hmem : ∀ p ∈ (t.procs.filter c).map f, ∃ q ∈ t.procs, p = f q ∧ ∃ parent zombie,
      f q = { q with parent, zombie } ∧ (zombie = false → q.zombie = false) := by
    intro p hp
    obtain ⟨q, hq, rfl⟩ := List.mem_map.1 hp
    exact ⟨q, (List.mem_filter.1 hq).1, rfl, hf q⟩
  constructor
  · intro p' hp' r' hr' heq
    obtain ⟨p, hp, hpf, _, _, hfp, -⟩ := hmem p' hp'
    obtain ⟨r, hr, hrf, _, _, hfr, -⟩ := hmem r' hr'
    rw [hpf, hrf, hfp, hfr] at heq
    rw [hpf, hrf, h.pids p hp r hr heq]
  · intro p' hp'
    obtain ⟨p, hp, rfl, _, _, hfp, -⟩ := hmem p' hp'
    rw [hfp]
    exact h.bound p hp
  · intro p' hp'
    obtain ⟨p, hp, rfl, _, _, hfp, -⟩ := hmem p' hp'
    rw [hfp]
    exact h.descends p hp
  · intro p' hp'
    obtain ⟨p, hp, rfl, _, _, hfp, -⟩ := hmem p' hp'
    rw [hfp]
    exact h.leads p hp
  · intro p' hp'
    obtain ⟨p, hp, rfl, _, _, hfp, hlive⟩ := hmem p' hp'
    rw [hfp]
    exact fun hz => h.leader p hp (hlive hz)
  · intro p' hp' r' hr'
    obtain ⟨p, hp, rfl, _, _, hfp, -⟩ := hmem p' hp'
    obtain ⟨r, hr, rfl, _, _, hfr, hlive⟩ := hmem r' hr'
    rw [hfp, hfr]
    exact fun hz => h.session p hp r hr (hlive hz)
  · intro p' hp' r' hr'
    obtain ⟨p, hp, rfl, _, _, hfp, -⟩ := hmem p' hp'
    obtain ⟨r, hr, rfl, _, _, hfr, hlive⟩ := hmem r' hr'
    rw [hfp, hfr]
    exact fun hz => h.own p hp r hr (hlive hz)
  · intro p' hp' r' hr'
    obtain ⟨p, hp, rfl, _, _, hfp, hplive⟩ := hmem p' hp'
    obtain ⟨r, hr, rfl, _, _, hfr, hrlive⟩ := hmem r' hr'
    rw [hfp, hfr]
    exact fun hpz hrz => h.group p hp r hr (hplive hpz) (hrlive hrz)
  · intro p' hp' r' hr'
    obtain ⟨p, hp, rfl, _, _, hfp, hplive⟩ := hmem p' hp'
    obtain ⟨r, hr, rfl, _, _, hfr, hrlive⟩ := hmem r' hr'
    rw [hfp, hfr]
    exact fun hpz hrz => h.maker p hp r hr (hplive hpz) (hrlive hrz)

end Sound

/-- All that an event makes of a table. -/
inductive Does (t : Table) : Event → Table → Prop
  | fork {q : Proc} (parent pid start : ℕ) : q ∈ t.procs → q.zombie = false → t.Free pid →
      Does t (.fork parent pid start)
        ⟨t.procs ++ [{ q with uid := t.next, pid, start, parent, line := t.next :: q.line }],
          t.next + 1⟩
  | setsid {q : Proc} : q ∈ t.procs → q.zombie = false → t.group q.pid = [] →
      Does t (.setsid q.pid) (t.update q.pid { q with pgrp := q.pid, sid := q.pid, maker := q.uid })
  | setpgid {q : Proc} {pgrp : ℕ} : q ∈ t.procs → q.zombie = false → q.sid ≠ q.pid →
      t.Joins q pgrp → Does t (.setpgid q.pid pgrp) (t.update q.pid { q with pgrp })
  | exit (pid heir : ℕ) : Does t (.exit pid heir) { t with procs := t.procs.map fun r =>
      { r with
        zombie := r.zombie || r.pid == pid
        parent := if r.parent = pid then heir else r.parent } }
  | wait (pid : ℕ) : Does t (.wait pid) { t with procs := t.procs.filter (·.pid != pid) }

theorem does_of_step {t t' : Table} {e : Event} (h : t.step e = some t') : t.Does e t' := by
  cases e with
  | fork parent pid start =>
    cases hget : t.get parent with
    | none => simp [step, hget] at h
    | some q =>
      simp only [step, hget, Option.ite_none_right_eq_some, Option.some.injEq] at h
      obtain ⟨⟨hlive, hfree⟩, rfl⟩ := h
      exact .fork parent pid start (get_eq_some hget).1 hlive hfree
  | setsid pid =>
    cases hget : t.get pid with
    | none => simp [step, hget] at h
    | some q =>
      simp only [step, hget, Option.ite_none_right_eq_some, Option.some.injEq] at h
      obtain ⟨hq, rfl⟩ := get_eq_some hget
      obtain ⟨⟨hlive, hgroup⟩, rfl⟩ := h
      exact .setsid hq hlive hgroup
  | setpgid pid pgrp =>
    cases hget : t.get pid with
    | none => simp [step, hget] at h
    | some q =>
      simp only [step, hget, Option.ite_none_right_eq_some, Option.some.injEq] at h
      obtain ⟨hq, rfl⟩ := get_eq_some hget
      obtain ⟨⟨hlive, hsid, hjoins⟩, rfl⟩ := h
      exact .setpgid hq hlive hsid hjoins
  | exit pid heir =>
    cases hget : t.get pid with
    | none => simp [step, hget] at h
    | some q =>
      simp only [step, hget, Option.ite_none_right_eq_some, Option.some.injEq] at h
      exact h.2 ▸ .exit pid heir
  | wait pid =>
    cases hget : t.get pid with
    | none => simp [step, hget] at h
    | some q =>
      simp only [step, hget, Option.ite_none_right_eq_some, Option.some.injEq] at h
      exact h.2 ▸ .wait pid

/-- One event keeps a table sound. -/
theorem sound_step {t t' : Table} {e : Event} (h : t.Sound) (hstep : t.step e = some t') :
    t'.Sound := by
  cases does_of_step hstep with
  | fork parent pid start hq hlive hfree => exact h.fork hq hlive hfree start parent
  | setsid hq hlive hgroup => exact h.setsid hq hlive hgroup
  | setpgid hq hlive hsid hjoins => exact h.setpgid hq hlive hsid hjoins
  | exit pid heir =>
    have := h.thinned (fun r => { r with
      zombie := r.zombie || r.pid == pid
      parent := if r.parent = pid then heir else r.parent }) (fun _ => true)
      fun r => ⟨_, _, rfl, by simp +contextual⟩
    simpa using this
  | wait pid =>
    have := h.thinned id (·.pid != pid) fun r => ⟨_, _, rfl, id⟩
    simpa using this

end Table

end Posix

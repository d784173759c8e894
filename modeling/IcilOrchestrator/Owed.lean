import Mathlib
import IcilOrchestrator.Follows
import IcilOrchestrator.Lineage

/-!
# Submissions that are owed a duel

A submission that was queued waits in the queue, and then in the mark of the duel in progress, until
that is over. What is to be run is in the duel's run directory : a duel whose directory was moved
aside, as the crown moved, is put back at the head of the queue, by a write of its own.

`owed_of_reach` : in every run in which no process is killed and no act raises between those two
writes, every submission that is owed a duel waits in the queue or is in progress. `forgotten` is a
run without it.
-/

set_option linter.unusedSectionVars false

namespace IcilOrchestrator

open Python Prog

namespace Duels

section

variable (c : Crypto) (S : Contract)

/-! ## Where a submission is -/

/-- Every submission that is owed a duel waits in the queue, or its duel is in progress. -/
def Host.Owing (h : Host) : Prop :=
  ∀ key ∈ h.owed, h.queue.has key = true ∨ h.queue.duels key = true

/-- The mark of the duel in progress, and the run directories. -/
structure Bout where
  mark : Option Mark
  dirs : PyStr → RunDir

def Host.bout (h : Host) : Bout := ⟨h.queue.inProgress, h.dirs⟩

/-- The run directory of a submission's duel in progress holds its request. -/
def Bout.Held (k : Bout) : Prop :=
  ∀ m, k.mark = some m → m.entry.isSome = true →
    ∃ doc, (k.dirs (m.eventId.take 16)).request = some doc ∧
      (DuelRequest.fromDict doc).eventId c S = m.eventId

/-- No act raises while the run directory of the duel in progress is moved aside. -/
def Whole (_ : Tag) (h : Host) : Prop := h.faulty = true → h.bout.Held c S

/-! ## Runs -/

/-- A write of whoever has the store between two steps : it leaves the queue's entries and its mark,
and the request of the duel in progress. -/
structure Leaves (h h' : Host) : Prop where
  entries : h'.queue.entries = h.queue.entries
  mark : h'.queue.inProgress = h.queue.inProgress
  owed : h'.owed = h.owed
  request : ∀ m, h.queue.inProgress = some m →
    (h'.dirs (m.eventId.take 16)).request = (h.dirs (m.eventId.take 16)).request

inductive Turn where
  /-- The daemon does a step. -/
  | step
  /-- Another program writes. -/
  | writes (f : Host → Host)

/-- A daemon that may be killed and started again, but not while the run directory of its duel is
moved aside, and other programs that write between its steps. -/
def daemon : System Host Tag Raised Unit Turn where
  prog
    | .step => do
      let _ ← step c S
      pure ⟨⟩
    | .writes f => .write .nothing f
  starts
    | .step, _ => True
    | .writes f, _ => ∀ h, Leaves h (f h)
  mayDie h := h.bout.Held c S
  reset h := { h with stalled := false }

end

/-! ## The queue -/

variable {c : Crypto} {S : Contract} {req : DuelRequest} {h h' : Host} {k : Bout}

theorem Queue.has_iff {q : Queue} {key : PyStr} :
    q.has key = true ↔ ∃ e ∈ q.entries, e.ref.key = key := by
  simp [Queue.has]

theorem Queue.duels_iff {q : Queue} {key : PyStr} : q.duels key = true ↔
    ∃ m e, q.inProgress = some m ∧ m.entry = some e ∧ e.ref.key = key := by
  cases hm : q.inProgress with
  | none => simp [Queue.duels, hm]
  | some m =>
    cases he : m.entry with
    | none => simp [Queue.duels, hm, he]
    | some e => simp [Queue.duels, hm, he]

/-- An entry of another key stays. -/
theorem Queue.mem_without {q : Queue} {key : PyStr} {e : Entry} (he : e ∈ q.entries)
    (hne : e.ref.key ≠ key) : e ∈ q.without key :=
  List.mem_filter.2 ⟨he, decide_eq_true hne⟩

/-- A submission that is settled is owed no duel, and no other is owed one. -/
theorem mem_settle {key key' : PyStr} (hmem : key' ∈ (h.settle key).owed) :
    key' ∈ h.owed ∧ key' ≠ key := by
  obtain ⟨hmem, hne⟩ := List.mem_filter.1 hmem
  exact ⟨hmem, of_decide_eq_true hne⟩

namespace Host

theorem Owing.add (hh : h.Owing) (e : Entry) : (h.accept e.ref.key (h.queue.add e)).Owing := by
  intro key hmem
  by_cases hkey : e.ref.key = key
  · exact Or.inl (Queue.has_iff.2 ⟨e, List.mem_append_right _ (List.mem_singleton_self e), hkey⟩)
  · rcases List.mem_append.1 hmem with hmem | hmem
    · refine (hh key hmem).imp (fun hhas => ?_) id
      obtain ⟨e', he', rfl⟩ := Queue.has_iff.1 hhas
      exact Queue.has_iff.2 ⟨e', List.mem_append_left _ (Queue.mem_without he' (Ne.symm hkey)), rfl⟩
    · exact absurd (List.mem_singleton.1 hmem).symm hkey

theorem Owing.offer (hh : h.Owing) (e : Entry) : (h.accept e.ref.key (h.queue.offer e)).Owing := by
  have hhas : (h.queue.offer e).has e.ref.key = true := by
    unfold Queue.offer
    split_ifs with hhas
    · exact hhas
    · exact Queue.has_iff.2 ⟨e, List.mem_append_right _ (List.mem_singleton_self e), rfl⟩
  intro key hmem
  rcases List.mem_append.1 hmem with hmem | hmem
  · rcases hh key hmem with hold | hold
    · refine Or.inl ?_
      change (h.queue.offer e).has key = true
      unfold Queue.offer
      split_ifs
      · exact hold
      · obtain ⟨e', he', rfl⟩ := Queue.has_iff.1 hold
        exact Queue.has_iff.2 ⟨e', List.mem_append_left _ he', rfl⟩
    · refine Or.inr ?_
      change (h.queue.offer e).duels key = true
      unfold Queue.offer
      split_ifs <;> exact hold
  · exact Or.inl (List.mem_singleton.1 hmem ▸ hhas)

theorem Owing.remove (hh : h.Owing) (key : PyStr) : (h.remove key).Owing := by
  intro key' hmem
  by_cases hkey : key' = key
  · subst hkey
    unfold Host.remove at hmem ⊢
    split_ifs at hmem ⊢ with hduels
    · exact Or.inr hduels
    · exact absurd rfl (mem_settle hmem).2
  · have hold : key' ∈ h.owed := by
      unfold Host.remove at hmem
      split_ifs at hmem
      · exact hmem
      · exact (mem_settle hmem).1
    have hqueue : (h.remove key).queue = h.queue.remove key := by
      unfold Host.remove
      split_ifs <;> rfl
    rw [hqueue]
    refine (hh key' hold).imp (fun hhas => ?_) id
    obtain ⟨e', he', rfl⟩ := Queue.has_iff.1 hhas
    exact Queue.has_iff.2 ⟨e', Queue.mem_without he' hkey, rfl⟩

/-- A duel that is taken from the queue is in progress. -/
theorem Owing.take (hh : h.Owing) (hnone : h.queue.inProgress = none) {e : Entry} {key : PyStr}
    (htaken : h.queue.taken key = some e) (block : ℤ) (eventId : PyStr) :
    (h.change (·.take key block eventId)).Owing := by
  have hkey : e.ref.key = key := by simpa using List.find?_some htaken
  have hqueue : h.queue.take key block eventId =
      ⟨h.queue.without key, some ⟨eventId, some e⟩, max h.queue.block block⟩ := by
    unfold Queue.take
    rw [htaken]
  intro key' hmem
  change (h.queue.take key block eventId).has key' = true ∨
    (h.queue.take key block eventId).duels key' = true
  rw [hqueue]
  by_cases hkey' : key' = key
  · exact Or.inr (Queue.duels_iff.2 ⟨_, e, rfl, rfl, hkey.trans hkey'.symm⟩)
  · refine Or.inl ?_
    rcases hh key' hmem with hhas | hduels
    · obtain ⟨e', he', rfl⟩ := Queue.has_iff.1 hhas
      exact Queue.has_iff.2 ⟨e', Queue.mem_without he' hkey', rfl⟩
    · obtain ⟨m, -, hm, -⟩ := Queue.duels_iff.1 hduels
      cases hnone.symm.trans hm

/-- A duel that is put back waits in the queue again. -/
theorem Owing.putBack (hh : h.Owing) (fallback : Option Entry) :
    (h.change (·.putBack fallback)).Owing := by
  intro key hmem
  refine Or.inl ?_
  change (h.queue.putBack fallback).has key = true
  unfold Queue.putBack
  cases hback : h.queue.inProgress.bind fun m => m.entry.or fallback with
  | none =>
    rcases hh key hmem with hhas | hduels
    · exact hhas
    · obtain ⟨m, e, hm, he, -⟩ := Queue.duels_iff.1 hduels
      simp [hm, he] at hback
  | some e =>
    by_cases hkey : e.ref.key = key
    · exact Queue.has_iff.2 ⟨e, List.mem_cons_self, hkey⟩
    · rcases hh key hmem with hhas | hduels
      · obtain ⟨e', he', rfl⟩ := Queue.has_iff.1 hhas
        exact Queue.has_iff.2 ⟨e', List.mem_cons_of_mem _ (Queue.mem_without he' (Ne.symm hkey)),
          rfl⟩
      · obtain ⟨m, e', hm, he, rfl⟩ := Queue.duels_iff.1 hduels
        rw [hm, Option.bind_some, he, Option.some_or] at hback
        exact absurd (congrArg (·.ref.key) (Option.some.inj hback)).symm hkey

/-- A duel is finished that is over, or that no submission asked for. -/
theorem Owing.finish (hh : h.Owing) {ended : Bool}
    (hended : ended = true ∨ ∀ m, h.queue.inProgress = some m → m.entry = none) :
    (h.finish ended).Owing := by
  have hwaits : ∀ key, key ∈ (h.finish ended).owed → h.queue.has key = true := by
    intro key hmem
    unfold Host.finish at hmem
    cases hentry : h.queue.inProgress.bind Mark.entry with
    | none =>
      rw [hentry] at hmem
      refine (hh key hmem).resolve_right fun hduels => ?_
      obtain ⟨m, e, hm, he, -⟩ := Queue.duels_iff.1 hduels
      simp [hm, he] at hentry
    | some e =>
      obtain ⟨m, hm, he⟩ := Option.bind_eq_some_iff.1 hentry
      have htrue : ended = true := hended.resolve_right fun hnone => by simp [hnone m hm] at he
      rw [hentry] at hmem
      simp only [htrue, Bool.true_and] at hmem
      by_cases hhas : h.queue.has e.ref.key = true
      · simp only [hhas, Bool.not_true, Bool.false_eq_true, if_false] at hmem
        refine (hh key hmem).elim id fun hduels => ?_
        obtain ⟨m', e', hm', he', rfl⟩ := Queue.duels_iff.1 hduels
        obtain rfl := Option.some.inj (hm.symm.trans hm')
        obtain rfl := Option.some.inj (he.symm.trans he')
        exact hhas
      · simp only [hhas, Bool.not_false, if_true] at hmem
        obtain ⟨hold, hne⟩ := mem_settle hmem
        refine (hh key hold).resolve_right fun hduels => ?_
        obtain ⟨m', e', hm', he', rfl⟩ := Queue.duels_iff.1 hduels
        obtain rfl := Option.some.inj (hm.symm.trans hm')
        obtain rfl := Option.some.inj (he.symm.trans he')
        exact hne rfl
  have hqueue : (h.finish ended).queue = h.queue.finish := by
    unfold Host.finish
    split
    · split_ifs <;> rfl
    · rfl
  exact fun key hmem => Or.inl (by rw [hqueue]; exact hwaits key hmem)

end Host

/-! ## What programs keep -/

theorem bout_rely {meets : Tag → Host → Prop} (hr : (world meets).rely h h') :
    h'.bout = h.bout := by
  induction hr with
  | refl => rfl
  | tail _ hstep ih =>
    rw [← ih]
    cases hstep with
    | add => rfl
    | offer e =>
      unfold Host.accept Queue.offer
      split_ifs <;> rfl
    | remove key =>
      unfold Host.remove
      split_ifs <;> rfl
    | finds => rfl

theorem owing_rely {meets : Tag → Host → Prop} (hr : (world meets).rely h h') (hh : h.Owing) :
    h'.Owing := by
  induction hr with
  | refl => exact hh
  | tail _ hstep ih =>
    cases hstep with
    | add e => exact ih.add e
    | offer e => exact ih.offer e
    | remove key => exact ih.remove key
    | finds => exact ih

/-- Others leave the mark and the run directories. -/
def owing (c : Crypto) (S : Contract) : Frame Host Tag Bout where
  env := world (Whole c S)
  core := Host.bout
  inv := Host.Owing
  core_eq := bout_rely
  inv_rely := owing_rely

variable {α : Type} {moves : Prop} {P : Bout → Prop} {A : α → Bout → Prop}

/-- From `P` a program returns in `A`, or raises; a duel whose directory is moved aside it leaves
only with `CrownMoved`, and only where it `moves`. -/
abbrev Owes (c : Crypto) (S : Contract) (moves : Prop) (P : Bout → Prop) (A : α → Bout → Prop)
    (p : DProg α) : Prop :=
  (owing c S).Goes P A (fun e k => e = .crownMoved ∧ moves ∨ k.Held c S) p

theorem owes_act {t : Tag} {f : Host → Host} {g : Host → α}
    (hact : ∀ h, h.Owing → P h.bout → (f h).Owing ∧ A (g h) (f h).bout) :
    Owes c S moves P A (act t f g) := by
  refine Frame.goes_fallible (fun h hh hp _ => hact h hh hp) fun h e _ _ hwhole hfault => ?_
  unfold Host.fault at hfault
  split_ifs at hfault with hfaulty
  exact Or.inr (hwhole hfaulty)

theorem owes_look {g : Host → α} (hlook : ∀ h, P h.bout → A (g h) h.bout) :
    Owes c S moves P A (look g) :=
  owes_act fun h hh hp => ⟨hh, hlook h hp⟩

/-- A look that nothing is to be learnt of. -/
theorem owes_see {g : Host → α} : Owes c S moves P (fun _ => P) (look g) := owes_look fun _ hp => hp

/-- A write to neither the queue nor the run directories. -/
theorem owes_write {f : Host → Host} (hqueue : ∀ h, (f h).queue = h.queue)
    (howed : ∀ h, (f h).owed = h.owed) (hdirs : ∀ h, (f h).dirs = h.dirs) :
    Owes c S moves P (fun _ => P) (put f) :=
  owes_act fun h hh hp => by
    have hbout : (f h).bout = h.bout := by rw [Host.bout, hqueue, hdirs, Host.bout]
    refine ⟨fun key hmem => ?_, hbout ▸ hp⟩
    rw [hqueue]
    exact hh key (howed h ▸ hmem)

theorem owes_ret {a : α} (h : ∀ k, P k → A a k) : Owes c S moves P A (pure a) := Frame.goes_ret h

/-! ## A duel -/

/-- The duel in progress, if a submission's is, is this one. -/
def Bout.Marked (c : Crypto) (S : Contract) (req : DuelRequest) (k : Bout) : Prop :=
  ∀ m, k.mark = some m → m.entry.isSome = true → m.eventId = req.eventId c S

/-- Its run directory holds its request. -/
structure Bout.Recorded (c : Crypto) (S : Contract) (req : DuelRequest) (k : Bout) : Prop where
  marked : k.Marked c S req
  request : (k.dirs (req.runDir c S)).request = some (req.asDict c S)

theorem Bout.Recorded.held (hk : k.Recorded c S req) : k.Held c S := by
  intro m hm hsome
  rw [hk.marked m hm hsome]
  exact ⟨req.asDict c S, hk.request, rfl⟩

/-- A run directory changes. -/
def Bout.setDir (k : Bout) (dir : PyStr) (d : RunDir) : Bout :=
  ⟨k.mark, Function.update k.dirs dir d⟩

@[simp] theorem Bout.setDir_dirs (k : Bout) (dir : PyStr) (d : RunDir) :
    (k.setDir dir d).dirs dir = d := Function.update_self ..

/-- A write to a run directory. -/
theorem owes_dir {dir : PyStr} {d : RunDir → RunDir} {A : Unit → Bout → Prop}
    (hput : ∀ k : Bout, P k → A () (k.setDir dir (d (k.dirs dir)))) :
    Owes c S moves P A (put fun h => h.setDir dir (d (h.dirs dir))) := by
  refine owes_act fun h hh hp => ⟨hh, ?_⟩
  have hbout : (h.setDir dir (d (h.dirs dir))).bout = h.bout.setDir dir (d (h.bout.dirs dir)) := rfl
  rw [hbout]
  exact hput h.bout hp

theorem owes_record {R : Option Mark → Prop} : Owes c S moves (fun k => R k.mark)
    (fun _ k => R k.mark ∧ (k.dirs (req.runDir c S)).request = some (req.asDict c S))
    (recordRequest c S req) := by
  have hrecord : Owes c S moves (fun k => R k.mark)
      (fun _ k => R k.mark ∧ (k.dirs (req.runDir c S)).request = some (req.asDict c S))
      (recordRequest.record c S req) :=
    owes_dir (d := fun d => { d with request := some (req.asDict c S) }) fun k hk =>
      ⟨hk, by simp⟩
  refine Frame.Goes.bind (A := fun existing k => R k.mark ∧
    (k.dirs (req.runDir c S)).request = existing) (owes_look fun _ hk => ⟨hk, rfl⟩)
    fun existing => ?_
  cases existing with
  | none => exact hrecord.from fun _ hk => hk.1
  | some doc =>
    refine Frame.Goes.ite (fun hsame => owes_ret fun k hk => ⟨hk.1, hsame ▸ hk.2⟩) fun _ => ?_
    exact Frame.Goes.bind (A := fun _ k => R k.mark)
      (owes_dir (d := fun _ => .empty) fun _ hk => hk.1) fun _ => hrecord

theorem owes_decide (status : Status) (record : Option Record) :
    Owes c S moves (Bout.Recorded c S req) (fun _ => Bout.Recorded c S req)
      (decide c S req status record) := by
  refine Frame.Goes.bind (A := fun _ => Bout.Recorded c S req) ?_ fun _ => owes_ret fun _ hk => hk
  refine owes_dir (d := fun d => { d with outcome := some ⟨status, req.kind, req.eventId c S,
    req.duelId c S, record⟩ }) fun k hk => ⟨hk.marked, ?_⟩
  rw [Bout.setDir_dirs]
  exact hk.request

/-- A duel is moved aside only with `CrownMoved`. -/
theorem owes_crown : Owes c S True P (fun _ => P) (checkCrown c S req) := by
  refine Frame.Goes.bind (A := fun _ => P) (owes_act fun _ hh hp => ⟨hh, hp⟩) fun king =>
    Frame.Goes.ite (fun _ => owes_ret fun _ hk => hk) fun _ => ?_
  exact Frame.Goes.bind (A := fun _ _ => True) (owes_dir (d := fun _ => .empty) fun _ _ => trivial)
    fun _ => Frame.goes_raise fun _ _ => Or.inl ⟨rfl, trivial⟩

theorem owes_raise {e : Raised} : Owes c S moves (Bout.Recorded c S req) A (raise e : DProg α) :=
  Frame.goes_raise fun _ hk => Or.inr hk.held

theorem owes_republished (record : Record) :
    Owes c S moves (Bout.Recorded c S req) (fun _ => Bout.Recorded c S req)
      (republished c S req record) := by
  refine Frame.Goes.bind (owes_write (fun h => ?_) (fun h => ?_) fun h => ?_) fun _ =>
    owes_decide _ _
  all_goals split <;> rfl

theorem owes_append (record : Record) :
    Owes c S moves (Bout.Recorded c S req) (fun _ => Bout.Recorded c S req) (append c record) := by
  refine owes_see.bind fun event => ?_
  cases event with
  | none => exact owes_raise
  | some event =>
    exact owes_see.bind fun seq => Frame.Goes.bind
      (owes_write (fun _ => rfl) (fun _ => rfl) fun _ => rfl) fun _ => Frame.Goes.bind
        (owes_write (fun _ => rfl) (fun _ => rfl) fun _ => rfl) fun _ => owes_ret fun _ hk => hk

theorem owes_publish (dethroned : Bool) (event : Bytes) (rest : PyStr) :
    Owes c S True (Bout.Recorded c S req) (fun _ => Bout.Recorded c S req)
      (publish c S req dethroned event rest) := by
  refine owes_see.bind fun found => ?_
  cases found with
  | some record => exact owes_republished record
  | none =>
    exact owes_crown.bind fun _ => Frame.Goes.bind
      (owes_write (fun _ => rfl) (fun _ => rfl) fun _ => rfl) fun _ =>
        (owes_append _).bind fun _ => owes_decide _ _

theorem owes_play : Owes c S True (Bout.Recorded c S req) (fun _ => Bout.Recorded c S req)
    (play c S req) := by
  refine owes_see.bind fun fate => ?_
  cases fate with
  | unavailable => exact owes_raise
  | failed => exact owes_raise
  | crashes => exact owes_raise
  | refused => exact owes_decide _ _
  | void => exact owes_decide _ _
  | stands dethroned event rest => exact owes_publish dethroned event rest

theorem owes_run : Owes c S True (Bout.Marked c S req) (fun _ => Bout.Recorded c S req)
    (run c S req) := by
  have hrecord : Owes c S True (Bout.Marked c S req) (fun _ => Bout.Recorded c S req)
      (recordRequest c S req) :=
    (owes_record (R := fun mark => ∀ m, mark = some m → m.entry.isSome = true →
      m.eventId = req.eventId c S)).to fun _ _ hk => ⟨hk.1, hk.2⟩
  refine hrecord.bind fun _ => owes_see.bind fun outcome => ?_
  cases outcome with
  | some result => exact owes_ret fun _ hk => hk
  | none =>
    refine owes_see.bind fun found => ?_
    cases found with
    | some record => exact owes_republished record
    | none =>
      refine owes_crown.bind fun _ => owes_play.catch fun e => Frame.goes_raise fun k hk => ?_
      refine hk.imp_left fun hmoved => ?_
      rw [hmoved.1]
      exact ⟨rfl, trivial⟩

/-! ## The daemon -/

/-- With no duel in progress, no directory is moved aside. -/
theorem held_of_none (hnone : k.mark = none) : k.Held c S := fun m hm => by
  cases hnone.symm.trans hm

theorem owes_publishQueue : Owes c S moves P (fun _ => P) publishQueue :=
  owes_write (fun _ => rfl) (fun _ => rfl) fun _ => rfl

/-- The end of a duel that is over, or that no submission asked for. -/
theorem owes_finish {ended : Bool}
    (hended : ended = true ∨ ∀ k, P k → ∀ m, k.mark = some m → m.entry = none) :
    Owes c S moves P (fun _ => Bout.Held c S) (runDuel.finish ended) := by
  refine Frame.Goes.bind (A := fun _ k => k.mark = none) (owes_act fun h hh hp =>
    ⟨hh.finish (hended.imp id fun hnone => hnone _ hp), ?_⟩) fun _ =>
      owes_publishQueue.bind fun _ => owes_ret fun _ hk => held_of_none hk
  unfold Host.finish
  split
  · split_ifs <;> rfl
  · rfl

/-- A duel is over, is left in progress, or is put back. -/
theorem owes_runDuel : Owes c S moves (Bout.Marked c S req) (fun _ => Bout.Held c S)
    (runDuel c S req) := by
  refine Frame.Goes.bind (A := Frame.Either (fun _ => Bout.Held c S) fun e k =>
    e = .crownMoved ∧ True ∨ k.Held c S) ?_ fun r => ?_
  · exact (goes_attempt (owes_run.to fun _ _ hk => hk.held)).weaken (fun _ hk => hk)
      (fun _ _ hk => hk) fun _ _ hk => hk.elim
  cases r with
  | ok result => exact owes_finish (Or.inl rfl)
  | error e =>
    cases e with
    | unavailable => exact owes_ret fun _ hk => hk.resolve_left (by simp)
    | failed => exact owes_finish (Or.inl rfl)
    | crashed => exact Frame.goes_raise fun _ hk => Or.inr (hk.resolve_left (by simp))
    | crownMoved =>
      refine Frame.Goes.bind (A := fun _ k => k.mark = none) (owes_act fun h hh _ =>
        ⟨hh.putBack _, ?_⟩) fun _ => owes_publishQueue.bind fun _ =>
          owes_ret fun _ hk => held_of_none hk
      change (h.queue.putBack _).inProgress = none
      unfold Queue.putBack
      split <;> rfl

theorem owes_resume (mark : Mark) :
    Owes c S moves (fun k => k.mark = some mark ∧ k.Held c S) (fun _ => Bout.Held c S)
      (resume c S mark) := by
  refine Frame.Goes.bind (A := fun doc k => k.mark = some mark ∧ k.Held c S ∧
    (k.dirs (mark.eventId.take 16)).request = doc) (owes_look fun _ hk => ⟨hk.1, hk.2, rfl⟩)
    fun doc => ?_
  -- the directory of a submission's duel holds its request
  have hnone : ∀ k : Bout, k.mark = some mark ∧ k.Held c S ∧
      (k.dirs (mark.eventId.take 16)).request = doc → (∀ d, doc = some d →
        (DuelRequest.fromDict d).eventId c S ≠ mark.eventId) →
          ∀ m, k.mark = some m → m.entry = none := by
    rintro k ⟨hm, hheld, hdoc⟩ hne m hm'
    obtain rfl := Option.some.inj (hm.symm.trans hm')
    refine Option.not_isSome_iff_eq_none.1 fun hsome => ?_
    obtain ⟨d, hd, heq⟩ := hheld _ hm hsome
    exact hne d (hdoc.symm.trans hd) heq
  cases doc with
  | none => exact owes_finish (Or.inr fun k hk => hnone k hk fun _ hd => by cases hd)
  | some doc =>
    refine Frame.Goes.ite (fun heq => owes_runDuel.from fun k hk m hm _ => ?_) fun hne =>
      owes_finish (Or.inr fun k hk => hnone k hk fun d hd => ?_)
    · obtain rfl := Option.some.inj (hk.1.symm.trans hm)
      exact heq.symm
    · exact Option.some.inj hd ▸ hne

theorem owes_nextBlock : Owes c S moves P (fun _ => P) nextBlock :=
  owes_see.bind fun _ => owes_see.bind fun _ => owes_ret fun _ hk => hk

theorem owes_stalled (b : Bool) : Owes c S moves P (fun _ => P) (do
    put fun h => { h with stalled := true }
    pure b) :=
  Frame.Goes.bind (owes_write (fun _ => rfl) (fun _ => rfl) fun _ => rfl) fun _ =>
    owes_ret fun _ hk => hk

theorem owes_baselineGenesis (repo revision : PyStr) :
    Owes c S moves (fun k => k.mark = none) (fun _ => Bout.Held c S)
      (baselineGenesis c S repo revision) := by
  unfold baselineGenesis
  split
  · exact (owes_stalled false).to fun _ _ hk => held_of_none hk
  · rename_i ref _
    refine owes_see.bind fun ready => Frame.Goes.ite (fun _ => ?_) fun _ =>
      owes_ret fun _ hk => held_of_none hk
    refine owes_nextBlock.bind fun block => ?_
    let req : DuelRequest := ⟨ref, none, none, block⟩
    refine (owes_record (R := (· = none))).bind fun _ => ?_
    refine Frame.Goes.bind (A := fun _ k => k.mark = none)
      (owes_act fun h hh hp => ⟨hh, hp.1⟩) fun _ => ?_
    refine Frame.Goes.bind (A := fun _ => Bout.Marked c S req) (owes_act fun h hh hp => ?_) fun _ =>
      owes_publishQueue.bind fun _ => owes_runDuel.bind fun ran =>
        Frame.Goes.ite (fun _ => ?_) fun _ => owes_ret fun _ hk => hk
    · refine ⟨fun key hmem => (hh key hmem).imp id fun hduels => ?_, fun m hm hsome => ?_⟩
      · obtain ⟨m, e, hm, -, -⟩ := Queue.duels_iff.1 hduels
        cases hp.symm.trans hm
      · obtain rfl := Option.some.inj hm
        cases hsome
    · exact owes_see.bind fun king =>
        Frame.Goes.ite (fun _ => owes_stalled true) fun _ => owes_ret fun _ hk => hk

/-- An entry is taken from the queue, and is in progress. -/
theorem owes_take : Owes c S moves
    (fun k => k.mark = none ∧ (k.dirs (req.runDir c S)).request = some (req.asDict c S))
    (fun e k => e.elim (k.Held c S) fun _ => k.Marked c S req) (take c S req) := by
  refine owes_act fun h hh hp => ?_
  have hnone : h.queue.inProgress = none := hp.1
  cases htaken : h.queue.taken req.challenger.key with
  | none => exact ⟨hh, held_of_none hnone⟩
  | some e =>
    refine ⟨hh.take hnone htaken _ _, fun m hm _ => ?_⟩
    have hmark : (h.queue.take req.challenger.key req.block (req.eventId c S)).inProgress =
        some m := hm
    unfold Queue.take at hmark
    rw [htaken] at hmark
    obtain rfl := Option.some.inj hmark
    rfl

theorem owes_duelEntry (king : Option SubmissionRef) (entry : Entry) :
    Owes c S moves (fun k => k.mark = none) (fun _ => Bout.Held c S)
      (duelEntry c S king entry) := by
  refine owes_nextBlock.bind fun block => (owes_record (R := (· = none))).bind fun _ =>
    owes_take.bind fun e => ?_
  cases e with
  | none => exact owes_ret fun _ hk => hk
  | some e => exact owes_publishQueue.bind fun _ => owes_runDuel

theorem owes_step : Owes c S moves (Bout.Held c S) (fun _ => Bout.Held c S) (step c S) := by
  refine Frame.Goes.bind (A := fun mark k => k.mark = mark ∧ k.Held c S)
    (owes_look fun _ hk => ⟨rfl, hk⟩) fun mark => ?_
  cases mark with
  | some mark =>
    exact owes_see.bind fun ready =>
      Frame.Goes.ite (fun _ => owes_resume mark) fun _ => owes_ret fun _ hk => hk.2
  | none =>
    refine owes_see.bind fun stalled =>
      Frame.Goes.ite (fun _ => owes_ret fun _ hk => hk.2) fun _ => ?_
    refine Frame.Goes.from (P := fun k => k.mark = none) ?_ fun _ hk => hk.1
    refine owes_see.bind fun king => ?_
    split
    · exact owes_baselineGenesis _ _
    · refine owes_see.bind fun entry => ?_
      cases entry with
      | none => exact owes_ret fun _ hk => held_of_none hk
      | some entry =>
        refine owes_see.bind fun ready =>
          Frame.Goes.ite (fun _ => ?_) fun _ => owes_ret fun _ hk => held_of_none hk
        refine Frame.Goes.ite (fun _ => ?_) fun _ => owes_duelEntry _ entry
        refine Frame.Goes.bind (A := fun _ k => k.mark = none)
          (owes_act fun h hh hp => ⟨hh.remove _, ?_⟩) fun _ =>
            owes_publishQueue.bind fun _ => owes_ret fun _ hk => held_of_none hk
        unfold Host.remove
        split_ifs <;> exact hp

/-! ## Runs -/

theorem owes_turn (turn : Turn) (hstarts : (daemon c S).starts turn h) :
    Owes c S False (Bout.Held c S) (fun _ => Bout.Held c S) ((daemon c S).prog turn) := by
  cases turn with
  | step => exact owes_step.bind fun _ => owes_ret fun _ hk => hk
  | writes f =>
    refine Frame.goes_act (R := fun _ k => k.Held c S) (fun s hs hp _ => ?_) fun _ =>
      owes_ret fun _ hk => hk
    obtain ⟨hentries, hmark, howed, hrequest⟩ := hstarts s
    refine ⟨fun key hmem => ?_, fun m hm hsome => ?_⟩
    · rw [Queue.has, Queue.duels, hentries, hmark]
      exact hs key (howed ▸ hmem)
    · have hm' : s.queue.inProgress = some m := hmark ▸ hm
      obtain ⟨doc, hdoc, heq⟩ := hp m hm' hsome
      exact ⟨doc, (hrequest m hm').trans hdoc, heq⟩

/-- However daemon steps, what is queued and removed, and what other programs write between the
steps are scheduled, with kills and with acts that raise, but for those while the run directory of
the duel in progress is moved aside : every submission that is owed a duel waits in the queue, or
its duel is in progress. -/
theorem owed_of_reach {h : Host} (hheld : h.bout.Held c S) (howing : h.Owing)
    {conf : System.Conf Host Tag Raised Unit Turn}
    (hreach : (daemon c S).Reach (world (Whole c S)) h conf) : conf.state.Owing := by
  refine Frame.inv_of_reach (Φ := owing c S) (J := Bout.Held c S) (fun turn s hstarts => ?_)
    (fun s hs hheld => ⟨hs, hheld⟩) howing hheld hreach
  exact (owes_turn turn hstarts).weaken (fun _ hk => hk) (fun _ _ hk => hk) fun _ _ hk =>
    hk.resolve_left fun hmoved => hmoved.2

/-- A submission waits, against a king, on a host without Docker. -/
def toyWaiting : Host :=
  { toyStore with
    queue := ⟨[⟨toyRef (py "x"), none⟩], none, 0⟩
    head := ⟨1, [], 1, some (toyRef (py "k"))⟩
    fate := .unavailable
    owed := [(toyRef (py "x")).key] }

/-- Another king is crowned. -/
def Host.crowned (h : Host) : Host := { h with head := ⟨2, [], 2, some (toyRef (py "y"))⟩ }

theorem leaves_crowned (h : Host) : Leaves h h.crowned := ⟨rfl, rfl, rfl, fun _ _ => rfl⟩

/-- A step of the daemon that is let go. -/
def Host.stepped (c : Crypto) (S : Contract) (h : Host) : Host :=
  (((daemon c S).prog .step).exec h).2

/-- Whether an act does not raise. -/
def sound (_ : Tag) (h : Host) : Bool := !h.faulty

theorem whole_of_sound (t : Tag) (h : Host) (ht : sound t h = true) : Whole c S t h := by
  intro hbad
  simp [sound, hbad] at ht

/-- A step is let go. -/
theorem reach_stepped {h₀ : Host}
    (hsound : ((daemon c S).prog .step).meetsAll sound h = true)
    (hreach : (daemon c S).Reach (world (Whole c S)) h₀ ⟨h, none⟩) :
    (daemon c S).Reach (world (Whole c S)) h₀ ⟨h.stepped c S, none⟩ :=
  (System.Reach.exec_of_meets whole_of_sound hsound
    (hreach.tail (.start (c := Turn.step) trivial))).tail .finish

theorem reach_crowned {h₀ : Host} (hreach : (daemon c S).Reach (world (Whole c S)) h₀ ⟨h, none⟩)
    (hcalm : h.faulty = false) : (daemon c S).Reach (world (Whole c S)) h₀ ⟨h.crowned, none⟩ := by
  have hstart := hreach.tail (.start (c := Turn.writes Host.crowned) leaves_crowned)
  exact (hstart.tail (.act fun hbad => by cases hcalm.symm.trans hbad)).tail .finish

/-- The duel is left in progress, and put back once the crown has moved. -/
def toyBack : Host := ((toyWaiting.stepped toyHash toyContract).crowned).stepped toyHash toyContract

theorem owing_toyWaiting : toyWaiting.Owing := fun key hmem => by
  obtain rfl := List.mem_singleton.1 hmem
  exact Or.inl (by decide +kernel)

theorem held_toyWaiting : toyWaiting.bout.Held toyHash toyContract := held_of_none rfl

theorem checked_toyBack :
    ((daemon toyHash toyContract).prog .step).meetsAll sound toyWaiting = true ∧
    (toyWaiting.stepped toyHash toyContract).faulty = false ∧
    ((daemon toyHash toyContract).prog .step).meetsAll sound
      (toyWaiting.stepped toyHash toyContract).crowned = true ∧
    toyBack.queue.inProgress.isNone = true ∧ toyBack.owed = [(toyRef (py "x")).key] := by
  decide +kernel

theorem toy_owed : toyBack.queue.inProgress.isNone = true ∧
    toyBack.queue.has (toyRef (py "x")).key = true := by
  obtain ⟨hfirst, hcalm, hsecond, hnone, howed⟩ := checked_toyBack
  have hleft : (daemon toyHash toyContract).Reach (world (Whole toyHash toyContract)) toyWaiting
      ⟨toyWaiting.stepped toyHash toyContract, none⟩ := reach_stepped hfirst .refl
  have hback : (daemon toyHash toyContract).Reach (world (Whole toyHash toyContract)) toyWaiting
      ⟨toyBack, none⟩ :=
    reach_stepped hsecond (reach_crowned hleft hcalm)
  generalize toyBack = h at hback hnone howed ⊢
  refine ⟨hnone, ?_⟩
  refine (owed_of_reach held_toyWaiting owing_toyWaiting hback _
    (howed ▸ List.mem_singleton_self _)).resolve_right fun hduels => ?_
  obtain ⟨m, e, hm, -, -⟩ := Queue.duels_iff.1 hduels
  rw [show h.queue.inProgress = some m from hm] at hnone
  cases hnone

/-- The daemon, which may be killed at any time. -/
def careless (c : Crypto) (S : Contract) : System Host Tag Raised Unit Turn :=
  { daemon c S with mayDie _ := True }

/-- A step of the daemon that is killed after so many acts. -/
def Host.stopped (c : Crypto) (S : Contract) (h : Host) (n : ℕ) : Host :=
  (daemon c S).reset (((daemon c S).prog .step).after n h).2

/-- The daemon is killed once it has moved the run directory aside, and started again. -/
def toyForgotten : Host :=
  (((toyWaiting.stepped toyHash toyContract).crowned).stopped toyHash toyContract 8).stepped
    toyHash toyContract

theorem reach_careless (h : Host) (n : ℕ) : (careless c S).Reach (world fun _ _ => True) h
    ⟨(((h.stepped c S).crowned).stopped c S n).stepped c S, none⟩ := by
  have hleft := (System.Reach.exec (S := careless c S) (E := world fun _ _ => True)
    (fun _ _ => trivial) (.single (.start (c := Turn.step) (s := h) trivial))).tail .finish
  have hcrowned := ((hleft.tail (.start (c := Turn.writes Host.crowned) leaves_crowned)).tail
    (.act trivial)).tail .finish
  have hkilled := (System.Reach.after (fun _ _ => trivial)
    (hcrowned.tail (.start (c := Turn.step) trivial)) n).tail (.kill trivial)
  exact (System.Reach.exec (fun _ _ => trivial)
    (hkilled.tail (.start (c := Turn.step) trivial))).tail .finish

/-- A submission that was queued is in the queue no more, and had no duel. -/
theorem forgotten : ∃ (h : Host) (conf : System.Conf Host Tag Raised Unit Turn),
    h.bout.Held toyHash toyContract ∧ h.Owing ∧
      (careless toyHash toyContract).Reach (world fun _ _ => True) h conf ∧ ¬conf.state.Owing := by
  refine ⟨toyWaiting, ⟨toyForgotten, none⟩, held_toyWaiting, owing_toyWaiting,
    reach_careless toyWaiting 8, fun howing => ?_⟩
  obtain ⟨howed, hwaits, hduels⟩ : toyForgotten.owed = [(toyRef (py "x")).key] ∧
      toyForgotten.queue.has (toyRef (py "x")).key = false ∧
      toyForgotten.queue.duels (toyRef (py "x")).key = false := by
    decide +kernel
  have hkey := howing (toyRef (py "x")).key (by rw [howed]; exact List.mem_singleton_self _)
  rw [hwaits, hduels] at hkey
  simp at hkey

end Duels

end IcilOrchestrator

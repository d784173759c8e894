import Mathlib
import IcilOrchestrator.Canon
import IcilOrchestrator.Duels

/-!
# What a duel by hand is run at

Whose a block is, is read off a run directory. The daemon records a request before it takes the
entry, so a directory may be that of a duel that was never begun, at a block that another was
given; and `holds_request` does not look at `outcome.json`.

`hand_proper` : in every run whose steps are `Clear`, each `duel` command resumes its own duel,
not decided yet, at the last block handed out, or runs at a fresh block; and no other duel is ever
given the block it runs at. `duel_decided` and `hand_strays` : where a duel's directory holds its
outcome the command returns it, and where it was recorded at a block of another it runs there.
-/

set_option linter.unusedSectionVars false

namespace IcilOrchestrator

open Python Prog

namespace Duels

variable {c : Crypto} {S : Contract}

/-! ## The part of a host that blocks are given by -/

/-- What others leave as it is. -/
structure Core where
  dirs : PyStr → RunDir
  given : List RequestDoc
  hand : List HandRun
  block : ℤ
  inProgress : Option Mark

def Host.core (h : Host) : Core := ⟨h.dirs, h.given, h.hand, h.queue.block, h.queue.inProgress⟩

def Core.setDir (k : Core) (dir : PyStr) (d : RunDir) : Core :=
  { k with dirs := Function.update k.dirs dir d }

/-- A run directory holds a request. -/
def Core.Holds (c : Crypto) (S : Contract) (req : DuelRequest) (k : Core) : Prop :=
  (k.dirs (req.runDir c S)).request = some (req.asDict c S)

/-- What holds of every host that `Clear` steps reach. -/
structure Inv (c : Crypto) (S : Contract) (k : Core) : Prop where
  docs : ∀ dir r, (k.dirs dir).request = some r → (DuelRequest.fromDict r).asDict c S = r
  blank : ∀ dir, (k.dirs dir).request = none → (k.dirs dir).outcome = none
  /-- A request that is recorded no higher than the counter is the duel that its block was given. -/
  owned : ∀ dir r, (k.dirs dir).request = some r → r.block ≤ k.block → r ∈ k.given
  decided : ∀ dir r, (k.dirs dir).request = some r → (k.dirs dir).outcome ≠ none →
    r.block ≤ k.block
  mark : ∀ m, k.inProgress = some m → ∀ r, (k.dirs (m.eventId.take 16)).request = some r →
    r.block ≤ k.block
  increasing : k.given.Pairwise fun r r' => r.block < r'.block
  last : ∀ r, k.given.getLast? = some r → r.block = k.block
  hand : ∀ x ∈ k.hand, x.Proper c S ∧ x.request.asDict c S ∈ k.given

theorem asDict_fromDict (req : DuelRequest) :
    (DuelRequest.fromDict (req.asDict c S)).asDict c S = req.asDict c S := by
  have hsize : S.sizeOf (some (S.sizeOf req.size)) = S.sizeOf req.size := by
    cases hs : req.size with
    | none =>
      exact ite_self _
    | some s =>
      simp only [Contract.sizeOf]
      split_ifs <;> simp_all
  simp only [DuelRequest.fromDict, DuelRequest.asDict, hsize]
  rfl

namespace Inv

variable {k : Core} {r r' doc : RequestDoc} {dir : PyStr} {d : RunDir} {req : DuelRequest}

/-- Blocks are handed out no higher than the counter. -/
theorem given_le (hk : Inv c S k) (hr : r ∈ k.given) : r.block ≤ k.block := by
  obtain ⟨rs, z, heq⟩ := (List.eq_nil_or_concat' k.given).resolve_left (List.ne_nil_of_mem hr)
  have hz : z.block = k.block := hk.last z (by simp [heq])
  have hinc := hk.increasing
  rw [heq] at hr hinc
  rcases List.mem_append.1 hr with hr | hr
  · exact hz ▸ ((List.pairwise_append.1 hinc).2.2 r hr z (List.mem_singleton_self z)).le
  · exact (List.mem_singleton.1 hr) ▸ hz.le

/-- Each is handed out once. -/
theorem given_inj (hk : Inv c S k) (hr : r ∈ k.given) (hr' : r' ∈ k.given)
    (h : r.block = r'.block) : r = r' := by
  have hnodup : (k.given.map RequestDoc.block).Nodup :=
    List.pairwise_map.2 (hk.increasing.imp ne_of_lt)
  exact List.inj_on_of_nodup_map hnodup hr hr' h

/-- The last block handed out is the counter. -/
theorem getLast_given (hk : Inv c S k) (hr : r ∈ k.given) (h : r.block = k.block) :
    k.given.getLast? = some r := by
  have hz := List.getLast?_eq_some_getLast (List.ne_nil_of_mem hr)
  exact hz.trans (congrArg some (hk.given_inj (List.getLast_mem _) hr (by rw [h, hk.last _ hz])))

/-- A run directory becomes another. -/
theorem setDir (hk : Inv c S k) (hblank : d.request = none → d.outcome = none)
    (hdocs : ∀ r, d.request = some r → (DuelRequest.fromDict r).asDict c S = r)
    (howned : ∀ r, d.request = some r → r.block ≤ k.block → r ∈ k.given)
    (hlow : ∀ r, d.request = some r → d.outcome ≠ none ∨ k.inProgress ≠ none →
      r.block ≤ k.block) : Inv c S (k.setDir dir d) := by
  have hdir : ∀ x, (k.setDir dir d).dirs x = if x = dir then d else k.dirs x :=
    fun x => Function.update_apply k.dirs dir d x
  refine ⟨fun x r h => ?_, fun x h => ?_, fun x r h hle => ?_, fun x r h ho => ?_,
    fun m hm r h => ?_, hk.increasing, hk.last, hk.hand⟩
  · rw [hdir] at h
    split_ifs at h
    · exact hdocs r h
    · exact hk.docs x r h
  · rw [hdir] at h ⊢
    split_ifs at h ⊢
    · exact hblank h
    · exact hk.blank x h
  · rw [hdir] at h
    split_ifs at h
    · exact howned r h hle
    · exact hk.owned x r h hle
  · rw [hdir] at h ho
    split_ifs at h ho
    · exact hlow r h (Or.inl ho)
    · exact hk.decided x r h ho
  · rw [hdir] at h
    split_ifs at h
    · exact hlow r h (Or.inr (by rw [show k.inProgress = some m from hm]; simp))
    · exact hk.mark m hm r h

/-- A run directory is moved aside. -/
theorem aside (hk : Inv c S k) (dir : PyStr) : Inv c S (k.setDir dir .empty) :=
  hk.setDir (fun _ => rfl) (by simp [RunDir.empty]) (by simp [RunDir.empty])
    (by simp [RunDir.empty])

/-- A block above the counter is handed out. -/
theorem give (hk : Inv c S k) (hlt : k.block < doc.block)
    (hclear : ∀ dir r, (k.dirs dir).request = some r → k.block < r.block → r = doc)
    {m : Option Mark} (hm : ∀ x, m = some x → ∀ r,
      (k.dirs (x.eventId.take 16)).request = some r → r.block ≤ doc.block) :
    Inv c S ⟨k.dirs, k.given ++ [doc], k.hand, doc.block, m⟩ where
  docs := hk.docs
  blank := hk.blank
  owned dir r h _ := by
    rcases le_or_gt r.block k.block with hle | hgt
    · exact List.mem_append_left _ (hk.owned dir r h hle)
    · exact List.mem_append_right _ (List.mem_singleton.2 (hclear dir r h hgt))
  decided dir r h ho := (hk.decided dir r h ho).trans hlt.le
  mark := hm
  increasing := List.pairwise_append.2 ⟨hk.increasing, List.pairwise_singleton _ _,
    fun r hr z hz => (hk.given_le hr).trans_lt ((List.mem_singleton.1 hz) ▸ hlt)⟩
  last r h := by simp_all
  hand x hx := ⟨(hk.hand x hx).1, List.mem_append_left _ (hk.hand x hx).2⟩

/-- The duel in progress becomes another. -/
theorem marks (hk : Inv c S k) {m : Option Mark} (hm : ∀ x, m = some x → ∀ r,
    (k.dirs (x.eventId.take 16)).request = some r → r.block ≤ k.block) :
    Inv c S { k with inProgress := m } :=
  ⟨hk.docs, hk.blank, hk.owned, hk.decided, hm, hk.increasing, hk.last, hk.hand⟩

/-- A duel is run by hand. -/
theorem hands (hk : Inv c S k) {x : HandRun} (hx : x.Proper c S)
    (hgiven : x.request.asDict c S ∈ k.given) : Inv c S { k with hand := k.hand ++ [x] } where
  docs := hk.docs
  blank := hk.blank
  owned := hk.owned
  decided := hk.decided
  mark := hk.mark
  increasing := hk.increasing
  last := hk.last
  hand y hy := by
    rcases List.mem_append.1 hy with hy | hy
    · exact hk.hand y hy
    · obtain rfl := List.mem_singleton.1 hy
      exact ⟨hx, hgiven⟩

end Inv

/-! ## What programs keep -/

variable {α : Type} {P : Core → Prop} {A : α → Core → Prop}

theorem core_remove (h : Host) (key : PyStr) : (h.remove key).core = h.core := by
  unfold Host.remove
  split_ifs <;> rfl

theorem core_finish (h : Host) (ended : Bool) :
    (h.finish ended).core = { h.core with inProgress := none } := by
  unfold Host.finish
  split
  · split_ifs <;> rfl
  · rfl

/-- Others leave the core as it is. -/
theorem core_rely {meets : Tag → Host → Prop} {h h' : Host} (hr : (world meets).rely h h') :
    h'.core = h.core := by
  induction hr with
  | refl => rfl
  | tail _ hstep ih =>
    rw [← ih]
    cases hstep with
    | add => rfl
    | offer e =>
      unfold Queue.offer
      split_ifs <;> rfl
    | remove key => exact core_remove _ key
    | finds => rfl

/-- The invariant, and what others leave as it is. -/
def frame (c : Crypto) (S : Contract) : Frame Host Tag Core where
  env := world (Clear c S)
  core := Host.core
  inv h := Inv c S h.core
  core_eq := core_rely
  inv_rely hr h := by rwa [core_rely hr]

abbrev Runs (c : Crypto) (S : Contract) (P : Core → Prop) (A : α → Core → Prop) (p : DProg α) :
    Prop := (frame c S).Runs P A p

theorem runs_act {t : Tag} {f : Host → Host} {g : Host → α}
    (hact : ∀ h : Host, Inv c S h.core → P h.core → Clear c S t h →
      Inv c S (f h).core ∧ A (g h) (f h).core) : Runs c S P A (act t f g) :=
  goes_act (Φ := frame c S) hact

theorem runs_look {g : Host → α} (hlook : ∀ h : Host, P h.core → A (g h) h.core) :
    Runs c S P A (look g) := goes_look (Φ := frame c S) fun h _ hp => hlook h hp

theorem runs_put {f : Host → Host} {A : Unit → Core → Prop}
    (hput : ∀ h : Host, Inv c S h.core → P h.core → Inv c S (f h).core ∧ A () (f h).core) :
    Runs c S P A (put f) := goes_put (Φ := frame c S) hput

/-! ## A duel -/

variable {req : DuelRequest}

/-- A request may be recorded : its block was handed out to it, or is to be. -/
def Recordable (c : Crypto) (S : Contract) (req : DuelRequest) (k : Core) : Prop :=
  req.asDict c S ∈ k.given ∨ k.block < req.block ∧ k.inProgress = none

/-- A block was handed out to a request. -/
def Given (c : Crypto) (S : Contract) (req : DuelRequest) (k : Core) : Prop :=
  req.asDict c S ∈ k.given

/-- A request is recorded where no other is. -/
theorem Inv.record {k : Core} (hk : Inv c S k) (hrec : Recordable c S req k)
    (hnone : (k.dirs (req.runDir c S)).request = none) :
    Inv c S (k.setDir (req.runDir c S)
      { k.dirs (req.runDir c S) with request := some (req.asDict c S) }) := by
  have hout := hk.blank _ hnone
  refine hk.setDir (by simp) ?_ ?_ ?_
  · rintro r hr
    obtain rfl := Option.some.inj hr
    exact asDict_fromDict req
  · rintro r hr hle
    obtain rfl := Option.some.inj hr
    rcases hrec with hgiven | ⟨hlt, -⟩
    · exact hgiven
    · exact absurd hle (not_le.2 hlt)
  · rintro r hr hor
    obtain rfl := Option.some.inj hr
    rcases hrec with hgiven | ⟨-, hmark⟩
    · exact hk.given_le hgiven
    · exact (hor.elim (fun h => h hout) fun h => h hmark).elim

/-- What is said of a core but for its run directories. -/
def OffDirs (P : Core → Prop) : Prop := ∀ k dir d, P k → P (k.setDir dir d)

theorem runs_record (hP : OffDirs P) (hrec : ∀ k, P k → Recordable c S req k) :
    Runs c S (fun k => P k ∧ (k.dirs (req.runDir c S)).request = none)
      (fun _ k => P k ∧ k.Holds c S req) (recordRequest.record c S req) :=
  runs_put fun h hinv hp => ⟨hinv.record (hrec _ hp.1) hp.2, hP _ _ _ hp.1, by
    simp [Core.Holds, Host.core, Host.setDir]⟩

theorem runs_recordRequest (hP : OffDirs P) (hrec : ∀ k, P k → Recordable c S req k) :
    Runs c S P (fun _ k => P k ∧ k.Holds c S req) (recordRequest c S req) := by
  refine (runs_look (A := fun d k => P k ∧ (k.dirs (req.runDir c S)).request = d)
    fun h hp => ⟨hp, rfl⟩).bind fun d => ?_
  cases d with
  | none => exact runs_record hP hrec
  | some doc =>
    refine Frame.Goes.ite (fun hdoc => Frame.goes_ret fun k hk => ⟨hk.1, hk.2.trans (congrArg some hdoc)⟩)
      fun _ => ?_
    refine Frame.Goes.bind (runs_put fun h hinv hp => ⟨hinv.aside _, hP _ _ _ hp.1, ?_⟩) fun _ =>
      runs_record hP hrec
    simp [Host.core, Host.setDir, RunDir.empty]

theorem runs_checkCrown : Runs c S P (fun _ => P) (checkCrown c S req) := by
  refine (runs_act (A := fun _ => P) fun h hinv hp _ => ⟨hinv, hp⟩).bind fun king => ?_
  refine Frame.Goes.ite (fun _ => Frame.goes_ret fun k hk => hk) fun _ => ?_
  exact Frame.Goes.bind (A := fun _ _ => True)
    (runs_put fun h hinv _ => ⟨hinv.aside _, trivial⟩) fun _ => Frame.runs_raise _

/-- A duel is on : its block was given it, and its directory is its own. -/
def On (c : Crypto) (S : Contract) (req : DuelRequest) (k : Core) : Prop :=
  Given c S req k ∧ k.Holds c S req

theorem runs_decide (status : Status) (record : Option Record) :
    Runs c S (On c S req) (fun _ _ => True) (decide c S req status record) := by
  refine Frame.Goes.bind (A := fun _ _ => True) (runs_put fun h hinv hp => ⟨?_, trivial⟩) fun _ =>
    Frame.goes_ret fun _ _ => trivial
  have hholds : (h.dirs (req.runDir c S)).request = some (req.asDict c S) := hp.2
  refine hinv.setDir (fun hnone => ?_) ?_ ?_ ?_
  · simp [hholds] at hnone
  · rintro r hr
    exact hinv.docs _ r hr
  · rintro r hr hle
    exact hinv.owned _ r hr hle
  · rintro r hr -
    obtain rfl := Option.some.inj (hholds.symm.trans hr)
    exact hinv.given_le hp.1

/-- What is on the store is no matter. -/
theorem runs_store {f : Host → Host} (hf : ∀ h, (f h).core = h.core) :
    Runs c S P (fun _ => P) (put f) :=
  runs_put fun h hinv hp => by rw [hf]; exact ⟨hinv, hp⟩

theorem runs_republished (record : Record) :
    Runs c S (On c S req) (fun _ _ => True) (republished c S req record) := by
  refine Frame.Goes.bind (runs_store fun h => ?_) fun _ => runs_decide _ _
  split <;> rfl

theorem runs_published : Runs c S P (fun _ => P) (published c S req) := runs_look fun _ hp => hp

theorem runs_append (record : Record) : Runs c S P (fun _ => P) (append c record) := by
  refine (runs_look (A := fun _ => P) fun _ hp => hp).bind fun event => ?_
  cases event with
  | none => exact Frame.runs_raise _
  | some event =>
    refine (runs_look (A := fun _ => P) fun _ hp => hp).bind fun seq => ?_
    refine Frame.Goes.bind (runs_store ?_) fun _ => Frame.Goes.bind (runs_store ?_) fun _ =>
      Frame.goes_ret fun _ hp => hp
    · exact fun _ => rfl
    · exact fun _ => rfl

theorem runs_publish (dethroned : Bool) (event : Bytes) (rest : PyStr) :
    Runs c S (On c S req) (fun _ _ => True) (publish c S req dethroned event rest) := by
  refine runs_published.bind fun found => ?_
  cases found with
  | some record => exact runs_republished record
  | none =>
    refine runs_checkCrown.bind fun _ => Frame.Goes.bind (runs_store ?_) fun _ =>
      (runs_append _).bind fun _ => runs_decide _ _
    exact fun _ => rfl

theorem runs_play : Runs c S (On c S req) (fun _ _ => True) (play c S req) := by
  refine (runs_look (A := fun _ => On c S req) fun _ hp => hp).bind fun fate => ?_
  cases fate with
  | unavailable => exact Frame.runs_raise _
  | failed => exact Frame.runs_raise _
  | crashes => exact Frame.runs_raise _
  | refused => exact runs_decide _ _
  | void => exact runs_decide _ _
  | stands dethroned event rest => exact runs_publish dethroned event rest

/-- A duel whose block was given it is run. -/
theorem runs_run : Runs c S (Given c S req) (fun _ _ => True) (run c S req) := by
  refine (runs_recordRequest (fun _ _ _ h => h) fun _ h => Or.inl h).bind fun _ => ?_
  refine (runs_look (A := fun _ => On c S req) fun _ hp => hp).bind fun outcome => ?_
  cases outcome with
  | some result => exact Frame.goes_ret fun _ _ => trivial
  | none =>
    refine runs_published.bind fun found => ?_
    cases found with
    | some record => exact runs_republished record
    | none => exact runs_checkCrown.bind fun _ => runs_play.catch fun _ => Frame.runs_raise _

/-! ## The daemon -/

theorem runs_publishQueue : Runs c S P (fun _ => P) publishQueue := runs_store fun _ => rfl

/-- No duel is in progress any more. -/
theorem Inv.unmarked {k : Core} (hk : Inv c S k) : Inv c S { k with inProgress := none } :=
  hk.marks (by simp)

theorem runs_finish (ended : Bool) : Runs c S P (fun _ _ => True) (runDuel.finish ended) := by
  refine Frame.Goes.bind (A := fun _ _ => True) (runs_put fun h hinv _ => ⟨?_, trivial⟩) fun _ =>
    runs_publishQueue.bind fun _ => Frame.goes_ret fun _ _ => trivial
  rw [core_finish]
  exact hinv.unmarked

theorem runs_runDuel : Runs c S (Given c S req) (fun _ _ => True) (runDuel c S req) := by
  refine Frame.Goes.bind (A := fun _ _ => True) ((goes_attempt runs_run).weaken (fun _ h => h)
    (fun _ _ _ => trivial) fun _ _ h => h.elim) fun r => ?_
  cases r with
  | ok result => exact runs_finish _
  | error e =>
    cases e with
    | unavailable => exact Frame.goes_ret fun _ _ => trivial
    | failed => exact runs_finish _
    | crashed => exact Frame.runs_raise _
    | crownMoved =>
      refine Frame.Goes.bind (A := fun _ _ => True) (runs_put fun h hinv _ => ⟨?_, trivial⟩) fun _ =>
        runs_publishQueue.bind fun _ => Frame.goes_ret fun _ _ => trivial
      have hcore : (h.change (·.putBack (entryOf S req))).core =
          { h.core with inProgress := none } := by
        unfold Host.change Queue.putBack
        dsimp only
        split <;> rfl
      rw [hcore]
      exact hinv.unmarked

theorem runs_resume (mark : Mark) :
    Runs c S (fun k => k.inProgress = some mark) (fun _ _ => True) (resume c S mark) := by
  have hheld : ∀ h : Host, Inv c S h.core → h.core.inProgress = some mark →
      ∀ doc, (h.dirs (mark.eventId.take 16)).request = some doc →
        Given c S (.fromDict doc) h.core := by
    intro h hinv hmark doc hdoc
    rw [Given, hinv.docs _ doc hdoc]
    exact hinv.owned _ doc hdoc (hinv.mark mark hmark doc hdoc)
  refine Frame.Goes.bind (A := fun d k => ∀ doc, d = some doc → Given c S (.fromDict doc) k)
    (runs_act fun h hinv hp _ => ⟨hinv, hheld h hinv hp⟩) fun d => ?_
  cases d with
  | none => exact runs_finish _
  | some doc =>
    exact Frame.Goes.ite (fun _ => runs_runDuel.from (fun _ h => h doc rfl))
      fun _ => runs_finish _

/-- The next block is above the counter. -/
theorem runs_nextBlock : Runs c S P (fun b k => P k ∧ k.block < b) nextBlock := by
  refine (runs_look (A := fun _ => P) fun _ hp => hp).bind fun head => ?_
  refine (runs_look (A := fun b k => P k ∧ k.block = b) fun _ hp => ⟨hp, rfl⟩).bind fun block => ?_
  refine Frame.goes_ret fun k hk => ⟨hk.1, ?_⟩
  rw [hk.2]
  exact Int.lt_add_one_of_le (le_max_left _ _)

/-- The daemon is about to record a request. -/
def Next (req : DuelRequest) (k : Core) : Prop := k.block < req.block ∧ k.inProgress = none

theorem runs_next : Runs c S (Next req) (fun _ k => Next req k ∧ k.Holds c S req)
    (recordRequest c S req) :=
  runs_recordRequest (fun _ _ _ h => h) fun _ h => Or.inr h

theorem runs_take :
    Runs c S (fun k => Next req k ∧ k.Holds c S req)
      (fun e k => e.isSome = true → Given c S req k) (take c S req) := by
  refine runs_act fun h hinv hp hclear => ?_
  cases htaken : h.queue.taken req.challenger.key with
  | none => exact ⟨hinv, by simp⟩
  | some e =>
    have hclear : ∀ dir r, (h.dirs dir).request = some r → h.queue.block < r.block →
        r = req.asDict c S := hclear _ (by simp [htaken])
    have hlt : h.queue.block < (req.asDict c S).block := hp.1.1
    have hcore : (h.give (req.asDict c S)
        (·.take req.challenger.key req.block (req.eventId c S))).core =
          ⟨h.dirs, h.given ++ [req.asDict c S], h.hand, (req.asDict c S).block,
            some ⟨req.eventId c S, some e⟩⟩ := by
      have hmax : max h.queue.block req.block = req.block := max_eq_right hlt.le
      simp [Host.give, Queue.take, htaken, Host.core, DuelRequest.asDict, hmax]
    rw [hcore]
    refine ⟨hinv.give hlt hclear ?_, fun _ => by simp [Given]⟩
    rintro x hx r hr
    obtain rfl := Option.some.inj hx
    obtain rfl := Option.some.inj (hp.2.symm.trans hr)
    exact le_rfl

theorem runs_duelEntry (king : Option SubmissionRef) (entry : Entry) :
    Runs c S (fun k => k.inProgress = none) (fun _ _ => True) (duelEntry c S king entry) := by
  refine runs_nextBlock.bind fun block => ?_
  refine (runs_next.from (fun _ h => ⟨h.2, h.1⟩)).bind fun _ => ?_
  refine runs_take.bind fun e => ?_
  cases e with
  | none => exact Frame.goes_ret fun _ _ => trivial
  | some e => exact (runs_publishQueue.from (fun _ h => h rfl)).bind fun _ =>
      runs_runDuel

/-- `set_block` hands out the block of a baseline's genesis. -/
theorem runs_setBlock :
    Runs c S (fun k => Next req k ∧ k.Holds c S req) (fun _ => On c S req)
      (act (.gives fun _ => some (req.asDict c S))
        (fun h => h.give (req.asDict c S) (·.setBlock req.block)) fun _ => ()) := by
  refine runs_act fun h hinv hp hclear => ?_
  have hmark : h.queue.inProgress = none := hp.1.2
  refine ⟨?_, by simp [Given, Host.core, Host.give], hp.2⟩
  have hlt : h.queue.block < (req.asDict c S).block := hp.1.1
  exact hinv.give hlt (hclear _ rfl) (m := h.queue.inProgress) (by simp [hmark])

theorem runs_start : Runs c S (On c S req) (fun _ => Given c S req)
    (put (·.change (·.start (req.eventId c S)))) := by
  refine runs_put fun h hinv hp => ⟨hinv.marks ?_, hp.1⟩
  rintro x hx r hr
  obtain rfl := Option.some.inj hx
  obtain rfl := Option.some.inj (hp.2.symm.trans hr)
  exact hinv.given_le hp.1

theorem runs_stalled {A : Bool → Core → Prop} (b : Bool) (h : ∀ k, P k → A b k) :
    Runs c S P A (do
      put fun h => { h with stalled := true }
      pure b) :=
  Frame.Goes.bind (A := fun _ => P) (runs_put fun _ hinv hp => ⟨hinv, hp⟩) fun _ => Frame.goes_ret h

theorem runs_baselineGenesis (repo revision : PyStr) :
    Runs c S (fun k => k.inProgress = none) (fun _ _ => True)
      (baselineGenesis c S repo revision) := by
  unfold baselineGenesis
  split
  · exact runs_stalled false fun _ _ => trivial
  · refine (runs_look (A := fun _ k => k.inProgress = none) fun _ hp => hp).bind fun ready =>
      Frame.Goes.ite (fun _ => ?_) fun _ => Frame.goes_ret fun _ _ => trivial
    refine runs_nextBlock.bind fun block => ?_
    refine (runs_next.from (fun _ h => ⟨h.2, h.1⟩)).bind fun _ => ?_
    refine runs_setBlock.bind fun _ => runs_start.bind fun _ => runs_publishQueue.bind fun _ =>
      runs_runDuel.bind fun ran => Frame.Goes.ite (fun _ => ?_) fun _ => Frame.goes_ret fun _ _ => trivial
    refine (runs_look (A := fun _ _ => True) fun _ _ => trivial).bind fun king =>
      Frame.Goes.ite (fun _ => runs_stalled true fun _ _ => trivial) fun _ => Frame.goes_ret fun _ _ => trivial

theorem runs_step : Runs c S (fun _ => True) (fun _ _ => True) (step c S) := by
  refine (runs_look (A := fun m k => k.inProgress = m) fun _ _ => rfl).bind fun mark => ?_
  cases mark with
  | some mark =>
    exact (runs_look (A := fun _ k => k.inProgress = some mark) fun _ hp => hp).bind fun ready =>
      Frame.Goes.ite (fun _ => runs_resume mark) fun _ => Frame.goes_ret fun _ _ => trivial
  | none =>
    have hlook : ∀ {α : Type} (g : Host → α), Runs c S (fun k => k.inProgress = none)
        (fun _ k => k.inProgress = none) (look g) := fun g => runs_look fun _ hp => hp
    refine (hlook _).bind fun stalled =>
      Frame.Goes.ite (fun _ => Frame.goes_ret fun _ _ => trivial) fun _ => ?_
    refine (hlook _).bind fun king => ?_
    split
    · exact runs_baselineGenesis _ _
    · refine (hlook _).bind fun entry => ?_
      cases entry with
      | none => exact Frame.goes_ret fun _ _ => trivial
      | some entry =>
        refine (hlook _).bind fun ready =>
          Frame.Goes.ite (fun _ => ?_) fun _ => Frame.goes_ret fun _ _ => trivial
        refine Frame.Goes.ite (fun _ => ?_) fun _ => runs_duelEntry _ entry
        exact (runs_store fun h => core_remove h _).bind fun _ =>
          runs_publishQueue.bind fun _ => Frame.goes_ret fun _ _ => trivial

/-! ## The command -/

theorem holdsRequest_iff {h : Host} : h.holdsRequest c S req = true ↔ h.core.Holds c S req :=
  decide_eq_true_iff

/-- What a `duel` command is to have found before it runs a request. -/
def Settled (c : Crypto) (S : Contract) (counter headBlock : ℤ) (req : DuelRequest) (k : Core) :
    Prop :=
  Given c S req k ∧ (k.Holds c S req → (k.dirs (req.runDir c S)).outcome = none) ∧
    (req.block = counter ∧ headBlock < req.block ∧ k.block = req.block ∨
      counter < req.block ∧ headBlock < req.block)

theorem runs_runByHand (counter headBlock : ℤ) :
    Runs c S (Settled c S counter headBlock req) (fun _ _ => True)
      (runByHand c S counter headBlock req) := by
  refine Frame.Goes.bind (A := fun _ => Given c S req) ?_ fun _ =>
    runs_run.bind fun _ => Frame.goes_ret fun _ _ => trivial
  intro h hinv hp
  refine Wp.step (P := fun h' : Host => Inv c S h'.core ∧ Settled c S counter headBlock req h'.core)
    ⟨hinv, hp⟩ (fun s s' hs hr => by rwa [core_rely hr]) fun h hs _ => ?_
  obtain ⟨hinv, hgiven, hout, hblock⟩ := hs
  have hproper : HandRun.Proper c S ⟨req, counter, headBlock, h.given, h.decided c S req⟩ := by
    refine ⟨hblock.imp (fun hb => ⟨hb.1, hb.2.1, ?_⟩) id, ?_⟩
    · exact hinv.getLast_given hgiven hb.2.2.symm
    · rw [Host.decided]
      split_ifs with hholds
      · exact hout (holdsRequest_iff.1 hholds)
      · rfl
  have hinv' := hinv.hands hproper hgiven
  exact ⟨hinv', Frame.goes_ret (a := ()) (A := fun _ => Given c S req) (fun _ h => h) _ hinv' hgiven⟩

/-- A block is claimed for a duel. -/
theorem runs_claimBlock (challenger : SubmissionRef) (king : Option SubmissionRef)
    (size : Option PyStr) (floor counter : ℤ) :
    Runs c S (fun k => k.block = counter)
      (fun b => Settled c S counter floor ⟨challenger, king, size, b⟩)
      (claimBlock c S challenger king size floor) := by
  refine runs_act fun h hinv hp hclear => ?_
  have hblock : h.queue.block = counter := hp
  have hlt : h.queue.block < (claimBlock.doc c S challenger king size floor h).block :=
    Int.lt_add_one_of_le (le_max_left _ _)
  have hfloor : floor < h.queue.claimed floor := Int.lt_add_one_of_le (le_max_right _ _)
  have hclear : ∀ dir r, (h.dirs dir).request = some r → h.queue.block < r.block →
      r = claimBlock.doc c S challenger king size floor h := hclear _ rfl
  refine ⟨hinv.give hlt hclear ?_, ?_, ?_, Or.inr ⟨hblock ▸ hlt, hfloor⟩⟩
  · exact fun x hx r hr => (hinv.mark x hx r hr).trans hlt.le
  · simp [Given, Host.core, Host.give, claimBlock.doc]
  · intro hholds
    by_contra hout
    exact absurd (hinv.decided _ _ hholds hout) (not_le.2 hlt)

theorem runs_fresh (challenger : SubmissionRef) (size : Option PyStr) (head : Head) (counter : ℤ) :
    Runs c S (fun k => k.block = counter) (fun _ _ => True)
      (duel.fresh c S challenger size head counter) :=
  (runs_claimBlock challenger head.king size head.block counter).bind fun _ => runs_runByHand _ _

theorem runs_duel (challenger : SubmissionRef) (size : Option PyStr) :
    Runs c S (fun _ => True) (fun _ _ => True) (duel c S challenger size) := by
  refine Frame.Goes.ite (fun _ => ?_) fun _ => Frame.goes_ret fun _ _ => trivial
  refine (runs_look (A := fun _ _ => True) fun _ _ => trivial).bind fun head => ?_
  refine Frame.Goes.ite (fun _ => Frame.goes_ret fun _ _ => trivial) fun _ =>
    Frame.Goes.ite (fun _ => Frame.goes_ret fun _ _ => trivial) fun _ => ?_
  refine (runs_look (A := fun b k => k.block = b) fun _ _ => rfl).bind fun counter => ?_
  refine Frame.Goes.ite (fun _ => runs_fresh challenger size head counter) fun hhead => ?_
  -- the last block handed out
  let req : DuelRequest := ⟨challenger, head.king, size, max counter head.block⟩
  have hcounter : req.block = counter := by
    have hgt : head.block < max counter head.block := not_le.1 hhead
    exact max_eq_left (lt_max_iff.1 hgt |>.resolve_right (lt_irrefl _)).le
  refine Frame.Goes.bind (A := fun holds k => k.block = counter ∧
    (holds = true → Settled c S counter head.block req k)) ?_ fun holds => ?_
  · refine runs_act fun h hinv hp hclear => ⟨hinv, hp, fun hholds => ?_⟩
    have hdir := holdsRequest_iff.1 hholds
    have hblock : h.queue.block = counter := hp
    refine ⟨hinv.owned _ _ hdir ?_, fun _ => ?_, Or.inl ⟨hcounter, not_le.1 hhead, ?_⟩⟩
    · exact (hcounter.trans hblock.symm).le
    · have hclear : h.decided c S req = none := hclear
      rwa [Host.decided, if_pos hholds] at hclear
    · exact hblock.trans hcounter.symm
  · exact Frame.Goes.ite (fun hholds => (runs_runByHand _ _).from fun _ h => h.2 hholds)
      fun _ => (runs_fresh challenger size head counter).from fun _ h => h.1

theorem runs_command (cmd : Command) :
    Runs c S (fun _ => True) (fun _ _ => True) (cmd.prog c S) := by
  cases cmd with
  | step => exact runs_step.bind fun _ => Frame.goes_ret fun _ _ => trivial
  | duel challenger size => exact runs_duel challenger size

/-! ## Runs -/

theorem Host.fresh.inv {h : Host} (hh : h.fresh) : Inv c S h.core := by
  obtain ⟨hdirs, hgiven, hhand⟩ := hh
  have hdir : ∀ dir, h.core.dirs dir = .empty := hdirs
  have hgiven : h.core.given = [] := hgiven
  have hhand : h.core.hand = [] := hhand
  constructor <;> simp [hdir, hgiven, hhand, RunDir.empty]

/-- However the daemon and `duel` commands are scheduled, killed and started again, each `duel`
command resumes its own duel at the last block handed out, or runs at a fresh block, where no
block is handed out while another request is recorded above the counter, and no duel that is
found to be recorded is decided. No other duel is given its block. -/
theorem hand_proper {h : Host} (hfresh : h.fresh)
    {conf : System.Conf Host Tag Raised (Option DuelResult) Command}
    (hreach : (system c S).Reach (world (Clear c S)) h conf) :
    ∀ x ∈ conf.state.hand, x.Proper c S ∧
      ∀ r ∈ conf.state.given, r.block = x.request.block → r = x.request.asDict c S := by
  have hinv : Inv c S conf.state.core := by
    exact Frame.inv_of_reach (Φ := frame c S) (J := fun _ => True)
      (fun cmd _ _ => runs_command cmd) (fun _ hinv _ => ⟨hinv, trivial⟩) hfresh.inv trivial hreach
  intro x hx
  obtain ⟨hproper, hgiven⟩ := hinv.hand x hx
  exact ⟨hproper, fun r hr hblock => hinv.given_inj hr hgiven hblock⟩

/-! ## A decided duel -/

theorem exec_act {α : Type} {h : Host} (hfault : h.faulty = false) (t : Tag) (f : Host → Host)
    (g : Host → α) : (act t f g).exec h = (.ok (g h), f h) := by
  simp [act, Prog.fallible, Prog.exec, Host.fault, hfault]

theorem exec_look {α : Type} {h : Host} (hfault : h.faulty = false) (g : Host → α) :
    (look g).exec h = (.ok (g h), h) := exec_act hfault _ _ _

/-- A duel that is decided is not run again : its outcome is returned. -/
theorem exec_run {h : Host} {result : DuelResult} (hfault : h.faulty = false)
    (hdecided : h.decided c S req = some result) : (run c S req).exec h = (.ok result, h) := by
  unfold Host.decided at hdecided
  split_ifs at hdecided with hholds
  have hdir : (h.dirs (req.runDir c S)).request = some (req.asDict c S) :=
    holdsRequest_iff.1 hholds
  have hrecord : (recordRequest c S req).exec h = (.ok ⟨⟩, h) := by
    rw [recordRequest, exec_bind_ok (exec_look hfault _), hdir]
    simp
  rw [run, exec_bind_ok hrecord, exec_bind_ok (exec_look hfault _), hdecided]
  rfl

/-- Where the last block is above the head's and the duel's directory there holds its outcome, the
command returns that. -/
theorem duel_decided {h : Host} {challenger : SubmissionRef} {size : Option PyStr}
    {result : DuelResult} (hfault : h.faulty = false) (hsize : size.all (· ∈ S.sizes) = true)
    (hking : h.head.king.any (·.key = challenger.key) = false)
    (hthrone : (h.head.king.isNone && S.baseline.isSome) = false)
    (hblock : h.head.block < h.queue.block)
    (hdecided : h.decided c S ⟨challenger, h.head.king, size, h.queue.block⟩ = some result) :
    ((duel c S challenger size).exec h).1 = .ok (some result) := by
  have hmax : max h.queue.block h.head.block = h.queue.block := max_eq_left hblock.le
  have hholds : h.holdsRequest c S ⟨challenger, h.head.king, size, h.queue.block⟩ = true := by
    by_contra hnot
    simp [Host.decided, hnot] at hdecided
  rw [duel, if_pos hsize, exec_bind_ok (exec_look hfault _), hking, hthrone]
  simp only [Bool.false_eq_true, if_false]
  rw [exec_bind_ok (exec_look hfault _)]
  simp only [hmax]
  rw [if_neg (not_le.2 hblock), exec_bind_ok (exec_act hfault _ _ _)]
  simp only [id_eq, hholds, if_true]
  have hrun : ∀ u : Host, u.faulty = h.faulty → u.dirs = h.dirs →
      (run c S ⟨challenger, h.head.king, size, h.queue.block⟩).exec u = (.ok result, u) :=
    fun u hf hd => exec_run (hf.trans hfault) (by
      rw [Host.decided, Host.holdsRequest, hd]
      exact hdecided)
  rw [runByHand, exec_bind_ok (exec_write _ _ _)]
  refine (congrArg Prod.fst (exec_bind_ok (hrun _ ?_ ?_) _)).trans ?_ <;> rfl

/-! ## Duels that stray -/

section Toy

/-- A hash with which the ids below differ. -/
def toyHash : Crypto where
  sha256 data := hex ((List.range 32).map fun i =>
    .ofNat (data.foldl (fun n b => (n * 257 + b.toNat + 1) % 2 ^ 256) 7 / 256 ^ i))
  verify := toyCrypto.verify
  isSha256_sha256 data := by
    simp only [isSha256, Bool.and_eq_true, beq_iff_eq, List.all_eq_true]
    exact ⟨by rw [length_hex, List.length_map, List.length_range], isHexLower_hex _⟩

/-- A track of one size. -/
def toyContract : Contract := ⟨7, py "t", [py "s"], py "s", none⟩

def toyRef (s : PyStr) : SubmissionRef := ⟨s, s, s⟩

/-- A host with a king, crowned at block 3. -/
def toyHost (fate : Fate) (entries : List Entry) : Host where
  queue := ⟨entries, none, 3⟩
  dirs _ := .empty
  events _ := none
  index := []
  head := ⟨1, [], 3, some (toyRef (py "k"))⟩
  ready := true
  fate := fate
  faulty := false
  stalled := false
  given := []
  hand := []
  owed := entries.map (·.ref.key)

theorem fresh_toyHost (fate : Fate) (entries : List Entry) : (toyHost fate entries).fresh :=
  ⟨fun _ => rfl, rfl, rfl⟩

variable {h h' : Host}

instance (c : Crypto) (S : Contract) (x : HandRun) : Decidable (x.Proper c S) :=
  inferInstanceAs (Decidable (((_ = _ ∧ _ < _ ∧ _ = _) ∨ (_ < _ ∧ _ < _)) ∧ _ = _))

/-- A `duel` command is run to its end. -/
def Host.after (c : Crypto) (S : Contract) (h : Host) (challenger : PyStr) : Host :=
  ((duel c S (toyRef challenger) none).exec h).2

theorem reach_after {s : PyStr} (hs : h'.stalled = false)
    (hreach : (system c S).Reach (world fun _ _ => True) h ⟨h', none⟩) :
    (system c S).Reach (world fun _ _ => True) h ⟨h'.after c S s, none⟩ := by
  have hstart : (system c S).starts (.duel (toyRef s) none) h' := hs
  exact (System.Reach.exec (fun _ _ => trivial) (hreach.tail (.start hstart))).tail .finish

/-- A duel is void, and asked for again. -/
def toyVoid : Host :=
  ((toyHost .void []).after toyHash toyContract (py "x")).after toyHash toyContract (py "x")

/-- A step of the daemon is interrupted once it has recorded a request, by a removal of its
entry. -/
def toyOvertaken : Host :=
  let p := (Command.step.prog toyHash toyContract).after 9
    (toyHost .failed [⟨toyRef (py "x"), none⟩])
  (p.1.exec (p.2.remove (py "x"))).2

/-- Another duel is run at that block, and then its own. -/
def toyStray : Host :=
  (toyOvertaken.after toyHash toyContract (py "y")).after toyHash toyContract (py "x")

theorem reach_overtaken : (system toyHash toyContract).Reach (world fun _ _ => True)
    (toyHost .failed [⟨toyRef (py "x"), none⟩]) ⟨toyOvertaken, none⟩ := by
  have hstart : (system toyHash toyContract).Reach (world fun _ _ => True)
      (toyHost .failed [⟨toyRef (py "x"), none⟩])
      ⟨_, some (.step, Command.step.prog toyHash toyContract)⟩ := .single (.start trivial)
  have hrecorded := hstart.after (fun _ _ => trivial) 9
  have hremoved := hrecorded.tail (.others (.single (.remove _ (py "x"))))
  exact (System.Reach.exec (fun _ _ => trivial) hremoved).tail .finish

/-- A `duel` command returns what was decided before, and one runs at a block that another duel
was given. -/
theorem hand_strays :
    (∃ (h : Host) (conf : System.Conf Host Tag Raised (Option DuelResult) Command), h.fresh ∧
      (system toyHash toyContract).Reach (world fun _ _ => True) h conf ∧
      ∃ x ∈ conf.state.hand, x.decided.isSome = true ∧ ¬x.Proper toyHash toyContract) ∧
    ∃ (h : Host) (conf : System.Conf Host Tag Raised (Option DuelResult) Command), h.fresh ∧
      (system toyHash toyContract).Reach (world fun _ _ => True) h conf ∧
      ∃ x ∈ conf.state.hand, ¬x.Proper toyHash toyContract ∧
        ∃ r ∈ x.given, r.block = x.request.block ∧ r ≠ x.request.asDict toyHash toyContract := by
  constructor
  · have hvoid : ∃ x ∈ toyVoid.hand, x.decided.isSome = true ∧ ¬x.Proper toyHash toyContract := by
      decide +kernel
    exact ⟨_, ⟨toyVoid, none⟩, fresh_toyHost .void [],
      reach_after (by decide +kernel) (reach_after rfl .refl), hvoid⟩
  · have hstray : ∃ x ∈ toyStray.hand, ¬x.Proper toyHash toyContract ∧
        ∃ r ∈ x.given, r.block = x.request.block ∧
          r ≠ x.request.asDict toyHash toyContract := by
      decide +kernel
    exact ⟨_, ⟨toyStray, none⟩, fresh_toyHost .failed _,
      reach_after (by decide +kernel) (reach_after (by decide +kernel) reach_overtaken), hstray⟩

/-! ### A duel that is resumed -/

/-- Whether an act hands out no block, and finds no duel that is decided. -/
def harmless (c : Crypto) (S : Contract) : Tag → Host → Bool
  | .nothing, _ => true
  | .crowns, _ => true
  | .gives _, _ => false
  | .finds req, h => (h.decided c S req).isNone

theorem clear_of_harmless (t : Tag) (h : Host) (ht : harmless c S t h = true) : Clear c S t h := by
  cases t with
  | nothing => trivial
  | crowns => trivial
  | gives doc => simp [harmless] at ht
  | finds req => exact Option.isNone_iff_eq_none.1 ht

def tag {α : Type} : DProg α → Tag
  | .ret _ => .nothing
  | .act t _ _ => t

theorem reach_act {cmd : Command} {p : DProg (Option DuelResult)} (hclear : Clear c S (tag p) h')
    (hreach : (system c S).Reach (world (Clear c S)) h ⟨h', some (cmd, p)⟩) :
    (system c S).Reach (world (Clear c S)) h ⟨(p.after 1 h').2, some (cmd, (p.after 1 h').1)⟩ := by
  cases p with
  | ret r => exact hreach
  | act t f k => exact hreach.tail (.act hclear)

/-- A duel is killed once it was begun, and resumed. -/
theorem toy_resumed : ∃ h : Host, h.hand.map (fun x => (x.request.block, x.counter)) =
    [(4, 3), (4, 4)] ∧ ∀ x ∈ h.hand, x.Proper toyHash toyContract ∧
      ∀ r ∈ h.given, r.block = x.request.block → r = x.request.asDict toyHash toyContract := by
  let h₀ := toyHost .failed []
  let x : Command := .duel (toyRef (py "x")) none
  have hstart : (system toyHash toyContract).Reach (world (Clear toyHash toyContract)) h₀
      ⟨h₀, some (x, x.prog toyHash toyContract)⟩ := .single (.start rfl)
  have hlooked := reach_checked clear_of_harmless 2 (by decide +kernel) hstart
  have hclaimed := reach_act (fun r _ dir r' (hdir : none = some r') => by cases hdir) hlooked
  have hbegun := reach_checked clear_of_harmless 6 (by decide +kernel) hclaimed
  have hagain := (hbegun.tail (.kill trivial)).tail (.start (c := x) rfl)
  have hresumed := reach_checked clear_of_harmless 15 (by decide +kernel) hagain
  exact ⟨_, by decide +kernel, hand_proper (fresh_toyHost .failed []) hresumed⟩

end Toy

end Duels

end IcilOrchestrator

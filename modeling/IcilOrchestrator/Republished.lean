import Mathlib
import IcilOrchestrator.Lineage

/-!
# A duel that is published once

Publishing a duel writes its event, a line of the index, the head and the outcome, one after
another. A run that was killed or that raised between any two of them is begun again, and finds the
outcome, or the line, or neither.

`published_once` : in every run in which no other duel is run, the index has at most one line of the
event; and wherever an outcome says that the duel is published, it has that line, whose hash is that
of the event, and the head is that of the index.
-/

set_option linter.unusedSectionVars false

namespace IcilOrchestrator

open Python Prog

namespace Duels

section

variable (c : Crypto) (S : Contract) (req : DuelRequest)

/-! ## What is written of a duel -/

/-- The lines of an event. -/
def linesOf (eventId : PyStr) (rs : List Record) : List Record := rs.filter (·.eventId = eventId)

/-- The head that records give. -/
def headOf (rs : List Record) : Option Head :=
  rs.getLast?.map fun r => ⟨r.seq, r.eventId, r.block, kingOf rs⟩

/-- The index, the head, and a duel's event and run directory. -/
structure Site where
  index : List Record
  head : Head
  event : Option Bytes
  dir : RunDir

def Host.site (h : Host) : Site :=
  ⟨h.index, h.head, h.events (req.eventId c S), h.dirs (req.runDir c S)⟩

/-- A result has the record that a line has, with its hash or without. -/
def DuelResult.Agrees (r : DuelResult) (line : Record) : Prop :=
  r.record = some line ∨ r.record = some { line with eventSha256 := none }

namespace Site

/-- The duel has no line. -/
structure Bare (k : Site) : Prop where
  lines : linesOf (req.eventId c S) k.index = []
  outcome : ∀ r, k.dir.outcome = some r → r.status ≠ .published

/-- The duel has one line, the last of the index. -/
structure Lined (k : Site) (line : Record) : Prop where
  last : ∃ before, k.index = before ++ [line] ∧ linesOf (req.eventId c S) before = []
  eventId : line.eventId = req.eventId c S
  event : ∃ e, k.event = some e ∧ line.eventSha256 = some (c.sha256 e)
  outcome : ∀ r, k.dir.outcome = some r →
    r.status = .published ∧ r.Agrees line ∧ headOf k.index = some k.head

/-- What every run of the duel keeps. -/
structure Once (k : Site) : Prop where
  numbered : k.index.Pairwise fun r r' => r.seq < r'.seq
  request : ∀ r, k.dir.outcome = some r → k.dir.request = some (req.asDict c S)
  lined : k.Bare c S req ∨ ∃ line, k.Lined c S req line

/-- The duel is not decided. -/
structure Open (k : Site) : Prop where
  request : k.dir.request = some (req.asDict c S)
  outcome : k.dir.outcome = none

end Site

/-! ## Runs -/

/-- Others leave what is written of the duel. -/
def apart : Env Host Tag where
  rely h h' := h'.site c S req = h.site c S req
  refl _ := rfl
  trans h h' := h'.trans h
  meets _ _ := True

/-- A duel that is run again and again, by a process that may be killed. -/
def again : System Host Tag Raised DuelResult Unit where
  prog _ := run c S req
  starts _ _ := True
  mayDie _ := True
  reset h := h

/-- What is written of a duel is of one that is published at most once. -/
def once : Frame Host Tag Site where
  env := apart c S req
  core := Host.site c S req
  inv h := (h.site c S req).Once c S req
  core_eq h := h
  inv_rely hr h := by rwa [hr]

end

variable {c : Crypto} {S : Contract} {req : DuelRequest} {k : Site} {line : Record} {α : Type}

theorem headOf_concat (rs : List Record) (r : Record) :
    headOf (rs ++ [r]) = some ⟨r.seq, r.eventId, r.block, kingOf (rs ++ [r])⟩ := by
  simp [headOf]

theorem iterIndex_of_numbered {rs : List Record} (hnum : rs.Pairwise fun r r' => r.seq < r'.seq) :
    iterIndex rs = rs :=
  (hnum.imp Nat.le_of_lt).insertionSort_eq

/-- The line that is looked up. -/
theorem Site.Lined.found (hk : k.Lined c S req line)
    (hnum : k.index.Pairwise fun r r' => r.seq < r'.seq) :
    (iterIndex k.index).reverse.find? (·.eventId = req.eventId c S) = some line := by
  obtain ⟨before, hindex, -⟩ := hk.last
  rw [iterIndex_of_numbered hnum, hindex]
  simp [hk.eventId]

theorem Site.Bare.found (hk : k.Bare c S req)
    (hnum : k.index.Pairwise fun r r' => r.seq < r'.seq) :
    (iterIndex k.index).reverse.find? (·.eventId = req.eventId c S) = none := by
  rw [iterIndex_of_numbered hnum]
  have hlines := List.filter_eq_nil_iff.1 hk.lines
  simpa using hlines

/-- A run directory that is emptied decides nothing. -/
theorem Site.Once.emptied (hk : k.Once c S req) : Site.Once c S req { k with dir := .empty } where
  numbered := hk.numbered
  request r hr := by cases hr
  lined := by
    refine hk.lined.imp (fun hbare => ⟨hbare.lines, fun r hr => by cases hr⟩) ?_
    rintro ⟨line, hline⟩
    exact ⟨line, hline.last, hline.eventId, hline.event, fun r hr => by cases hr⟩

/-- The request is recorded. -/
theorem Site.Once.recorded (hk : k.Once c S req) : Site.Once c S req
    { k with dir := { k.dir with request := some (req.asDict c S) } } where
  numbered := hk.numbered
  request _ _ := rfl
  lined := by
    refine hk.lined.imp (fun hbare => ⟨hbare.lines, hbare.outcome⟩) ?_
    rintro ⟨line, hline⟩
    exact ⟨line, hline.last, hline.eventId, hline.event, hline.outcome⟩

theorem site_setDir (h : Host) (d : RunDir) :
    (h.setDir (req.runDir c S) d).site c S req = { h.site c S req with dir := d } := by
  simp only [Host.site, Host.setDir, Function.update_self]

/-! ## What a run writes -/

variable {P : Site → Prop} {A : α → Site → Prop}

/-- From `P` a run keeps what every run keeps, and returns in `A`. -/
abbrev Writes (c : Crypto) (S : Contract) (req : DuelRequest) (P : Site → Prop)
    (A : α → Site → Prop) (p : DProg α) : Prop :=
  (once c S req).Runs P A p

theorem writes_dir {d : Site → RunDir} {A : Unit → Site → Prop}
    (hput : ∀ k, k.Once c S req → P k →
      Site.Once c S req { k with dir := d k } ∧ A () { k with dir := d k }) :
    Writes c S req P A (put fun h => h.setDir (req.runDir c S) (d (h.site c S req))) :=
  goes_put fun h hinv hp => by
    change (Host.site c S req _).Once c S req ∧ A () (Host.site c S req _)
    rw [site_setDir h (d (h.site c S req))]
    exact hput _ hinv hp

theorem writes_record : Writes c S req (fun _ => True)
    (fun _ k => k.dir.request = some (req.asDict c S)) (recordRequest c S req) := by
  have hrecord : Writes c S req (fun _ => True)
      (fun _ k => k.dir.request = some (req.asDict c S)) (recordRequest.record c S req) :=
    writes_dir (d := fun k => { k.dir with request := some (req.asDict c S) })
      fun k hk _ => ⟨hk.recorded, rfl⟩
  refine Frame.Goes.bind (A := fun existing k => k.dir.request = existing)
    (goes_look fun _ _ _ => rfl) fun existing => ?_
  cases existing with
  | none => exact hrecord.from fun _ _ => trivial
  | some doc =>
    refine Frame.Goes.ite (fun hsame => Frame.goes_ret fun k hk => hsame ▸ hk) fun _ => ?_
    exact Frame.Goes.bind (A := fun _ _ => True)
      (writes_dir (d := fun _ => .empty) fun k hk _ => ⟨hk.emptied, trivial⟩) fun _ => hrecord

/-- What is decided is in the run directory. -/
theorem writes_decide {status : Status} {record : Option Record}
    (hdecide : ∀ k, k.Once c S req → P k → ∀ r : DuelResult, r.status = status →
      r.record = record → Site.Once c S req { k with dir := { k.dir with outcome := some r } }) :
    Writes c S req P (fun r k => k.dir.outcome = some r) (decide c S req status record) := by
  let result : DuelResult := ⟨status, req.kind, req.eventId c S, req.duelId c S, record⟩
  refine Frame.Goes.bind (A := fun _ k => k.dir.outcome = some result)
    (writes_dir (d := fun k => { k.dir with outcome := some result }) fun k hk hp => ?_) fun _ =>
      Frame.goes_ret fun _ hk => hk
  exact ⟨hdecide k hk hp result rfl rfl, rfl⟩

/-- A duel that is not to be published is decided. -/
theorem writes_off {status : Status} (hstatus : status ≠ .published) :
    Writes c S req (fun k => k.Open c S req ∧ k.Bare c S req) (fun r k => k.dir.outcome = some r)
      (decide c S req status none) := by
  refine writes_decide fun k hk hp r hr _ => ⟨hk.numbered, fun _ _ => ?_, ?_⟩
  · exact hp.1.request
  · refine Or.inl ⟨hp.2.lines, fun r' hr' => ?_⟩
    obtain rfl := Option.some.inj hr'
    rwa [hr]

/-- A duel that has its line is decided, once the head is that of the index. -/
theorem writes_up (line : Record) {record : Record} (hrecord : record = line ∨
    record = { line with eventSha256 := none }) :
    Writes c S req
      (fun k => k.Open c S req ∧ k.Lined c S req line ∧ headOf k.index = some k.head)
      (fun r k => k.dir.outcome = some r) (decide c S req .published (some record)) := by
  refine writes_decide fun k hk hp r hr hr' => ⟨hk.numbered, fun _ _ => ?_, ?_⟩
  · exact hp.1.request
  · obtain ⟨-, hline, hhead⟩ := hp
    refine Or.inr ⟨line, hline.last, hline.eventId, hline.event, fun r' heq => ?_⟩
    obtain rfl := Option.some.inj heq
    refine ⟨hr, ?_, hhead⟩
    rw [DuelResult.Agrees, hr']
    exact hrecord.imp (congrArg some) (congrArg some)

/-- A duel that was published is not published again. -/
theorem writes_republished {record : Record} :
    Writes c S req (fun k => k.Open c S req ∧ k.Lined c S req record)
      (fun r k => k.dir.outcome = some r) (republished c S req record) := by
  refine Frame.Goes.bind (A := fun _ k => k.Open c S req ∧ k.Lined c S req record ∧
    headOf k.index = some k.head) (goes_put fun h hinv hp => ?_) fun _ => writes_up _ (Or.inl rfl)
  have honce : (h.site c S req).Once c S req := hinv
  obtain ⟨hopen, hline⟩ := hp
  obtain ⟨before, hindex, hbefore⟩ := hline.last
  change h.index = before ++ [record] at hindex
  have hsort : iterIndex h.index = before ++ [record] :=
    (iterIndex_of_numbered honce.numbered).trans hindex
  have hline' : ∀ head, Site.Lined c S req { h.site c S req with head := head } record :=
    fun head =>
    ⟨hline.last, hline.eventId, hline.event, fun r hr => by
      have hnone : (h.site c S req).dir.outcome = none := hopen.outcome
      cases hnone.symm.trans hr⟩
  rw [hsort, List.getLast?_concat]
  exact ⟨⟨honce.numbered, honce.request, Or.inr ⟨record, hline' _⟩⟩, ⟨hopen.request, hopen.outcome⟩,
    hline' _, by
      show headOf h.index = _
      rw [hindex, headOf_concat]
      rfl⟩

theorem writes_crown : Writes c S req P (fun _ => P) (checkCrown c S req) := by
  refine Frame.Goes.bind (A := fun _ => P) (goes_act fun _ hinv hp _ => ⟨hinv, hp⟩) fun king =>
    Frame.Goes.ite (fun _ => Frame.goes_ret fun _ hk => hk) fun _ => ?_
  exact Frame.Goes.bind (A := fun _ _ => True)
    (writes_dir (d := fun _ => .empty) fun k hk _ => ⟨hk.emptied, trivial⟩) fun _ =>
      Frame.runs_raise _

/-- The line of a duel that has none, and the head. -/
theorem writes_append (dethroned : Bool) (rest : PyStr) :
    Writes c S req (fun k => k.Open c S req ∧ k.Bare c S req)
      (fun seq k => ∃ e, k.Open c S req ∧ headOf k.index = some k.head ∧ k.Lined c S req
        { recordOf c S req dethroned rest with seq, eventSha256 := some (c.sha256 e) })
      (append c (recordOf c S req dethroned rest)) := by
  refine Frame.Goes.bind (A := fun event k => k.event = event ∧ k.Open c S req ∧ k.Bare c S req)
    (goes_look fun _ _ hp => ⟨rfl, hp⟩) fun event => ?_
  cases event with
  | none => exact Frame.runs_raise _
  | some event =>
    refine Frame.Goes.bind (A := fun seq k => seq = nextSeq k.index ∧ k.event = some event ∧
      k.Open c S req ∧ k.Bare c S req) (goes_look fun _ _ hp => ⟨rfl, hp⟩) fun seq => ?_
    let line : Record :=
      { recordOf c S req dethroned rest with seq, eventSha256 := some (c.sha256 event) }
    refine Frame.Goes.bind (A := fun _ k => k.Open c S req ∧ k.Lined c S req line)
      (goes_put fun h hinv hp => ?_) fun _ => Frame.Goes.bind (A := fun _ k => k.Open c S req ∧
        headOf k.index = some k.head ∧ k.Lined c S req line) (goes_put fun h hinv hp => ?_) fun _ =>
          Frame.goes_ret fun k hk => ⟨event, hk⟩
    · -- the line comes last, with the hash of the event as it is
      have honce : (h.site c S req).Once c S req := hinv
      obtain ⟨hseq, hevent, hopen, hbare⟩ := hp
      have hline : Site.Lined c S req { h.site c S req with index := h.index ++ [line] } line := by
        refine ⟨⟨h.index, rfl, hbare.lines⟩, rfl, ⟨event, hevent, rfl⟩, fun r hr => ?_⟩
        cases hopen.outcome.symm.trans hr
      refine ⟨⟨List.pairwise_append.2 ⟨honce.numbered, List.pairwise_singleton _ _,
        fun r hr x hx => ?_⟩, honce.request, Or.inr ⟨line, hline⟩⟩, ⟨hopen.request, hopen.outcome⟩,
          hline⟩
      rw [List.mem_singleton.1 hx]
      exact hseq ▸ seq_lt_nextSeq honce.numbered hr
    · have honce : (h.site c S req).Once c S req := hinv
      obtain ⟨hopen, hline⟩ := hp
      obtain ⟨before, hindex, -⟩ := hline.last
      change h.index = before ++ [line] at hindex
      have hline' : ∀ head, Site.Lined c S req { h.site c S req with head := head } line :=
        fun head => ⟨hline.last, hline.eventId, hline.event, fun r hr => by
          cases hopen.outcome.symm.trans hr⟩
      refine ⟨⟨honce.numbered, honce.request, Or.inr ⟨line, hline' _⟩⟩,
        ⟨hopen.request, hopen.outcome⟩, ?_, hline' _⟩
      have hking : kingAfter h.head.king line = kingOf (before ++ [line]) := by
        rw [kingOf_concat]
        exact kingAfter_kind (rfl : line.kind = req.kind) _ _
      change headOf h.index = some ⟨line.seq, line.eventId, line.block, kingAfter h.head.king line⟩
      rw [hindex, headOf_concat, hking]

/-- What is known of the line once the index was searched. -/
def Searched (c : Crypto) (S : Contract) (req : DuelRequest) (found : Option Record) (k : Site) :
    Prop :=
  k.Open c S req ∧ found.elim (k.Bare c S req) (k.Lined c S req)

theorem writes_published : Writes c S req (fun k => k.Open c S req) (Searched c S req)
    (published c S req) :=
  goes_look fun h hinv hopen => by
    have honce : (h.site c S req).Once c S req := hinv
    rcases honce.lined with hbare | ⟨line, hline⟩
    · have hfound := hbare.found honce.numbered
      refine ⟨hopen, ?_⟩
      rw [show (iterIndex h.index).reverse.find? _ = none from hfound]
      exact hbare
    · have hfound := hline.found honce.numbered
      exact ⟨hopen, by
        rw [show (iterIndex h.index).reverse.find? _ = some line from hfound]
        exact hline⟩

theorem writes_publish (dethroned : Bool) (event : Bytes) (rest : PyStr) :
    Writes c S req (fun k => k.Open c S req) (fun r k => k.dir.outcome = some r)
      (publish c S req dethroned event rest) := by
  refine writes_published.bind fun found => ?_
  cases found with
  | some record => exact writes_republished
  | none =>
    refine writes_crown.bind fun _ => ?_
    refine Frame.Goes.bind (A := fun _ k => k.Open c S req ∧ k.Bare c S req)
      (goes_put fun h hinv hp => ?_) fun _ => ?_
    · -- no line has the hash of the event that is overwritten
      have honce : (h.site c S req).Once c S req := hinv
      obtain ⟨hopen, hbare⟩ := hp
      exact ⟨⟨honce.numbered, honce.request, Or.inl ⟨hbare.lines, hbare.outcome⟩⟩,
        ⟨hopen.request, hopen.outcome⟩, hbare.lines, hbare.outcome⟩
    · refine (writes_append dethroned rest).bind fun seq => Frame.Goes.exist fun e => ?_
      refine (writes_up { recordOf c S req dethroned rest with
        seq, eventSha256 := some (c.sha256 e) } (Or.inr rfl)).from fun k hk => ?_
      exact ⟨hk.1, hk.2.2, hk.2.1⟩

theorem writes_play : Writes c S req (fun k => k.Open c S req ∧ k.Bare c S req)
    (fun r k => k.dir.outcome = some r) (play c S req) := by
  refine goes_see.bind fun fate => ?_
  cases fate with
  | unavailable => exact Frame.runs_raise _
  | failed => exact Frame.runs_raise _
  | crashes => exact Frame.runs_raise _
  | refused => exact writes_off (by decide)
  | void => exact writes_off (by decide)
  | stands dethroned event rest => exact (writes_publish dethroned event rest).from fun _ hk => hk.1

/-- A run that returns has left what it returns in the run directory. -/
theorem writes_run : Writes c S req (fun _ => True) (fun r k => k.dir.outcome = some r)
    (run c S req) := by
  refine writes_record.bind fun _ => ?_
  refine Frame.Goes.bind (A := fun outcome k => k.dir.request = some (req.asDict c S) ∧
    k.dir.outcome = outcome) (goes_look fun _ _ hp => ⟨hp, rfl⟩) fun outcome => ?_
  cases outcome with
  | some result => exact Frame.goes_ret fun _ hk => hk.2
  | none =>
    refine (writes_published.from fun k hk => ⟨hk.1, hk.2⟩).bind fun found => ?_
    cases found with
    | some record => exact writes_republished
    | none => exact writes_crown.bind fun _ => writes_play.catch fun _ => Frame.runs_raise _

/-! ## Published once -/

theorem linesOf_append (eventId : PyStr) (rs rs' : List Record) :
    linesOf eventId (rs ++ rs') = linesOf eventId rs ++ linesOf eventId rs' :=
  List.filter_append ..

theorem Site.Lined.lines (hk : k.Lined c S req line) :
    linesOf (req.eventId c S) k.index = [line] := by
  obtain ⟨before, hindex, hbefore⟩ := hk.last
  rw [hindex, linesOf_append, hbefore]
  simp [linesOf, hk.eventId]

/-- However often a duel is killed and run again, with no other duel on the track meanwhile, it has
at most one line, of the event as it is; and wherever its outcome or what a run returns says that it
is published, it has that line, which the result agrees with, and the head is that of the index. -/
theorem published_once {h : Host} (hnum : h.index.Pairwise fun r r' => r.seq < r'.seq)
    (hnew : linesOf (req.eventId c S) h.index = []) (hdir : h.dirs (req.runDir c S) = .empty)
    {conf : System.Conf Host Tag Raised DuelResult Unit}
    (hreach : (again c S req).Reach (apart c S req) h conf) :
    (linesOf (req.eventId c S) conf.state.index).length ≤ 1 ∧
    (∀ line ∈ linesOf (req.eventId c S) conf.state.index,
      ∃ e, conf.state.events (req.eventId c S) = some e ∧
        line.eventSha256 = some (c.sha256 e)) ∧
    ∀ r, r.status = .published → ((conf.state.dirs (req.runDir c S)).outcome = some r ∨
        conf.running = some ((), .ret (.ok r))) →
      ∃ line, linesOf (req.eventId c S) conf.state.index = [line] ∧ r.Agrees line ∧
        headOf conf.state.index = some conf.state.head := by
  have hstart : (h.site c S req).Once c S req := by
    have hnone : ∀ r, (h.site c S req).dir.outcome ≠ some r := fun r hr => by
      cases (congrArg RunDir.outcome hdir).symm.trans hr
    exact ⟨hnum, fun r hr => absurd hr (hnone r), Or.inl ⟨hnew, fun r hr => absurd hr (hnone r)⟩⟩
  obtain ⟨hinv, -, hruns⟩ := Frame.keeps_of_reach (S := again c S req) (Φ := once c S req)
    (J := fun _ => True) (A := fun _ r k => k.dir.outcome = some r) (B := fun _ _ _ => True)
    (fun _ s _ => writes_run s) (fun _ _ _ _ => trivial) (fun _ _ _ _ => trivial)
    (fun _ hinv _ => ⟨hinv, trivial⟩) hstart trivial hreach
  have honce : (conf.state.site c S req).Once c S req := hinv
  -- what a run returns is in the run directory
  have hreturned : ∀ r, ((conf.state.dirs (req.runDir c S)).outcome = some r ∨
      conf.running = some ((), .ret (.ok r))) →
        (conf.state.site c S req).dir.outcome = some r := fun r hr =>
    hr.elim id fun hrunning => ((hruns _ _ hrunning).ended).2
  rcases honce.lined with hbare | ⟨line, hline⟩
  · have hlines : linesOf (req.eventId c S) conf.state.index = [] := hbare.lines
    refine ⟨by simp [hlines], by simp [hlines], fun r hr hsome => ?_⟩
    exact absurd hr (hbare.outcome r (hreturned r hsome))
  · have hlines : linesOf (req.eventId c S) conf.state.index = [line] := hline.lines
    refine ⟨by simp [hlines], ?_, fun r _ hsome => ⟨line, hlines, ?_⟩⟩
    · rw [hlines]
      rintro _ hmem
      exact List.mem_singleton.1 hmem ▸ hline.event
    · exact (hline.outcome r (hreturned r hsome)).2

/-- A run that is killed after so many acts, and one that is let go. -/
def Host.resumed (c : Crypto) (S : Contract) (req : DuelRequest) (h : Host) (n : ℕ) : Host :=
  ((run c S req).exec ((run c S req).after n h).2).2

theorem reach_resumed (h : Host) (n : ℕ) : ∃ x,
    (again c S req).Reach (apart c S req) h ⟨h.resumed c S req n, some x⟩ := by
  have hstart : (again c S req).Reach (apart c S req) h ⟨h, some ((), run c S req)⟩ :=
    .single (.start trivial)
  have hkilled := (hstart.after (fun _ _ => trivial) n).tail (.kill trivial)
  exact ⟨_, System.Reach.exec (fun _ _ => trivial) (hkilled.tail (.start (c := ()) trivial))⟩

/-- A genesis, on an empty store. -/
def toyGenesis : DuelRequest := ⟨toyRef (py "x"), none, none, 1⟩

/-- It is killed between its line and the head. -/
def toyAgain : Host := toyStore.resumed toyHash toyContract toyGenesis 12

theorem toy_once : ∃ line,
    linesOf (toyGenesis.eventId toyHash toyContract) toyAgain.index = [line] ∧
      headOf toyAgain.index = some toyAgain.head := by
  obtain ⟨x, hreach⟩ : ∃ x, (again toyHash toyContract toyGenesis).Reach
    (apart toyHash toyContract toyGenesis) toyStore ⟨toyAgain, some x⟩ := reach_resumed toyStore 12
  have hdone : ((toyAgain.dirs (toyGenesis.runDir toyHash toyContract)).outcome.map
      DuelResult.status) = some .published := by decide +kernel
  generalize toyAgain = h' at hreach hdone ⊢
  obtain ⟨r, hr, hstatus⟩ := Option.map_eq_some_iff.1 hdone
  obtain ⟨-, -, hpublished⟩ := published_once .nil rfl rfl hreach
  obtain ⟨line, hlines, -, hhead⟩ := hpublished r hstatus (Or.inl hr)
  exact ⟨line, hlines, hhead⟩

end Duels

end IcilOrchestrator

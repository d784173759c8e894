import Mathlib
import IcilOrchestrator.HandRuns

/-!
# The kings of a track

A duel is asked against the king that the head names, and the head is rewritten after the index.
Between the two a process may be killed, and the head names who was king before : a duel of
another submission is then checked against, and published under, a king who has lost the crown.

`lineal_of_reach` : in every run in which the crown is checked only while the head is that of the
index's last record, every duel's record names the king that folding `king_after` over the records
before it gives, and every genesis comes where that is none. `usurped` is a run without it.
-/

set_option linter.unusedSectionVars false

namespace IcilOrchestrator

open Python Prog

namespace Duels

variable {c : Crypto} {S : Contract}

/-! ## The index and its head -/

/-- The index, and the head. -/
structure Books where
  index : List Record
  head : Head

def Host.books (h : Host) : Books := ⟨h.index, h.head⟩

/-- The king of the records. -/
def kingOf (rs : List Record) : Option SubmissionRef := rs.foldl kingAfter none

/-- Each duel is against the king of the records before it, and each genesis where there is none. -/
def Lineal (rs : List Record) : Prop :=
  ∀ before r after, rs = before ++ r :: after →
    (r.kind = py "duel" → r.king = kingOf before) ∧
      (r.kind = py "genesis" → kingOf before = none)

/-- The head is that of the last record. -/
def Books.Level (b : Books) : Prop := b.head.seq + 1 = nextSeq b.index

instance (b : Books) : Decidable b.Level := inferInstanceAs (Decidable (_ = _))

/-- What holds of a store, whose head may be left behind its index. -/
structure Books.Kept (b : Books) : Prop where
  numbered : b.index.Pairwise fun r r' => r.seq < r'.seq
  lineal : Lineal b.index
  behind : b.head.seq < nextSeq b.index
  king : b.Level → b.head.king = kingOf b.index

/-- The crown is checked while the head is that of the last record. -/
def Checked : Tag → Host → Prop
  | .crowns, h => h.books.Level
  | _, _ => True

theorem kingOf_concat (rs : List Record) (r : Record) :
    kingOf (rs ++ [r]) = kingAfter (kingOf rs) r := by
  simp [kingOf]

theorem nextSeq_concat (rs : List Record) (r : Record) : nextSeq (rs ++ [r]) = r.seq + 1 := by
  simp [nextSeq]

/-- Records in the order of their numbers are numbered below the next. -/
theorem seq_lt_nextSeq {rs : List Record} (hnum : rs.Pairwise fun r r' => r.seq < r'.seq)
    {r : Record} (hr : r ∈ rs) : r.seq < nextSeq rs := by
  obtain ⟨rs, z, rfl⟩ := (List.eq_nil_or_concat' rs).resolve_left (List.ne_nil_of_mem hr)
  rw [nextSeq_concat]
  rcases List.mem_append.1 hr with hr | hr
  · exact Nat.lt_succ_of_lt ((List.pairwise_append.1 hnum).2.2 r hr z (List.mem_singleton_self z))
  · exact (List.mem_singleton.1 hr) ▸ Nat.lt_succ_self _

/-- What is published is a duel against the request's king, or a genesis where there is none. -/
theorem king_recordOf (req : DuelRequest) (dethroned : Bool) (rest : PyStr) :
    ((recordOf c S req dethroned rest).kind = py "duel" →
      (recordOf c S req dethroned rest).king = req.king) ∧
    ((recordOf c S req dethroned rest).kind = py "genesis" → req.king = none) := by
  have hne : py "genesis" ≠ py "duel" := by decide
  simp only [recordOf, DuelRequest.kind]
  cases req.king with
  | none => simp [hne]
  | some king => simp [hne.symm]

/-- Such a record says who is king. -/
theorem kingAfter_kind {req : DuelRequest} {line : Record} (hkind : line.kind = req.kind)
    (king king' : Option SubmissionRef) : kingAfter king line = kingAfter king' line := by
  have hkind : line.kind = py "duel" ∨ line.kind = py "genesis" := by
    rw [hkind, DuelRequest.kind]
    split_ifs <;> simp
  unfold kingAfter
  rcases hkind with h | h <;> simp [h]

theorem Lineal.concat {rs : List Record} {r : Record} (h : Lineal rs)
    (hduel : r.kind = py "duel" → r.king = kingOf rs)
    (hgenesis : r.kind = py "genesis" → kingOf rs = none) : Lineal (rs ++ [r]) := by
  intro before x after heq
  rcases List.eq_nil_or_concat' after with rfl | ⟨after, y, rfl⟩
  · obtain ⟨rfl, hx⟩ := List.append_inj' heq rfl
    obtain rfl := List.singleton_inj.1 hx
    exact ⟨hduel, hgenesis⟩
  · refine h before x after ?_
    have heq : rs ++ [r] = (before ++ x :: after) ++ [y] := by simpa using heq
    exact (List.append_inj' heq rfl).1

namespace Books

variable {b : Books} {line : Record}

theorem Kept.seq_lt (hb : b.Kept) {r : Record} (hr : r ∈ b.index) : r.seq < nextSeq b.index :=
  seq_lt_nextSeq hb.numbered hr

/-- A line is appended : the head is left behind. -/
theorem Kept.append (hb : b.Kept) (hseq : line.seq = nextSeq b.index)
    (hduel : line.kind = py "duel" → line.king = kingOf b.index)
    (hgenesis : line.kind = py "genesis" → kingOf b.index = none) :
    Kept ⟨b.index ++ [line], b.head⟩ where
  numbered := List.pairwise_append.2 ⟨hb.numbered, List.pairwise_singleton _ _, fun r hr x hx => by
    rw [List.mem_singleton.1 hx, hseq]
    exact hb.seq_lt hr⟩
  lineal := hb.lineal.concat hduel hgenesis
  behind := by
    have := hb.behind
    simp only [nextSeq_concat, hseq]
    omega
  king hlevel := by
    have := hb.behind
    simp only [Level, nextSeq_concat, hseq] at hlevel
    omega

/-- The head is written, of the last record. -/
theorem Kept.writes (hb : b.Kept) {head : Head} (hlevel : head.seq + 1 = nextSeq b.index)
    (hking : head.king = kingOf b.index) : Kept ⟨b.index, head⟩ where
  numbered := hb.numbered
  lineal := hb.lineal
  behind := hlevel ▸ Nat.lt_succ_self _
  king _ := hking

/-- The index is in the order of its numbers. -/
theorem Kept.iterIndex_eq (hb : b.Kept) : iterIndex b.index = b.index :=
  (hb.numbered.imp Nat.le_of_lt).insertionSort_eq

end Books

/-! ## What programs keep -/

theorem books_rely {meets : Tag → Host → Prop} {h h' : Host} (hr : (world meets).rely h h') :
    h'.books = h.books := by
  induction hr with
  | refl => rfl
  | tail _ hstep ih =>
    rw [← ih]
    cases hstep with
    | add => rfl
    | offer => rfl
    | remove key =>
      unfold Host.remove
      split_ifs <;> rfl
    | finds => rfl

/-- What others leave of a store. -/
def ledger : Frame Host Tag Books where
  env := world Checked
  core := Host.books
  inv h := h.books.Kept
  core_eq := books_rely
  inv_rely hr h := by rwa [books_rely hr]

variable {α : Type} {P : Books → Prop} {A : α → Books → Prop} {req : DuelRequest}

/-- An act elsewhere. -/
theorem keeps_act {t : Tag} {f : Host → Host} {g : Host → α} (hf : ∀ h, (f h).books = h.books) :
    ledger.Runs P (fun _ => P) (act t f g) :=
  goes_act fun h hinv hp _ => by
    have hcore : ledger.core (f h) = ledger.core h := hf h
    refine ⟨?_, hcore ▸ hp⟩
    show (f h).books.Kept
    rw [hf]
    exact hinv

theorem keeps_put {f : Host → Host} (hf : ∀ h, (f h).books = h.books) :
    ledger.Runs P (fun _ => P) (put f) := keeps_act hf

theorem keeps_record : ledger.Runs P (fun _ => P) (recordRequest c S req) := by
  have hrecord : ledger.Runs P (fun _ => P) (recordRequest.record c S req) :=
    keeps_put fun _ => rfl
  refine goes_see.bind fun existing => ?_
  cases existing with
  | none => exact hrecord
  | some doc =>
    exact Frame.Goes.ite (fun _ => Frame.goes_ret fun _ hk => hk) fun _ =>
      Frame.Goes.bind (keeps_put fun _ => rfl) fun _ => hrecord

/-- A duel goes on where its king is that of the index. -/
theorem goes_checkCrown : ledger.Runs P (fun _ b => P b ∧ kingOf b.index = req.king)
    (checkCrown c S req) := by
  refine Frame.Goes.bind (A := fun king b => P b ∧ kingOf b.index = king)
    (goes_act fun h hinv hp hlevel => ⟨hinv, hp, (hinv.king hlevel).symm⟩) fun king => ?_
  refine Frame.Goes.ite (fun hking => Frame.goes_ret fun b hb => hking ▸ hb) fun _ => ?_
  exact Frame.Goes.bind (keeps_put fun _ => rfl) fun _ => Frame.runs_raise _

theorem keeps_decide (status : Status) (record : Option Record) :
    ledger.Runs P (fun _ => P) (decide c S req status record) :=
  Frame.Goes.bind (keeps_put fun _ => rfl) fun _ => Frame.goes_ret fun _ hk => hk

theorem goes_republished (record : Record) :
    ledger.Runs (fun _ => True) (fun _ _ => True) (republished c S req record) := by
  refine Frame.Goes.bind (A := fun _ _ => True) (goes_put fun h hinv _ => ⟨?_, trivial⟩) fun _ =>
    keeps_decide _ _
  have hkept : h.books.Kept := hinv
  have hsort : iterIndex h.index = h.index := hkept.iterIndex_eq
  rw [hsort]
  cases hlast : h.index.getLast? with
  | none => exact hkept
  | some r => exact hkept.writes (by simp [nextSeq, Host.books, hlast]) rfl

/-- The line of a duel, and then its head. -/
theorem goes_append (dethroned : Bool) (rest : PyStr) :
    ledger.Runs (fun b => kingOf b.index = req.king) (fun _ _ => True)
      (append c (recordOf c S req dethroned rest)) := by
  refine goes_see.bind fun event => ?_
  cases event with
  | none => exact Frame.runs_raise _
  | some event =>
    refine Frame.Goes.bind (A := fun seq b => kingOf b.index = req.king ∧ seq = nextSeq b.index)
      (goes_look fun _ _ hp => ⟨hp, rfl⟩) fun seq => ?_
    let line : Record :=
      { recordOf c S req dethroned rest with seq, eventSha256 := some (c.sha256 event) }
    have hkind : line.kind = req.kind := rfl
    obtain ⟨hduel, hgenesis⟩ := king_recordOf (c := c) (S := S) req dethroned rest
    refine Frame.Goes.bind (A := fun _ b => nextSeq b.index = seq + 1 ∧
      ∀ king, kingAfter king line = kingOf b.index) (goes_put fun h hinv hp => ?_) fun _ =>
        Frame.Goes.bind (A := fun _ _ => True) (goes_put fun h hinv hp => ?_) fun _ =>
          Frame.goes_ret fun _ _ => trivial
    · obtain ⟨hking, hseq⟩ := hp
      have hkept : h.books.Kept := hinv
      have hking : kingOf h.books.index = req.king := hking
      have happend : Books.Kept ⟨h.index ++ [line], h.head⟩ := by
        refine hkept.append hseq (fun hk => ?_) fun hk => ?_
        · rw [hking]
          exact hduel hk
        · rw [hking]
          exact hgenesis hk
      refine ⟨happend, nextSeq_concat _ line, fun king => ?_⟩
      exact (kingAfter_kind hkind _ _).trans (kingOf_concat h.index line).symm
    · have hkept : h.books.Kept := hinv
      exact ⟨hkept.writes hp.1.symm (hp.2 _), trivial⟩

theorem goes_publish (dethroned : Bool) (event : Bytes) (rest : PyStr) :
    ledger.Runs (fun _ => True) (fun _ _ => True) (publish c S req dethroned event rest) := by
  refine goes_see.bind fun found => ?_
  cases found with
  | some record => exact goes_republished record
  | none =>
    refine goes_checkCrown.bind fun _ => Frame.Goes.bind (keeps_put ?_) fun _ =>
      ((goes_append dethroned rest).from (fun _ h => h.2)).bind fun _ =>
        keeps_decide _ _
    exact fun _ => rfl

theorem goes_play : ledger.Runs (fun _ => True) (fun _ _ => True) (play c S req) := by
  refine goes_see.bind fun fate => ?_
  cases fate with
  | unavailable => exact Frame.runs_raise _
  | failed => exact Frame.runs_raise _
  | crashes => exact Frame.runs_raise _
  | refused => exact keeps_decide _ _
  | void => exact keeps_decide _ _
  | stands dethroned event rest => exact goes_publish dethroned event rest

theorem goes_run : ledger.Runs (fun _ => True) (fun _ _ => True) (run c S req) := by
  refine keeps_record.bind fun _ => goes_see.bind fun outcome => ?_
  cases outcome with
  | some result => exact Frame.goes_ret fun _ _ => trivial
  | none =>
    refine goes_see.bind fun found => ?_
    cases found with
    | some record => exact goes_republished record
    | none =>
      exact Frame.Goes.bind (A := fun _ _ => True)
        (goes_checkCrown.weaken (fun _ h => h) (fun _ _ _ => trivial) fun _ _ h => h) fun _ =>
          goes_play.catch fun _ => Frame.runs_raise _

/-! ## Commands -/

/-- A program that leaves the store as it is, but for the duels that it runs. -/
abbrev Keeps (p : DProg α) : Prop := ledger.Runs (fun _ => True) (fun _ _ => True) p

theorem keeps_publishQueue : Keeps publishQueue := keeps_put fun _ => rfl

theorem keeps_pure (a : α) : Keeps (pure a : DProg α) := Frame.goes_ret fun _ _ => trivial

theorem keeps_finish (ended : Bool) : Keeps (runDuel.finish ended) := by
  refine Frame.Goes.bind (keeps_put fun h => ?_) fun _ =>
    keeps_publishQueue.bind fun _ => keeps_pure _
  unfold Host.finish
  split
  · split_ifs <;> rfl
  · rfl

theorem keeps_runDuel : Keeps (runDuel c S req) := by
  refine Frame.Goes.bind (A := fun _ _ => True) ((goes_attempt goes_run).weaken (fun _ h => h)
    (fun _ _ _ => trivial) fun _ _ h => h.elim) fun r => ?_
  cases r with
  | ok result => exact keeps_finish _
  | error e =>
    cases e with
    | unavailable => exact keeps_pure _
    | failed => exact keeps_finish _
    | crashed => exact Frame.runs_raise _
    | crownMoved =>
      exact Frame.Goes.bind (keeps_put fun _ => rfl) fun _ =>
        keeps_publishQueue.bind fun _ => keeps_pure _

theorem keeps_resume (mark : Mark) : Keeps (resume c S mark) := by
  refine goes_see.bind fun doc => ?_
  cases doc with
  | none => exact keeps_finish _
  | some doc => exact Frame.Goes.ite (fun _ => keeps_runDuel) fun _ => keeps_finish _

theorem keeps_nextBlock : Keeps nextBlock :=
  goes_see.bind fun _ => goes_see.bind fun _ => keeps_pure _

theorem keeps_take : Keeps (take c S req) := keeps_act fun h => by
  split <;> rfl

theorem keeps_duelEntry (king : Option SubmissionRef) (entry : Entry) :
    Keeps (duelEntry c S king entry) := by
  refine keeps_nextBlock.bind fun block => keeps_record.bind fun _ => keeps_take.bind fun e => ?_
  cases e with
  | none => exact keeps_pure _
  | some e => exact keeps_publishQueue.bind fun _ => keeps_runDuel

theorem keeps_stalled (b : Bool) : Keeps (do
    put fun h => { h with stalled := true }
    pure b) :=
  Frame.Goes.bind (keeps_put fun _ => rfl) fun _ => keeps_pure b

theorem keeps_baselineGenesis (repo revision : PyStr) :
    Keeps (baselineGenesis c S repo revision) := by
  unfold baselineGenesis
  split
  · exact keeps_stalled false
  · refine goes_see.bind fun ready => Frame.Goes.ite (fun _ => ?_) fun _ => keeps_pure _
    refine keeps_nextBlock.bind fun block => keeps_record.bind fun _ =>
      Frame.Goes.bind (keeps_act ?_) fun _ => Frame.Goes.bind (keeps_put ?_) fun _ =>
        keeps_publishQueue.bind fun _ => keeps_runDuel.bind fun ran =>
          Frame.Goes.ite (fun _ => ?_) fun _ => keeps_pure _
    · exact fun _ => rfl
    · exact fun _ => rfl
    exact goes_see.bind fun king =>
      Frame.Goes.ite (fun _ => keeps_stalled true) fun _ => keeps_pure _

theorem keeps_step : Keeps (step c S) := by
  refine goes_see.bind fun mark => ?_
  cases mark with
  | some mark =>
    exact goes_see.bind fun ready =>
      Frame.Goes.ite (fun _ => keeps_resume mark) fun _ => keeps_pure _
  | none =>
    refine goes_see.bind fun stalled => Frame.Goes.ite (fun _ => keeps_pure _) fun _ => ?_
    refine goes_see.bind fun king => ?_
    split
    · exact keeps_baselineGenesis _ _
    · refine goes_see.bind fun entry => ?_
      cases entry with
      | none => exact keeps_pure _
      | some entry =>
        refine goes_see.bind fun ready => Frame.Goes.ite (fun _ => ?_) fun _ => keeps_pure _
        refine Frame.Goes.ite (fun _ => ?_) fun _ => keeps_duelEntry _ entry
        refine Frame.Goes.bind (keeps_put fun h => ?_) fun _ =>
          keeps_publishQueue.bind fun _ => keeps_pure _
        unfold Host.remove
        split_ifs <;> rfl

theorem keeps_runByHand (counter headBlock : ℤ) :
    Keeps (runByHand c S counter headBlock req) := by
  refine Frame.Goes.bind (A := fun _ _ => True) ?_ fun _ => goes_run.bind fun _ => keeps_pure _
  exact Frame.goes_act (R := fun _ _ => True) (fun _ hinv _ _ => ⟨hinv, trivial⟩) fun _ =>
    Frame.goes_ret fun _ _ => trivial

theorem keeps_fresh (challenger : SubmissionRef) (size : Option PyStr) (head : Head)
    (counter : ℤ) : Keeps (duel.fresh c S challenger size head counter) :=
  Frame.Goes.bind (keeps_act fun _ => rfl) fun _ => keeps_runByHand _ _

theorem keeps_duel (challenger : SubmissionRef) (size : Option PyStr) :
    Keeps (duel c S challenger size) := by
  refine Frame.Goes.ite (fun _ => ?_) fun _ => keeps_pure _
  refine goes_see.bind fun head => Frame.Goes.ite (fun _ => keeps_pure _) fun _ =>
    Frame.Goes.ite (fun _ => keeps_pure _) fun _ => goes_see.bind fun counter => ?_
  refine Frame.Goes.ite (fun _ => keeps_fresh _ _ _ _) fun _ => ?_
  exact Frame.Goes.bind (keeps_act fun _ => rfl) fun holds =>
    Frame.Goes.ite (fun _ => keeps_runByHand _ _) fun _ => keeps_fresh _ _ _ _

theorem keeps_command (cmd : Command) : Keeps (cmd.prog c S) := by
  cases cmd with
  | step => exact keeps_step.bind fun _ => keeps_pure _
  | duel challenger size => exact keeps_duel challenger size

/-! ## Runs -/

/-- However daemon steps and `duel` commands are scheduled, killed and started again, every record
is of the king that those before it make, where the crown is checked only while the head is that
of the index's last record. -/
theorem lineal_of_reach {h : Host} (hkept : h.books.Kept)
    {conf : System.Conf Host Tag Raised (Option DuelResult) Command}
    (hreach : (system c S).Reach (world Checked) h conf) : Lineal conf.state.index := by
  have hkept' : conf.state.books.Kept :=
    Frame.inv_of_reach (Φ := ledger) (J := fun _ => True) (fun cmd _ _ => keeps_command cmd)
      (fun _ hinv _ => ⟨hinv, trivial⟩) hkept trivial hreach
  exact hkept'.lineal

/-- An empty store, on which everything stands. -/
def toyStore : Host where
  queue := ⟨[], none, 0⟩
  dirs _ := .empty
  events _ := none
  index := []
  head := ⟨0, [], 0, none⟩
  ready := true
  fate := .stands true [] []
  faulty := false
  stalled := false
  given := []
  hand := []
  owed := []

theorem kept_toyStore : toyStore.books.Kept where
  numbered := .nil
  lineal before r after h := by simp [toyStore, Host.books] at h
  behind := by decide
  king _ := rfl

/-- A duel that is not against the king of the records before it. -/
theorem not_lineal {rs : List Record} (i : ℕ) (h : (rs[i]?.any fun r =>
    r.kind = py "duel" && r.king != kingOf (rs.take i)) = true) : ¬Lineal rs := by
  intro hlineal
  obtain ⟨r, hr, hbad⟩ := (Option.any_eq_true _ _).1 h
  obtain ⟨hi, rfl⟩ := List.getElem?_eq_some_iff.1 hr
  obtain ⟨hkind, hking⟩ := Bool.and_eq_true_iff.1 hbad
  have heq : rs = rs.take i ++ rs[i] :: rs.drop (i + 1) := by
    rw [List.getElem_cons_drop, List.take_append_drop]
  exact bne_iff_ne.1 hking ((hlineal _ _ _ heq).1 (of_decide_eq_true hkind))

/-- What a `duel` command that is killed after so many acts leaves. -/
def Host.killed (c : Crypto) (S : Contract) (h : Host) (n : ℕ) (challenger : PyStr) : Host :=
  (system c S).reset ((duel c S (toyRef challenger) none).after n h).2

theorem reach_killed {h h' : Host} (n : ℕ) {s : PyStr} (hs : h'.stalled = false)
    (hreach : (system c S).Reach (world fun _ _ => True) h ⟨h', none⟩) :
    (system c S).Reach (world fun _ _ => True) h ⟨h'.killed c S n s, none⟩ := by
  have hstart : (system c S).starts (.duel (toyRef s) none) h' := hs
  exact (System.Reach.after (fun _ _ => trivial) (hreach.tail (.start hstart)) n).tail
    (.kill trivial)

/-- A king is crowned and dethroned, by a duel that is killed before it has written the head;
then the king that the head names is dueled. -/
def toyUsurped : Host :=
  ((toyStore.after toyHash toyContract (py "k")).killed toyHash toyContract 16 (py "x")).after
    toyHash toyContract (py "y")

/-- The duel is published against a king who has lost the crown. -/
theorem usurped : ∃ (h : Host) (conf : System.Conf Host Tag Raised (Option DuelResult) Command),
    h.books.Kept ∧ (system toyHash toyContract).Reach (world fun _ _ => True) h conf ∧
      ¬Lineal conf.state.index := by
  have hcrowned : (system toyHash toyContract).Reach (world fun _ _ => True) toyStore
      ⟨toyStore.after toyHash toyContract (py "k"), none⟩ := reach_after rfl .refl
  have hkilled := reach_killed 16 (s := py "x") (by decide +kernel) hcrowned
  have hpublished := reach_after (s := py "y") rfl hkilled
  exact ⟨toyStore, ⟨toyUsurped, none⟩, kept_toyStore, hpublished, not_lineal 2 (by decide +kernel)⟩

/-- Whether the crown is checked as it is to be. -/
def checks : Tag → Host → Bool
  | .crowns, h => Decidable.decide h.books.Level
  | _, _ => true

theorem checked_of_checks (t : Tag) (h : Host) (ht : checks t h = true) : Checked t h := by
  cases t with
  | crowns => exact of_decide_eq_true (p := h.books.Level) ht
  | nothing => trivial
  | gives doc => trivial
  | finds req => trivial

/-- A king is crowned, and dethroned by a duel that is killed and resumed. -/
theorem toy_lineal : ∃ h : Host, h.index.map (·.newKing) = [none, some (toyRef (py "x"))] ∧
    Lineal h.index := by
  let x : Command := .duel (toyRef (py "x")) none
  have hstart : (system toyHash toyContract).Reach (world Checked) toyStore
      ⟨toyStore, some (.duel (toyRef (py "k")) none, _)⟩ := .single (.start rfl)
  have hcrowned := reach_checked checked_of_checks 30 (by decide +kernel) hstart
  have hagain := (hcrowned.tail (.kill trivial)).tail (.start (c := x) rfl)
  have hcut := reach_checked checked_of_checks 16 (by decide +kernel) hagain
  have hresumed := (hcut.tail (.kill trivial)).tail (.start (c := x) rfl)
  have hhealed := reach_checked checked_of_checks 30 (by decide +kernel) hresumed
  exact ⟨_, by decide +kernel, lineal_of_reach kept_toyStore hhealed⟩

end Duels

end IcilOrchestrator

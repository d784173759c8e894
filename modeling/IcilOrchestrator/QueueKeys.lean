import Mathlib
import IcilOrchestrator.QueueFile

/-!
# The keys that wait

What a mutation makes of the keys of the waiting entries : they stay distinct, and two of them
stay in order unless the mutation puts one of them at an end of the queue (`Orderly`,
`exec_keys`). A state that is saved is read back with the same keys (`keys_load_save`), so the
same holds from file to file (`orderly_apply`).
-/

set_option linter.unusedSectionVars false

namespace IcilOrchestrator

open Python Prog

variable {F : Type} [PyFloat F]

/-! ## Keys -/

/-- The entry's key, if it is a string. -/
def QueueEntry.strKey (e : QueueEntry F) : Option PyStr :=
  match e.key with
  | .str k => some k
  | _ => none

/-- The keys of the entries, in order. -/
def keysOf (es : List (QueueEntry F)) : List PyStr := es.filterMap QueueEntry.strKey

/-- The keys that wait. -/
def QueueState.keys (s : QueueState F) : List PyStr := keysOf s.entries

theorem pyEq_str_right {j : Json F} {k : PyStr} : j.pyEq (.str k) = true ↔ j = .str k := by
  cases j <;> simp [Json.pyEq, Json.num?]

theorem pyEq_str_left {j : Json F} {k : PyStr} : (Json.str k).pyEq j = true ↔ j = .str k := by
  cases j with
  | str s =>
    rw [Json.pyEq, beq_iff_eq, Json.str.injEq]
    exact eq_comm
  | _ => simp [Json.pyEq, Json.num?]

theorem strKey_eq_some {e : QueueEntry F} {k : PyStr} : e.strKey = some k ↔ e.key = .str k := by
  unfold QueueEntry.strKey
  split <;> simp_all

theorem hasKey_str {e : QueueEntry F} {k : PyStr} :
    e.hasKey (.str k) = true ↔ e.strKey = some k := by
  rw [QueueEntry.hasKey, pyEq_str_right, strKey_eq_some]

theorem mem_keysOf {es : List (QueueEntry F)} {k : PyStr} :
    k ∈ keysOf es ↔ ∃ e ∈ es, e.key = .str k := by
  simp [keysOf, List.mem_filterMap, strKey_eq_some]

theorem keysOf_append (es es' : List (QueueEntry F)) :
    keysOf (es ++ es') = keysOf es ++ keysOf es' := List.filterMap_append

/-- Taking the entries of a key away takes the key away. -/
theorem keysOf_without (k : PyStr) (es : List (QueueEntry F)) :
    keysOf (without (.str k) es) = (keysOf es).filter (· ≠ k) := by
  induction es with
  | nil => rfl
  | cons e es ih =>
    unfold without at ih ⊢
    unfold keysOf at ih ⊢
    cases hk : e.strKey with
    | none =>
      have hno : e.hasKey (.str k) = false := by
        rw [Bool.eq_false_iff, Ne, hasKey_str, hk]
        simp
      rw [List.filter_cons_of_pos (by simp [hno]), List.filterMap_cons_none hk,
        List.filterMap_cons_none hk, ih]
    | some a =>
      by_cases ha : a = k
      · have hyes : e.hasKey (.str k) = true := hasKey_str.2 (by rw [hk, ha])
        rw [List.filter_cons_of_neg (by simp [hyes]), List.filterMap_cons_some hk,
          List.filter_cons_of_neg (by simp [ha]), ih]
      · have hno : e.hasKey (.str k) = false := by
          rw [Bool.eq_false_iff, Ne, hasKey_str, hk]
          simpa using ha
        rw [List.filter_cons_of_pos (by simp [hno]), List.filterMap_cons_some hk,
          List.filterMap_cons_some hk, List.filter_cons_of_pos (by simp [ha]), ih]

/-- An entry whose key is no string has nothing to do with the keys that are. -/
theorem keysOf_without_of_none {e : QueueEntry F} (he : e.strKey = none)
    (es : List (QueueEntry F)) : keysOf (without e.key es) = keysOf es := by
  induction es with
  | nil => rfl
  | cons x es ih =>
    unfold without at ih ⊢
    unfold keysOf at ih ⊢
    rw [List.filter_cons]
    cases hx : x.strKey with
    | none =>
      rw [List.filterMap_cons_none hx]
      split_ifs
      · rw [List.filterMap_cons_none hx, ih]
      · exact ih
    | some a =>
      have hno : x.hasKey e.key = false := by
        rw [Bool.eq_false_iff, Ne, QueueEntry.hasKey, strKey_eq_some.1 hx, pyEq_str_left,
          ← strKey_eq_some, he]
        simp
      rw [if_pos (by simp [hno]), List.filterMap_cons_some hx, List.filterMap_cons_some hx, ih]

/-! ## Order -/

/-- In a list without repeats, what is left of it but two of its members in order. -/
theorem filter_pair {ks : List PyStr} (hks : ks.Nodup) {a b : PyStr} (h : [a, b].Sublist ks) :
    ks.filter (fun x => x = a ∨ x = b) = [a, b] := by
  have hsub : [a, b].Sublist (ks.filter fun x => x = a ∨ x = b) := by
    simpa using h.filter fun x => decide (x = a ∨ x = b)
  refine (hsub.eq_of_length_le ?_).symm
  have hnodup := hks.filter fun x => decide (x = a ∨ x = b)
  have hle : (ks.filter fun x => x = a ∨ x = b) ⊆ [a, b] := by
    intro x hx
    simpa using (List.mem_filter.1 hx).2
  exact (List.subperm_of_subset hnodup hle).length_le

/-- Two members of a part of the list are in the order they have in the list. -/
theorem pair_sublist {ks ks' : List PyStr} (hks : ks.Nodup) (h : ks'.Sublist ks) {a b : PyStr}
    (hab : [a, b].Sublist ks) (ha : a ∈ ks') (hb : b ∈ ks') : [a, b].Sublist ks' := by
  have hne : a ≠ b := by simpa using hks.sublist hab
  have hsub : (ks'.filter fun x => x = a ∨ x = b).Sublist [a, b] :=
    filter_pair hks hab ▸ h.filter _
  have hpair : [a, b] ⊆ ks'.filter fun x => x = a ∨ x = b := by
    intro x hx
    simp only [List.mem_cons, List.not_mem_nil, or_false] at hx
    rcases hx with rfl | rfl <;> simp [ha, hb]
  have hlen := (List.subperm_of_subset (by simpa using hne) hpair).length_le
  exact hsub.eq_of_length_le hlen ▸ List.filter_sublist

/-- The keys stay distinct, and those that are not `moved` stay in order. -/
structure Orderly (moved : PyStr → Prop) (ks ks' : List PyStr) : Prop where
  nodup : ks.Nodup → ks'.Nodup
  order : ks.Nodup → ∀ a b, ¬moved a → ¬moved b → [a, b].Sublist ks → a ∈ ks' → b ∈ ks' →
    [a, b].Sublist ks'

variable {moved : PyStr → Prop} {ks ks' : List PyStr} {k : PyStr}

theorem orderly_of_sublist (h : ks'.Sublist ks) : Orderly moved ks ks' :=
  ⟨fun hks => hks.sublist h, fun hks _ _ _ _ hab ha hb => pair_sublist hks h hab ha hb⟩

/-- A key that was not there waits last. -/
theorem orderly_concat (hk : k ∉ ks) : Orderly moved ks (ks ++ [k]) :=
  ⟨fun hks => List.nodup_append.2 ⟨hks, by simp, by rintro a ha b hb rfl; simp_all⟩,
    fun _ _ _ _ _ hab _ _ => hab.trans (List.sublist_append_left _ _)⟩

theorem pair_sublist_filter {a b : PyStr} (ha : a ≠ k) (hb : b ≠ k) (hab : [a, b].Sublist ks) :
    [a, b].Sublist (ks.filter (· ≠ k)) := by
  simpa [ha, hb] using hab.filter fun x => decide (x ≠ k)

/-- A key that was there or not waits last. -/
theorem orderly_move_last (hk : moved k) : Orderly moved ks (ks.filter (· ≠ k) ++ [k]) := by
  refine ⟨fun hks => List.nodup_append.2 ⟨hks.filter _, by simp, ?_⟩, ?_⟩
  · rintro a ha b hb rfl
    simp_all
  · intro _ a b ha hb hab _ _
    have hne : ∀ x, ¬moved x → x ≠ k := fun x hx hxk => hx (hxk ▸ hk)
    exact (pair_sublist_filter (hne a ha) (hne b hb) hab).trans (List.sublist_append_left _ _)

/-- A key that was there or not waits first. -/
theorem orderly_move_first (hk : moved k) : Orderly moved ks (k :: ks.filter (· ≠ k)) := by
  refine ⟨fun hks => List.nodup_cons.2 ⟨by simp, hks.filter _⟩, ?_⟩
  intro _ a b ha hb hab _ _
  have hne : ∀ x, ¬moved x → x ≠ k := fun x hx hxk => hx (hxk ▸ hk)
  exact (pair_sublist_filter (hne a ha) (hne b hb) hab).cons k

/-! ## What a method does to the keys -/

/-- The keys that a mutation puts at an end of the queue : the one that `add` queues, again or
not, and the one that `put_back` puts back. -/
def Mutation.Requeues (c : Crypto) (m : Mutation F) (a : Answer F) (k : PyStr) : Prop :=
  match m with
  | .add repo revision _ _ _ => k = submissionKey c repo revision
  | .putBack _ _ => ∃ e, a = .entry (some e) ∧ e.key = .str k
  | _ => False

theorem keysOf_entryFor (ref : SubmissionRef) (block : ℤ) (duelSize : Option Str)
    (source now : Str) : keysOf [(entryFor ref block duelSize source now : QueueEntry F)] =
      [ref.key] := rfl

theorem exec_addBody (ref : SubmissionRef) (duelSize : Option Str) (source now : Str)
    (s : QueueState F) : (addBody ref duelSize source now).exec s =
      (.ok (.placed (entryFor ref s.block duelSize source now)
        ((without (.str ref.key) s.entries).length + 1)),
      { s with entries := without (.str ref.key) s.entries ++
          [entryFor ref s.block duelSize source now] }) := by
  simp [addBody, exec_bind]

theorem exec_removeBody (key : PyStr) (s : QueueState F) : (removeBody key).exec s =
    (.ok (.removed ((without (.str key) s.entries).length != s.entries.length)),
      { s with entries := without (.str key) s.entries }) := by
  simp [removeBody, exec_bind]

theorem exec_popBody (s : QueueState F) : (popBody : Body F _).exec s =
    (.ok (.entry s.entries.head?), { s with entries := s.entries.tail }) := rfl

theorem exec_takeBody_none {key : PyStr} {block : ℤ} {eventId now : Str} {s : QueueState F}
    (h : s.entries.find? (fun e => e.hasKey (.str key)) = none) :
    (takeBody key block eventId now).exec s = (.ok (.entry none), s) := by
  rw [takeBody, exec_bind, exec_read]
  simp only [h, exec_pure]

/-- The state once an entry was taken. -/
def QueueState.taken (s : QueueState F) (key : PyStr) (block : ℤ) (eventId now : Str)
    (e : QueueEntry F) : QueueState F where
  entries := without (.str key) s.entries
  inProgress := some ⟨.str eventId.val, e.refDict, .str now.val, .obj e.asdict⟩
  block := max s.block block

theorem exec_takeBody_some {key : PyStr} {block : ℤ} {eventId now : Str} {s : QueueState F}
    {e : QueueEntry F} (h : s.entries.find? (fun e => e.hasKey (.str key)) = some e) :
    (takeBody key block eventId now).exec s =
      (.ok (.entry (some e)), s.taken key block eventId now e) := by
  rw [takeBody, exec_bind, exec_read]
  simp [h, exec_bind, QueueState.taken]

theorem exec_putBackBody {fallback : Option (QueueEntry F)} {s : QueueState F}
    {entry : Option (QueueEntry F)} (h : backEntry fallback s = .ok entry) :
    (putBackBody fallback).exec s = (.ok (.entry entry),
      { s with
        entries := (entry.map fun e => e :: without e.key s.entries).getD s.entries
        inProgress := none }) := by
  rw [putBackBody, exec_bind, exec_try, h]
  cases entry <;> simp [exec_bind]

theorem exec_putBackBody_error {fallback : Option (QueueEntry F)} {s : QueueState F} {x : PyError}
    (h : backEntry fallback s = .error x) :
    (putBackBody fallback).exec s = (.error x, s) := by
  rw [putBackBody, exec_bind, exec_try, h]

/-- `offer` of a submission that waits changes nothing. -/
theorem exec_offerBody_some {ref : SubmissionRef} {duelSize : Option Str} {source now : Str}
    {s : QueueState F} {n : ℕ} (h : s.entries.findIdx? (fun e => e.hasKey (.str ref.key)) = some n) :
    ((offerBody ref duelSize source now).exec s).2 = s := by
  simp only [offerBody, exec_bind, exec_read, h, Option.isNone_some, Bool.false_eq_true, if_false,
    exec_try]

/-- `offer` of another one queues it last. -/
theorem exec_offerBody_none {ref : SubmissionRef} {duelSize : Option Str} {source now : Str}
    {s : QueueState F} (h : s.entries.findIdx? (fun e => e.hasKey (.str ref.key)) = none) :
    ((offerBody ref duelSize source now).exec s).2 =
      { s with entries := s.entries ++ [entryFor ref s.block duelSize source now] } := by
  simp only [offerBody, exec_bind, exec_read, h, Option.isNone_none, if_true, exec_write, exec_try]

theorem orderly_offer (ref : SubmissionRef) (duelSize : Option Str) (source now : Str)
    (s : QueueState F) :
    Orderly moved s.keys ((offerBody ref duelSize source now).exec s).2.keys := by
  cases h : s.entries.findIdx? fun e => e.hasKey (.str ref.key) with
  | some n =>
    rw [exec_offerBody_some h]
    exact orderly_of_sublist (List.Sublist.refl _)
  | none =>
    have hno : ref.key ∉ s.keys := by
      intro hmem
      obtain ⟨e, he, hk⟩ := mem_keysOf.1 hmem
      have := List.findIdx?_eq_none_iff.1 h e he
      rw [hasKey_str.2 (strKey_eq_some.2 hk)] at this
      simp at this
    rw [exec_offerBody_none h]
    have hkeys : QueueState.keys
        { s with entries := s.entries ++ [entryFor ref s.block duelSize source now] } =
          s.keys ++ [ref.key] := by
      rw [QueueState.keys, keysOf_append, keysOf_entryFor, QueueState.keys]
    rw [hkeys]
    exact orderly_concat hno

theorem orderly_putBack {fallback : Option (QueueEntry F)} {wf : ∀ e ∈ fallback, e.WF} (c : Crypto)
    {s t : QueueState F} {a : Answer F} (h : (putBackBody fallback).exec s = (.ok a, t)) :
    Orderly ((Mutation.putBack fallback wf).Requeues c a) s.keys t.keys := by
  cases hback : backEntry fallback s with
  | error x =>
    rw [exec_putBackBody_error hback] at h
    simp at h
  | ok entry =>
    rw [exec_putBackBody hback] at h
    obtain ⟨ha, rfl⟩ := Prod.mk.inj h
    obtain rfl := Except.ok.inj ha
    cases entry with
    | none => exact orderly_of_sublist (List.Sublist.refl _)
    | some e =>
      have hkeys : ∀ p : Option (InProgress F), QueueState.keys
          { s with entries := e :: without e.key s.entries, inProgress := p } =
            keysOf [e] ++ keysOf (without e.key s.entries) := fun p => by
        rw [QueueState.keys, ← keysOf_append, List.singleton_append]
      rw [Option.map_some, Option.getD_some, hkeys]
      cases hk : e.strKey with
      | none =>
        have hnil : keysOf [e] = [] := by simp [keysOf, hk]
        rw [keysOf_without_of_none hk, hnil]
        exact orderly_of_sublist (List.Sublist.refl _)
      | some k =>
        have hone : keysOf [e] = [k] := by simp [keysOf, hk]
        have hkey := strKey_eq_some.1 hk
        rw [hone, hkey, keysOf_without]
        exact orderly_move_first ⟨e, rfl, hkey⟩

/-- What a method that returns has made of the keys. -/
theorem exec_keys {c : Crypto} {m : Mutation F} {b : Body F (Answer F)} (hb : m.body c = .ok b)
    {s t : QueueState F} {a : Answer F} (h : b.exec s = (.ok a, t)) :
    Orderly (m.Requeues c a) s.keys t.keys := by
  have hwithout : ∀ k : PyStr, Orderly (m.Requeues c a) s.keys
      (keysOf (without (.str k) s.entries)) := fun k => by
    rw [keysOf_without]
    exact orderly_of_sublist List.filter_sublist
  cases m with
  | add repo revision duelSize source now =>
    rw [Mutation.body] at hb
    split at hb
    · rename_i ref href
      obtain rfl := Except.ok.inj hb
      rw [exec_addBody] at h
      obtain ⟨-, rfl⟩ := Prod.mk.inj h
      unfold QueueState.keys
      rw [keysOf_append, keysOf_without, keysOf_entryFor]
      refine orderly_move_last ?_
      unfold SubmissionRef.resolved at href
      split_ifs at href
      obtain rfl := Option.some.inj href
      rfl
    · simp at hb
  | offer repo revision duelSize source now =>
    rw [Mutation.body] at hb
    split at hb
    · rename_i ref href
      obtain rfl := Except.ok.inj hb
      have hoffer : Orderly (Mutation.Requeues c (.offer repo revision duelSize source now) a)
          s.keys ((offerBody ref duelSize source now).exec s).2.keys :=
        orderly_offer ref duelSize source now s
      rwa [h] at hoffer
    · simp at hb
  | remove key =>
    obtain rfl := Except.ok.inj hb
    rw [exec_removeBody] at h
    obtain ⟨-, rfl⟩ := Prod.mk.inj h
    exact hwithout key
  | pop =>
    obtain rfl := Except.ok.inj hb
    rw [exec_popBody] at h
    obtain ⟨-, rfl⟩ := Prod.mk.inj h
    exact orderly_of_sublist ((List.tail_sublist _).filterMap _)
  | take key block eventId now =>
    obtain rfl := Except.ok.inj hb
    cases hfind : s.entries.find? fun e => e.hasKey (.str key) with
    | none =>
      rw [exec_takeBody_none hfind] at h
      obtain ⟨-, rfl⟩ := Prod.mk.inj h
      exact orderly_of_sublist (List.Sublist.refl _)
    | some e =>
      rw [exec_takeBody_some hfind] at h
      obtain ⟨-, rfl⟩ := Prod.mk.inj h
      exact hwithout key
  | putBack fallback wf =>
    obtain rfl := Except.ok.inj hb
    exact orderly_putBack c h
  | start eventId key repo revision now =>
    obtain rfl := Except.ok.inj hb
    obtain ⟨-, rfl⟩ := Prod.mk.inj h
    exact orderly_of_sublist (List.Sublist.refl _)
  | finish =>
    obtain rfl := Except.ok.inj hb
    obtain ⟨-, rfl⟩ := Prod.mk.inj h
    exact orderly_of_sublist (List.Sublist.refl _)
  | claimBlock floor =>
    obtain rfl := Except.ok.inj hb
    obtain ⟨-, rfl⟩ := Prod.mk.inj h
    exact orderly_of_sublist (List.Sublist.refl _)
  | setBlock block =>
    obtain rfl := Except.ok.inj hb
    obtain ⟨-, rfl⟩ := Prod.mk.inj h
    exact orderly_of_sublist (List.Sublist.refl _)

/-! ## Saved and loaded -/

/-- Every value of an in-progress mark is one that JSON denotes. -/
structure InProgress.WF (p : InProgress F) : Prop where
  eventId : p.eventId.WF
  challenger : p.challenger.WF
  startedAt : p.startedAt.WF
  entry : p.entry.WF

/-- Every value of a state is one that JSON denotes. -/
structure QueueState.WF (s : QueueState F) : Prop where
  entries : ∀ e ∈ s.entries, e.WF
  inProgress : ∀ p ∈ s.inProgress, p.WF

/-- The entry with its dicts sorted. -/
def QueueEntry.sorted (e : QueueEntry F) : QueueEntry F :=
  ⟨e.key.sortKeys, e.repo.sortKeys, e.revision.sortKeys, e.commitBlock.sortKeys,
    e.duelSize.sortKeys, e.acceptedAt.sortKeys, e.source.sortKeys⟩

/-- The mark with its dicts sorted. -/
def InProgress.sorted (p : InProgress F) : InProgress F :=
  ⟨p.eventId.sortKeys, p.challenger.sortKeys, p.startedAt.sortKeys, p.entry.sortKeys⟩

/-- The state with its dicts sorted. -/
def QueueState.sorted (s : QueueState F) : QueueState F :=
  ⟨s.entries.map QueueEntry.sorted, s.inProgress.map InProgress.sorted, s.block⟩

theorem strKey_sorted (e : QueueEntry F) : e.sorted.strKey = e.strKey := by
  obtain ⟨key, _, _, _, _, _, _⟩ := e
  cases key <;> rfl

/-- Sorting changes no key. -/
theorem keys_sorted (s : QueueState F) : s.sorted.keys = s.keys := by
  rw [QueueState.keys, QueueState.sorted, keysOf, List.filterMap_map, QueueState.keys, keysOf]
  exact congrArg (List.filterMap · s.entries) (funext strKey_sorted)

theorem distinct_asdict (e : QueueEntry F) : Dict.Distinct e.asdict := by
  simp only [Dict.Distinct, QueueEntry.asdict, List.map_cons, List.map_nil]
  decide

theorem distinct_mark (p : InProgress F) : Dict.Distinct p.asdict := by
  simp only [Dict.Distinct, InProgress.asdict, List.map_cons, List.map_nil]
  decide

theorem strWF_py (k : String) (h : IsAscii (py k)) : StrWF (py k) := strWF_of_isAscii h

theorem QueueEntry.WF.asdict {e : QueueEntry F} (h : e.WF) : (Json.obj e.asdict).WF := by
  refine ⟨distinct_asdict e, ?_⟩
  exact ⟨strWF_py _ (by decide), h.key, strWF_py _ (by decide), h.repo, strWF_py _ (by decide),
    h.revision, strWF_py _ (by decide), h.commitBlock, strWF_py _ (by decide), h.duelSize,
    strWF_py _ (by decide), h.acceptedAt, strWF_py _ (by decide), h.source, trivial⟩

theorem InProgress.WF.asdict {p : InProgress F} (h : p.WF) : (Json.obj p.asdict).WF := by
  refine ⟨distinct_mark p, ?_⟩
  exact ⟨strWF_py _ (by decide), h.eventId, strWF_py _ (by decide), h.challenger,
    strWF_py _ (by decide), h.startedAt, strWF_py _ (by decide), h.entry, trivial⟩

/-- The items of the document that a state is saved as. -/
def QueueState.items (s : QueueState F) : Dict F :=
  [(py "entries", .arr (s.entries.map fun e => .obj e.asdict)),
    (py "in_progress", (s.inProgress.map fun p => .obj p.asdict).getD .null),
    (py "block", .int s.block)]

theorem doc_eq (s : QueueState F) : s.doc = .obj s.items := by
  rw [QueueState.doc, QueueState.items]
  cases s.inProgress <;> rfl

theorem distinct_items (s : QueueState F) : Dict.Distinct s.items := by
  simp only [Dict.Distinct, QueueState.items, List.map_cons, List.map_nil]
  decide

theorem QueueState.WF.doc {s : QueueState F} (h : s.WF) : s.doc.WF := by
  rw [doc_eq]
  refine ⟨distinct_items s, strWF_py _ (by decide), Json.wfItems_iff.2 ?_, strWF_py _ (by decide),
    ?_, strWF_py _ (by decide), trivial, trivial⟩
  · intro j hj
    obtain ⟨e, he, rfl⟩ := List.mem_map.1 hj
    exact (h.entries e he).asdict
  · cases hp : s.inProgress with
    | none => trivial
    | some p => exact (h.inProgress p hp).asdict

theorem ofDict_asdict (e : QueueEntry F) :
    QueueEntry.ofDict (Json.sortDict e.asdict) = .ok e.sorted := by
  simp only [QueueEntry.ofDict, Json.get?_sortDict (distinct_asdict e)]
  simp [QueueEntry.asdict, Dict.get?_cons, QueueEntry.sorted]

theorem mark_ofDict_asdict (p : InProgress F) :
    InProgress.ofDict (Json.sortDict p.asdict) = .ok p.sorted := by
  simp only [InProgress.ofDict, Json.get?_sortDict (distinct_mark p)]
  simp [InProgress.asdict, Dict.get?_cons, InProgress.sorted]

theorem entriesOf_sorted (es : List (QueueEntry F)) :
    entriesOf (Json.sortKeys (.arr (es.map fun e => .obj e.asdict))) =
      .ok (es.map QueueEntry.sorted) := by
  rw [Json.sortKeys_arr, List.map_map, entriesOf]
  induction es with
  | nil => rfl
  | cons e es ih =>
    have he : entryOf ((Json.sortKeys ∘ fun e : QueueEntry F => Json.obj e.asdict) e) =
        .ok e.sorted := ofDict_asdict e
    rw [List.map_cons, List.mapM_cons, he, ih]
    rfl

theorem inProgressOf_sorted (o : Option (InProgress F)) :
    inProgressOf (Json.sortKeys ((o.map fun p => Json.obj p.asdict).getD .null)) =
      .ok (o.map InProgress.sorted) := by
  cases o with
  | none => rfl
  | some p =>
    have htruthy : (Json.obj (Json.sortDict p.asdict)).truthy = true := by
      have hlen := (Json.keys_sortDict p.asdict).length_eq
      cases hd : Json.sortDict p.asdict with
      | nil =>
        rw [hd] at hlen
        simp [InProgress.asdict] at hlen
      | cons x d => rfl
    rw [Option.map_some, Option.getD_some, Json.sortKeys_obj, inProgressOf, if_pos htruthy,
      mark_ofDict_asdict]
    rfl

/-- A state of well-formed values is read back as it was saved, its dicts sorted. -/
theorem load_save [Unicode] {s : QueueState F} (hs : s.WF) {data : Bytes}
    (h : save s = .ok data) : load (some data) = .ok s.sorted := by
  unfold save at h
  split at h
  · rename_i t ht
    obtain rfl := Except.ok.inj h
    have hascii : IsAscii (t ++ [10]) :=
      isAscii_append.2 ⟨isAscii_of_dumps ht, by simp [IsAscii]⟩
    have hloads : loads true (t ++ [10]) = some (.obj (Json.sortDict s.items)) := by
      rw [loads_dumps hs.doc ht (by simp [isWs]), doc_eq, Json.sortKeys_obj]
    rw [load, decodeUtf8_encodeUtf8 hascii, Option.bind_some, hloads]
    have hentries : Dict.get? (Json.sortDict s.items) (py "entries") =
        some (Json.sortKeys (.arr (s.entries.map fun e => .obj e.asdict))) := by
      rw [Json.get?_sortDict (distinct_items s)]
      simp [QueueState.items]
    have hmark : Dict.get (Json.sortDict s.items) (py "in_progress") =
        Json.sortKeys ((s.inProgress.map fun p => Json.obj p.asdict).getD .null) := by
      rw [Json.get_sortDict (distinct_items s)]
      simp [QueueState.items, Dict.get, Dict.get?_cons]
    have hblock : Dict.get? (Json.sortDict s.items) (py "block") = some (.int s.block) := by
      rw [Json.get?_sortDict (distinct_items s)]
      simp [QueueState.items, Dict.get?_cons, Json.sortKeys]
    dsimp only
    rw [stateOf, hentries, hmark, hblock, Option.getD_some, Option.getD_some, entriesOf_sorted,
      inProgressOf_sorted]
    rfl
  · simp at h

/-! ## What is loaded is well-formed -/

theorem wf_of_get?D {d : Dict F} (hd : (Json.obj d).WF) (k : PyStr) {j : Json F} (hj : j.WF) :
    ((d.get? k).getD j).WF := by
  cases h : d.get? k with
  | none => exact hj
  | some v => exact Json.wf_get? hd h

theorem wf_ofDict {d : Dict F} (hd : (Json.obj d).WF) {e : QueueEntry F}
    (h : QueueEntry.ofDict d = .ok e) : e.WF := by
  unfold QueueEntry.ofDict at h
  split at h
  · rename_i h1 h2 h3 h4 h5 h6
    obtain rfl := Except.ok.inj h
    exact ⟨Json.wf_get? hd h1, Json.wf_get? hd h2, Json.wf_get? hd h3, Json.wf_get? hd h4,
      Json.wf_get? hd h5, Json.wf_get? hd h6, wf_of_get?D hd _ (strWF_of_isAscii isAscii_nil)⟩
  · simp at h

theorem wf_mark_ofDict {d : Dict F} (hd : (Json.obj d).WF) {p : InProgress F}
    (h : InProgress.ofDict d = .ok p) : p.WF := by
  unfold InProgress.ofDict at h
  split at h
  · rename_i h1 h2 h3
    obtain rfl := Except.ok.inj h
    exact ⟨Json.wf_get? hd h1, Json.wf_get? hd h2, Json.wf_get? hd h3, wf_of_get?D hd _ trivial⟩
  · simp at h

theorem wf_entryOf {j : Json F} (hj : j.WF) {e : QueueEntry F} (h : entryOf j = .ok e) : e.WF := by
  cases j with
  | obj d => exact wf_ofDict hj h
  | _ => simp [entryOf] at h

theorem wf_entriesOf {j : Json F} (hj : j.WF) {es : List (QueueEntry F)}
    (h : entriesOf j = .ok es) : ∀ e ∈ es, e.WF := by
  cases j with
  | arr xs =>
    rw [entriesOf] at h
    have hxs := Json.wfItems_iff.1 hj
    clear hj
    induction xs generalizing es with
    | nil =>
      obtain rfl : [] = es := Except.ok.inj h
      simp
    | cons x xs ih =>
      rw [List.mapM_cons] at h
      cases hx : entryOf x with
      | error e => simp [hx, Bind.bind, Except.bind] at h
      | ok e =>
        cases hrest : xs.mapM entryOf with
        | error e' => simp [hx, hrest, Bind.bind, Except.bind] at h
        | ok es' =>
          obtain rfl : e :: es' = es := by
            simpa [hx, hrest, Bind.bind, Except.bind, Pure.pure, Except.pure] using h
          rintro e' (_ | ⟨_, he'⟩)
          · exact wf_entryOf (hxs x (by simp)) hx
          · exact ih hrest (fun y hy => hxs y (by simp [hy])) e' he'
  | obj d =>
    rw [entriesOf] at h
    split_ifs at h
    obtain rfl := Except.ok.inj h
    simp
  | str s =>
    rw [entriesOf] at h
    split_ifs at h
    obtain rfl := Except.ok.inj h
    simp
  | _ => simp [entriesOf] at h

theorem wf_inProgressOf {j : Json F} (hj : j.WF) {o : Option (InProgress F)}
    (h : inProgressOf j = .ok o) : ∀ p ∈ o, p.WF := by
  unfold inProgressOf at h
  split_ifs at h
  · split at h
    · rename_i d _
      cases hd : InProgress.ofDict d with
      | error e => simp [hd, Except.map] at h
      | ok p =>
        obtain rfl : some p = o := by simpa [hd, Except.map] using h
        rintro q hq
        obtain rfl : p = q := by simpa using hq
        exact wf_mark_ofDict hj hd
    · simp at h
  · obtain rfl := Except.ok.inj h
    simp

theorem wf_stateOf [Unicode] {d : Dict F} (hd : (Json.obj d).WF) {s : QueueState F}
    (h : stateOf d = .ok s) : s.WF := by
  unfold stateOf at h
  split at h
  · simp at h
  · rename_i entries hentries
    split at h
    · simp at h
    · rename_i mark hmark
      split at h
      · simp at h
      · obtain rfl := Except.ok.inj h
        have harr : (Json.arr ([] : List (Json F))).WF := trivial
        have hnull : (Json.null : Json F).WF := trivial
        exact ⟨wf_entriesOf (wf_of_get?D hd _ harr) hentries,
          wf_inProgressOf (wf_of_get?D hd _ hnull) hmark⟩

/-- What a queue loads is well-formed, whatever the file holds. -/
theorem wf_of_load [Unicode] {file : Option Bytes} {s : QueueState F} (h : load file = .ok s) :
    s.WF := by
  cases file with
  | none =>
    have hnil : (Json.obj ([] : Dict F)).WF := ⟨by simp [Dict.Distinct], trivial⟩
    exact wf_stateOf hnil h
  | some b =>
    rw [load] at h
    split at h
    · rename_i d hd
      obtain ⟨t, ht, hloads⟩ := Option.bind_eq_some_iff.1 hd
      exact wf_stateOf (wf_of_loads (isScalar_of_decodeUtf8 ht) hloads) h
    · simp at h

/-! ## What a method saves is well-formed -/

theorem wf_entryFor {c : Crypto} {repo revision : PyStr} {ref : SubmissionRef}
    (href : SubmissionRef.resolved c repo revision = some ref) (block : ℤ)
    (duelSize : Option Str) (source now : Str) :
    (entryFor ref block duelSize source now : QueueEntry F).WF := by
  obtain ⟨hkey, hrepo, hrev⟩ := isAscii_resolved href
  refine ⟨strWF_of_isAscii hkey, strWF_of_isAscii hrepo, strWF_of_isAscii hrev, trivial, ?_,
    now.wf, source.wf⟩
  cases duelSize with
  | none => trivial
  | some s => exact s.wf

theorem QueueEntry.WF.refDict {e : QueueEntry F} (h : e.WF) : e.refDict.WF := by
  refine ⟨?_, strWF_py _ (by decide), h.key, strWF_py _ (by decide), h.repo,
    strWF_py _ (by decide), h.revision, trivial⟩
  simp only [Dict.Distinct, List.map_cons, List.map_nil]
  decide

theorem wf_without {key : Json F} {es : List (QueueEntry F)} (h : ∀ e ∈ es, e.WF) :
    ∀ e ∈ without key es, e.WF := fun e he => h e (List.mem_of_mem_filter he)

theorem wf_concat {es : List (QueueEntry F)} (h : ∀ e ∈ es, e.WF) {x : QueueEntry F} (hx : x.WF) :
    ∀ e ∈ es ++ [x], e.WF := by
  intro e he
  rcases List.mem_append.1 he with he | he
  · exact h e he
  · obtain rfl := List.mem_singleton.1 he
    exact hx

theorem wf_backEntry {fallback entry : Option (QueueEntry F)} (hf : ∀ e ∈ fallback, e.WF)
    {s : QueueState F} (hs : s.WF) (h : backEntry fallback s = .ok entry) :
    ∀ e ∈ entry, e.WF := by
  unfold backEntry at h
  split at h
  · obtain rfl := Except.ok.inj h
    simp
  · rename_i p hp
    split_ifs at h
    · cases he : entryOf p.entry with
      | error x => simp [he, Except.map] at h
      | ok e =>
        obtain rfl : some e = entry := by simpa [he, Except.map] using h
        rintro e' he'
        obtain rfl : e = e' := by simpa using he'
        exact wf_entryOf (hs.inProgress p hp).entry he
    · obtain rfl := Except.ok.inj h
      exact hf

/-- A method that returns has made a well-formed state of one. -/
theorem wf_exec {c : Crypto} {m : Mutation F} {b : Body F (Answer F)} (hb : m.body c = .ok b)
    {s t : QueueState F} (hs : s.WF) {a : Answer F} (h : b.exec s = (.ok a, t)) : t.WF := by
  cases m with
  | add repo revision duelSize source now =>
    rw [Mutation.body] at hb
    split at hb
    · rename_i ref href
      obtain rfl := Except.ok.inj hb
      rw [exec_addBody] at h
      obtain ⟨-, rfl⟩ := Prod.mk.inj h
      exact ⟨wf_concat (wf_without hs.entries) (wf_entryFor href _ _ _ _), hs.inProgress⟩
    · simp at hb
  | offer repo revision duelSize source now =>
    rw [Mutation.body] at hb
    split at hb
    · rename_i ref href
      obtain rfl := Except.ok.inj hb
      obtain rfl : ((offerBody ref duelSize source now).exec s).2 = t := by rw [h]
      cases hfind : s.entries.findIdx? fun e => e.hasKey (.str ref.key) with
      | some n => rwa [exec_offerBody_some hfind]
      | none =>
        rw [exec_offerBody_none hfind]
        exact ⟨wf_concat hs.entries (wf_entryFor href _ _ _ _), hs.inProgress⟩
    · simp at hb
  | remove key =>
    obtain rfl := Except.ok.inj hb
    rw [exec_removeBody] at h
    obtain ⟨-, rfl⟩ := Prod.mk.inj h
    exact ⟨wf_without hs.entries, hs.inProgress⟩
  | pop =>
    obtain rfl := Except.ok.inj hb
    rw [exec_popBody] at h
    obtain ⟨-, rfl⟩ := Prod.mk.inj h
    exact ⟨fun e he => hs.entries e (List.mem_of_mem_tail he), hs.inProgress⟩
  | take key block eventId now =>
    obtain rfl := Except.ok.inj hb
    cases hfind : s.entries.find? fun e => e.hasKey (.str key) with
    | none =>
      rw [exec_takeBody_none hfind] at h
      obtain ⟨-, rfl⟩ := Prod.mk.inj h
      exact hs
    | some e =>
      rw [exec_takeBody_some hfind] at h
      obtain ⟨-, rfl⟩ := Prod.mk.inj h
      have he := hs.entries e (List.mem_of_find?_eq_some hfind)
      refine ⟨wf_without hs.entries, fun p hp => ?_⟩
      obtain rfl := Option.some.inj hp
      exact ⟨eventId.wf, he.refDict, now.wf, he.asdict⟩
  | putBack fallback wf =>
    obtain rfl := Except.ok.inj hb
    cases hback : backEntry fallback s with
    | error x =>
      rw [exec_putBackBody_error hback] at h
      simp at h
    | ok entry =>
      rw [exec_putBackBody hback] at h
      obtain ⟨-, rfl⟩ := Prod.mk.inj h
      have hentry := wf_backEntry wf hs hback
      refine ⟨?_, by simp⟩
      cases entry with
      | none => exact hs.entries
      | some e =>
        rintro x (_ | ⟨_, hx⟩)
        · exact hentry e rfl
        · exact wf_without hs.entries x hx
  | start eventId key repo revision now =>
    obtain rfl := Except.ok.inj hb
    obtain ⟨-, rfl⟩ := Prod.mk.inj h
    refine ⟨hs.entries, fun p hp => ?_⟩
    obtain rfl := Option.some.inj hp
    refine ⟨eventId.wf, ⟨?_, strWF_py _ (by decide), key.wf, strWF_py _ (by decide), repo.wf,
      strWF_py _ (by decide), revision.wf, trivial⟩, now.wf, trivial⟩
    simp only [Dict.Distinct, List.map_cons, List.map_nil]
    decide
  | finish =>
    obtain rfl := Except.ok.inj hb
    obtain ⟨-, rfl⟩ := Prod.mk.inj h
    exact ⟨hs.entries, by simp⟩
  | claimBlock floor =>
    obtain rfl := Except.ok.inj hb
    obtain ⟨-, rfl⟩ := Prod.mk.inj h
    exact ⟨hs.entries, hs.inProgress⟩
  | setBlock block =>
    obtain rfl := Except.ok.inj hb
    obtain ⟨-, rfl⟩ := Prod.mk.inj h
    exact ⟨hs.entries, hs.inProgress⟩

/-! ## From file to file -/

/-- The keys that wait in a file. -/
def waiting [Unicode] (F : Type) [PyFloat F] (file : Option Bytes) : List PyStr :=
  match load (F := F) file with
  | .ok s => s.keys
  | .error _ => []

/-- A mutation on its own, from the state it loads to the one that is loaded next. -/
theorem load_apply [Unicode] {c : Crypto} {m : Mutation F} {file file' : Option Bytes}
    {a : Answer F} (h : m.apply c file = .ok (file', a)) :
    ∃ b s t, m.body c = .ok b ∧ load file = .ok s ∧ b.exec s = (.ok a, t) ∧
      load file' = .ok t.sorted := by
  unfold Mutation.apply at h
  split at h
  · simp at h
  · rename_i b hb
    unfold applyBody at h
    split at h
    · simp at h
    · rename_i s hs
      split at h
      · simp at h
      · rename_i a' t hexec
        split at h
        · simp at h
        · rename_i data hdata
          obtain ⟨rfl, rfl⟩ := Prod.mk.inj (Except.ok.inj h)
          have ht := wf_exec hb (wf_of_load hs) hexec
          exact ⟨b, s, t, hb, hs, hexec, load_save ht hdata⟩

/-- What a mutation on its own makes of the keys that wait. -/
theorem orderly_apply [Unicode] {c : Crypto} {m : Mutation F} {file file' : Option Bytes}
    {a : Answer F} (h : m.apply c file = .ok (file', a)) :
    Orderly (m.Requeues c a) (waiting F file) (waiting F file') := by
  obtain ⟨b, s, t, hb, hs, hexec, hload⟩ := load_apply h
  unfold waiting
  rw [hs, hload]
  dsimp only
  rw [keys_sorted]
  exact exec_keys hb hexec

end IcilOrchestrator

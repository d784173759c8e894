import Mathlib
import IcilOrchestrator.Queue

/-!
# Queues are linearizable

However many threads and processes work on a queue file, and wherever their operations raise
or are killed, the file is what the mutations that were saved make of it one after another, in
the order in which they took the file lock (`Linearizable`, `linearizable_of_reach`).

`Does` is all that an act of a thread's does to the world, and `Rely` what a thread relies on :
nobody but the holder of a lock changes what the lock protects.
-/

set_option linter.unusedSectionVars false

namespace IcilOrchestrator

open Python Prog

namespace Queue

section Linear

variable {F : Type} [PyFloat F] [Unicode]

/-! ## What has happened -/

/-- The operation that an event is of. -/
def Event.op : Event F → ℕ
  | .began n _ => n
  | .locked n => n
  | .saved n _ => n
  | .ended n _ => n
  | .killed n => n

/-- The event is an end of its operation. -/
def Event.isEnd : Event F → Bool
  | .ended _ _ => true
  | .killed _ => true
  | _ => false

/-- The mutations that were saved, in order. -/
def saved (log : List (Event F)) : List (ℕ × Mutation F) :=
  log.filterMap fun
    | .saved n m => some (n, m)
    | _ => none

/-- The operations that took the file lock, in order. -/
def lockers (log : List (Event F)) : List ℕ :=
  log.filterMap fun
    | .locked n => some n
    | _ => none

/-- Mutations one after another, each of which returns. -/
def replay (c : Crypto) (file : Option Bytes) : List (ℕ × Mutation F) → Option (Option Bytes)
  | [] => some file
  | (_, m) :: ms =>
    match m.apply c file with
    | .ok (file', _) => replay c file' ms
    | .error _ => none

/-- What a query answers of the state it loads. -/
def Query.Answers (w : World F) (s : QueueState F) : Query → Reply F → Prop
  | .reload, v => ∃ q k, v = .state q k ∧ (q, k, s) ∈ w.handed
  | .snapshot track king schema now, v =>
    v = .doc (snapshotDoc track king schema now s.block s.inProgress s.entries)

/-- What an operation returned is what it returns on its own, at a time between its beginning
and its end : a mutation where it was saved. -/
def Answered (c : Crypto) (file : Option Bytes) (w : World F) (n : ℕ) (v : Reply F) : Prop :=
  ∃ es es' r f, w.log = es ++ es' ∧ .began n r ∈ es ∧ (∀ e ∈ es, e.isEnd = true → e.op ≠ n) ∧
    replay c file (saved es) = some f ∧
    match r with
    | .mutate m => ∃ es'' f' a, es' = .saved n m :: es'' ∧ m.apply c f = .ok (f', a) ∧
        v = .answer a
    | .query q => ∃ s, load f = .ok s ∧ q.Answers w s v

/-- The queue of a file is linearizable, and its entries stay in order. -/
structure Linearizable (c : Crypto) (file : Option Bytes) (w : World F) : Prop where
  /-- The file is what the saved mutations make of it. -/
  replay : replay c file (saved w.log) = some w.file
  /-- They were saved in the order in which they took the file lock. -/
  order : ((saved w.log).map Prod.fst).Sublist (lockers w.log) ∧ (lockers w.log).Nodup
  /-- Nothing happens in an operation that has ended : one that raised or was killed before it
  was saved never is. -/
  ended : ∀ es e es', w.log = es ++ e :: es' → e.isEnd = true → ∀ e' ∈ es', e'.op ≠ e.op
  answered : ∀ n v, .ended n (.ok v) ∈ w.log → Answered c file w n v
  /-- The keys that wait are distinct. -/
  unique : (waiting F file).Nodup → (waiting F w.file).Nodup
  /-- Two that wait stay in order, unless one is queued again or put back. -/
  kept : (waiting F file).Nodup → ∀ es n m es', w.log = es ++ .saved n m :: es' →
    ∀ f f' a, Queue.replay c file (saved es) = some f → m.apply c f = .ok (f', a) →
      ∀ j k, ¬m.Requeues c a j → ¬m.Requeues c a k → [j, k].Sublist (waiting F f) →
        j ∈ waiting F f' → k ∈ waiting F f' → [j, k].Sublist (waiting F f')
  /-- A state that `reload` has returned is as it was returned. -/
  handed : ∀ q k s, (q, k, s) ∈ w.handed → (w.queues q).states[k]? = some s

variable {c : Crypto} {file : Option Bytes} {i j n : ℕ} {w w' : World F}

/-! ## The log -/

theorem saved_append (log log' : List (Event F)) : saved (log ++ log') = saved log ++ saved log' :=
  List.filterMap_append

theorem lockers_append (log log' : List (Event F)) :
    lockers (log ++ log') = lockers log ++ lockers log' := List.filterMap_append

theorem saved_killed (ns : List ℕ) : saved (ns.map (Event.killed (F := F))) = [] := by
  simp [saved]

theorem lockers_killed (ns : List ℕ) : lockers (ns.map (Event.killed (F := F))) = [] := by
  simp [lockers]

theorem op_of_mem_lockers {log : List (Event F)} {n : ℕ} (h : n ∈ lockers log) :
    ∃ e ∈ log, e.op = n := by
  obtain ⟨e, he, hn⟩ := List.mem_filterMap.1 h
  split at hn
  · obtain rfl := Option.some.inj hn
    exact ⟨_, he, rfl⟩
  · simp at hn

theorem replay_append (c : Crypto) (ms ms' : List (ℕ × Mutation F)) (file : Option Bytes) :
    replay c file (ms ++ ms') = (replay c file ms).bind fun f => replay c f ms' := by
  induction ms generalizing file with
  | nil => rfl
  | cons p ms ih =>
    obtain ⟨n, m⟩ := p
    simp only [List.cons_append, replay]
    split
    · exact ih _
    · rfl

/-- A mutation more. -/
theorem replay_concat {ms : List (ℕ × Mutation F)} {f f' : Option Bytes} {m : Mutation F}
    {a : Answer F} (h : replay c file ms = some f) (hm : m.apply c f = .ok (f', a)) (n : ℕ) :
    replay c file (ms ++ [(n, m)]) = some f' := by
  rw [replay_append, h, Option.bind_some, replay, hm]
  rfl

/-- Nothing follows the end of an operation but what is of another. -/
def Quiet (log : List (Event F)) : Prop :=
  ∀ es e es', log = es ++ e :: es' → e.isEnd = true → ∀ e' ∈ es', e'.op ≠ e.op

/-- Events of operations that have not ended. -/
theorem Quiet.append {log : List (Event F)} (h : Quiet log) {new : List (Event F)}
    (hnew : ∀ e ∈ new, ∀ e' ∈ log, e'.isEnd = true → e'.op ≠ e.op)
    (hdistinct : (new.map Event.op).Nodup) : Quiet (log ++ new) := by
  intro es e es' heq hend e' he'
  rcases List.append_eq_append_iff.1 heq with ⟨es₁, rfl, hes₁⟩ | ⟨es₁, hes, hes₁⟩
  · -- the end is one of the new events
    rw [hes₁] at hdistinct
    simp only [List.map_append, List.map_cons] at hdistinct
    have hnot := (List.nodup_cons.1 (List.nodup_append.1 hdistinct).2.1).1
    exact fun hop => hnot (hop ▸ List.mem_map_of_mem he')
  · cases es₁ with
    | nil =>
      obtain rfl : e :: es' = new := by simpa using hes₁
      simp only [List.map_cons] at hdistinct
      have hnot := (List.nodup_cons.1 hdistinct).1
      exact fun hop => hnot (hop ▸ List.mem_map_of_mem he')
    | cons x es₁ =>
      obtain ⟨rfl, rfl⟩ := List.cons.inj hes₁
      rcases List.mem_append.1 he' with hmem | hmem
      · exact h es e es₁ hes hend e' hmem
      · exact fun hop => hnew e' hmem e (by simp [hes]) hend hop.symm

theorem Quiet.concat {log : List (Event F)} (h : Quiet log) {e : Event F}
    (he : ∀ e' ∈ log, e'.isEnd = true → e'.op ≠ e.op) : Quiet (log ++ [e]) :=
  h.append (by simpa using he) (by simp)

/-- What was answered stays so. -/
theorem Answered.mono {v : Reply F} (h : Answered c file w n v) (hlog : w.log <+: w'.log)
    (hhanded : w.handed ⊆ w'.handed) : Answered c file w' n v := by
  obtain ⟨es, es', r, f, heq, hbegan, hends, hreplay, hr⟩ := h
  obtain ⟨more, hmore⟩ := hlog
  refine ⟨es, es' ++ more, r, f, by rw [← hmore, heq, List.append_assoc], hbegan, hends, hreplay,
    ?_⟩
  cases r with
  | mutate m =>
    obtain ⟨es'', f', a, rfl, hm, hv⟩ := hr
    exact ⟨es'' ++ more, f', a, rfl, hm, hv⟩
  | query q =>
    obtain ⟨st, hst, hq⟩ := hr
    refine ⟨st, hst, ?_⟩
    cases q with
    | reload =>
      obtain ⟨q, k, hv, hmem⟩ := hq
      exact ⟨q, k, hv, hhanded hmem⟩
    | snapshot track king schema now => exact hq

/-! ## The invariant -/

/-- What holds in every state. -/
structure Inv (c : Crypto) (file : Option Bytes) (w : World F) : Prop where
  replay : replay c file (saved w.log) = some w.file
  order : ((saved w.log).map Prod.fst).Sublist (lockers w.log)
  nodup : (lockers w.log).Nodup
  lt : ∀ e ∈ w.log, e.op < w.count
  current_lt : ∀ i n, w.current i = some n → n < w.count
  inj : ∀ i j n, w.current i = some n → w.current j = some n → i = j
  quiet : Quiet w.log
  alive : ∀ i n, w.current i = some n → ∀ e ∈ w.log, e.isEnd = true → e.op ≠ n
  answered : ∀ n v, .ended n (.ok v) ∈ w.log → Answered c file w n v
  handed : ∀ q k s, (q, k, s) ∈ w.handed → (w.queues q).states[k]? = some s

/-- An operation has the file lock, and those before it were saved or never will be. -/
def InTurn (n : ℕ) (log : List (Event F)) : Prop :=
  ∃ l, lockers log = l ++ [n] ∧ ((saved log).map Prod.fst).Sublist l

/-- The state of a `Queue` object is one that no `reload` has returned. -/
structure Fresh (w : World F) (q : ℕ) : Prop where
  loaded : (w.queues q).states ≠ []
  unseen : ∀ k s, (q, k, s) ∈ w.handed → k + 1 < (w.queues q).states.length

/-- All that an act of a thread's does. -/
inductive Does (c : Crypto) (file : Option Bytes) (i : ℕ) : World F → World F → Prop
  | stays {v : World F} : Does c file i v v
  | begins {v : World F} (r : Request F) : Does c file i v (v.begins i r)
  | acquires {v : World F} {q : ℕ} : (v.queues q).owner = none →
      Does c file i v (v.setOwner q (some i))
  | releases {v : World F} {q : ℕ} : (v.queues q).owner = some i →
      Does c file i v (v.setOwner q none)
  | locks {v : World F} {m : ℕ} : v.holder = none → v.current i = some m → m ∉ lockers v.log →
      Does c file i v (v.locks i m)
  | closes {v : World F} : v.holder = some i → Does c file i v v.closes
  | loads {v : World F} {q : ℕ} {s : QueueState F} : (v.queues q).owner = some i →
      Does c file i v (v.loads q s)
  | changes {v : World F} {q : ℕ} {s : QueueState F} : (v.queues q).owner = some i → Fresh v q →
      Does c file i v (v.changes q s)
  | saves {v : World F} {k : ℕ} {m : Mutation F} {data : Bytes} {a : Answer F} :
      v.holder = some i → v.current i = some k → InTurn k v.log →
      m.apply c v.file = .ok (some data, a) → Does c file i v (v.saves k m data)
  | hands {v : World F} {q : ℕ} : (v.queues q).owner = some i → (v.queues q).states ≠ [] →
      Does c file i v (v.hands q)
  | ends {v : World F} {k : ℕ} {r : Except PyError (Reply F)} : v.current i = some k →
      (∀ x, r = .ok x → Answered c file v k x) → Does c file i v (v.ends i k r)

theorem stays_of_eq (h : w = w') : Does c file i w w' := h ▸ .stays

/-- The operation that a thread runs, as another one ends. -/
theorem update_eq_some {cur : ℕ → Option ℕ} {o : Option ℕ} {i j n : ℕ}
    (h : Function.update cur i o j = some n) : (j = i ∧ o = some n) ∨ j ≠ i ∧ cur j = some n := by
  by_cases hj : j = i
  · subst hj
    exact Or.inl ⟨rfl, by simpa using h⟩
  · exact Or.inr ⟨hj, by simpa [hj] using h⟩

theorem Inv.begins (hw : Inv c file w) (i : ℕ) (r : Request F) : Inv c file (w.begins i r) := by
  have hlt : ∀ {e}, e ∈ w.log → e.op ≠ w.count := fun he => (hw.lt _ he).ne
  have hlog : w.log <+: (w.begins i r).log := List.prefix_append _ _
  have hsaved : saved (w.begins i r).log = saved w.log := by
    simp [World.begins, saved]
  have hlockers : lockers (w.begins i r).log = lockers w.log := by
    simp [World.begins, lockers]
  refine ⟨by rw [hsaved]; exact hw.replay, by rw [hsaved, hlockers]; exact hw.order,
    by rw [hlockers]; exact hw.nodup, ?_, ?_, ?_, hw.quiet.concat fun e' he' _ => hlt he', ?_, ?_,
    hw.handed⟩
  · intro e he
    rcases List.mem_append.1 he with he | he
    · exact (hw.lt e he).trans (Nat.lt_succ_self _)
    · obtain rfl := List.mem_singleton.1 he
      exact Nat.lt_succ_self _
  · intro j n hj
    rcases update_eq_some hj with ⟨-, h⟩ | ⟨-, h⟩
    · obtain rfl := Option.some.inj h
      exact Nat.lt_succ_self _
    · exact (hw.current_lt j n h).trans (Nat.lt_succ_self _)
  · intro j k n hj hk
    rcases update_eq_some hj with ⟨rfl, h⟩ | ⟨hji, h⟩ <;>
      rcases update_eq_some hk with ⟨rfl, h'⟩ | ⟨hki, h'⟩
    · rfl
    · obtain rfl := Option.some.inj h
      exact absurd (hw.current_lt k _ h') (lt_irrefl _)
    · obtain rfl := Option.some.inj h'
      exact absurd (hw.current_lt j _ h) (lt_irrefl _)
    · exact hw.inj j k n h h'
  · intro j n hj e he hend
    rcases List.mem_append.1 he with he | he
    · rcases update_eq_some hj with ⟨-, h⟩ | ⟨-, h⟩
      · obtain rfl := Option.some.inj h
        exact hlt he
      · exact hw.alive j n h e he hend
    · obtain rfl := List.mem_singleton.1 he
      simp [Event.isEnd] at hend
  · intro n v hmem
    rcases List.mem_append.1 hmem with hmem | hmem
    · exact (hw.answered n v hmem).mono hlog fun _ h => h
    · simp at hmem

/-- An event of an operation that runs, which is no end, is added. -/
theorem Inv.note (hw : Inv c file w) (hn : w.current i = some n) {e : Event F} (he : e.op = n)
    (hend : e.isEnd = false) (hlog : w'.log = w.log ++ [e]) (hcount : w'.count = w.count)
    (hcurrent : w'.current = w.current) (hhanded : w'.handed = w.handed)
    (hstates : ∀ q k s, (q, k, s) ∈ w.handed → (w'.queues q).states[k]? = some s)
    (hreplay : Queue.replay c file (saved w'.log) = some w'.file)
    (horder : ((saved w'.log).map Prod.fst).Sublist (lockers w'.log))
    (hnodup : (lockers w'.log).Nodup) : Inv c file w' := by
  have hprefix : w.log <+: w'.log := hlog ▸ List.prefix_append _ _
  refine ⟨hreplay, horder, hnodup, ?_, ?_, ?_, ?_, ?_, ?_, ?_⟩
  · intro e' he'
    rw [hlog, List.mem_append, List.mem_singleton] at he'
    rw [hcount]
    rcases he' with he' | rfl
    · exact hw.lt e' he'
    · exact he ▸ hw.current_lt i n hn
  · rw [hcurrent, hcount]
    exact hw.current_lt
  · rw [hcurrent]
    exact hw.inj
  · rw [hlog]
    exact hw.quiet.concat fun e' he' hend' => he ▸ hw.alive i n hn e' he' hend'
  · intro j k hj e' he' hend'
    rw [hcurrent] at hj
    rw [hlog, List.mem_append, List.mem_singleton] at he'
    rcases he' with he' | rfl
    · exact hw.alive j k hj e' he' hend'
    · simp [hend] at hend'
  · intro k v hmem
    rw [hlog, List.mem_append, List.mem_singleton] at hmem
    rcases hmem with hmem | rfl
    · exact (hw.answered k v hmem).mono hprefix (hhanded ▸ fun _ h => h)
    · simp [Event.isEnd] at hend
  · intro q k s hmem
    exact hstates q k s (hhanded ▸ hmem)

/-- Nothing of what the invariant speaks of is changed. -/
theorem Inv.same (hw : Inv c file w) (hfile : w'.file = w.file) (hlog : w'.log = w.log)
    (hcount : w'.count = w.count) (hcurrent : w'.current = w.current)
    (hhanded : w.handed ⊆ w'.handed)
    (hstates : ∀ q k s, (q, k, s) ∈ w'.handed → (w'.queues q).states[k]? = some s) :
    Inv c file w' := by
  refine ⟨by rw [hlog, hfile]; exact hw.replay, by rw [hlog]; exact hw.order,
    by rw [hlog]; exact hw.nodup, by rw [hlog, hcount]; exact hw.lt,
    by rw [hcurrent, hcount]; exact hw.current_lt, by rw [hcurrent]; exact hw.inj,
    by rw [hlog]; exact hw.quiet, by rw [hlog, hcurrent]; exact hw.alive, ?_, hstates⟩
  intro n v hmem
  rw [hlog] at hmem
  exact (hw.answered n v hmem).mono (hlog ▸ List.prefix_rfl) hhanded

theorem Inv.ends (hw : Inv c file w) (hn : w.current i = some n)
    {r : Except PyError (Reply F)} (hr : ∀ v, r = .ok v → Answered c file w n v) :
    Inv c file (w.ends i n r) := by
  have hlog : w.log <+: (w.ends i n r).log := List.prefix_append _ _
  have hsaved : saved (w.ends i n r).log = saved w.log := by
    simp [World.ends, saved]
  have hlockers : lockers (w.ends i n r).log = lockers w.log := by
    simp [World.ends, lockers]
  refine ⟨by rw [hsaved]; exact hw.replay, by rw [hsaved, hlockers]; exact hw.order,
    by rw [hlockers]; exact hw.nodup, ?_, ?_, ?_,
    hw.quiet.concat fun e' he' hend => hw.alive i n hn e' he' hend, ?_, ?_, hw.handed⟩
  · intro e he
    rcases List.mem_append.1 he with he | he
    · exact hw.lt e he
    · obtain rfl := List.mem_singleton.1 he
      exact hw.current_lt i n hn
  · intro j k hj
    rcases update_eq_some hj with ⟨-, h⟩ | ⟨-, h⟩
    · simp at h
    · exact hw.current_lt j k h
  · intro j k m hj hk
    rcases update_eq_some hj with ⟨-, h⟩ | ⟨-, h⟩
    · simp at h
    · rcases update_eq_some hk with ⟨-, h'⟩ | ⟨-, h'⟩
      · simp at h'
      · exact hw.inj j k m h h'
  · intro j k hj e he hend
    rcases update_eq_some hj with ⟨-, h⟩ | ⟨hji, h⟩
    · simp at h
    · rcases List.mem_append.1 he with he | he
      · exact hw.alive j k h e he hend
      · obtain rfl := List.mem_singleton.1 he
        rintro rfl
        exact hji (hw.inj j i _ h hn)
  · intro k v hmem
    rcases List.mem_append.1 hmem with hmem | hmem
    · exact (hw.answered k v hmem).mono hlog fun _ h => h
    · obtain ⟨rfl, hv⟩ : k = n ∧ .ok v = r := by simpa using hmem
      exact (hr v hv.symm).mono hlog fun _ h => h

/-- What a thread does keeps the invariant. -/
theorem Inv.does (hw : Inv c file w) (h : Does c file i w w') : Inv c file w' := by
  have hqueue : ∀ {q q' : ℕ} {x : Shared F} {k : ℕ} {s : QueueState F},
      (q', k, s) ∈ w.handed → (q' = q → x.states[k]? = some s) →
        (Function.update w.queues q x q').states[k]? = some s := by
    intro q q' x k s hmem hx
    by_cases hq : q' = q
    · subst hq
      simpa using hx rfl
    · simpa [hq] using hw.handed q' k s hmem
  cases h with
  | stays => exact hw
  | begins r => exact hw.begins i r
  | acquires _ =>
    exact hw.same rfl rfl rfl rfl (fun _ h => h) fun q k s hmem =>
      hqueue hmem fun hq => hq ▸ hw.handed q k s hmem
  | releases _ =>
    exact hw.same rfl rfl rfl rfl (fun _ h => h) fun q k s hmem =>
      hqueue hmem fun hq => hq ▸ hw.handed q k s hmem
  | @locks n hholder hn hno =>
    refine hw.note hn rfl rfl rfl rfl rfl rfl hw.handed ?_ ?_ ?_
    · simpa [World.locks, saved_append, saved] using hw.replay
    · simp only [World.locks, saved_append, lockers_append]
      simpa [saved, lockers] using hw.order.trans (List.sublist_append_left _ [n])
    · simp only [World.locks, lockers_append]
      exact List.nodup_append.2 ⟨hw.nodup, by simp [lockers], by
        rintro a ha b hb rfl
        obtain rfl : a = n := by simpa [lockers] using hb
        exact hno ha⟩
  | closes _ => exact hw.same rfl rfl rfl rfl (fun _ h => h) hw.handed
  | @loads q s _ =>
    refine hw.same rfl rfl rfl rfl (fun _ h => h) fun q' k s' hmem => hqueue hmem fun hq => ?_
    subst hq
    have := hw.handed q' k s' hmem
    exact (List.getElem?_append_left (List.getElem?_eq_some_iff.1 this).1).trans this
  | @changes q s _ hfresh =>
    refine hw.same rfl rfl rfl rfl (fun _ h => h) fun q' k s' hmem => hqueue hmem fun hq => ?_
    subst hq
    have hlt := hfresh.unseen k s' hmem
    have hk : k < (w.queues q').states.dropLast.length := by
      rw [List.length_dropLast]
      omega
    refine (List.getElem?_append_left hk).trans ?_
    rw [List.getElem?_dropLast, if_pos (by omega)]
    exact hw.handed q' k s' hmem
  | @saves n m data a hholder hn hturn hm =>
    obtain ⟨l, hl, hsub⟩ := hturn
    refine hw.note hn rfl rfl rfl rfl rfl rfl hw.handed ?_ ?_ ?_
    · have := replay_concat hw.replay hm n
      simpa [World.saves, saved_append, saved] using this
    · have hsaved : saved [Event.saved n m] = [(n, m)] := rfl
      have hlockers : lockers [Event.saved n m] = [] := rfl
      simp only [World.saves, saved_append, lockers_append, List.map_append, hsaved, hlockers, hl,
        List.append_nil]
      exact hsub.append (List.Sublist.refl [n])
    · simpa [World.saves, lockers_append, lockers] using hw.nodup
  | @hands q _ hne =>
    refine hw.same rfl rfl rfl rfl (List.subset_append_left _ _) fun q' k s' hmem => ?_
    rcases List.mem_append.1 hmem with hmem | hmem
    · exact hw.handed q' k s' hmem
    · obtain ⟨rfl, rfl, rfl⟩ : q' = q ∧ k = (w.queues q).states.length - 1 ∧ s' = w.state q := by
        simpa using hmem
      have hlast : (w.queues q').states.getLast? = some ((w.queues q').states.getLast hne) :=
        List.getLast?_eq_some_getLast hne
      change (w.queues q').states[(w.queues q').states.length - 1]? = _
      rw [← List.getLast?_eq_getElem?, World.state, hlast]
      rfl
  | ends hn hr => exact hw.ends hn hr

/-- Threads that are killed end their operations. -/
theorem Inv.kill (hw : Inv c file w) (dead : List ℕ) : Inv c file (w.kill dead) := by
  have hlog : w.log <+: (w.kill dead).log := List.prefix_append _ _
  have hsaved : saved (w.kill dead).log = saved w.log := by
    rw [World.kill, saved_append, saved_killed, List.append_nil]
  have hlockers : lockers (w.kill dead).log = lockers w.log := by
    rw [World.kill, lockers_append, lockers_killed, List.append_nil]
  have hkilled : ∀ e ∈ (dead.dedup.filterMap w.current).map (Event.killed (F := F)),
      ∃ j n, j ∈ dead ∧ w.current j = some n ∧ e = .killed n := by
    intro e he
    obtain ⟨n, hn, rfl⟩ := List.mem_map.1 he
    obtain ⟨j, hj, hjn⟩ := List.mem_filterMap.1 hn
    exact ⟨j, n, List.mem_dedup.1 hj, hjn, rfl⟩
  have hcurrent : ∀ j n, (w.kill dead).current j = some n → j ∉ dead ∧ w.current j = some n := by
    intro j n hj
    simp only [World.kill] at hj
    split_ifs at hj with hdead
    exact ⟨hdead, hj⟩
  have hdistinct : (((dead.dedup.filterMap w.current).map (Event.killed (F := F))).map
      Event.op).Nodup := by
    rw [List.map_map]
    change ((dead.dedup.filterMap w.current).map id).Nodup
    rw [List.map_id]
    exact (List.nodup_dedup dead).filterMap fun j k n hj hk => hw.inj j k n hj hk
  refine ⟨by rw [hsaved]; exact hw.replay, by rw [hsaved, hlockers]; exact hw.order,
    by rw [hlockers]; exact hw.nodup, ?_, fun j n hj => hw.current_lt j n (hcurrent j n hj).2,
    fun j k n hj hk => hw.inj j k n (hcurrent j n hj).2 (hcurrent k n hk).2,
    hw.quiet.append ?_ hdistinct, ?_, ?_, hw.handed⟩
  · intro e he
    rcases List.mem_append.1 he with he | he
    · exact hw.lt e he
    · obtain ⟨j, n, -, hj, rfl⟩ := hkilled e he
      exact hw.current_lt j n hj
  · intro e he e' he' hend
    obtain ⟨j, n, -, hj, rfl⟩ := hkilled e he
    exact hw.alive j n hj e' he' hend
  · intro j n hj e he hend
    obtain ⟨hdead, hj⟩ := hcurrent j n hj
    rcases List.mem_append.1 he with he | he
    · exact hw.alive j n hj e he hend
    · obtain ⟨k, m, hk, hkm, rfl⟩ := hkilled e he
      rintro rfl
      exact hdead (hw.inj j k _ hj hkm ▸ hk)
  · intro n v hmem
    rcases List.mem_append.1 hmem with hmem | hmem
    · exact (hw.answered n v hmem).mono hlog fun _ h => h
    · obtain ⟨j, m, -, -, h⟩ := hkilled _ hmem
      simp at h

theorem Inv.luck (hw : Inv c file w) (luck : Option PyError) :
    Inv c file { w with luck := luck } :=
  hw.same rfl rfl rfl rfl (fun _ h => h) hw.handed

theorem inv_start (c : Crypto) (file : Option Bytes) : Inv c file (World.start file : World F) where
  replay := rfl
  order := List.Sublist.refl _
  nodup := List.nodup_nil
  lt := by simp [World.start]
  current_lt := by simp [World.start]
  inj := by simp [World.start]
  quiet := fun es e es' h => by simp [World.start] at h
  alive := by simp [World.start]
  answered := by simp [World.start]
  handed := by simp [World.start]

/-! ## What a thread relies on -/

/-- What the rest of the world leaves to a thread. -/
structure Rely (c : Crypto) (file : Option Bytes) (i : ℕ) (w w' : World F) : Prop where
  inv : Inv c file w → Inv c file w'
  held : w.holder = some i → w'.holder = some i ∧ w'.file = w.file ∧
    saved w'.log = saved w.log ∧ lockers w'.log = lockers w.log
  unheld : w.holder ≠ some i → w'.holder ≠ some i
  mine : ∀ q, (w.queues q).owner = some i → w'.queues q = w.queues q ∧
    ∀ k s, (q, k, s) ∈ w'.handed → (q, k, s) ∈ w.handed
  foreign : ∀ q, (w.queues q).owner ≠ some i → (w'.queues q).owner ≠ some i
  current : w'.current i = w.current i
  log : w.log <+: w'.log
  own : ∀ n, w.current i = some n → ∀ e ∈ w'.log, e.op = n → e ∈ w.log
  handed : w.handed ⊆ w'.handed

theorem Rely.refl (w : World F) : Rely c file i w w where
  inv := id
  held h := ⟨h, rfl, rfl, rfl⟩
  unheld := id
  mine _ _ := ⟨rfl, fun _ _ h => h⟩
  foreign _ := id
  current := rfl
  log := List.prefix_rfl
  own _ _ _ h _ := h
  handed _ h := h

theorem Rely.trans {u : World F} (h : Rely c file i w w') (h' : Rely c file i w' u) :
    Rely c file i w u where
  inv hw := h'.inv (h.inv hw)
  held hw := by
    obtain ⟨h1, h2, h3, h4⟩ := h.held hw
    obtain ⟨h1', h2', h3', h4'⟩ := h'.held h1
    exact ⟨h1', h2'.trans h2, h3'.trans h3, h4'.trans h4⟩
  unheld hw := h'.unheld (h.unheld hw)
  mine q hq := by
    obtain ⟨h1, h2⟩ := h.mine q hq
    obtain ⟨h1', h2'⟩ := h'.mine q (h1 ▸ hq)
    exact ⟨h1'.trans h1, fun k s hmem => h2 k s (h2' k s hmem)⟩
  foreign q hq := h'.foreign q (h.foreign q hq)
  current := h'.current.trans h.current
  log := h.log.trans h'.log
  own n hn e he hop := h.own n hn e (h'.own n (h.current ▸ hn) e he hop) hop
  handed _ hx := h'.handed (h.handed hx)

/-- What each thread relies on. -/
def share (c : Crypto) (file : Option Bytes) : Pool.Share (World F) where
  rely := Rely c file
  refl _ := Rely.refl
  trans _ := Rely.trans

theorem Rely.luck (hw : Inv c file w) (luck : Option PyError) :
    Rely c file i w { w with luck := luck } where
  inv _ := hw.luck luck
  held h := ⟨h, rfl, rfl, rfl⟩
  unheld := id
  mine _ _ := ⟨rfl, fun _ _ h => h⟩
  foreign _ := id
  current := rfl
  log := List.prefix_rfl
  own _ _ _ h _ := h
  handed _ h := h

theorem Rely.kill (hw : Inv c file w) {dead : List ℕ} (hi : i ∉ dead) :
    Rely c file i w (w.kill dead) where
  inv _ := hw.kill dead
  held h := by
    refine ⟨by simp [World.kill, h, hi], rfl, ?_, ?_⟩
    · rw [World.kill, saved_append, saved_killed, List.append_nil]
    · rw [World.kill, lockers_append, lockers_killed, List.append_nil]
  unheld h := by
    intro h'
    exact h (Option.filter_eq_some_iff.1 h').1
  mine q hq := by
    refine ⟨?_, fun _ _ h => h⟩
    change ({ w.queues q with owner := (w.queues q).owner.filter (· ∉ dead) } : Shared F) = _
    rw [hq]
    have : (some i).filter (fun j => decide (j ∉ dead)) = some i := by simp [hi]
    rw [this, ← hq]
  foreign q hq := by
    intro h'
    exact hq (Option.filter_eq_some_iff.1 h').1
  current := by simp [World.kill, hi]
  log := List.prefix_append _ _
  own n hn e he hop := by
    rcases List.mem_append.1 he with he | he
    · exact he
    · obtain ⟨m, hm, rfl⟩ := List.mem_map.1 he
      obtain ⟨j, hj, hjm⟩ := List.mem_filterMap.1 hm
      obtain rfl : m = n := hop
      exact absurd (hw.inj i j _ hn hjm ▸ List.mem_dedup.1 hj) hi
  handed _ h := h

/-- A change of one `Queue` object that another thread holds, or takes. -/
theorem Rely.queue (hw' : Inv c file w') {q : ℕ} {x : Shared F}
    (hqueues : w'.queues = Function.update w.queues q x) (hq : (w.queues q).owner ≠ some j)
    (hx : x.owner ≠ some j) (hholder : w'.holder = w.holder) (hfile : w'.file = w.file) (hlog : w'.log = w.log)
    (hcurrent : w'.current = w.current) (hhanded : w'.handed = w.handed) :
    Rely c file j w w' where
  inv _ := hw'
  held h := ⟨by rw [hholder, h], hfile, by rw [hlog], by rw [hlog]⟩
  unheld h := by rwa [hholder]
  mine r hr := by
    have hne : r ≠ q := by
      rintro rfl
      exact hq hr
    refine ⟨by rw [hqueues, Function.update_of_ne hne], fun _ _ h => hhanded ▸ h⟩
  foreign r hr := by
    rw [hqueues]
    by_cases hrq : r = q
    · subst hrq
      simpa using hx
    · rwa [Function.update_of_ne hrq]
  current := by rw [hcurrent]
  log := hlog ▸ List.prefix_rfl
  own _ _ e he _ := hlog ▸ he
  handed := by
    rw [hhanded]
    exact fun _ h => h

/-- An event of another thread's operation. -/
theorem Rely.note (hw' : Inv c file w') (hij : j ≠ i) {e : Event F}
    (he : ∀ n, w.current j = some n → e.op ≠ n) (hlog : w'.log = w.log ++ [e])
    (hheld : w.holder = some j → w'.holder = some j ∧ w'.file = w.file ∧
      saved w'.log = saved w.log ∧ lockers w'.log = lockers w.log)
    (hunheld : w.holder ≠ some j → w'.holder ≠ some j) (hqueues : w'.queues = w.queues)
    (hcurrent : ∀ k, k ≠ i → w'.current k = w.current k) (hhanded : w'.handed = w.handed) :
    Rely c file j w w' where
  inv _ := hw'
  held := hheld
  unheld := hunheld
  mine q _ := ⟨by rw [hqueues], fun _ _ h => hhanded ▸ h⟩
  foreign q hq := by rwa [hqueues]
  current := hcurrent j hij
  log := hlog ▸ List.prefix_append _ _
  own n hn e' he' hop := by
    rw [hlog, List.mem_append, List.mem_singleton] at he'
    rcases he' with he' | rfl
    · exact he'
    · exact absurd hop (he n hn)
  handed := by
    rw [hhanded]
    exact fun _ h => h

/-- What one thread does is what every other relies on. -/
theorem Rely.does (hw : Inv c file w) (h : Does c file i w w') (hij : j ≠ i) :
    Rely c file j w w' := by
  have hw' := hw.does h
  have hother : ∀ {o : Option ℕ}, o = some i → o ≠ some j := fun ho hj =>
    hij (Option.some.inj (hj.symm.trans ho))
  cases h with
  | stays => exact Rely.refl w
  | begins r =>
    refine Rely.note hw' hij (fun n hn => ?_) rfl (fun h => ⟨h, rfl, ?_, ?_⟩) id rfl
      (fun k hk => Function.update_of_ne hk _ _) rfl
    · exact (hw.current_lt j n hn).ne'
    · simp [World.begins, saved]
    · simp [World.begins, lockers]
  | @acquires q hfree =>
    exact Rely.queue hw' rfl (by simp [hfree]) (hother rfl) rfl rfl rfl rfl rfl
  | @releases q hq =>
    exact Rely.queue hw' rfl (hother hq) (by simp) rfl rfl rfl rfl rfl
  | @locks m hfree hn hno =>
    refine Rely.note hw' hij (fun n' hn' hop => ?_) rfl (fun h => ?_) (fun _ => hother rfl) rfl
      (fun _ _ => rfl) rfl
    · obtain rfl : m = n' := hop
      exact hij (hw.inj j i _ hn' hn)
    · simp [hfree] at h
  | closes hheld =>
    exact ⟨fun _ => hw', fun h => absurd h (hother hheld), fun _ => by simp [World.closes],
      fun _ _ => ⟨rfl, fun _ _ h => h⟩, fun _ h => h, rfl, List.prefix_rfl, fun _ _ _ h _ => h,
      fun _ h => h⟩
  | @loads q s hq => exact Rely.queue hw' rfl (hother hq) (hother hq) rfl rfl rfl rfl rfl
  | @changes q s hq hfresh =>
    exact Rely.queue hw' rfl (hother hq) (hother hq) rfl rfl rfl rfl rfl
  | @saves k m data a hheld hn hturn hm =>
    refine Rely.note hw' hij (fun n' hn' hop => ?_) rfl (fun h => absurd h (hother hheld)) id rfl
      (fun _ _ => rfl) rfl
    obtain rfl : k = n' := hop
    exact hij (hw.inj j i _ hn' hn)
  | @hands q hq hne =>
    refine ⟨fun _ => hw', fun h => ⟨h, rfl, rfl, rfl⟩, id, fun r hr => ⟨rfl, fun k s hmem => ?_⟩,
      fun _ h => h, rfl, List.prefix_rfl, fun _ _ _ h _ => h, List.subset_append_left _ _⟩
    rcases List.mem_append.1 hmem with hmem | hmem
    · exact hmem
    · obtain ⟨rfl, -⟩ : r = q ∧ _ := by simpa using hmem
      exact absurd hr (hother hq)
  | @ends k r hn hr =>
    refine Rely.note hw' hij (fun n' hn' hop => ?_) rfl (fun h => ⟨h, rfl, ?_, ?_⟩) id rfl
      (fun k hk => Function.update_of_ne hk _ _) rfl
    · obtain rfl : k = n' := hop
      exact hij (hw.inj j i _ hn' hn)
    · simp [World.ends, saved]
    · simp [World.ends, lockers]

/-! ## What holds while an operation runs -/

/-- What holds of a world outlasts what a thread relies on. -/
def Stable (c : Crypto) (file : Option Bytes) (i : ℕ) (P : World F → Prop) : Prop :=
  ∀ w w', P w → Rely c file i w w' → P w'

theorem Stable.and {P P' : World F → Prop} (h : Stable c file i P) (h' : Stable c file i P') :
    Stable c file i fun w => P w ∧ P' w :=
  fun w w' hw hr => ⟨h w w' hw.1 hr, h' w w' hw.2 hr⟩

/-- A thread runs an operation, and holds one thread lock or none. -/
structure Busy (c : Crypto) (file : Option Bytes) (i n : ℕ) (r : Request F) (lock : Option ℕ)
    (w : World F) : Prop where
  inv : Inv c file w
  current : w.current i = some n
  began : .began n r ∈ w.log
  owner : ∀ q, (w.queues q).owner = some i ↔ lock = some q

variable {r : Request F} {lock : Option ℕ} {q : ℕ}

theorem Busy.stable : Stable c file i (Busy (F := F) c file i n r lock) := by
  intro w w' hw hr
  refine ⟨hr.inv hw.inv, hr.current.trans hw.current, hr.log.subset hw.began, fun q => ?_⟩
  by_cases hq : (w.queues q).owner = some i
  · rw [(hr.mine q hq).1]
    exact hw.owner q
  · exact iff_of_false (hr.foreign q hq) fun hl => hq ((hw.owner q).2 hl)

/-- The thread does not hold the file lock. -/
def Unlocked (i : ℕ) (w : World F) : Prop := w.holder ≠ some i

theorem Unlocked.stable : Stable c file i (Unlocked (F := F) i) := fun _ _ hw hr => hr.unheld hw

theorem mem_lockers {log : List (Event F)} {n : ℕ} : n ∈ lockers log ↔ .locked n ∈ log := by
  refine ⟨fun h => ?_, fun h => List.mem_filterMap.2 ⟨_, h, rfl⟩⟩
  obtain ⟨e, he, hn⟩ := List.mem_filterMap.1 h
  split at hn
  · obtain rfl := Option.some.inj hn
    exact he
  · simp at hn

/-- A thread that waits for the file lock. -/
structure Before (c : Crypto) (file : Option Bytes) (i n : ℕ) (r : Request F) (lock : Option ℕ)
    (w : World F) : Prop where
  busy : Busy c file i n r lock w
  unlocked : Unlocked i w
  new : n ∉ lockers w.log

theorem Before.stable : Stable c file i (Before (F := F) c file i n r lock) := by
  intro w w' hw hr
  refine ⟨Busy.stable w w' hw.busy hr, hr.unheld hw.unlocked, fun hmem => hw.new ?_⟩
  exact mem_lockers.2 (hr.own n hw.busy.current _ (mem_lockers.1 hmem) rfl)

/-- A thread that has both locks. -/
structure Inside (c : Crypto) (file : Option Bytes) (i n : ℕ) (r : Request F) (q : ℕ)
    (w : World F) : Prop where
  busy : Busy c file i n r (some q) w
  holds : w.holder = some i
  turn : InTurn n w.log

theorem Inside.stable : Stable c file i (Inside (F := F) c file i n r q) := by
  intro w w' hw hr
  obtain ⟨hholder, -, hsaved, hlockers⟩ := hr.held hw.holds
  refine ⟨Busy.stable w w' hw.busy hr, hholder, ?_⟩
  obtain ⟨l, hl, hsub⟩ := hw.turn
  exact ⟨l, by rw [hlockers, hl], by rwa [hsaved]⟩

/-- A thread that has loaded the state `s`, and works on it. -/
structure Loaded (c : Crypto) (file : Option Bytes) (i n : ℕ) (r : Request F) (q : ℕ)
    (s : QueueState F) (w : World F) : Prop where
  inside : Inside c file i n r q w
  load : load w.file = .ok s
  fresh : Fresh w q

theorem Loaded.stable {s : QueueState F} : Stable c file i (Loaded c file i n r q s) := by
  intro w w' hw hr
  obtain ⟨-, hfile, -, -⟩ := hr.held hw.inside.holds
  obtain ⟨hqueue, hhanded⟩ := hr.mine q ((hw.inside.busy.owner q).2 rfl)
  refine ⟨Inside.stable w w' hw.inside hr, by rw [hfile, hw.load], ?_, ?_⟩
  · rw [hqueue]
    exact hw.fresh.loaded
  · intro k s hmem
    rw [hqueue]
    exact hw.fresh.unseen k s (hhanded k s hmem)

theorem Answered.stable {v : Reply F} : Stable c file i fun w => Answered c file w n v :=
  fun _ _ hw hr => hw.mono hr.log hr.handed

/-! ## What programs keep -/

/-- What a program of a thread's keeps, and how it ends. -/
abbrev Runs {α : Type} (c : Crypto) (file : Option Bytes) (i : ℕ)
    (Q : Except PyError α → World F → Prop) (p : QProg F α) (w : World F) : Prop :=
  Wp ((share c file).env free i) (fun _ => Does c file i) Q p w

/-- The same, and that it may raise wherever `R` holds. -/
abbrev RunsFrom {α : Type} (c : Crypto) (file : Option Bytes) (i : ℕ) (R : World F → Prop)
    (Q : Except PyError α → World F → Prop) (p : QProg F α) (w : World F) : Prop :=
  Wp ((share c file).env free i) (fun _ w w' => Does c file i w w' ∧ R w) Q p w

theorem RunsFrom.fallible {α : Type} {R P : World F → Prop} {A : α → World F → Prop}
    {p : QProg F α} (hR : Stable c file i R) (hP : ∀ w, R w → P w)
    (h : RunsFrom c file i R (Post P A) p w) :
    Runs c file i (Post P A) (Prog.fallible World.luck p) w :=
  Wp.fallible (fun _ _ _ => .stays) (fun _ _ _ hw hr => hP _ (hR _ _ hw hr)) h

/-- An act that is done last, whatever came before. -/
theorem Runs.finally' {α : Type} {P R : World F → Prop} {A A' : α → World F → Prop}
    {p : QProg F α} {f : World F → World F} (hP : Stable c file i P)
    (hA : ∀ v, Stable c file i (A v)) (hR : Stable c file i R)
    (hA' : ∀ v, Stable c file i (A' v)) (hPf : ∀ w, P w → Does c file i w (f w) ∧ R (f w))
    (hAf : ∀ v w, A v w → Does c file i w (f w) ∧ A' v (f w)) (hRA : ∀ v w, A' v w → R w)
    (h : Runs c file i (Post P A) p w) :
    Runs c file i (Post R A') (p.finally' (closing f)) w := by
  refine Wp.finally' (h.mono fun r w' hw' => ?_)
  cases r with
  | error e =>
    refine Wp.step hw' hP fun u hu _ => ⟨(hPf u hu).1, ?_⟩
    cases u.luck with
    | none => exact Wp.done (hPf u hu).2 hR fun x hx => hx
    | some e' => exact Wp.done (hPf u hu).2 hR fun x hx => hx
  | ok v =>
    refine Wp.step hw' (hA v) fun u hu _ => ⟨(hAf v u hu).1, ?_⟩
    cases u.luck with
    | none => exact Wp.done (hAf v u hu).2 (hA' v) fun x hx => hx
    | some e' => exact Wp.done (hAf v u hu).2 (hA' v) fun x hx => hRA v x hx

/-! ## Mutations -/

theorem Busy.congr (hw : Busy c file i n r lock w) (hinv : Inv c file w')
    (hcurrent : w'.current i = w.current i) (hlog : w.log ⊆ w'.log)
    (howner : ∀ q, (w'.queues q).owner = (w.queues q).owner) : Busy c file i n r lock w' :=
  ⟨hinv, hcurrent.trans hw.current, hlog hw.began, fun q => by rw [howner]; exact hw.owner q⟩

theorem owner_loads (w : World F) (q : ℕ) (s : QueueState F) (q' : ℕ) :
    ((w.loads q s).queues q').owner = (w.queues q').owner := by
  by_cases h : q' = q
  · subst h
    simp [World.loads]
  · simp [World.loads, h]

theorem owner_changes (w : World F) (q : ℕ) (s : QueueState F) (q' : ℕ) :
    ((w.changes q s).queues q').owner = (w.queues q').owner := by
  by_cases h : q' = q
  · subst h
    simp [World.changes]
  · simp [World.changes, h]

/-- A state that is loaded is one that no `reload` has returned. -/
theorem fresh_loads (hw : Inv c file w) (q : ℕ) (s : QueueState F) : Fresh (w.loads q s) q := by
  refine ⟨by simp [World.loads], fun k s' hmem => ?_⟩
  have hk := (List.getElem?_eq_some_iff.1 (hw.handed q k s' hmem)).1
  simp only [World.loads, Function.update_self, List.length_append, List.length_singleton]
  omega

theorem state_loads (w : World F) (q : ℕ) (s : QueueState F) : (w.loads q s).state q = s := by
  simp [World.state, World.loads]

theorem Fresh.changes (h : Fresh w q) (s : QueueState F) : Fresh (w.changes q s) q := by
  have hlen : 0 < (w.queues q).states.length := List.length_pos_iff.2 h.loaded
  refine ⟨by simp [World.changes], fun k s' hmem => ?_⟩
  have hk := h.unseen k s' hmem
  simp only [World.changes, Function.update_self, List.length_append, List.length_dropLast,
    List.length_singleton]
  omega

/-- A change of the state that was loaded. -/
theorem Loaded.changes {s : QueueState F} (hw : Loaded c file i n r q s w) (t : QueueState F) :
    Does c file i w (w.changes q t) ∧ Loaded c file i n r q s (w.changes q t) := by
  have hdoes : Does c file i w (w.changes q t) :=
    .changes ((hw.inside.busy.owner q).2 rfl) hw.fresh
  exact ⟨hdoes, ⟨⟨hw.inside.busy.congr (hw.inside.busy.inv.does hdoes) rfl (fun _ h => h)
    (owner_changes w q t), hw.inside.holds, hw.inside.turn⟩, hw.load, hw.fresh.changes t⟩⟩

/-- The file lock is taken. -/
theorem Before.locks (hw : Before c file i n r (some q) w) (hfree : w.holder = none) :
    Does c file i w (w.locks i n) ∧ Inside c file i n r q (w.locks i n) := by
  have hdoes : Does c file i w (w.locks i n) := .locks hfree hw.busy.current hw.new
  refine ⟨hdoes, ⟨hw.busy.congr (hw.busy.inv.does hdoes) rfl (List.subset_append_left _ _)
    fun _ => rfl, rfl, lockers w.log, ?_, ?_⟩⟩
  · rw [World.locks, lockers_append]
    rfl
  · have hsaved : saved (w.locks i n).log = saved w.log := by simp [World.locks, saved]
    rw [hsaved]
    exact hw.busy.inv.order

/-- A state is loaded. -/
theorem Inside.loads (hw : Inside c file i n r q w) {s : QueueState F} (hload : load w.file = .ok s) :
    Does c file i w (w.loads q s) ∧ Loaded c file i n r q s (w.loads q s) := by
  have hdoes : Does c file i w (w.loads q s) := .loads ((hw.busy.owner q).2 rfl)
  exact ⟨hdoes, ⟨⟨hw.busy.congr (hw.busy.inv.does hdoes) rfl (fun _ h => h)
    (owner_loads w q s), hw.holds, hw.turn⟩, hload, fresh_loads hw.busy.inv q s⟩⟩

/-- The state is saved, as the mutation makes it of the file's. -/
theorem Loaded.saves {m : Mutation F} {b : Body F (Answer F)} (hb : m.body c = .ok b)
    {s : QueueState F} (hw : Loaded c file i n (.mutate m) q s w) {a : Answer F}
    (hexec : b.exec s = (.ok a, w.state q)) {data : Bytes} (hsave : save (w.state q) = .ok data) :
    Does c file i w (w.saves n m data) ∧ Busy c file i n (.mutate m) (some q) (w.saves n m data) ∧
      Answered c file (w.saves n m data) n (.answer a) := by
  have happly : m.apply c w.file = .ok (some data, a) := by
    rw [Mutation.apply, hb]
    simp only [applyBody, hw.load, hexec, hsave]
  have hbusy := hw.inside.busy
  have hdoes : Does c file i w (w.saves n m data) :=
    .saves hw.inside.holds hbusy.current hw.inside.turn happly
  refine ⟨hdoes, hbusy.congr (hbusy.inv.does hdoes) rfl (List.subset_append_left _ _)
    fun _ => rfl, ?_⟩
  exact ⟨w.log, [.saved n m], .mutate m, w.file, rfl, hbusy.began,
    hbusy.inv.alive i n hbusy.current, hbusy.inv.replay, [], some data, a, rfl, happly, rfl⟩

/-- What is done under the file lock. -/
theorem runsFrom_critical {m : Mutation F} {b : Body F (Answer F)} (hb : m.body c = .ok b)
    (hw : Before c file i n (.mutate m) (some q) w) :
    RunsFrom c file i (Busy c file i n (.mutate m) (some q))
      (Post (Busy c file i n (.mutate m) (some q)) fun v w =>
        Busy c file i n (.mutate m) (some q) w ∧ Answered c file w n v)
      (critical i q n m b) w := by
  have hbusy : Stable c file i (Busy (F := F) c file i n (.mutate m) (some q)) := Busy.stable
  -- the file lock
  refine wp_bind.2 (Wp.step hw Before.stable fun w hw hfree => ?_)
  obtain ⟨hdoes, hinside⟩ := hw.locks hfree
  refine ⟨⟨hdoes, hw.busy⟩, Wp.done hinside Inside.stable fun w hw => ?_⟩
  -- the state
  refine wp_bind.2 (Wp.step hw Inside.stable fun w hw _ => ?_)
  cases hload : load (F := F) w.file with
  | error e =>
    exact ⟨⟨.stays, hw.busy⟩, Wp.done hw.busy hbusy fun w hw => hw⟩
  | ok s =>
    obtain ⟨hdoes, hloaded⟩ := hw.loads hload
    have hstable : Stable c file i fun w => Loaded c file i n (.mutate m) q s w ∧ w.state q = s :=
      fun w w' hw hr => ⟨Loaded.stable w w' hw.1 hr, by
        rw [World.state, (hr.mine q ((hw.1.inside.busy.owner q).2 rfl)).1, ← World.state, hw.2]⟩
    refine ⟨⟨hdoes, hw.busy⟩, Wp.done ⟨hloaded, state_loads w q s⟩ hstable fun w hw => ?_⟩
    obtain ⟨hw, hstate⟩ := hw
    -- the change
    have hexec := wp_exec (A := fun _ _ => True) b s
    rw [← hstate] at hexec
    refine wp_bind.2 (Wp.lift (L := onState F q) ?_ ?_ ?_ hw hexec)
    · intro w w' hw hr
      refine ⟨Loaded.stable w w' hw hr, ?_⟩
      change w.state q = w'.state q
      rw [World.state, World.state, (hr.mine q ((hw.inside.busy.owner q).2 rfl)).1]
    · intro _ w t hw _
      refine ⟨trivial, fun _ => ?_⟩
      obtain ⟨hdoes, hloaded⟩ := hw.changes t
      exact ⟨⟨hdoes, hw.inside.busy⟩, hloaded⟩
    · intro res w hw hres
      rw [hstate] at hres
      cases res with
      | error e => exact hw.inside.busy
      | ok a =>
        -- the save
        have hres' : b.exec s = (.ok a, w.state q) := hres
        have hstable' : Stable c file i fun w =>
            Loaded c file i n (.mutate m) q s w ∧ b.exec s = (.ok a, w.state q) :=
          fun w w' hw hr => ⟨Loaded.stable w w' hw.1 hr, by
            rw [World.state, (hr.mine q ((hw.1.inside.busy.owner q).2 rfl)).1, ← World.state,
              ← hw.2]⟩
        refine wp_bind.2 (Wp.step ⟨hw, hres'⟩ hstable' fun w hw _ => ?_)
        cases hsave : save (w.state q) with
        | error e =>
          exact ⟨⟨.stays, hw.1.inside.busy⟩, Wp.done hw.1.inside.busy hbusy fun w hw => hw⟩
        | ok data =>
          obtain ⟨hdoes, hbusy', hans⟩ := hw.1.saves hb hw.2 hsave
          refine ⟨⟨hdoes, hw.1.inside.busy⟩,
            Wp.done ⟨hbusy', hans⟩ (hbusy.and Answered.stable) fun w hw => ?_⟩
          exact Wp.done hw (hbusy.and Answered.stable) fun w hw => hw

/-! ## Locks -/

theorem owner_setOwner (w : World F) (q : ℕ) (o : Option ℕ) (q' : ℕ) :
    ((w.setOwner q o).queues q').owner = if q' = q then o else (w.queues q').owner := by
  by_cases h : q' = q
  · subst h
    simp [World.setOwner]
  · simp [World.setOwner, h]

/-- A thread lock is taken. -/
theorem Busy.acquires (hw : Busy c file i n r none w) (hfree : (w.queues q).owner = none) :
    Does c file i w (w.setOwner q (some i)) ∧ Busy c file i n r (some q) (w.setOwner q (some i)) := by
  have hdoes : Does c file i w (w.setOwner q (some i)) := .acquires hfree
  refine ⟨hdoes, hw.inv.does hdoes, hw.current, hw.began, fun q' => ?_⟩
  rw [owner_setOwner]
  split_ifs with h
  · simp [h]
  · rw [hw.owner q']
    simp [Ne.symm h]

/-- A thread lock is released. -/
theorem Busy.releases (hw : Busy c file i n r (some q) w) :
    Does c file i w (w.setOwner q none) ∧ Busy c file i n r none (w.setOwner q none) := by
  have hdoes : Does c file i w (w.setOwner q none) := .releases ((hw.owner q).2 rfl)
  refine ⟨hdoes, hw.inv.does hdoes, hw.current, hw.began, fun q' => ?_⟩
  rw [owner_setOwner]
  split_ifs with h
  · simp
  · rw [hw.owner q']
    simp [Ne.symm h]

/-- The file lock is released, if the thread has it. -/
theorem Busy.closes (hw : Busy c file i n r lock w) :
    Does c file i w (if w.holder = some i then w.closes else w) ∧
      Busy c file i n r lock (if w.holder = some i then w.closes else w) ∧
      Unlocked i (if w.holder = some i then w.closes else w) := by
  split_ifs with h
  · have hdoes : Does c file i w w.closes := .closes h
    exact ⟨hdoes, hw.congr (hw.inv.does hdoes) rfl (fun _ h => h) fun _ => rfl,
      by simp [Unlocked, World.closes]⟩
  · exact ⟨.stays, hw, h⟩

theorem Before.acquires (hw : Before c file i n r none w) (hfree : (w.queues q).owner = none) :
    Does c file i w (w.setOwner q (some i)) ∧ Before c file i n r (some q) (w.setOwner q (some i)) := by
  obtain ⟨hdoes, hbusy⟩ := hw.busy.acquires hfree
  exact ⟨hdoes, hbusy, hw.unlocked, hw.new⟩

/-- An operation has ended but for its last event. -/
structure After (c : Crypto) (file : Option Bytes) (i n : ℕ) (r : Request F) (w : World F) :
    Prop where
  busy : Busy c file i n r none w
  unlocked : Unlocked i w

theorem After.stable : Stable c file i (After (F := F) c file i n r) := fun w w' hw hr =>
  ⟨Busy.stable w w' hw.busy hr, hr.unheld hw.unlocked⟩

/-- A thread has a thread lock, and not the file lock. -/
structure Half (c : Crypto) (file : Option Bytes) (i n : ℕ) (r : Request F) (q : ℕ) (w : World F) :
    Prop where
  busy : Busy c file i n r (some q) w
  unlocked : Unlocked i w

theorem Half.stable : Stable c file i (Half (F := F) c file i n r q) := fun w w' hw hr =>
  ⟨Busy.stable w w' hw.busy hr, hr.unheld hw.unlocked⟩

theorem Half.releases (hw : Half c file i n r q w) :
    Does c file i w (w.setOwner q none) ∧ After c file i n r (w.setOwner q none) :=
  ⟨hw.busy.releases.1, hw.busy.releases.2, hw.unlocked⟩

theorem answered_setOwner {v : Reply F} (h : Answered c file w n v) (q : ℕ) (o : Option ℕ) :
    Answered c file (w.setOwner q o) n v := h.mono List.prefix_rfl fun _ h => h

theorem answered_closes {v : Reply F} (h : Answered c file w n v) :
    Answered c file (if w.holder = some i then w.closes else w) n v := by
  split_ifs
  · exact h.mono List.prefix_rfl fun _ h => h
  · exact h

/-- An act that does nothing, and may raise. -/
theorem runs_nothing {P : World F → Prop} (hP : Stable c file i P) (hw : P w) :
    Runs c file i (Post P fun _ => P) (Prog.fallible World.luck (.write .nothing id)) w :=
  RunsFrom.fallible hP (fun _ h => h)
    (Wp.step hw hP fun _ hu _ => ⟨⟨.stays, hu⟩, Wp.done hu hP fun _ h => h⟩)

/-- A thread lock is taken, or the operation raises. -/
theorem runs_acquire (hw : Before c file i n r none w) :
    Runs c file i (Post (After c file i n r) fun _ => Before c file i n r (some q))
      (Prog.fallible World.luck (acquire i q)) w := by
  refine RunsFrom.fallible Before.stable (fun u hu => ⟨hu.busy, hu.unlocked⟩) ?_
  refine Wp.step hw Before.stable fun u hu hfree => ?_
  obtain ⟨hdoes, hbefore⟩ := hu.acquires hfree
  exact ⟨⟨hdoes, hu⟩, Wp.done hbefore Before.stable fun _ h => h⟩

/-- A mutation, from the thread lock to its release. -/
theorem runs_locked {m : Mutation F} {b : Body F (Answer F)} (hb : m.body c = .ok b)
    (hw : Before c file i n (.mutate m) none w) :
    Runs c file i (Post (After c file i n (.mutate m)) fun v w =>
      After c file i n (.mutate m) w ∧ Answered c file w n v) (locked i q n m b) w := by
  -- the lock's directory and the thread lock
  refine wp_bind.2 ((runs_nothing Before.stable hw).mono fun res w hw => ?_)
  cases res with
  | error e => exact ⟨Before.busy hw, Before.unlocked hw⟩
  | ok u =>
    refine wp_bind.2 ((runs_acquire hw).mono fun res w hw => ?_)
    cases res with
    | error e => exact hw
    | ok u =>
      refine Runs.finally' Half.stable (fun v => Half.stable.and Answered.stable) After.stable
        (fun v => After.stable.and Answered.stable) (fun w hw => hw.releases)
        (fun v w hw => ⟨hw.1.releases.1, hw.1.releases.2, answered_setOwner hw.2 q none⟩)
        (fun v w hw => hw.1) ?_
      -- the lock file
      refine wp_bind.2 ((runs_nothing Before.stable hw).mono fun res w hw => ?_)
      cases res with
      | error e => exact ⟨Before.busy hw, Before.unlocked hw⟩
      | ok u =>
        refine Runs.finally' Busy.stable (fun v => Busy.stable.and Answered.stable) Half.stable
          (fun v => Half.stable.and Answered.stable)
          (fun w hw => ⟨hw.closes.1, hw.closes.2.1, hw.closes.2.2⟩)
          (fun v w hw => ⟨hw.1.closes.1, ⟨hw.1.closes.2.1, hw.1.closes.2.2⟩, answered_closes hw.2⟩)
          (fun v w hw => hw.1) ?_
        exact RunsFrom.fallible Busy.stable (fun w hw => hw) (runsFrom_critical hb hw)

/-! ## Queries -/

/-- A state was that of the file while an operation ran. -/
def Looked (c : Crypto) (file : Option Bytes) (n : ℕ) (r : Request F) (s : QueueState F)
    (w : World F) : Prop :=
  ∃ es es' f, w.log = es ++ es' ∧ .began n r ∈ es ∧ (∀ e ∈ es, e.isEnd = true → e.op ≠ n) ∧
    replay c file (saved es) = some f ∧ load f = .ok s

theorem Looked.mono {s : QueueState F} (h : Looked c file n r s w) (hlog : w.log <+: w'.log) :
    Looked c file n r s w' := by
  obtain ⟨es, es', f, heq, h⟩ := h
  obtain ⟨more, hmore⟩ := hlog
  exact ⟨es, es' ++ more, f, by rw [← hmore, heq, List.append_assoc], h⟩

theorem Looked.stable {s : QueueState F} : Stable c file i (Looked c file n r s) :=
  fun _ _ hw hr => hw.mono hr.log

/-- A query answers of the state that it looked at. -/
theorem Looked.answered {q : Query} {s : QueueState F} (h : Looked c file n (.query q) s w)
    {v : Reply F} (hv : q.Answers w s v) : Answered c file w n v := by
  obtain ⟨es, es', f, heq, hbegan, hends, hreplay, hload⟩ := h
  exact ⟨es, es', .query q, f, heq, hbegan, hends, hreplay, s, hload, hv⟩

theorem Busy.looked (hw : Busy c file i n r lock w) {s : QueueState F}
    (hload : load w.file = .ok s) : Looked c file n r s w :=
  ⟨w.log, [], w.file, (List.append_nil _).symm, hw.began, hw.inv.alive i n hw.current,
    hw.inv.replay, hload⟩

/-- A `Queue` object has returned a state that an operation looked at. -/
def Handed (c : Crypto) (file : Option Bytes) (n : ℕ) (r : Request F) (q k : ℕ) (s : QueueState F)
    (w : World F) : Prop :=
  (q, k, s) ∈ w.handed ∧ Looked c file n r s w

theorem Handed.stable {k : ℕ} {s : QueueState F} :
    Stable c file i (Handed c file n r q k s) :=
  fun w w' hw hr => ⟨hr.handed hw.1, Looked.stable w w' hw.2 hr⟩

theorem Handed.exists_stable {k : ℕ} :
    Stable c file i fun w => ∃ s, Handed (F := F) c file n r q k s w :=
  fun w w' ⟨s, hs⟩ hr => ⟨s, Handed.stable w w' hs hr⟩

/-- A state that was returned is the one that is read later. -/
theorem Handed.stateAt {k : ℕ} {s : QueueState F} (h : Handed c file n r q k s w)
    (hw : Inv c file w) : w.stateAt q k = s := by
  rw [World.stateAt, hw.handed q k s h.1, Option.getD_some]

/-- A thread that has its thread lock loads a state. -/
theorem Half.loads (hw : Half c file i n r q w) (s : QueueState F) :
    Does c file i w (w.loads q s) ∧ Half c file i n r q (w.loads q s) := by
  have hdoes : Does c file i w (w.loads q s) := .loads ((hw.busy.owner q).2 rfl)
  exact ⟨hdoes, hw.busy.congr (hw.busy.inv.does hdoes) rfl (fun _ h => h) (owner_loads w q s),
    hw.unlocked⟩

/-- A thread that has its thread lock returns the state that it loaded. -/
theorem Half.hands (hw : Half c file i n r q w) (hne : (w.queues q).states ≠ []) :
    Does c file i w (w.hands q) ∧ Half c file i n r q (w.hands q) := by
  have hdoes : Does c file i w (w.hands q) := .hands ((hw.busy.owner q).2 rfl) hne
  exact ⟨hdoes, hw.busy.congr (hw.busy.inv.does hdoes) rfl (fun _ h => h) fun _ => rfl,
    hw.unlocked⟩

/-- `reload` : the state that it returns was the file's. -/
theorem runs_reload (hw : Before c file i n r none w) :
    Runs c file i (Post (After c file i n r) fun k w =>
      After c file i n r w ∧ ∃ s, Handed c file n r q k s w) (reload i q) w := by
  have hhalf : Stable c file i (Half (F := F) c file i n r q) := Half.stable
  refine wp_bind.2 ((runs_acquire hw).mono fun res w hw => ?_)
  cases res with
  | error e => exact hw
  | ok u =>
    replace hw : Half c file i n r q w := ⟨Before.busy hw, Before.unlocked hw⟩
    refine Runs.finally' (A := fun k w => Half c file i n r q w ∧ ∃ s, Handed c file n r q k s w)
      hhalf (fun k => hhalf.and Handed.exists_stable) After.stable
      (fun k => After.stable.and Handed.exists_stable) (fun w hw => hw.releases)
      (fun k w hw => ⟨hw.1.releases.1, hw.1.releases.2, hw.2⟩) (fun k w hw => hw.1) ?_
    refine RunsFrom.fallible hhalf (fun w hw => hw) (wp_bind.2 ?_)
    -- the state
    refine Wp.step hw hhalf fun w hw _ => ?_
    cases hload : load (F := F) w.file with
    | error e => exact ⟨⟨.stays, hw⟩, Wp.done hw hhalf fun w hw => hw⟩
    | ok s =>
      obtain ⟨hdoes, hloaded⟩ := hw.loads s
      have hstable : Stable c file i fun w => (Half c file i n r q w ∧ Looked c file n r s w) ∧
          (w.queues q).states.getLast? = some s :=
        fun w w' hw hr => ⟨(hhalf.and Looked.stable) w w' hw.1 hr, by
          rw [(hr.mine q ((hw.1.1.busy.owner q).2 rfl)).1, hw.2]⟩
      have hlast : ((w.loads q s).queues q).states.getLast? = some s := by simp [World.loads]
      refine ⟨⟨hdoes, hw⟩, Wp.done ⟨⟨hloaded, (hw.busy.looked hload).mono List.prefix_rfl⟩, hlast⟩
        hstable fun w hw => ?_⟩
      -- its return
      refine Wp.step hw hstable fun w hw _ => ?_
      obtain ⟨⟨hw, hlooked⟩, hlast⟩ := hw
      have hne : (w.queues q).states ≠ [] := by
        rintro h
        simp [h] at hlast
      obtain ⟨hdoes, hhands⟩ := hw.hands hne
      have hstate : w.state q = s := by rw [World.state, hlast, Option.getD_some]
      have hmem : (q, (w.queues q).states.length - 1, s) ∈ (w.hands q).handed :=
        List.mem_append_right _ (by rw [hstate]; exact List.mem_singleton_self _)
      exact ⟨⟨hdoes, hw⟩, Wp.done ⟨hhands, s, hmem, hlooked.mono List.prefix_rfl⟩
        (hhalf.and Handed.exists_stable) fun w hw => hw⟩

/-- `snapshot` : it shows one state, whatever is loaded while it is read. -/
theorem runs_snapshot {track now : PyStr} {king : Option SubmissionRef} {schema : ℤ}
    (hw : Before c file i n (.query (.snapshot track king schema now)) none w) :
    Runs c file i (Post (After c file i n (.query (.snapshot track king schema now))) fun doc w =>
      After c file i n (.query (.snapshot track king schema now)) w ∧
        Answered c file w n (.doc doc)) (snapshot i q track king schema now) w := by
  have hafter : Stable c file i
      (After (F := F) c file i n (.query (.snapshot track king schema now))) := After.stable
  refine wp_bind.2 ((runs_reload hw).mono fun res w hw => ?_)
  cases res with
  | error e => exact hw
  | ok k =>
    obtain ⟨hw, s, hs⟩ := hw
    have hstable : Stable c file i fun w =>
        After c file i n (.query (.snapshot track king schema now)) w ∧
          Handed c file n (.query (.snapshot track king schema now)) q k s w :=
      hafter.and Handed.stable
    refine RunsFrom.fallible hafter (fun w hw => hw) ?_
    -- the block, the duel in progress and the entries
    refine wp_bind.2 (Wp.step ⟨hw, hs⟩ hstable fun w hw _ =>
      ⟨⟨.stays, hw.1⟩, Wp.done hw hstable fun w₁ hw₁ => ?_⟩)
    refine wp_bind.2 (Wp.step hw₁ hstable fun w₂ hw₂ _ =>
      ⟨⟨.stays, hw₂.1⟩, Wp.done hw₂ hstable fun w₃ hw₃ => ?_⟩)
    refine wp_bind.2 (Wp.step hw₃ hstable fun w₄ hw₄ _ =>
      ⟨⟨.stays, hw₄.1⟩, Wp.done hw₄ hstable fun w₅ hw₅ => ?_⟩)
    have hblock := hw.2.stateAt hw.1.busy.inv
    have hmark := hw₂.2.stateAt hw₂.1.busy.inv
    have hentries := hw₄.2.stateAt hw₄.1.busy.inv
    refine Wp.done hw₅ hstable fun w₆ hw₆ => ⟨hw₆.1, hw₆.2.2.answered ?_⟩
    simp only [Query.Answers, hblock, hmark, hentries]

/-! ## Operations -/

/-- An operation, but for its beginning and its end. -/
theorem runs_prog (hw : Before c file i n r none w) :
    Runs c file i (Post (After c file i n r) fun v w =>
      After c file i n r w ∧ Answered c file w n v) (r.prog c i q n) w := by
  cases r with
  | mutate m =>
    cases hb : m.body c with
    | error e =>
      simp only [Request.prog, hb]
      exact Wp.done (P := After c file i n (.mutate m)) ⟨hw.busy, hw.unlocked⟩ After.stable
        fun w hw => hw
    | ok b =>
      simp only [Request.prog, hb]
      exact runs_locked hb hw
  | query qu =>
    cases qu with
    | reload =>
      refine wp_bind.2 ((runs_reload hw).mono fun res w hw => ?_)
      cases res with
      | error e => exact hw
      | ok k =>
        exact Wp.done hw (After.stable.and Handed.exists_stable) fun w hw =>
          ⟨hw.1, hw.2.elim fun s hs => hs.2.answered ⟨q, k, rfl, hs.1⟩⟩
    | snapshot track king schema now =>
      refine wp_bind.2 ((runs_snapshot hw).mono fun res w hw => ?_)
      cases res with
      | error e => exact hw
      | ok doc => exact Wp.done hw (After.stable.and Answered.stable) fun w hw => hw

/-- A thread holds no lock. -/
structure Idle (i : ℕ) (w : World F) : Prop where
  unlocked : Unlocked i w
  free : ∀ q, (w.queues q).owner ≠ some i

theorem Idle.rely (hw : Idle i w) (hr : Rely c file i w w') : Idle i w' :=
  ⟨hr.unheld hw.unlocked, fun q => hr.foreign q (hw.free q)⟩

theorem After.idle (hw : After c file i n r w) : Idle i w :=
  ⟨hw.unlocked, fun q hq => by simpa using (hw.busy.owner q).1 hq⟩

theorem idle_kill {dead : List ℕ} (hi : i ∈ dead) (w : World F) : Idle i (w.kill dead) := by
  refine ⟨fun h => ?_, fun q h => ?_⟩
  · have := (Option.filter_eq_some_iff.1 h).2
    simp [hi] at this
  · have := (Option.filter_eq_some_iff.1 h).2
    simp [hi] at this

/-- An operation begins. -/
theorem Idle.begins (hw : Idle i w) (hinv : Inv c file w) (r : Request F) :
    Does c file i w (w.begins i r) ∧ Before c file i w.count r none (w.begins i r) := by
  have hdoes : Does c file i w (w.begins i r) := .begins r
  refine ⟨hdoes, ⟨hinv.does hdoes, by simp [World.begins], by simp [World.begins], fun q => ?_⟩,
    hw.unlocked, fun hmem => ?_⟩
  · exact iff_of_false (hw.free q) (by simp)
  · have hmem : w.count ∈ lockers w.log := by
      simpa [World.begins, lockers] using hmem
    exact (hinv.lt _ (mem_lockers.1 hmem)).ne rfl

/-- An operation ends. -/
theorem After.ends (hw : After c file i n r w) {x : Except PyError (Reply F)}
    (hx : ∀ v, x = .ok v → Answered c file w n v) :
    Does c file i w (w.ends i n x) ∧ Idle i (w.ends i n x) := by
  have hdoes : Does c file i w (w.ends i n x) := .ends hw.busy.current hx
  exact ⟨hdoes, hw.idle.unlocked, hw.idle.free⟩

/-- A result is what a new operation, of which nothing is in `log`, has answered. -/
def AnsweredAfter (c : Crypto) (file : Option Bytes) (log : List (Event F)) (w : World F)
    (v : Reply F) : Prop :=
  ∃ n, (∀ e ∈ log, e.op ≠ n) ∧ Answered c file w n v

/-- How an operation ends. -/
def Ended (c : Crypto) (file : Option Bytes) (i : ℕ) (log : List (Event F)) :
    Except PyError (Reply F) → World F → Prop :=
  Post (Idle i) fun v w => Idle i w ∧ AnsweredAfter c file log w v

theorem Ended.idle {log : List (Event F)} {x : Except PyError (Reply F)}
    (h : Ended c file i log x w) : Idle i w := by
  cases x with
  | error e => exact h
  | ok v => exact And.left h

/-- An operation from its beginning to its end. -/
theorem runs_operation (hw : Idle i w) (hinv : Inv c file w) :
    Runs c file i (Ended c file i w.log) (operation c i q r) w := by
  have hidle : Stable c file i (Idle (F := F) i) := fun w w' hw hr => hw.rely hr
  have hstable : Stable c file i fun u : World F => (Idle i u ∧ Inv c file u) ∧ w.log <+: u.log :=
    fun u u' hu hr => ⟨⟨hu.1.1.rely hr, hr.inv hu.1.2⟩, hu.2.trans hr.log⟩
  refine Wp.step ⟨⟨hw, hinv⟩, List.prefix_rfl⟩ hstable fun u hu _ => ?_
  obtain ⟨⟨hw, hinv⟩, hlog⟩ := hu
  obtain ⟨hdoes, hbefore⟩ := hw.begins hinv r
  have hnew : ∀ e ∈ w.log, e.op ≠ u.count := fun e he => (hinv.lt e (hlog.subset he)).ne
  refine ⟨hdoes, wp_bind.2 (wp_catch.2 ((runs_prog hbefore).mono fun res x hx => ?_))⟩
  cases res with
  | error e =>
    refine Wp.step (P := After c file i u.count r) hx After.stable fun x hx _ => ?_
    obtain ⟨hdoes, hends⟩ := hx.ends (x := .error e) (by simp)
    exact ⟨hdoes, Wp.done hends hidle fun x hx => hx⟩
  | ok v =>
    refine Wp.step (P := fun x => After c file i u.count r x ∧ Answered c file x u.count v) hx
      (After.stable.and Answered.stable) fun x hx _ => ?_
    obtain ⟨hdoes, hends⟩ := hx.1.ends (x := .ok v) fun v' hv => Except.ok.inj hv ▸ hx.2
    have hans : Answered c file (x.ends i u.count (.ok v)) u.count v :=
      hx.2.mono (List.prefix_append _ _) fun _ h => h
    exact ⟨hdoes, Wp.done ⟨hends, hans⟩ (hidle.and Answered.stable) fun x hx =>
      ⟨hx.1, u.count, hnew, hx.2⟩⟩

/-- The premises of the rule of threads. -/
theorem rule (c : Crypto) (file : Option Bytes) :
    Pool.Rule (pool F c) (share c file) (fun i _ => Does c file i) (Inv c file)
      (fun i _ _ => Idle i) Idle where
  prog _ _ _ _ hinv hidle := (runs_operation hidle hinv).mono fun _ _ h => h.idle
  act _ _ _ _ hw _ h := ⟨hw.does h, fun _ hj => Rely.does hw h hj⟩
  kill dead _ hw := ⟨hw.kill dead, fun _ hj => Rely.kill hw hj⟩
  others _ _ hw h := by
    obtain ⟨luck, rfl⟩ := h
    exact ⟨hw.luck luck, fun _ => Rely.luck hw luck⟩
  idle _ _ _ hw hr := hw.rely hr
  ended _ _ _ _ h := h
  killed _ _ w h := idle_kill h w

/-! ## Linearizability -/

/-- Mutations one after another keep the keys distinct. -/
theorem nodup_replay {ms : List (ℕ × Mutation F)} {f f' : Option Bytes}
    (h : replay c f ms = some f') (hf : (waiting F f).Nodup) : (waiting F f').Nodup := by
  induction ms generalizing f with
  | nil =>
    obtain rfl : f = f' := by simpa [replay] using h
    exact hf
  | cons p ms ih =>
    obtain ⟨n, m⟩ := p
    rw [replay] at h
    split at h
    · rename_i f₁ a hm
      exact ih h ((orderly_apply hm).nodup hf)
    · simp at h

theorem Inv.linearizable (hw : Inv c file w) : Linearizable c file w where
  replay := hw.replay
  order := ⟨hw.order, hw.nodup⟩
  ended := hw.quiet
  answered := hw.answered
  unique := nodup_replay hw.replay
  kept hfile _ _ _ _ _ _ _ _ hf hm j k hj hk hjk hj' hk' :=
    (orderly_apply hm).order (nodup_replay hf hfile) j k hj hk hjk hj' hk'
  handed := hw.handed

/-- However threads and processes are scheduled, raise and are killed, their queue is
linearizable. -/
theorem linearizable_of_reach (c : Crypto) (file : Option Bytes)
    {conf : Pool.Conf (World F) Tag PyError (Reply F) (ℕ × Request F)}
    (h : (pool F c).Reach (.start file) conf) : Linearizable c file conf.state :=
  (h.inv (rule c file) (inv_start c file) fun i => ⟨by simp [Unlocked, World.start],
    by simp [World.start]⟩).inv.linearizable

end Linear

open Ascii in
/-- A queue whose block is set to 7. -/
theorem toy_linearizable : ∃ w : World Tenths,
    (w.file.map fun b => (load (F := Tenths) (some b)).toOption.map (·.block)) = some (some 7) ∧
      Linearizable toyCrypto none w := by
  have hrun := Pool.Reach.command (P := pool Tenths toyCrypto) (s := .start none) .refl 0
    (0, .mutate (.setBlock 7)) rfl trivial (by decide +kernel)
  exact ⟨_, by decide +kernel, linearizable_of_reach toyCrypto none hrun⟩

end Queue

end IcilOrchestrator

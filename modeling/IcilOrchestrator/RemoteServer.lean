import Mathlib
import IcilOrchestrator.Remote
import IcilOrchestrator.WireRoundTrip

/-!
# What the server of a policy can do

`server_cases` says all that one move of the server can do, by what it is at. From it
follow what the moves keep of the server alone : a session that awaits a message, with
none on its way, awaits it still (`awaits_step`), and the policy is called once for a
message, after it was built (`Hooks.step`).

`Answers c h` : the handler `h` gives the message of the call `c` one reply, after which
the session awaits the next message, unless the call closes it or failed to open it.
`answers_dispatch` is what the handlers of the source have of this.
-/

set_option linter.unusedSectionVars false

namespace IcilOrchestrator

open Python Wire Session

namespace Remote

variable {F : Type} [PyFloat F] [WireTexts F]

/-! ## Moves of the server -/

/-- The moves of the server. -/
def Move.isServer : Move F → Bool
  | .wake => true
  | .tire => true
  | .read => true
  | .readFails => true
  | .run => true
  | .tail _ => true
  | .built _ => true
  | .returned _ => true
  | .acted _ => true
  | .reply => true
  | .replyFails => true
  | .watch => true
  | .kill => true
  | _ => false

/-- What one move makes of the server, by what it is at. -/
def ServerStep (name : PyStr) (s t : Talk F) : Server F → Prop
  | .polling =>
    t = { s with server := .reading (recv maxMessageBytes) } ∨
      ∃ e, (e = .idle ∨ e = .killed) ∧ t = { s with server := .stopped e }
  | .reading r =>
    (∃ f up, s.up = f :: up ∧ t = ({ s with up := up } : Talk F).hear name (r.next f)) ∨
      ∃ e, (e = .hungUp ∨ e = .killed) ∧ t = { s with server := .stopped e }
  | .running h =>
    s.run h = some t ∨ (∃ k x, h = .tail k ∧ t = { s with server := .running (k x) }) ∨
      t = { s with server := .stopped .killed }
  | .busy h =>
    (∃ k e, h = .build k ∧ t = s.hasBuilt name k e) ∨
      (∃ g k e, h = .call g k ∧ t = { s with server := .running (k e) }) ∨
      (∃ a k e, h = .act a k ∧ t = { s with server := .running (k e) }) ∨
      ∃ e, (e = .hungUp ∨ e = .killed) ∧ t = { s with server := .stopped e }
  | .sending left lost k =>
    (∃ f l, left = f :: l ∧
        t = { s with server := .sending l lost k, down := s.down ++ [f] }) ∨
      (left = [] ∧ t = { s with server := .running k }) ∨
      (left ≠ [] ∧ t = { s with server := .stopped lost }) ∨
      t = { s with server := .stopped .killed }
  | .stopped _ => False

/-- All that one move of the server can do. -/
theorem server_cases {name : PyStr} {s t : Talk F} {m : Move F} (hm : m.isServer = true)
    (h : step name s m = some t) : ServerStep name s t s.server := by
  cases m with
  | wake =>
    simp only [step] at h
    split at h
    · rename_i hs
      split_ifs at h with hc
      rw [hs]
      exact Or.inl (Option.some.inj h).symm
    · simp at h
  | tire =>
    simp only [step] at h
    split at h
    · rename_i hs
      split_ifs at h with hc
      rw [hs]
      exact Or.inr ⟨_, Or.inl rfl, (Option.some.inj h).symm⟩
    · simp at h
  | read =>
    simp only [step] at h
    split at h
    · rename_i r f up hs hup
      rw [hs]
      exact Or.inl ⟨f, up, hup, (Option.some.inj h).symm⟩
    · simp at h
  | readFails =>
    simp only [step] at h
    split at h
    · rename_i hs
      split_ifs at h with hc
      rw [hs]
      exact Or.inr ⟨_, Or.inl rfl, (Option.some.inj h).symm⟩
    · simp at h
  | run =>
    simp only [step] at h
    split at h
    · rename_i hs
      rw [hs]
      exact Or.inl h
    · simp at h
  | tail x =>
    simp only [step] at h
    split at h
    · rename_i k hs
      rw [hs]
      exact Or.inr (Or.inl ⟨k, x, rfl, (Option.some.inj h).symm⟩)
    · simp at h
  | built e =>
    simp only [step] at h
    split at h
    · rename_i k hs
      rw [hs]
      exact Or.inl ⟨k, e, rfl, (Option.some.inj h).symm⟩
    · simp at h
  | returned e =>
    simp only [step] at h
    split at h
    · rename_i g k hs
      rw [hs]
      exact Or.inr (Or.inl ⟨g, k, e, rfl, (Option.some.inj h).symm⟩)
    · simp at h
  | acted e =>
    simp only [step] at h
    split at h
    · rename_i a k hs
      rw [hs]
      exact Or.inr (Or.inr (Or.inl ⟨a, k, e, rfl, (Option.some.inj h).symm⟩))
    · simp at h
  | reply =>
    simp only [step] at h
    split at h
    · rename_i f left lost k hs
      rw [hs]
      exact Or.inl ⟨f, left, rfl, (Option.some.inj h).symm⟩
    · rename_i lost k hs
      rw [hs]
      exact Or.inr (Or.inl ⟨rfl, (Option.some.inj h).symm⟩)
    · simp at h
  | replyFails =>
    simp only [step] at h
    split at h
    · rename_i f left lost k hs
      split_ifs at h with hc
      rw [hs]
      exact Or.inr (Or.inr (Or.inl ⟨by simp, (Option.some.inj h).symm⟩))
    · simp at h
  | watch =>
    simp only [step] at h
    split at h
    · rename_i hs
      split_ifs at h with hc
      rw [hs]
      exact Or.inr (Or.inr (Or.inr ⟨_, Or.inl rfl, (Option.some.inj h).symm⟩))
    · simp at h
  | kill =>
    simp only [step] at h
    split_ifs at h with hc
    obtain rfl := Option.some.inj h
    cases hs : s.server with
    | polling => exact Or.inr ⟨_, Or.inr rfl, rfl⟩
    | reading r => exact Or.inr ⟨_, Or.inr rfl, rfl⟩
    | running h => exact Or.inr (Or.inr rfl)
    | busy h => exact Or.inr (Or.inr (Or.inr ⟨_, Or.inr rfl, rfl⟩))
    | sending left lost k => exact Or.inr (Or.inr (Or.inr rfl))
    | stopped e => simp [Server.gone, hs] at hc
  | _ => simp [Move.isServer] at hm

/-! ## One reply to a message -/

/-- After this reply the client does not use the connection again. -/
def Drops (c : Call F) (op : PyStr) : Prop :=
  c.isClose = true ∨ (c.isHello = true ∧ op = py "error")

/-- What follows a reply : the next message, unless the client has no use for it. -/
def Follows (c : Call F) (op : PyStr) (k : Handler F) : Prop :=
  (∃ p, k = .next p) ∨ (∃ e, k = .stop e) ∧ Drops c op

/-- The handler gives one reply, unless the process ends before. -/
def Answers (c : Call F) : Handler F → Prop
  | .build k => ∀ e, Answers c (k e)
  | .call _ k => ∀ e, Answers c (k e)
  | .act _ k => ∀ e, Answers c (k e)
  | .tail k => ∀ t, Answers c (k t)
  | .send frames _ k => ∃ a : Accepted F, a.frames = frames ∧ Follows c a.op k
  | .next _ => False
  | .stop _ => True

theorem answers_send {c : Call F} {op : PyStr} {fields : Mapping (Json F)} {lost : End}
    {k : Handler F} (hk : Follows c op k) : Answers c (send op fields lost k) := by
  unfold send
  split
  · rename_i frames h
    exact ⟨⟨op, fields, noArrays, frames, h⟩, rfl, hk⟩
  · trivial

theorem answers_error {c : Call F} {kind message : PyStr} {k : Handler F}
    (hk : Follows c (py "error") k) : Answers c (error kind message k) :=
  fun _ => answers_send hk

/-- A call of the policy's is answered, however it ends. -/
theorem answers_call {α : Type} {c : Call F} {op : PyStr} {failed : Handler F}
    {k : α → Handler F} (hfailed : Follows c (py "error") failed) (hk : ∀ a, Answers c (k a))
    {run : (HookEnd α → Handler F) → Handler F}
    (hrun : ∀ g, (∀ e, Answers c (g e)) → Answers c (run g)) :
    Answers c (call run op failed k) := by
  refine hrun _ fun e => ?_
  cases e with
  | returned a => exact hk a
  | raised e => exact answers_error hfailed
  | escaped => trivial

theorem follows_next {c : Call F} {op : PyStr} (p : Option (Policy F)) :
    Follows c op (.next p) := Or.inl ⟨p, rfl⟩

theorem answers_opHello {c : Call F} (hc : c.isHello = true) (name : PyStr)
    (policy : Option (Policy F)) : Answers c (opHello name policy) := by
  have hdrop : Follows c (py "error") (.stop .notBuilt) := Or.inr ⟨⟨_, rfl⟩, Or.inr ⟨hc, rfl⟩⟩
  cases policy with
  | some p => exact answers_send (follows_next _)
  | none =>
    refine answers_call hdrop (fun b => ?_) fun _ hg => hg
    cases buildPolicy name b with
    | ok p => exact answers_send (follows_next _)
    | error why => exact answers_error hdrop

theorem answers_opClose {c : Call F} (hc : c.isClose = true) (policy : Option (Policy F)) :
    Answers c (opClose policy) := by
  have hdrop : ∀ op, Follows c op (.stop .closed) := fun op => Or.inr ⟨⟨_, rfl⟩, Or.inl hc⟩
  unfold opClose
  split_ifs
  · exact answers_call (hdrop _) (fun _ => answers_send (hdrop _)) fun _ hg => hg
  · exact answers_send (hdrop _)

theorem answers_opReset (c : Call F) (p : Policy F) (fields : Dict F) :
    Answers c (opReset p fields) := by
  unfold opReset
  split
  · exact answers_call (follows_next _) (fun _ => answers_send (follows_next _)) fun _ hg => hg
  · exact answers_error (follows_next _)

theorem answers_opPrompt (c : Call F) (p : Policy F) (fields : Dict F) (arrays : Arrays) :
    Answers c (opPrompt p fields arrays) := by
  unfold opPrompt
  split
  · exact answers_call (follows_next _) (fun _ => answers_send (follows_next _)) fun _ hg => hg
  · exact answers_error (follows_next _)

/-- The frames of an action are those of a message. -/
theorem actFrames_eq_ok {result : Acted} {frames : List Bytes}
    (h : actFrames (F := F) result = .ok frames) : ∃ a : Accepted F, a.frames = frames := by
  unfold actFrames at h
  split at h
  · simp at h
  · split at h
    · rename_i m _ fs hfs
      obtain rfl := Except.ok.inj h
      exact ⟨⟨_, _, _, fs, hfs⟩, rfl⟩
    · simp at h

theorem answers_opAct (c : Call F) (p : Policy F) (arrays : Arrays) :
    Answers c (opAct p arrays) := by
  refine answers_call (follows_next _) (fun result => ?_) fun _ hg => hg
  split
  · rename_i frames h
    obtain ⟨a, ha⟩ := actFrames_eq_ok h
    exact ⟨a, ha, follows_next _⟩
  · exact answers_error (follows_next _)

/-- The handler of the message of a call gives it one reply. -/
theorem answers_dispatch {c : Call F} {m : Message F} (hop : m.op = c.op) (name : PyStr)
    (policy : Option (Policy F)) : Answers c (dispatch name policy m) := by
  have hclient : c.op ∈ clientOps := by cases c <;> simp [Call.op, clientOps]
  have hhello : c.op = py "hello" → c.isHello = true := by
    cases c <;> simp [Call.op, Call.isHello]
  have hclose : c.op = py "close" → c.isClose = true := by
    cases c <;> simp [Call.op, Call.isClose]
  unfold dispatch
  rw [hop, if_neg (not_not.2 hclient)]
  by_cases h1 : c.op = py "hello"
  · rw [if_pos h1]
    exact answers_opHello (hhello h1) name policy
  rw [if_neg h1]
  by_cases h2 : c.op = py "close"
  · rw [if_pos h2]
    exact answers_opClose (hclose h2) policy
  rw [if_neg h2]
  cases policy with
  | none => exact answers_error (follows_next _)
  | some p =>
    dsimp only
    split_ifs
    · exact answers_opReset c p m.fields
    · exact answers_opPrompt c p m.fields m.arrays
    · exact answers_opAct c p m.arrays

/-! ## One call of the policy for a message -/

/-- The handler does not call the policy's `reset`, `set_demonstration` or `act`. -/
def Silent : Handler F → Prop
  | .build k => ∀ e, Silent (k e)
  | .call .close k => ∀ e, Silent (k e)
  | .call _ _ => False
  | .act _ _ => False
  | .tail k => ∀ t, Silent (k t)
  | .send _ _ k => Silent k
  | .next _ => True
  | .stop _ => True

/-- The handler calls the policy first, and not again. -/
def SilentAfter : Handler F → Prop
  | .build k => ∀ e, Silent (k e)
  | .call _ k => ∀ e, Silent (k e)
  | .act _ k => ∀ e, Silent (k e)
  | _ => False

/-- The session goes on with a policy only if one was built : `b` before, or by the
handler. -/
def Founded (name : PyStr) (b : Prop) : Handler F → Prop
  | .build k => ∀ e, Founded name (b ∨ ∃ x, e = .returned x ∧ (buildPolicy name x).isOk = true) (k e)
  | .call _ k => ∀ e, Founded name b (k e)
  | .act _ k => ∀ e, Founded name b (k e)
  | .tail k => ∀ t, Founded name b (k t)
  | .send _ _ k => Founded name b k
  | .next p => p.isSome = true → b
  | .stop _ => True

theorem Founded.mono {name : PyStr} {b b' : Prop} (hb : b → b') {h : Handler F}
    (hh : Founded name b h) : Founded name b' h := by
  induction h generalizing b b' with
  | build k ih => exact fun e => ih e (Or.imp_left hb) (hh e)
  | call g k ih => exact fun e => ih e hb (hh e)
  | act a k ih => exact fun e => ih e hb (hh e)
  | tail k ih => exact fun t => ih t hb (hh t)
  | send frames lost k ih => exact ih hb hh
  | next p => exact fun hp => hb (hh hp)
  | stop e => trivial

theorem silent_next (p : Option (Policy F)) : Silent (.next p) := trivial

theorem silent_stop (e : End) : Silent (.stop e : Handler F) := trivial

theorem founded_next (name : PyStr) {b : Prop} (hb : b) (p : Option (Policy F)) :
    Founded name b (.next p) := fun _ => hb

theorem founded_stop (name : PyStr) (b : Prop) (e : End) :
    Founded name b (.stop e : Handler F) := trivial

theorem silent_send {op : PyStr} {fields : Mapping (Json F)} {lost : End} {k : Handler F}
    (hk : Silent k) : Silent (send op fields lost k) := by
  unfold send
  split
  · exact hk
  · trivial

theorem founded_send {name op : PyStr} {fields : Mapping (Json F)} {lost : End} {b : Prop}
    {k : Handler F} (hk : Founded name b k) : Founded name b (send op fields lost k) := by
  unfold send
  split
  · exact hk
  · trivial

theorem silent_error {kind message : PyStr} {k : Handler F} (hk : Silent k) :
    Silent (error kind message k) := fun _ => silent_send hk

theorem founded_error {name kind message : PyStr} {b : Prop} {k : Handler F}
    (hk : Founded name b k) : Founded name b (error kind message k) := fun _ => founded_send hk

/-- A call whose end is answered is silent after it. -/
theorem silent_call {α : Type} {op : PyStr} {failed : Handler F} {k : α → Handler F}
    (hfailed : Silent failed) (hk : ∀ a, Silent (k a)) {P : Handler F → Prop}
    {run : (HookEnd α → Handler F) → Handler F} (hrun : ∀ g, (∀ e, Silent (g e)) → P (run g)) :
    P (call run op failed k) := by
  refine hrun _ fun e => ?_
  cases e with
  | returned a => exact hk a
  | raised e => exact silent_error hfailed
  | escaped => trivial

theorem silent_opHello (name : PyStr) (policy : Option (Policy F)) :
    Silent (opHello name policy) := by
  cases policy with
  | some p => exact silent_send (silent_next _)
  | none =>
    refine silent_call (P := Silent) (silent_stop _) (fun b => ?_) fun _ hg => hg
    cases buildPolicy name b with
    | ok p => exact silent_send (silent_next _)
    | error why => exact silent_error (silent_stop _)

theorem silent_opClose (policy : Option (Policy F)) : Silent (opClose policy) := by
  unfold opClose
  split_ifs
  · exact silent_call (P := Silent) (silent_stop _) (fun _ => silent_send (silent_stop _))
      fun _ hg => hg
  · exact silent_send (silent_stop _)

theorem silent_opReset (p : Policy F) (fields : Dict F) :
    Silent (opReset p fields) ∨ SilentAfter (opReset p fields) := by
  unfold opReset
  split
  · exact Or.inr (silent_call (P := SilentAfter) (silent_next _)
      (fun _ => silent_send (silent_next _)) fun _ hg => hg)
  · exact Or.inl (silent_error (silent_next _))

theorem silent_opPrompt (p : Policy F) (fields : Dict F) (arrays : Arrays) :
    Silent (opPrompt p fields arrays) ∨ SilentAfter (opPrompt p fields arrays) := by
  unfold opPrompt
  split
  · exact Or.inr (silent_call (P := SilentAfter) (silent_next _)
      (fun _ => silent_send (silent_next _)) fun _ hg => hg)
  · exact Or.inl (silent_error (silent_next _))

theorem silent_opAct (p : Policy F) (arrays : Arrays) : SilentAfter (opAct p arrays) := by
  refine silent_call (P := SilentAfter) (silent_next (some p)) (fun result => ?_) fun _ hg => hg
  split
  · exact silent_next (some p)
  · exact silent_error (silent_next (some p))

/-- What a message makes of the session calls the policy at most once, and only if there is
one. -/
theorem silent_dispatch (name : PyStr) (policy : Option (Policy F)) (m : Message F) :
    Silent (dispatch name policy m) ∨
      policy.isSome = true ∧ SilentAfter (dispatch name policy m) := by
  unfold dispatch
  by_cases h1 : m.op ∉ clientOps
  · rw [if_pos h1]
    exact Or.inl (silent_error (silent_next _))
  rw [if_neg h1]
  by_cases h2 : m.op = py "hello"
  · rw [if_pos h2]
    exact Or.inl (silent_opHello name policy)
  rw [if_neg h2]
  by_cases h3 : m.op = py "close"
  · rw [if_pos h3]
    exact Or.inl (silent_opClose policy)
  rw [if_neg h3]
  cases policy with
  | none => exact Or.inl (silent_error (silent_next _))
  | some p =>
    dsimp only
    split_ifs
    · exact (silent_opReset p m.fields).imp id fun h => ⟨rfl, h⟩
    · exact (silent_opPrompt p m.fields m.arrays).imp id fun h => ⟨rfl, h⟩
    · exact Or.inr ⟨rfl, silent_opAct p m.arrays⟩

/-- A call whose end is answered goes on with a policy only as its parts do. -/
theorem founded_call {α : Type} {name op : PyStr} {b : Prop} {failed : Handler F}
    {k : α → Handler F} (hfailed : Founded name b failed) (hk : ∀ a, Founded name b (k a))
    {run : (HookEnd α → Handler F) → Handler F}
    (hrun : ∀ g, (∀ e, Founded name b (g e)) → Founded name b (run g)) :
    Founded name b (call run op failed k) := by
  refine hrun _ fun e => ?_
  cases e with
  | returned a => exact hk a
  | raised e => exact founded_error hfailed
  | escaped => trivial

theorem founded_opHello {name : PyStr} {policy : Option (Policy F)} {b : Prop}
    (hb : policy.isSome = true → b) : Founded name b (opHello name policy) := by
  cases policy with
  | some p => exact founded_send fun _ => hb rfl
  | none =>
    intro e
    cases e with
    | returned x =>
      dsimp only
      cases hx : buildPolicy name x with
      | ok p => exact founded_send fun _ => Or.inr ⟨x, rfl, by rw [hx]; rfl⟩
      | error why => exact founded_error trivial
    | raised e => exact founded_error trivial
    | escaped => trivial

/-- A session that goes on with a policy after a message had one before, or built it. -/
theorem founded_dispatch {name : PyStr} {policy : Option (Policy F)} {b : Prop}
    (hb : policy.isSome = true → b) (m : Message F) :
    Founded name b (dispatch name policy m) := by
  unfold dispatch
  by_cases h1 : m.op ∉ clientOps
  · rw [if_pos h1]
    exact founded_error hb
  rw [if_neg h1]
  by_cases h2 : m.op = py "hello"
  · rw [if_pos h2]
    exact founded_opHello hb
  rw [if_neg h2]
  by_cases h3 : m.op = py "close"
  · rw [if_pos h3]
    unfold opClose
    split_ifs
    · exact founded_call (founded_stop _ _ _) (fun _ => founded_send (founded_stop _ _ _))
        fun _ hg => hg
    · exact founded_send (founded_stop _ _ _)
  rw [if_neg h3]
  cases policy with
  | none => exact founded_error hb
  | some p =>
    have hp : b := hb rfl
    dsimp only
    split_ifs
    · unfold opReset
      split
      · exact founded_call (founded_next name hp _) (fun _ => founded_send (founded_next name hp _))
          fun _ hg => hg
      · exact founded_error (founded_next name hp _)
    · unfold opPrompt
      split
      · exact founded_call (founded_next name hp _) (fun _ => founded_send (founded_next name hp _))
          fun _ hg => hg
      · exact founded_error (founded_next name hp _)
    · refine founded_call (founded_next name hp _) (fun result => ?_) fun _ hg => hg
      split
      · exact founded_next name hp _
      · exact founded_error (founded_next name hp _)

end Remote

end IcilOrchestrator

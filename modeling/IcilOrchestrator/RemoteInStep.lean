import Mathlib
import IcilOrchestrator.RemoteServer

/-!
# Client and server stay in step

`Joint` is what holds of both ends and of the frames between them while the client still
uses the connection : between calls nothing is on its way and the session awaits a message
(`InStep`), and during a call (`Exchanging`) the request is on its way, is handled, or is
replied to, so that what the client has read and what is still to come is one reply.

`synchronous_of_reach` : in every run whose requests the server's `recv` accepts, the two
are in step in every state reached. `strays` is a run that leaves it : the server's `recv`
refuses an array of no elements whose other dimensions multiply to more than it takes, so
it answers `act` with an error and ends the session, while the client keeps the
connection.
-/

set_option linter.unusedSectionVars false

namespace IcilOrchestrator

open Python Wire Session

namespace Remote

variable {F : Type} [PyFloat F] [WireTexts F] {name : PyStr} {s t : Talk F} {m : Move F}
  {c : Call F}

/-! ## The server, while nothing is on its way to it -/

/-- A move of the server's leaves the client as it is. -/
structure SameClient (s t : Talk F) : Prop where
  client : t.client = s.client
  conn : t.conn = s.conn
  requests : t.requests = s.requests

theorem sameClient_hear (s : Talk F) (name : PyStr) (up : List Bytes)
    (r : Reader (RecvError F) (Message F)) :
    SameClient s (({ s with up := up } : Talk F).hear name r) := by
  unfold Talk.hear
  split <;> exact ⟨rfl, rfl, rfl⟩

theorem sameClient_run {h : Handler F} (hrun : s.run h = some t) : SameClient s t := by
  unfold Talk.run at hrun
  split at hrun <;> first
    | (obtain rfl := Option.some.inj hrun; exact ⟨rfl, rfl, rfl⟩)
    | simp at hrun

theorem server_sameClient (hm : m.isServer = true) (h : step name s m = some t) :
    SameClient s t := by
  have hcases := server_cases hm h
  unfold ServerStep at hcases
  split at hcases
  · rcases hcases with rfl | ⟨e, -, rfl⟩ <;> exact ⟨rfl, rfl, rfl⟩
  · rcases hcases with ⟨f, up, -, rfl⟩ | ⟨e, -, rfl⟩
    · exact sameClient_hear s name up _
    · exact ⟨rfl, rfl, rfl⟩
  · rcases hcases with hrun | ⟨k, x, -, rfl⟩ | rfl
    · exact sameClient_run hrun
    · exact ⟨rfl, rfl, rfl⟩
    · exact ⟨rfl, rfl, rfl⟩
  · rcases hcases with ⟨k, e, -, rfl⟩ | ⟨g, k, e, -, rfl⟩ | ⟨a, k, e, -, rfl⟩ | ⟨e, -, rfl⟩ <;>
      exact ⟨rfl, rfl, rfl⟩
  · rcases hcases with ⟨f, l, -, rfl⟩ | ⟨-, rfl⟩ | ⟨-, rfl⟩ | rfl <;> exact ⟨rfl, rfl, rfl⟩
  · exact hcases.elim

/-- What a move of the server's leaves as it is while it has nothing to say. -/
structure Quiet (s t : Talk F) : Prop where
  up : t.up = s.up
  down : t.down = s.down
  heard : t.heard = s.heard
  replies : t.replies = s.replies

/-- A session that awaits a message, with none on its way, awaits it still. -/
theorem awaits_step (hm : m.isServer = true) (h : step name s m = some t)
    (hs : awaits s.server) (hup : s.up = []) : awaits t.server ∧ Quiet s t := by
  have hcases := server_cases hm h
  cases hserver : s.server with
  | polling =>
    rw [hserver] at hcases
    rcases hcases with rfl | ⟨e, he, rfl⟩
    · exact ⟨rfl, rfl, rfl, rfl, rfl⟩
    · exact ⟨he.imp_right Or.inl, rfl, rfl, rfl, rfl⟩
  | reading r =>
    rw [hserver] at hcases
    rcases hcases with ⟨f, up, hf, -⟩ | ⟨e, he, rfl⟩
    · simp [hup] at hf
    · exact ⟨he.elim (fun h => Or.inr (Or.inr h)) fun h => Or.inr (Or.inl h), rfl, rfl, rfl, rfl⟩
  | running g =>
    rw [hserver] at hcases hs
    cases g with
    | next p =>
      rcases hcases with hrun | ⟨k, x, hk, -⟩ | rfl
      · obtain rfl := Option.some.inj hrun
        exact ⟨trivial, rfl, rfl, rfl, rfl⟩
      · simp at hk
      · exact ⟨Or.inr (Or.inl rfl), rfl, rfl, rfl, rfl⟩
    | _ => exact hs.elim
  | busy g => exact absurd hs (by rw [hserver]; exact id)
  | sending left lost k =>
    rw [hserver] at hcases hs
    cases left with
    | cons f l => exact hs.elim
    | nil =>
      cases k with
      | next p =>
        rcases hcases with ⟨f, l, hf, -⟩ | ⟨-, rfl⟩ | ⟨hne, -⟩ | rfl
        · simp at hf
        · exact ⟨trivial, rfl, rfl, rfl, rfl⟩
        · exact absurd rfl hne
        · exact ⟨Or.inr (Or.inl rfl), rfl, rfl, rfl, rfl⟩
      | _ => exact hs.elim
  | stopped e =>
    rw [hserver] at hcases
    exact hcases.elim

/-! ## The stages of a call -/

/-- A request that was sent, or is being sent. -/
structure Asked (s : Talk F) (c : Call F) (frames : List Bytes) (q : Message F) : Prop where
  sent : c.frames = .ok frames
  last : s.requests.getLast? = some frames
  read : (recv (F := F) maxMessageBytes).run frames = some (.ok q, [])
  op : q.op = c.op

/-- A reader that is still to take a frame. -/
def Waits {α : Type} (r : Reader (RecvError F) α) : Prop := ∃ n e k, r = .frame n e k

/-- What the server has read of the request, and is still to. -/
def Hearing (coming frames : List Bytes) (q : Message F) : Server F → Prop
  | .polling => coming = frames
  | .running (.next _) => coming = frames
  | .sending [] _ (.next _) => coming = frames
  | .reading r => Waits r ∧ r.run coming = some (.ok q, [])
  | .stopped _ => True
  | _ => False

/-- The request is on its way. -/
structure Before (s : Talk F) (left frames : List Bytes) (q : Message F)
    (r : Reader (RecvError F) (Message F)) : Prop where
  heard : s.heard.length + 1 = s.requests.length
  down : s.down = []
  reader : r = recv maxReplyBytes
  server : Hearing (s.up ++ left) frames q s.server

/-- The request was heard, with nothing after it. -/
structure Heard (s : Talk F) (q : Message F) : Prop where
  heard : s.heard.length = s.requests.length
  last : s.heard.getLast? = some q
  up : s.up = []

/-- The handler of a message is to answer it. -/
def ToAnswer (c : Call F) : Server F → Prop
  | .running h => Answers c h
  | .busy h => Answers c h
  | .stopped _ => True
  | _ => False

/-- The request is handled. -/
structure Handling (s : Talk F) (c : Call F) (left : List Bytes) (q : Message F)
    (r : Reader (RecvError F) (Message F)) : Prop where
  heard : Heard s q
  left : left = []
  down : s.down = []
  reader : r = recv maxReplyBytes
  server : ToAnswer c s.server

/-- The server sends the frames `l`, and then awaits the next message, unless the client
has no use for it. -/
def Sends (c : Call F) (op : PyStr) (l : List Bytes) : Server F → Prop
  | .sending l' _ k => l' = l ∧ Follows c op k
  | .running (.stop _) => l = [] ∧ Drops c op
  | .stopped e => Drops c op ∨ l ≠ [] ∨ awaits (.stopped e : Server F)
  | sv => l = [] ∧ awaits sv

/-- The reply is on its way : what was read of it, what has arrived and what is still to be
sent are one message. -/
structure Replying (s : Talk F) (c : Call F) (left : List Bytes) (q : Message F)
    (r : Reader (RecvError F) (Message F)) (a : Accepted F) (l : List Bytes) : Prop where
  heard : Heard s q
  left : left = []
  reply : s.replies.getLast? = some (s.requests.length, a.frames)
  reads : r.run (s.down ++ l) = (recv maxReplyBytes).run a.frames
  server : Sends c a.op l s.server

/-- What holds during a call that is still to send `left` and to read the reply with `r`. -/
def Exchanging (s : Talk F) (c : Call F) (left : List Bytes)
    (r : Reader (RecvError F) (Message F)) : Prop :=
  ∃ frames q, Asked s c frames q ∧
    (Before s left frames q r ∨ Handling s c left q r ∨ ∃ a l, Replying s c left q r a l)

/-- The call has read the reply to its own request. -/
def Answered (s : Talk F) (c : Call F) (m : Message F) : Prop :=
  ∃ frames q, ∃ a : Accepted F, Asked s c frames q ∧ Heard s q ∧
    s.replies.getLast? = some (s.requests.length, a.frames) ∧
    (recv maxReplyBytes).run a.frames = some (.ok m, []) ∧ s.down = [] ∧
    Sends c a.op [] s.server

/-- The joint invariant. -/
def Joint (s : Talk F) : Prop :=
  match s.client with
  | .idle => s.conn = true → InStep s
  | .sending c left => s.conn = true ∧ Exchanging s c left (recv maxReplyBytes)
  | .reading c r => s.conn = true ∧ Waits r ∧ Exchanging s c [] r
  | .ended c x => s.conn = true ∧ ∀ m, x = .reply m → Answered s c m

/-! ## Moves of the server -/

theorem Asked.congr {frames : List Bytes} {q : Message F} (h : Asked s c frames q)
    (hst : t.requests = s.requests) : Asked t c frames q := ⟨h.sent, hst ▸ h.last, h.read, h.op⟩

theorem Heard.congr {q : Message F} (h : Heard s q) (hr : t.requests = s.requests)
    (hh : t.heard = s.heard) (hup : t.up = s.up) : Heard t q :=
  ⟨by rw [hh, hr]; exact h.heard, by rw [hh]; exact h.last, by rw [hup]; exact h.up⟩

/-- Sending a reply goes on, and ends in awaiting the next message. -/
theorem sends_step (hm : m.isServer = true) (h : step name s m = some t) {op : PyStr}
    {l : List Bytes} (hs : Sends c op l s.server) (hup : s.up = []) :
    ∃ l', t.down ++ l' = s.down ++ l ∧ Sends c op l' t.server ∧ t.up = s.up ∧
      t.heard = s.heard ∧ t.replies = s.replies := by
  have hcases := server_cases hm h
  have hawaits : ∀ (_ : l = []) (_ : awaits s.server), ∃ l', t.down ++ l' = s.down ++ l ∧
      Sends c op l' t.server ∧ t.up = s.up ∧ t.heard = s.heard ∧ t.replies = s.replies := by
    rintro rfl haw
    obtain ⟨ht, hq⟩ := awaits_step hm h haw hup
    refine ⟨[], by rw [hq.down], ?_, hq.up, hq.heard, hq.replies⟩
    unfold Sends
    split
    · rename_i l' lost k hsv
      rw [hsv] at ht
      cases l' with
      | cons f l' => exact ht.elim
      | nil =>
        cases k with
        | next p => exact ⟨rfl, follows_next p⟩
        | _ => exact ht.elim
    · rename_i e hsv
      rw [hsv] at ht
      exact ht.elim
    · rename_i e hsv
      rw [hsv] at ht
      exact Or.inr (Or.inr ht)
    · exact ⟨rfl, ht⟩
  cases hserver : s.server with
  | polling => rw [hserver] at hs hawaits; exact hawaits hs.1 hs.2
  | reading r => rw [hserver] at hs hawaits; exact hawaits hs.1 hs.2
  | busy g => rw [hserver] at hs hawaits; exact hawaits hs.1 hs.2
  | running g =>
    rw [hserver] at hs hawaits hcases
    cases g with
    | stop e =>
      obtain ⟨rfl, hd⟩ := hs
      rcases hcases with hrun | ⟨k, x, hk, -⟩ | rfl
      · obtain rfl := Option.some.inj hrun
        exact ⟨[], rfl, Or.inl hd, rfl, rfl, rfl⟩
      · simp at hk
      · exact ⟨[], rfl, Or.inl hd, rfl, rfl, rfl⟩
    | _ => exact hawaits hs.1 hs.2
  | stopped e => rw [hserver] at hcases; exact hcases.elim
  | sending left lost k =>
    rw [hserver] at hs hcases
    obtain ⟨rfl, hk⟩ := hs
    rcases hcases with ⟨f, l', rfl, rfl⟩ | ⟨rfl, rfl⟩ | ⟨hne, rfl⟩ | rfl
    · exact ⟨l', by simp, ⟨rfl, hk⟩, rfl, rfl, rfl⟩
    · refine ⟨[], rfl, ?_, rfl, rfl, rfl⟩
      rcases hk with ⟨p, rfl⟩ | ⟨⟨e, rfl⟩, hd⟩
      · exact ⟨rfl, trivial⟩
      · exact ⟨rfl, hd⟩
    · exact ⟨left, rfl, Or.inr (Or.inl hne), rfl, rfl, rfl⟩
    · exact ⟨left, rfl, Or.inr (Or.inr (Or.inr (Or.inl rfl))), rfl, rfl, rfl⟩

/-- What one frame makes of a reader that waits. -/
theorem waits_or_done {α : Type} (r : Reader (RecvError F) α) :
    (∃ v, r = .done v) ∨ Waits r := by
  cases r with
  | done v => exact Or.inl ⟨v, rfl⟩
  | frame n e k => exact Or.inr ⟨n, e, k, rfl⟩

theorem waits_recv (n : ℕ) : Waits (recv (F := F) n) := ⟨_, _, _, rfl⟩

/-- A request that is heard is heard whole, and handled next. -/
theorem hearing_step (hm : m.isServer = true) (h : step name s m = some t)
    {left frames : List Bytes} {q : Message F} {r : Reader (RecvError F) (Message F)}
    (ha : Asked s c frames q) (hb : Before s left frames q r) :
    Before t left frames q r ∨ Handling t c left q r := by
  have hcases := server_cases hm h
  have hsame := server_sameClient hm h
  obtain ⟨hheard, hdown, hreader, hs⟩ := hb
  cases hserver : s.server with
  | polling =>
    rw [hserver] at hcases hs
    rcases hcases with rfl | ⟨e, -, rfl⟩
    · refine Or.inl ⟨hheard, hdown, hreader, waits_recv _, ?_⟩
      rw [show s.up ++ left = frames from hs]
      exact ha.read
    · exact Or.inl ⟨hheard, hdown, hreader, trivial⟩
  | busy g => rw [hserver] at hs; exact hs.elim
  | stopped e => rw [hserver] at hcases; exact hcases.elim
  | running g =>
    rw [hserver] at hcases hs
    cases g with
    | next p =>
      rcases hcases with hrun | ⟨k, x, hk, -⟩ | rfl
      · obtain rfl := Option.some.inj hrun
        exact Or.inl ⟨hheard, hdown, hreader, hs⟩
      · simp at hk
      · exact Or.inl ⟨hheard, hdown, hreader, trivial⟩
    | _ => exact hs.elim
  | sending l lost k =>
    rw [hserver] at hcases hs
    cases l with
    | cons f l => exact hs.elim
    | nil =>
      cases k with
      | next p =>
        rcases hcases with ⟨f, l, hf, -⟩ | ⟨-, rfl⟩ | ⟨hne, -⟩ | rfl
        · simp at hf
        · exact Or.inl ⟨hheard, hdown, hreader, hs⟩
        · exact absurd rfl hne
        · exact Or.inl ⟨hheard, hdown, hreader, trivial⟩
      | _ => exact hs.elim
  | reading ρ =>
    rw [hserver] at hcases hs
    obtain ⟨⟨n, e, k, rfl⟩, hrun⟩ := hs
    rcases hcases with ⟨f, up, hup, rfl⟩ | ⟨e, -, rfl⟩
    · rw [hup, List.cons_append, Reader.run_next] at hrun
      rcases waits_or_done ((Reader.frame n e k).next f) with ⟨v, hv⟩ | hw
      · rw [hv, Reader.run_done, Option.some.injEq, Prod.mk.injEq] at hrun
        obtain ⟨rfl, hnil⟩ := hrun
        obtain ⟨rfl, rfl⟩ := List.append_eq_nil_iff.1 hnil
        rw [hv]
        refine Or.inr ⟨⟨?_, ?_, rfl⟩, rfl, hdown, hreader, answers_dispatch ha.op name _⟩
        · simpa [Talk.hear] using hheard
        · simp [Talk.hear]
      · obtain ⟨n', e', k', hr'⟩ := hw
        rw [hr'] at hrun ⊢
        exact Or.inl ⟨hheard, hdown, hreader, ⟨_, _, _, rfl⟩, hrun⟩
    · exact Or.inl ⟨hheard, hdown, hreader, trivial⟩

/-- A request that is handled is replied to. -/
theorem handling_step (hm : m.isServer = true) (h : step name s m = some t) {left : List Bytes}
    {q : Message F} {r : Reader (RecvError F) (Message F)} (hh : Handling s c left q r) :
    Handling t c left q r ∨ ∃ a l, Replying t c left q r a l := by
  have hcases := server_cases hm h
  obtain ⟨hheard, hleft, hdown, hreader, hs⟩ := hh
  cases hserver : s.server with
  | polling => rw [hserver] at hs; exact hs.elim
  | reading r => rw [hserver] at hs; exact hs.elim
  | sending l lost k => rw [hserver] at hs; exact hs.elim
  | stopped e => rw [hserver] at hcases; exact hcases.elim
  | busy g =>
    rw [hserver] at hcases hs
    rcases hcases with ⟨k, e, rfl, rfl⟩ | ⟨g, k, e, rfl, rfl⟩ | ⟨a, k, e, rfl, rfl⟩ | ⟨e, -, rfl⟩
    · exact Or.inl ⟨⟨hheard.1, hheard.2, hheard.3⟩, hleft, hdown, hreader, hs e⟩
    · exact Or.inl ⟨⟨hheard.1, hheard.2, hheard.3⟩, hleft, hdown, hreader, hs e⟩
    · exact Or.inl ⟨⟨hheard.1, hheard.2, hheard.3⟩, hleft, hdown, hreader, hs e⟩
    · exact Or.inl ⟨⟨hheard.1, hheard.2, hheard.3⟩, hleft, hdown, hreader, trivial⟩
  | running g =>
    rw [hserver] at hcases hs
    rcases hcases with hrun | ⟨k, x, rfl, rfl⟩ | rfl
    · cases g with
      | build k =>
        obtain rfl := Option.some.inj hrun
        exact Or.inl ⟨⟨hheard.1, hheard.2, hheard.3⟩, hleft, hdown, hreader, hs⟩
      | call g k =>
        cases g <;> obtain rfl := Option.some.inj hrun <;>
          exact Or.inl ⟨⟨hheard.1, hheard.2, hheard.3⟩, hleft, hdown, hreader, hs⟩
      | act a k =>
        obtain rfl := Option.some.inj hrun
        exact Or.inl ⟨⟨hheard.1, hheard.2, hheard.3⟩, hleft, hdown, hreader, hs⟩
      | tail k => simp [Talk.run] at hrun
      | send frames lost k =>
        obtain rfl := Option.some.inj hrun
        obtain ⟨a, rfl, hk⟩ := hs
        refine Or.inr ⟨a, a.frames, ⟨hheard.1, hheard.2, hheard.3⟩, hleft, ?_, ?_, rfl, hk⟩
        · rw [List.getLast?_concat, hheard.1]
        · rw [hreader]
          simp [hdown]
      | next p => exact hs.elim
      | stop e =>
        obtain rfl := Option.some.inj hrun
        exact Or.inl ⟨⟨hheard.1, hheard.2, hheard.3⟩, hleft, hdown, hreader, trivial⟩
    · exact Or.inl ⟨⟨hheard.1, hheard.2, hheard.3⟩, hleft, hdown, hreader, hs x⟩
    · exact Or.inl ⟨⟨hheard.1, hheard.2, hheard.3⟩, hleft, hdown, hreader, trivial⟩

/-- A move of the server's leaves a call in one of its stages. -/
theorem exchanging_step (hm : m.isServer = true) (h : step name s m = some t) {left : List Bytes}
    {r : Reader (RecvError F) (Message F)} (he : Exchanging s c left r) :
    Exchanging t c left r := by
  obtain ⟨frames, q, ha, hstage⟩ := he
  have hsame := server_sameClient hm h
  refine ⟨frames, q, ha.congr hsame.requests, ?_⟩
  rcases hstage with hb | hh | ⟨a, l, hr⟩
  · exact (hearing_step hm h ha hb).imp_right Or.inl
  · exact Or.inr (handling_step hm h hh)
  · obtain ⟨l', hdown, hs, hup, hheard, hreplies⟩ := sends_step hm h hr.server hr.heard.up
    refine Or.inr (Or.inr ⟨a, l', hr.heard.congr hsame.requests hheard hup, hr.left, ?_, ?_, hs⟩)
    · rw [hreplies, hsame.requests, hr.reply]
    · rw [hdown, hr.reads]

theorem answered_step (hm : m.isServer = true) (h : step name s m = some t) {r : Message F}
    (ha : Answered s c r) : Answered t c r := by
  obtain ⟨frames, q, a, hasked, hheard, hreply, hread, hdown, hs⟩ := ha
  have hsame := server_sameClient hm h
  obtain ⟨l', hdown', hs', hup, hheard', hreplies⟩ := sends_step hm h hs hheard.up
  rw [hdown, List.append_nil] at hdown'
  obtain ⟨hnil, rfl⟩ := List.append_eq_nil_iff.1 hdown'
  exact ⟨frames, q, a, hasked.congr hsame.requests, hheard.congr hsame.requests hheard' hup,
    by rw [hreplies, hsame.requests, hreply], hread, hnil, hs'⟩

theorem inStep_step (hm : m.isServer = true) (h : step name s m = some t) (hs : InStep s) :
    InStep t := by
  obtain ⟨ht, hq⟩ := awaits_step hm h hs.awaits hs.up
  have hsame := server_sameClient hm h
  exact ⟨by rw [hq.up, hs.up], by rw [hq.down, hs.down],
    by rw [hq.heard, hsame.requests, hs.heard], ht⟩

/-- The server keeps the joint invariant. -/
theorem Joint.server (hm : m.isServer = true) (h : step name s m = some t) (hs : Joint s) :
    Joint t := by
  have hsame := server_sameClient hm h
  unfold Joint at hs ⊢
  rw [hsame.client, hsame.conn]
  cases hc : s.client with
  | idle =>
    rw [hc] at hs
    exact fun hconn => inStep_step hm h (hs hconn)
  | sending c left =>
    rw [hc] at hs
    exact ⟨hs.1, exchanging_step hm h hs.2⟩
  | reading c r =>
    rw [hc] at hs
    exact ⟨hs.1, hs.2.1, exchanging_step hm h hs.2.2⟩
  | ended c x =>
    rw [hc] at hs
    exact ⟨hs.1, fun r hr => answered_step hm h (hs.2 r hr)⟩

/-! ## Moves of the client -/

/-- The accepted request of a call, and the message it is read as. -/
theorem Call.Accepted.read {frames : List Bytes} (hc : c.Accepted) (h : c.frames = .ok frames) :
    ∃ q, (recv (F := F) maxMessageBytes).run frames = some (.ok q, []) ∧ q.op = c.op := by
  obtain ⟨q, rest, hq⟩ := hc frames h
  let a : Wire.Accepted F := ⟨c.op, fieldsOf c.fields c.nodup_fields, c.arrays, frames, h⟩
  obtain ⟨rfl, hop⟩ := recv_whole (m := a) hq
  exact ⟨q, hq, hop⟩

/-- A session that awaits a message hears the next request from its first frame. -/
theorem hearing_of_awaits {sv : Server F} {frames : List Bytes} {q : Message F}
    (hs : awaits sv) (hq : (recv (F := F) maxMessageBytes).run frames = some (.ok q, [])) :
    Hearing frames frames q sv := by
  cases sv with
  | polling => rfl
  | reading r =>
    obtain rfl := hs
    exact ⟨waits_recv _, hq⟩
  | running h => cases h <;> first | exact rfl | exact hs.elim
  | busy h => exact hs.elim
  | sending l lost k =>
    cases l with
    | cons f l => exact hs.elim
    | nil => cases k <;> first | exact rfl | exact hs.elim
  | stopped e => trivial

/-- A call ends at once, or sends its request. -/
theorem call_cases (s : Talk F) (c : Call F) :
    (∃ closed o, s.call c = { s with closed := closed, trace := s.trace ++ [.ended c o] } ∧
      ((o = .refused ∧ closed = s.closed) ∨ o = .closed ∨
        (o = .unavailable .gone ∧ s.conn = false))) ∨
    ∃ frames, c.frames = .ok frames ∧ s.conn = true ∧
      s.call c = { s with
        client := .sending c frames
        timer := .armed
        requests := s.requests ++ [frames] } := by
  unfold Talk.call
  by_cases h1 : (c.isClose && s.closed) = true
  · rw [if_pos h1]
    exact Or.inl ⟨s.closed, .closed, rfl, Or.inr (Or.inl rfl)⟩
  rw [if_neg h1]
  by_cases h2 : (!c.typed) = true
  · rw [if_pos h2]
    exact Or.inl ⟨s.closed, .refused, rfl, Or.inl ⟨rfl, rfl⟩⟩
  rw [if_neg h2]
  by_cases h3 : (!s.conn) = true
  · rw [if_pos h3]
    refine Or.inl ⟨_, _, rfl, ?_⟩
    by_cases h4 : c.isClose = true
    · rw [if_pos h4]
      exact Or.inr (Or.inl rfl)
    · rw [if_neg h4]
      exact Or.inr (Or.inr ⟨rfl, by simpa using h3⟩)
  rw [if_neg h3]
  cases hframes : c.frames with
  | error e => exact Or.inl ⟨s.closed, .refused, rfl, Or.inl ⟨rfl, rfl⟩⟩
  | ok frames => exact Or.inr ⟨frames, rfl, by simpa using h3, rfl⟩

/-- A call begins. -/
theorem Joint.call (hs : Joint s) (hidle : s.client = .idle) (hc : c.Accepted) :
    Joint (s.call c) := by
  have hjoint : s.conn = true → InStep s := by
    unfold Joint at hs
    rwa [hidle] at hs
  rcases call_cases s c with ⟨closed, o, heq, -⟩ | ⟨frames, hframes, hconn, heq⟩
  · rw [heq]
    unfold Joint
    rw [hidle]
    exact fun h => ⟨(hjoint h).1, (hjoint h).2, (hjoint h).3, (hjoint h).4⟩
  · obtain ⟨q, hq, hop⟩ := hc.read hframes
    obtain ⟨hup, hdown, hheard, haw⟩ := hjoint hconn
    rw [heq]
    refine ⟨hconn, frames, q, ⟨hframes, by simp, hq, hop⟩, Or.inl ⟨?_, hdown, rfl, ?_⟩⟩
    · simp [hheard]
    · simpa [hup] using hearing_of_awaits haw hq

/-- A frame of the request is sent. -/
theorem Joint.send {f : Bytes} {left : List Bytes} (hs : Joint s)
    (hc : s.client = .sending c (f :: left)) (trace : List (Event F)) :
    Joint { s with client := .sending c left, up := s.up ++ [f], trace := trace } := by
  unfold Joint at hs
  rw [hc] at hs
  obtain ⟨hconn, frames, q, ha, hstage⟩ := hs
  refine ⟨hconn, frames, q, ⟨ha.1, ha.2, ha.3, ha.4⟩, ?_⟩
  rcases hstage with hb | hh | ⟨a, l, hr⟩
  · refine Or.inl ⟨hb.heard, hb.down, hb.reader, ?_⟩
    have := hb.server
    simpa using this
  · exact absurd hh.left (by simp)
  · exact absurd hr.left (by simp)

/-- The request is sent, and its reply awaited. -/
theorem Joint.sent (hs : Joint s) (hc : s.client = .sending c []) :
    Joint { s with client := .reading c (recv maxReplyBytes) } := by
  unfold Joint at hs
  rw [hc] at hs
  obtain ⟨hconn, frames, q, ha, hstage⟩ := hs
  refine ⟨hconn, waits_recv _, frames, q, ⟨ha.1, ha.2, ha.3, ha.4⟩, ?_⟩
  rcases hstage with hb | hh | ⟨a, l, hr⟩
  · exact Or.inl ⟨hb.1, hb.2, hb.3, hb.4⟩
  · exact Or.inr (Or.inl ⟨⟨hh.1.1, hh.1.2, hh.1.3⟩, hh.2, hh.3, hh.4, hh.5⟩)
  · exact Or.inr (Or.inr ⟨a, l, ⟨hr.1.1, hr.1.2, hr.1.3⟩, hr.2, hr.3, hr.4, hr.5⟩)

/-- The exchange fails. -/
theorem Joint.fail (hconn : s.conn = true) :
    Joint { s with client := .ended c .lost } := ⟨hconn, fun m hm => by simp at hm⟩

/-- A frame of the reply is read. -/
theorem Joint.take {f : Bytes} {down : List Bytes} {r : Reader (RecvError F) (Message F)}
    (hs : Joint s) (hc : s.client = .reading c r) (hdown : s.down = f :: down)
    (trace : List (Event F)) :
    Joint { s with client := readingOf c (r.next f), down := down, trace := trace } := by
  unfold Joint at hs
  rw [hc] at hs
  obtain ⟨hconn, ⟨n, e, k, rfl⟩, frames, q, ha, hstage⟩ := hs
  rcases hstage with hb | hh | ⟨a, l, hr⟩
  · exact absurd hb.down (by simp [hdown])
  · exact absurd hh.down (by simp [hdown])
  · have hreads := hr.reads
    rw [hdown, List.cons_append, Reader.run_next] at hreads
    rcases waits_or_done ((Reader.frame n e k).next f) with ⟨v, hv⟩ | ⟨n', e', k', hw⟩
    · rw [hv] at hreads ⊢
      cases v with
      | error x => exact ⟨hconn, fun m hm => by simp at hm⟩
      | ok m =>
        rw [Reader.run_done] at hreads
        obtain ⟨hnil, -⟩ := recv_whole hreads.symm
        rw [hnil] at hreads
        obtain ⟨hdown', rfl⟩ := List.append_eq_nil_iff.1 hnil
        refine ⟨hconn, fun m' hm' => ?_⟩
        obtain rfl : m = m' := by simpa using hm'
        exact ⟨frames, q, a, ⟨ha.1, ha.2, ha.3, ha.4⟩, ⟨hr.1.1, hr.1.2, hr.1.3⟩, hr.reply,
          hreads.symm, hdown', hr.server⟩
    · rw [hw] at hreads ⊢
      exact ⟨hconn, ⟨_, _, _, rfl⟩, frames, q, ⟨ha.1, ha.2, ha.3, ha.4⟩,
        Or.inr (Or.inr ⟨a, l, ⟨hr.1.1, hr.1.2, hr.1.3⟩, rfl, hr.reply, hreads, hr.server⟩)⟩

/-- A call that keeps the connection has read a reply, to which the client goes on. -/
theorem settle_kept {expired : Bool} {x : Exchange F} (h : (c.settle expired x).2 = true) :
    ∃ m, x = .reply m ∧ ¬Drops c m.op := by
  unfold Call.settle at h
  split_ifs at h with h1 h2
  cases x with
  | lost => simp at h
  | malformed e => simp at h
  | reply m =>
    refine ⟨m, rfl, ?_⟩
    rintro (hd | ⟨hhello, hop⟩)
    · exact h1 hd
    · simp [hop, hhello] at h

/-- A session that has sent a reply the client goes on from awaits the next message. -/
theorem awaits_of_sends {op : PyStr} {sv : Server F} (h : Sends c op [] sv)
    (hd : ¬Drops c op) : awaits sv := by
  cases sv with
  | polling => exact h.2
  | reading r => exact h.2
  | busy g => exact h.2
  | running g =>
    cases g with
    | stop e => exact absurd h.2 hd
    | _ => exact h.2
  | stopped e => exact (h.resolve_left hd).resolve_left fun hne => hne rfl
  | sending l lost k =>
    obtain ⟨rfl, ⟨p, rfl⟩ | ⟨-, hdrop⟩⟩ := h
    · trivial
    · exact absurd hdrop hd

/-- A call that keeps the connection leaves both ends in step. -/
theorem Answered.inStep {r : Message F} (h : Answered s c r) (hd : ¬Drops c r.op) :
    InStep s := by
  obtain ⟨frames, q, a, hasked, hheard, hreply, hread, hdown, hs⟩ := h
  obtain ⟨-, hop⟩ := recv_whole hread
  exact ⟨hheard.up, hdown, hheard.heard, awaits_of_sends hs (hop ▸ hd)⟩

theorem Joint.settle {x : Exchange F} (hs : Joint s) (hc : s.client = .ended c x) :
    Joint (s.settle c x) := by
  unfold Joint at hs
  rw [hc] at hs
  intro hconn
  obtain ⟨m, rfl, hd⟩ := settle_kept hconn
  obtain ⟨hup, hdown, hheard, haw⟩ := (hs.2 m rfl).inStep hd
  exact ⟨hup, hdown, hheard, haw⟩

/-- What the timers do is no matter to the joint invariant. -/
theorem Joint.timer (hs : Joint s) (timer : Timer) (late : ℕ) (shut : Bool) :
    Joint { s with timer := timer, late := late, shut := shut } := by
  unfold Joint at hs ⊢
  cases hc : s.client with
  | idle =>
    rw [hc] at hs
    exact fun h => ⟨(hs h).1, (hs h).2, (hs h).3, (hs h).4⟩
  | sending c left =>
    rw [hc] at hs
    obtain ⟨hconn, frames, q, ha, hb | hh | ⟨a, l, hr⟩⟩ := hs
    · exact ⟨hconn, frames, q, ⟨ha.1, ha.2, ha.3, ha.4⟩, Or.inl ⟨hb.1, hb.2, hb.3, hb.4⟩⟩
    · exact ⟨hconn, frames, q, ⟨ha.1, ha.2, ha.3, ha.4⟩,
        Or.inr (Or.inl ⟨⟨hh.1.1, hh.1.2, hh.1.3⟩, hh.2, hh.3, hh.4, hh.5⟩)⟩
    · exact ⟨hconn, frames, q, ⟨ha.1, ha.2, ha.3, ha.4⟩,
        Or.inr (Or.inr ⟨a, l, ⟨hr.1.1, hr.1.2, hr.1.3⟩, hr.2, hr.3, hr.4, hr.5⟩)⟩
  | reading c r =>
    rw [hc] at hs
    obtain ⟨hconn, hw, frames, q, ha, hb | hh | ⟨a, l, hr⟩⟩ := hs
    · exact ⟨hconn, hw, frames, q, ⟨ha.1, ha.2, ha.3, ha.4⟩, Or.inl ⟨hb.1, hb.2, hb.3, hb.4⟩⟩
    · exact ⟨hconn, hw, frames, q, ⟨ha.1, ha.2, ha.3, ha.4⟩,
        Or.inr (Or.inl ⟨⟨hh.1.1, hh.1.2, hh.1.3⟩, hh.2, hh.3, hh.4, hh.5⟩)⟩
    · exact ⟨hconn, hw, frames, q, ⟨ha.1, ha.2, ha.3, ha.4⟩,
        Or.inr (Or.inr ⟨a, l, ⟨hr.1.1, hr.1.2, hr.1.3⟩, hr.2, hr.3, hr.4, hr.5⟩)⟩
  | ended c x =>
    rw [hc] at hs
    refine ⟨hs.1, fun m hm => ?_⟩
    obtain ⟨frames, q, a, ha, hh, h1, h2, h3, h4⟩ := hs.2 m hm
    exact ⟨frames, q, a, ⟨ha.1, ha.2, ha.3, ha.4⟩, ⟨hh.1, hh.2, hh.3⟩, h1, h2, h3, h4⟩

/-- All that one move of the client or of a timer can do. -/
theorem client_cases (hm : m.isServer = false) (h : step name s m = some t) :
    (∃ c, m = .call c ∧ s.client = .idle ∧ t = s.call c) ∨
    (∃ c f left, s.client = .sending c (f :: left) ∧
      t = { s with client := .sending c left, up := s.up ++ [f], trace := s.trace ++ [.sent] }) ∨
    (∃ c, s.client = .sending c [] ∧ t = { s with client := .reading c (recv maxReplyBytes) }) ∨
    (∃ c, s.client ≠ .idle ∧ t = { s with client := .ended c .lost }) ∨
    (∃ c r f down, s.client = .reading c r ∧ s.down = f :: down ∧
      t = { s with
        client := readingOf c (r.next f)
        down := down
        trace := s.trace ++ [.got] }) ∨
    (∃ c x, s.client = .ended c x ∧ t = s.settle c x) ∨
    ∃ timer late shut, t = { s with timer := timer, late := late, shut := shut } := by
  cases m with
  | call c =>
    simp only [step] at h
    split at h
    · rename_i hc
      exact Or.inl ⟨c, rfl, hc, (Option.some.inj h).symm⟩
    · simp at h
  | send =>
    simp only [step] at h
    split at h
    · rename_i c f left hc
      split_ifs at h
      exact Or.inr (Or.inl ⟨c, f, left, hc, (Option.some.inj h).symm⟩)
    · rename_i c hc
      exact Or.inr (Or.inr (Or.inl ⟨c, hc, (Option.some.inj h).symm⟩))
    · simp at h
  | sendFails =>
    simp only [step] at h
    split at h
    · rename_i c f left hc
      split_ifs at h
      exact Or.inr (Or.inr (Or.inr (Or.inl ⟨c, by simp [hc], (Option.some.inj h).symm⟩)))
    · simp at h
  | take =>
    simp only [step] at h
    split at h
    · rename_i c r f down hc hd
      exact Or.inr (Or.inr (Or.inr (Or.inr (Or.inl
        ⟨c, r, f, down, hc, hd, (Option.some.inj h).symm⟩))))
    · simp at h
  | takeFails =>
    simp only [step] at h
    split at h
    · rename_i c r hc
      split_ifs at h
      exact Or.inr (Or.inr (Or.inr (Or.inl ⟨c, by simp [hc], (Option.some.inj h).symm⟩)))
    · simp at h
  | settle =>
    simp only [step] at h
    split at h
    · rename_i c x hc
      exact Or.inr (Or.inr (Or.inr (Or.inr (Or.inr (Or.inl
        ⟨c, x, hc, (Option.some.inj h).symm⟩)))))
    · simp at h
  | fire =>
    simp only [step] at h
    split_ifs at h
    exact Or.inr (Or.inr (Or.inr (Or.inr (Or.inr (Or.inr
      ⟨.fired, s.late, s.shut, (Option.some.inj h).symm⟩)))))
  | set =>
    simp only [step] at h
    split_ifs at h
    exact Or.inr (Or.inr (Or.inr (Or.inr (Or.inr (Or.inr
      ⟨.set, s.late, s.shut, (Option.some.inj h).symm⟩)))))
  | shut =>
    simp only [step] at h
    split_ifs at h
    exact Or.inr (Or.inr (Or.inr (Or.inr (Or.inr (Or.inr
      ⟨.spent, s.late, true, (Option.some.inj h).symm⟩)))))
  | shutLate =>
    simp only [step] at h
    split_ifs at h
    exact Or.inr (Or.inr (Or.inr (Or.inr (Or.inr (Or.inr
      ⟨s.timer, s.late - 1, true, (Option.some.inj h).symm⟩)))))
  | _ => simp [Move.isServer] at hm

/-- A client in a call has its connection. -/
theorem Joint.conn (hs : Joint s) (hc : s.client ≠ .idle) : s.conn = true := by
  unfold Joint at hs
  cases h : s.client with
  | idle => exact absurd h hc
  | sending c left => rw [h] at hs; exact hs.1
  | reading c r => rw [h] at hs; exact hs.1
  | ended c x => rw [h] at hs; exact hs.1

/-- Every move keeps the joint invariant. -/
theorem Joint.step (hmeets : m.Accepted) (h : step name s m = some t) (hs : Joint s) :
    Joint t := by
  cases hm : m.isServer with
  | true => exact hs.server hm h
  | false =>
    rcases client_cases hm h with ⟨c, rfl, hc, rfl⟩ | ⟨c, f, left, hc, rfl⟩ | ⟨c, hc, rfl⟩ |
      ⟨c, hc, rfl⟩ | ⟨c, r, f, down, hc, hd, rfl⟩ | ⟨c, x, hc, rfl⟩ | ⟨timer, late, shut, rfl⟩
    · exact hs.call hc hmeets
    · exact hs.send hc _
    · exact hs.sent hc
    · exact Joint.fail (hs.conn hc)
    · exact hs.take hc hd _
    · exact hs.settle hc
    · exact hs.timer timer late shut

/-! ## What was done -/

/-- The first place of a list is before its last, or is it. -/
theorem append_cons_eq_concat {α : Type} {es es' l : List α} {x y : α}
    (h : l ++ [y] = es ++ x :: es') :
    (es' = [] ∧ es = l ∧ x = y) ∨ ∃ es'', es' = es'' ++ [y] ∧ l = es ++ x :: es'' := by
  rcases List.eq_nil_or_concat es' with rfl | ⟨es'', z, rfl⟩
  · obtain ⟨rfl, hxy⟩ := List.append_inj' h rfl
    exact Or.inl ⟨rfl, rfl, (by simpa using hxy.symm)⟩
  · refine Or.inr ⟨es'', ?_⟩
    have h' : l ++ [y] = (es ++ x :: es'') ++ [z] := by simpa using h
    obtain ⟨rfl, hyz⟩ := List.append_inj' h' rfl
    obtain rfl : y = z := by simpa using hyz
    exact ⟨by simp, rfl⟩

/-- What is sent and received after a call that spoils the connection : nothing. -/
def Spent (es : List (Event F)) : Prop :=
  ∀ es₁ c o es₂, es = es₁ ++ .ended c o :: es₂ → spoils c o = true → .sent ∉ es₂ ∧ .got ∉ es₂

/-- No call has spoiled the connection. -/
def Sound (es : List (Event F)) : Prop := ∀ c o, .ended c o ∈ es → spoils c o = false

theorem Spent.concat {es : List (Event F)} (h : Spent es) {e : Event F}
    (he : e = .sent ∨ e = .got → Sound es) : Spent (es ++ [e]) := by
  intro es₁ c o es₂ heq hsp
  rcases append_cons_eq_concat heq with ⟨rfl, -, -⟩ | ⟨es₃, rfl, rfl⟩
  · simp
  · obtain ⟨hs, hg⟩ := h _ _ _ _ rfl hsp
    have hno : ¬(e = .sent ∨ e = .got) := fun h' => by
      have := he h' c o (by simp)
      rw [hsp] at this
      exact absurd this (by decide)
    simp only [List.mem_append, List.mem_singleton, not_or]
    exact ⟨⟨hs, fun h => hno (Or.inl h.symm)⟩, ⟨hg, fun h => hno (Or.inr h.symm)⟩⟩

/-- The connection is not used after it was spoiled. -/
structure Unused (s : Talk F) : Prop where
  spent : Spent s.trace
  sound : s.conn = true → Sound s.trace

theorem Unused.of_eq (h : Unused s) (htrace : t.trace = s.trace) (hconn : t.conn = s.conn) :
    Unused t := ⟨htrace ▸ h.spent, fun ht => htrace ▸ h.sound (hconn ▸ ht)⟩

/-- An event that is not the end of a call. -/
theorem Unused.event {e : Event F} (h : Unused s) (htrace : t.trace = s.trace ++ [e])
    (hconn : t.conn = s.conn) (he : e = .sent ∨ e = .got → s.conn = true)
    (hne : ∀ c o, e ≠ .ended c o) : Unused t := by
  refine ⟨htrace ▸ h.spent.concat fun h' => h.sound (he h'), fun ht c o hmem => ?_⟩
  rw [htrace, List.mem_append, List.mem_singleton] at hmem
  exact hmem.elim (h.sound (hconn ▸ ht) c o) fun h' => absurd h'.symm (hne c o)

/-- The end of a call that keeps the connection only if it does not spoil it. -/
theorem Unused.ended {o : Outcome F} (h : Unused s) (htrace : t.trace = s.trace ++ [.ended c o])
    (hconn : t.conn = true → s.conn = true ∧ spoils c o = false) : Unused t := by
  refine ⟨htrace ▸ h.spent.concat (by simp), fun ht c' o' hmem => ?_⟩
  obtain ⟨hs, ho⟩ := hconn ht
  rw [htrace, List.mem_append, List.mem_singleton] at hmem
  rcases hmem with hmem | hmem
  · exact h.sound hs c' o' hmem
  · obtain ⟨rfl, rfl⟩ := Event.ended.inj hmem
    exact ho

/-- A call that keeps the connection does not spoil it. -/
theorem spoils_settle {expired : Bool} {x : Exchange F} (h : (c.settle expired x).2 = true) :
    spoils c (c.settle expired x).1 = false := by
  unfold Call.settle at h ⊢
  split_ifs at h ⊢ with h1 h2
  cases x with
  | lost => simp at h
  | malformed e => simp at h
  | reply r =>
    dsimp only at h ⊢
    split_ifs at h ⊢ with h3 h4
    · simpa [spoils] using h
    · unfold Call.answer at h ⊢
      cases c with
      | hello =>
        dsimp only at h ⊢
        split at h
        · split_ifs at h ⊢ with hz
          split at h
          · split_ifs at h ⊢ with ht
            rfl
          · simp at h
        · simp at h
      | act obs =>
        dsimp only at h ⊢
        split
        · split_ifs <;> rfl
        · rfl
      | _ => rfl

/-- What a move of the server's adds to the trace. -/
theorem server_trace (hm : m.isServer = true) (h : step name s m = some t) :
    t.trace = s.trace ∨ ∃ e, t.trace = s.trace ++ [e] ∧ (e = .heard ∨ e = .built ∨ e = .invoked) := by
  have hcases := server_cases hm h
  unfold ServerStep at hcases
  split at hcases
  · rcases hcases with rfl | ⟨e, -, rfl⟩ <;> exact Or.inl rfl
  · rcases hcases with ⟨f, up, -, rfl⟩ | ⟨e, -, rfl⟩
    · unfold Talk.hear
      split
      · exact Or.inr ⟨.heard, rfl, Or.inl rfl⟩
      · exact Or.inl rfl
      · exact Or.inl rfl
    · exact Or.inl rfl
  · rcases hcases with hrun | ⟨k, x, -, rfl⟩ | rfl
    · unfold Talk.run at hrun
      split at hrun <;> first
        | (obtain rfl := Option.some.inj hrun; exact Or.inl rfl)
        | (obtain rfl := Option.some.inj hrun; exact Or.inr ⟨.invoked, rfl, Or.inr (Or.inr rfl)⟩)
        | simp at hrun
    · exact Or.inl rfl
    · exact Or.inl rfl
  · rcases hcases with ⟨k, e, -, rfl⟩ | ⟨g, k, e, -, rfl⟩ | ⟨a, k, e, -, rfl⟩ | ⟨e, -, rfl⟩
    · unfold Talk.hasBuilt
      cases e with
      | returned b =>
        dsimp only
        split_ifs
        · exact Or.inr ⟨.built, rfl, Or.inr (Or.inl rfl)⟩
        · exact Or.inl (List.append_nil _)
      | raised e => exact Or.inl (List.append_nil _)
      | escaped => exact Or.inl (List.append_nil _)
    · exact Or.inl rfl
    · exact Or.inl rfl
    · exact Or.inl rfl
  · rcases hcases with ⟨f, l, -, rfl⟩ | ⟨-, rfl⟩ | ⟨-, rfl⟩ | rfl <;> exact Or.inl rfl
  · exact hcases.elim

/-- Every move keeps the connection unused once it is spoiled. -/
theorem Unused.step (hjoint : Joint s) (h : step name s m = some t) (hs : Unused s) :
    Unused t := by
  cases hm : m.isServer with
  | true =>
    have hconn := (server_sameClient hm h).conn
    rcases server_trace hm h with htrace | ⟨e, htrace, he⟩
    · exact hs.of_eq htrace hconn
    · refine hs.event htrace hconn (fun h' => ?_) fun c o => ?_
      · rcases he with rfl | rfl | rfl <;> simp at h'
      · rcases he with rfl | rfl | rfl <;> simp
  | false =>
    rcases client_cases hm h with ⟨c, rfl, hc, rfl⟩ | ⟨c, f, left, hc, rfl⟩ | ⟨c, hc, rfl⟩ |
      ⟨c, hc, rfl⟩ | ⟨c, r, f, down, hc, hd, rfl⟩ | ⟨c, x, hc, rfl⟩ | ⟨timer, late, shut, rfl⟩
    · rcases call_cases s c with ⟨closed, o, heq, ho⟩ | ⟨frames, -, -, heq⟩
      · rw [heq]
        refine hs.ended rfl fun hconn => ⟨hconn, ?_⟩
        rcases ho with ⟨rfl, -⟩ | rfl | ⟨rfl, hno⟩
        · rfl
        · rfl
        · exact absurd hconn (by simp [hno])
      · rw [heq]
        exact hs.of_eq rfl rfl
    · exact hs.event rfl rfl (fun _ => hjoint.conn (by simp [hc])) (by simp)
    · exact hs.of_eq rfl rfl
    · exact hs.of_eq rfl rfl
    · exact hs.event rfl rfl (fun _ => hjoint.conn (by simp [hc])) (by simp)
    · exact hs.ended rfl fun hconn => ⟨hjoint.conn (by simp [hc]), spoils_settle hconn⟩
    · exact hs.of_eq rfl rfl

/-! ## The policy's calls -/

/-- Every call of the policy is one it may get. -/
def Once (es : List (Event F)) : Prop :=
  ∀ es₁ es₂, es = es₁ ++ .invoked :: es₂ → MayInvoke es₁

theorem Once.concat {es : List (Event F)} (h : Once es) {e : Event F}
    (he : e = .invoked → MayInvoke es) : Once (es ++ [e]) := by
  intro es₁ es₂ heq
  rcases append_cons_eq_concat heq with ⟨-, rfl, hx⟩ | ⟨es₃, -, rfl⟩
  · exact he hx.symm
  · exact h _ _ rfl

/-- An event other than a call of the policy leaves it as it may be called. -/
theorem MayInvoke.concat {es : List (Event F)} (h : MayInvoke es) {e : Event F}
    (he : e ≠ .invoked) : MayInvoke (es ++ [e]) := by
  obtain ⟨hb, es₁, es₂, rfl, hno⟩ := h
  refine ⟨List.mem_append_left _ hb, es₁, es₂ ++ [e], by simp, ?_⟩
  simp only [List.mem_append, List.mem_singleton, not_or]
  exact ⟨hno, he.symm⟩

/-- What the session may still do with the message it has. -/
def MayStill (name : PyStr) (es : List (Event F)) : Server F → Prop
  | .running h => Founded name (.built ∈ es) h ∧ (Silent h ∨ MayInvoke es ∧ SilentAfter h)
  | .busy h => Founded name (.built ∈ es) h ∧ SilentAfter h
  | .sending _ _ k => Founded name (.built ∈ es) k ∧ Silent k
  | _ => True

/-- The policy is called once for a message, after it was built. -/
structure Hooks (name : PyStr) (s : Talk F) : Prop where
  once : Once s.trace
  built : s.policy.isSome = true → .built ∈ s.trace
  server : MayStill name s.trace s.server

theorem MayStill.concat {es : List (Event F)} {sv : Server F} (h : MayStill name es sv)
    {e : Event F} (he : e ≠ .invoked) : MayStill name (es ++ [e]) sv := by
  have hmem : (.built ∈ es) → (.built ∈ es ++ [e]) := List.mem_append_left _
  cases sv with
  | running g => exact ⟨h.1.mono hmem, h.2.imp_right fun h' => ⟨h'.1.concat he, h'.2⟩⟩
  | busy g => exact ⟨h.1.mono hmem, h.2⟩
  | sending l lost k => exact ⟨h.1.mono hmem, h.2⟩
  | _ => trivial

theorem Hooks.of_eq (h : Hooks name s) (htrace : t.trace = s.trace)
    (hserver : t.server = s.server) (hpolicy : t.policy = s.policy) : Hooks name t :=
  ⟨htrace ▸ h.once, fun ht => htrace ▸ h.built (hpolicy ▸ ht), by rw [htrace, hserver]; exact h.server⟩

theorem Hooks.event (h : Hooks name s) {e : Event F} (htrace : t.trace = s.trace ++ [e])
    (hserver : t.server = s.server) (hpolicy : t.policy = s.policy) (he : e ≠ .invoked) :
    Hooks name t :=
  ⟨htrace ▸ h.once.concat fun h' => absurd h' he,
    fun ht => by rw [htrace]; exact List.mem_append_left _ (h.built (hpolicy ▸ ht)),
    by rw [htrace, hserver]; exact h.server.concat he⟩

/-- A handler is run up to its next call, reply or message. -/
theorem Hooks.run {g : Handler F} (hs : Hooks name s) (hserver : s.server = .running g)
    (hrun : s.run g = some t) : Hooks name t := by
  have hstill := hs.server
  rw [hserver] at hstill
  obtain ⟨hf, hq⟩ := hstill
  cases g with
  | build k =>
    obtain rfl := Option.some.inj hrun
    exact ⟨hs.once, hs.built, hf, hq.elim id fun h => h.2⟩
  | call g k =>
    cases g with
    | close =>
      obtain rfl := Option.some.inj hrun
      exact ⟨hs.once, hs.built, hf, hq.elim id fun h => h.2⟩
    | reset seed =>
      obtain rfl := Option.some.inj hrun
      obtain ⟨hmay, hafter⟩ := hq.resolve_left id
      exact ⟨hs.once.concat fun _ => hmay, fun h => List.mem_append_left _ (hs.built h),
        hf.mono (List.mem_append_left _), hafter⟩
    | setDemonstration arrays info =>
      obtain rfl := Option.some.inj hrun
      obtain ⟨hmay, hafter⟩ := hq.resolve_left id
      exact ⟨hs.once.concat fun _ => hmay, fun h => List.mem_append_left _ (hs.built h),
        hf.mono (List.mem_append_left _), hafter⟩
  | act a k =>
    obtain rfl := Option.some.inj hrun
    obtain ⟨hmay, hafter⟩ := hq.resolve_left id
    exact ⟨hs.once.concat fun _ => hmay, fun h => List.mem_append_left _ (hs.built h),
      hf.mono (List.mem_append_left _), hafter⟩
  | tail k => simp [Talk.run] at hrun
  | send frames lost k =>
    obtain rfl := Option.some.inj hrun
    exact ⟨hs.once, hs.built, hf, hq.resolve_right fun h => h.2⟩
  | next p =>
    obtain rfl := Option.some.inj hrun
    exact ⟨hs.once, hf, trivial⟩
  | stop e =>
    obtain rfl := Option.some.inj hrun
    exact ⟨hs.once, hs.built, trivial⟩

/-- A message is heard, or cannot be read. -/
theorem Hooks.hear (hs : Hooks name s) (up : List Bytes)
    (r : Reader (RecvError F) (Message F)) :
    Hooks name (({ s with up := up } : Talk F).hear name r) := by
  unfold Talk.hear
  split
  · rename_i q
    have hbuilt : s.policy.isSome = true → .built ∈ s.trace ++ [.heard] := fun h =>
      List.mem_append_left _ (hs.built h)
    refine ⟨hs.once.concat (by simp), hbuilt, founded_dispatch hbuilt q, ?_⟩
    refine (silent_dispatch name s.policy q).imp_right fun h => ⟨⟨hbuilt h.1, ?_⟩, h.2⟩
    exact ⟨s.trace, [], rfl, List.not_mem_nil⟩
  · exact ⟨hs.once, hs.built, founded_error (founded_stop _ _ _),
      Or.inl (silent_error (silent_stop _))⟩
  · exact ⟨hs.once, hs.built, trivial⟩

/-- A build ends. -/
theorem Hooks.hasBuilt {k : HookEnd (Built F) → Handler F} (hs : Hooks name s)
    (hserver : s.server = .busy (.build k)) (e : HookEnd (Built F)) :
    Hooks name (s.hasBuilt name k e) := by
  have hstill := hs.server
  rw [hserver] at hstill
  obtain ⟨hf, hafter⟩ := hstill
  have hno : (∀ b, e = .returned b → (buildPolicy name b).isOk ≠ true) →
      Hooks name ({ s with server := .running (k e) } : Talk F) := fun hne =>
    ⟨hs.once, hs.built, (hf e).mono (fun h => h.resolve_right fun ⟨x, hx, hok⟩ => hne x hx hok),
      Or.inl (hafter e)⟩
  unfold Talk.hasBuilt
  cases e with
  | returned b =>
    dsimp only
    split_ifs with hok
    · have hmem : .built ∈ s.trace ++ [.built] := by simp
      exact ⟨hs.once.concat (by simp), fun _ => hmem, (hf _).mono fun _ => hmem,
        Or.inl (hafter _)⟩
    · rw [List.append_nil]
      exact hno fun b' hb => by
        obtain rfl := HookEnd.returned.inj hb
        exact hok
  | raised e =>
    dsimp only
    rw [List.append_nil]
    exact hno (by simp)
  | escaped =>
    dsimp only
    rw [List.append_nil]
    exact hno (by simp)

/-- Every move keeps the calls of the policy to one for each message. -/
theorem Hooks.step (h : step name s m = some t) (hs : Hooks name s) : Hooks name t := by
  cases hm : m.isServer with
  | false =>
    rcases client_cases hm h with ⟨c, rfl, hc, rfl⟩ | ⟨c, f, left, hc, rfl⟩ | ⟨c, hc, rfl⟩ |
      ⟨c, hc, rfl⟩ | ⟨c, r, f, down, hc, hd, rfl⟩ | ⟨c, x, hc, rfl⟩ | ⟨timer, late, shut, rfl⟩
    · rcases call_cases s c with ⟨closed, o, heq, -⟩ | ⟨frames, -, -, heq⟩
      · rw [heq]
        exact hs.event rfl rfl rfl (by simp)
      · rw [heq]
        exact hs.of_eq rfl rfl rfl
    · exact hs.event rfl rfl rfl (by simp)
    · exact hs.of_eq rfl rfl rfl
    · exact hs.of_eq rfl rfl rfl
    · exact hs.event rfl rfl rfl (by simp)
    · exact hs.event rfl rfl rfl (by simp)
    · exact hs.of_eq rfl rfl rfl
  | true =>
    have hcases := server_cases hm h
    have hstill := hs.server
    cases hserver : s.server with
    | polling =>
      rw [hserver] at hcases
      rcases hcases with rfl | ⟨e, -, rfl⟩ <;> exact ⟨hs.once, hs.built, trivial⟩
    | reading r =>
      rw [hserver] at hcases
      rcases hcases with ⟨f, up, -, rfl⟩ | ⟨e, -, rfl⟩
      · exact hs.hear up _
      · exact ⟨hs.once, hs.built, trivial⟩
    | running g =>
      rw [hserver] at hcases hstill
      rcases hcases with hrun | ⟨k, x, rfl, rfl⟩ | rfl
      · exact hs.run hserver hrun
      · exact ⟨hs.once, hs.built, hstill.1 x, Or.inl (hstill.2.elim (fun h => h x) fun h => h.2.elim)⟩
      · exact ⟨hs.once, hs.built, trivial⟩
    | busy g =>
      rw [hserver] at hcases hstill
      rcases hcases with ⟨k, e, rfl, rfl⟩ | ⟨g, k, e, rfl, rfl⟩ | ⟨a, k, e, rfl, rfl⟩ | ⟨e, -, rfl⟩
      · exact hs.hasBuilt hserver e
      · exact ⟨hs.once, hs.built, hstill.1 e, Or.inl (hstill.2 e)⟩
      · exact ⟨hs.once, hs.built, hstill.1 e, Or.inl (hstill.2 e)⟩
      · exact ⟨hs.once, hs.built, trivial⟩
    | sending l lost k =>
      rw [hserver] at hcases hstill
      rcases hcases with ⟨f, l, -, rfl⟩ | ⟨-, rfl⟩ | ⟨-, rfl⟩ | rfl
      · exact ⟨hs.once, hs.built, hstill⟩
      · exact ⟨hs.once, hs.built, hstill.1, Or.inl hstill.2⟩
      · exact ⟨hs.once, hs.built, trivial⟩
      · exact ⟨hs.once, hs.built, trivial⟩
    | stopped e => rw [hserver] at hcases; exact hcases.elim

/-! ## In every state reached -/

/-- A move that ends a call : one that ends as it begins, or one whose exchange is over. -/
theorem ended_cases {o : Outcome F} (h : step name s m = some t)
    (htrace : t.trace = s.trace ++ [.ended c o]) :
    (s.client = .idle ∧ ∃ closed, t = { s with closed := closed, trace := t.trace } ∧
      ((o = .refused ∧ closed = s.closed) ∨ o = .closed ∨
        (o = .unavailable .gone ∧ s.conn = false))) ∨
    ∃ x, s.client = .ended c x ∧ t = s.settle c x ∧ o = (c.settle s.timer.expired x).1 := by
  have hnone : s.trace ≠ s.trace ++ [.ended c o] := fun h' => by simpa using h'.symm
  cases hm : m.isServer with
  | true =>
    rcases server_trace hm h with heq | ⟨e, heq, he⟩
    · exact absurd (heq.symm.trans htrace) hnone
    · have := List.append_cancel_left (heq.symm.trans htrace)
      rcases he with rfl | rfl | rfl <;> simp at this
  | false =>
    rcases client_cases hm h with ⟨c', rfl, hc, rfl⟩ | ⟨c', f, left, hc, rfl⟩ | ⟨c', hc, rfl⟩ |
      ⟨c', hc, rfl⟩ | ⟨c', r, f, down, hc, hd, rfl⟩ | ⟨c', x, hc, rfl⟩ | ⟨timer, late, shut, rfl⟩
    · rcases call_cases s c' with ⟨closed, o', heq, ho⟩ | ⟨frames, -, -, heq⟩
      · rw [heq] at htrace ⊢
        obtain ⟨rfl, rfl⟩ : c' = c ∧ o' = o := by simpa using htrace
        exact Or.inl ⟨hc, closed, rfl, ho⟩
      · rw [heq] at htrace
        exact absurd htrace hnone
    · simp at htrace
    · exact absurd htrace hnone
    · exact absurd htrace hnone
    · simp at htrace
    · obtain ⟨rfl, rfl⟩ : c' = c ∧ (c'.settle s.timer.expired x).1 = o := by
        simpa [Talk.settle] using htrace
      exact Or.inr ⟨x, hc, rfl, rfl⟩
    · exact absurd htrace hnone

/-- A call that returns a value makes it of the reply it read. -/
theorem settle_value {expired : Bool} {x : Exchange F}
    (h : (c.settle expired x).1.isValue = true) :
    ∃ m, x = .reply m ∧ c.answer m = ((c.settle expired x).1, true) := by
  unfold Call.settle at h ⊢
  split_ifs at h ⊢ with h1 h2
  · simp [Outcome.isValue] at h
  · simp [Outcome.isValue] at h
  cases x with
  | lost => simp [Outcome.isValue] at h
  | malformed e => simp [Outcome.isValue] at h
  | reply r =>
    refine ⟨r, rfl, ?_⟩
    dsimp only at h ⊢
    split_ifs at h ⊢ with h3 h4
    · simp [Outcome.isValue] at h
    · simp [Outcome.isValue] at h
    refine Prod.ext rfl ?_
    unfold Call.answer at h ⊢
    cases c with
    | hello =>
      dsimp only at h ⊢
      split at h
      · split_ifs at h ⊢ with hz
        · simp [Outcome.isValue] at h
        · split at h
          · split_ifs at h ⊢ with ht
            · rfl
            · simp [Outcome.isValue] at h
          · simp [Outcome.isValue] at h
      · simp [Outcome.isValue] at h
    | act obs =>
      dsimp only at h ⊢
      split
      · split_ifs <;> rfl
      · rfl
    | _ => rfl

/-- No call is refused once its request was sent. -/
theorem settle_ne_refused (c : Call F) (expired : Bool) (x : Exchange F) :
    (c.settle expired x).1 ≠ .refused := by
  unfold Call.settle Call.answer
  split_ifs <;> try simp
  cases x with
  | lost => simp
  | malformed e => simp
  | reply m =>
    dsimp only
    split_ifs <;> try simp
    cases c <;> dsimp only <;> (repeat' split) <;> simp

/-- A call that ends with the server's error keeps the connection, unless it is `hello`. -/
theorem settle_error {expired : Bool} {x : Exchange F} {kind message : Json F}
    (h : (c.settle expired x).1 = .unavailable (.error kind message))
    (hhello : c.isHello = false) : (c.settle expired x).2 = true := by
  unfold Call.settle at h ⊢
  split_ifs at h ⊢ with h1 h2
  · simp at h
  cases x with
  | lost => simp at h
  | malformed e => simp at h
  | reply r =>
    dsimp only at h ⊢
    split_ifs at h ⊢ with h3 h4
    · simp [hhello]
    · simp at h
    unfold Call.answer at h
    cases c with
    | hello => simp [Call.isHello] at hhello
    | act obs =>
      dsimp only at h
      split at h
      · split_ifs at h
        simp at h
      · simp at h
    | _ => simp at h

/-- What holds in every state reached by requests that the server accepts. -/
structure Held (name : PyStr) (s : Talk F) : Prop where
  joint : Joint s
  unused : Unused s
  hooks : Hooks name s

theorem held_start : Held name (Talk.start (F := F)) where
  joint := fun _ => ⟨rfl, rfl, rfl, trivial⟩
  unused := ⟨fun _ _ _ _ h => by simp [Talk.start] at h, fun _ _ _ h => by simp [Talk.start] at h⟩
  hooks := ⟨fun _ _ h => by simp [Talk.start] at h, by simp [Talk.start], trivial⟩

theorem held_of_reach (h : Reach name Move.Accepted s) : Held name s := by
  induction h with
  | start => exact held_start
  | step _ hmeets hstep ih =>
    exact ⟨ih.joint.step hmeets hstep, ih.unused.step ih.joint hstep, ih.hooks.step hstep⟩

/-- A state that keeps the invariants is in step, whatever the move from it. -/
theorem Held.synchronous (hs : Held name s) : Synchronous name s where
  own := by
    intro m t c o h htrace hval
    rcases ended_cases h htrace with ⟨-, -, -, ⟨rfl, -⟩ | rfl | ⟨rfl, -⟩⟩ | ⟨x, hc, rfl, rfl⟩
    · simp [Outcome.isValue] at hval
    · simp [Outcome.isValue] at hval
    · simp [Outcome.isValue] at hval
    · obtain ⟨r, rfl, hans⟩ := settle_value hval
      have hjoint := hs.joint
      unfold Joint at hjoint
      rw [hc] at hjoint
      obtain ⟨frames, q, a, ha, hh, hreply, hread, -, -⟩ := hjoint.2 r rfl
      exact ⟨frames, q, _, a.frames, r, ha.sent, ha.last, ha.read, hh.last, hh.heard, hreply, rfl,
        hread, hans⟩
  once := hs.hooks.once
  silent := hs.unused.spent
  refused := by
    intro m t c h htrace
    rcases ended_cases h htrace with ⟨-, closed, ht, ho⟩ | ⟨x, -, -, ho⟩
    · obtain ⟨-, rfl⟩ := ho.resolve_right (by simp)
      exact ht
    · exact absurd ho.symm (settle_ne_refused c _ x)
  error := by
    intro m t c kind message h htrace hhello
    rcases ended_cases h htrace with ⟨-, closed, -, ho⟩ | ⟨x, -, rfl, ho⟩
    · simp at ho
    · exact settle_error ho.symm hhello
  kept := by
    intro m t c o h htrace hconn
    rcases ended_cases h htrace with ⟨hc, closed, ht, -⟩ | ⟨x, hc, rfl, -⟩
    · have hjoint := hs.joint
      unfold Joint at hjoint
      rw [hc] at hjoint
      rw [ht] at hconn ⊢
      obtain ⟨hup, hdown, hheard, haw⟩ := hjoint hconn
      exact ⟨hup, hdown, hheard, haw⟩
    · exact (hs.joint.settle hc) hconn

/-- Client and server are in step in every state that a run reaches whose requests the
server's `recv` accepts. -/
theorem synchronous_of_reach (h : Reach name Move.Accepted s) : Synchronous name s :=
  (held_of_reach h).synchronous

/-! ## A request that the server refuses -/

/-- A run of moves. -/
def follow (name : PyStr) : Talk F → List (Move F) → Option (Talk F)
  | s, [] => some s
  | s, m :: ms => (step name s m).bind fun t => follow name t ms

theorem reach_follow {meets : Move F → Prop} {ms : List (Move F)} (hs : Reach name meets s)
    (hms : ∀ m ∈ ms, meets m) (h : follow name s ms = some t) : Reach name meets t := by
  induction ms generalizing s with
  | nil => exact Option.some.inj h ▸ hs
  | cons m ms ih =>
    obtain ⟨u, hu, hrest⟩ := Option.bind_eq_some_iff.1 h
    exact ih (.step hs (hms m (by simp)) hu) (fun n hn => hms n (List.mem_cons_of_mem _ hn)) hrest

/-- Texts of no characters. -/
instance : WireTexts Tenths where
  repr _ := []
  excerpt _ := []
  key _ := []
  dtype _ := []
  dumps _ := []
  loads _ := []
  reshape _ := []

/-- The moves of a `hello` that succeeds. -/
def toyHello : List (Move Tenths) :=
  [.call .hello, .send, .send, .wake, .read, .run,
    .built (.returned ⟨.str (py "qpos"), true, true, true, false⟩), .run, .reply, .reply, .run,
    .take, .settle]

/-- No rows of 2^40 elements each. -/
def vastRows : NdArray := vacant [0, 2 ^ 40] (by decide) (by decide)

/-- An `act` whose observation is that array, up to the end of the exchange. -/
def strayAct : List (Move Tenths) :=
  [.call (.act ⟨[(.str (py "x"), toyValue vastRows)], by decide⟩), .send, .send, .send, .wake,
    .read, .tail [], .run, .reply, .reply, .run, .take]

/-- The session has ended with a message it could not read. -/
def Server.refused : Server F → Bool
  | .stopped .malformed => true
  | _ => false

/-- A call has ended with the server's error. -/
def Outcome.isError : Outcome F → Bool
  | .unavailable (.error _ _) => true
  | _ => false

/-- The exchange is over, and settles in the server's error while the session has ended. -/
def strays (s : Talk F) : Bool :=
  match s.client with
  | .ended c x =>
    (c.settle s.timer.expired x).1.isError && (c.settle s.timer.expired x).2 && s.server.refused
  | _ => false

/-- Where an exchange settles so, the connection is kept by a client out of step. -/
theorem not_synchronous_of_strays (h : strays s = true) : ¬Synchronous name s := by
  intro hs
  unfold strays at h
  split at h
  · rename_i c x hc
    simp only [Bool.and_eq_true] at h
    have hkept := hs.kept .settle (s.settle c x) c (c.settle s.timer.expired x).1
      (by simp only [step, hc]) rfl h.1.2
    have haw : Remote.awaits s.server := hkept.awaits
    revert haw h
    unfold Server.refused
    split
    · rename_i hsv
      rw [hsv]
      simp [Remote.awaits]
    · simp
  · simp at h

/-- `act` with an array of no elements, which the server refuses, leaves the connection open
and out of step. -/
theorem vast_strays : ∃ s : Talk Tenths, Reach (py "p") (fun _ => True) s ∧
    ¬Synchronous (py "p") s := by
  have heval : ((follow (py "p") Talk.start (toyHello ++ strayAct)).any strays) = true := by
    decide +kernel
  obtain ⟨s, hs, hstrays⟩ := (Option.any_eq_true _ _).1 heval
  exact ⟨s, reach_follow .start (fun _ _ => trivial) hs, not_synchronous_of_strays hstrays⟩

/-- The `hello` alone leaves the two in step. -/
theorem toy_synchronous : ∃ s : Talk Tenths, s.conn = true ∧ Synchronous (py "p") s := by
  have heval : ((follow (py "p") Talk.start toyHello).any fun s => s.conn) = true := by
    decide +kernel
  obtain ⟨s, hs, hconn⟩ := (Option.any_eq_true _ _).1 heval
  refine ⟨s, hconn, synchronous_of_reach (reach_follow .start ?_ hs)⟩
  intro m hm
  simp only [toyHello, List.mem_cons, List.not_mem_nil, or_false] at hm
  rcases hm with rfl | rfl | rfl | rfl | rfl | rfl | rfl | rfl | rfl | rfl | rfl | rfl | rfl <;>
    try exact trivial
  intro frames hframes
  have hread : ((recv (F := Tenths) maxMessageBytes).run
      (framesOf (Call.hello (F := Tenths)).frames)).any
        (fun p => p.1.isOk) = true := by decide +kernel
  obtain ⟨⟨r, rest⟩, hr, hok⟩ := (Option.any_eq_true _ _).1 hread
  rw [hframes] at hr
  cases r with
  | ok q => exact ⟨q, rest, hr⟩
  | error e => simp [Except.isOk, Except.toBool] at hok

end Remote

end IcilOrchestrator

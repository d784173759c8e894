import Mathlib
import IcilOrchestrator.Intake

/-!
# The framing of the intake's requests

Every byte of a connection belongs to the head of one request, to the body that its headers
announce, or is never read : `framed_iff`, which holds of a connection exactly when none of its
requests is answered by the health route with a body that a second `Content-Length` announces
(`Overlooks`). `_answer` looks at the first of them only, and `overlooked_parsed` is a connection
where the body is then parsed as a request.
-/

set_option linter.unusedSectionVars false

namespace Python

namespace Conn

theorem headOf_head {limit : ℕ} {pending raw : Bytes} (h : headOf limit pending = some (.head raw)) :
    raw <+: pending := by
  unfold headOf at h
  split at h
  · split_ifs at h
    · obtain rfl := HeadRead.head.inj (Option.some.inj h)
      exact List.take_prefix _ _
    · simp at h
  · split_ifs at h
    simp at h

theorem stream_drop {pending raw : Bytes} (h : raw <+: pending) (as : List Arrival) :
    pending ++ as.flatMap Arrival.bytes = raw ++ (Conn.mk (pending.drop raw.length) as).stream := by
  obtain ⟨rest, rfl⟩ := h
  simp [stream]

/-- A head that has arrived is taken, whatever is still to arrive. -/
theorem readHeadFrom_of_headOf {limit : ℕ} {pending raw : Bytes} {h : HeadRead}
    (hh : headOf limit pending = some h) {as : List Arrival} {c : Conn}
    (hread : readHeadFrom limit pending as = (.head raw, c)) :
    pending ++ as.flatMap Arrival.bytes = raw ++ c.stream := by
  cases h with
  | head raw' =>
    obtain ⟨rfl, rfl⟩ : raw' = raw ∧ ⟨pending.drop raw'.length, as⟩ = c := by
      cases as <;> simpa [readHeadFrom, hh] using hread
    exact stream_drop (headOf_head hh) as
  | closed | long | failed e => cases as <;> simp [readHeadFrom, hh] at hread

theorem readHeadFrom_head {limit : ℕ} {pending raw : Bytes} {as : List Arrival} {c : Conn}
    (h : readHeadFrom limit pending as = (.head raw, c)) :
    pending ++ as.flatMap Arrival.bytes = raw ++ c.stream := by
  induction as generalizing pending with
  | nil =>
    cases hh : headOf limit pending with
    | some r => exact readHeadFrom_of_headOf hh h
    | none => simp [readHeadFrom, hh] at h
  | cons a as ih =>
    cases hh : headOf limit pending with
    | some r => exact readHeadFrom_of_headOf hh h
    | none =>
      cases a with
      | chunk b bs =>
        simp only [readHeadFrom, hh] at h
        rw [← ih h, List.flatMap_cons, Arrival.bytes, List.append_assoc]
      | timeout | fault => simp [readHeadFrom, hh] at h

/-- A head is the first bytes of the stream, and the rest is left. -/
theorem readHead_head {limit : ℕ} {c c' : Conn} {raw : Bytes}
    (h : c.readHead limit = (.head raw, c')) : c.stream = raw ++ c'.stream := readHeadFrom_head h

end Conn

end Python

namespace IcilOrchestrator

open Python

namespace Intake

variable {F : Type} {s : Server F} {t : Turn F} {r : Request} {c : Conn}

/-! ## What is announced -/

/-- How a length in a header is read : a decimal number as itself, and nothing as no body. How
any other text is read is left open. -/
structure Framing where
  announces : PyStr → ℕ
  empty : announces [] = 0
  decimal : ∀ v ≠ [], (∀ d ∈ v, isDigit d) → announces v = digitsVal v

variable {fr : Framing}

/-- The body of a request is what every length of its headers announces, and nothing where no
length does. -/
structure Exchange.Consumed (fr : Framing) (x : Exchange F) (r : Request) : Prop where
  plain : r.chunked = false
  length : ∀ v ∈ r.lengths, fr.announces (strip v) = x.body.length
  none : r.lengths = [] → x.body = []

/-- The requests of a connection whose bytes are `stream`. -/
structure Framed (fr : Framing) (stream : Bytes) (xs : List (Exchange F)) : Prop where
  /-- A head and its body stand together in the stream. -/
  located : ∀ x ∈ xs, x.head ++ x.body <+: stream.drop x.start
  /-- What is announced is consumed, or the connection is closed. -/
  consumed : ∀ x ∈ xs, ∀ r ∈ x.request, x.closed = true ∨ x.Consumed fr r
  /-- Nothing follows the request that closes the connection. -/
  last : xs.Pairwise fun x _ => x.closed = false
  /-- A head is read past the body that an earlier request announces. -/
  apart : xs.Pairwise fun x y => x.start + x.head.length + x.body.length ≤ y.start ∧
    ∀ r ∈ x.request, r.chunked = false ∧
      ∀ v ∈ r.lengths, x.start + x.head.length + fr.announces (strip v) ≤ y.start

/-- The health route is asked, and its answer leaves the connection open, with a first length that
announces nothing and another that announces a body. -/
structure Overlooks (fr : Framing) (s : Server F) (t : Turn F) (r : Request) : Prop where
  authorized : ∃ v, r.getAll (py "Authorization") = [v] ∧ s.authorized v = true
  health : r.path.takeWhile (· != 63) = healthPath
  get : r.command = py "GET"
  keptAlive : r.close = false
  answered : ∃ body, t.health = .answered body
  replied : t.replied = true
  plain : r.chunked = false
  lengths : ∃ v vs, r.lengths = v :: vs ∧ (strip v = [] ∨ strip v = py "0") ∧
    ∃ w ∈ vs, fr.announces (strip w) ≠ 0

/-! ## One request -/

theorem announces_of_isLength {v : PyStr} (h : isLength v = true) :
    fr.announces v = digitsVal v := by
  simp only [isLength, Bool.and_eq_true, decide_eq_true_eq, List.all_eq_true] at h
  exact fr.decimal v h.1.1 h.2

/-- A body that is read is the whole body that the one length announces. -/
theorem readJson_ok {j : Json F} {rd : Reading} (h : readJson s r c = (.ok j, rd)) :
    r.chunked = false ∧ ∃ v, r.lengths = [v] ∧ isLength (strip v) = true ∧
      rd.body.length = digitsVal (strip v) ∧ c.stream = rd.body ++ rd.conn.stream := by
  unfold readJson at h
  dsimp only at h
  split_ifs at h with hchunked
  · simp at h
  · split at h
    · simp at h
    · rename_i v hv
      split_ifs at h with hlen hmax
      · simp at h
      · split at h
        · simp at h
        · simp at h
        · rename_i raw c' htake
          split_ifs at h with hraw
          · simp at h
          · simp only [Prod.mk.injEq] at h
            obtain ⟨-, rfl⟩ := h
            exact ⟨by simpa using hchunked, v, hv, hlen, not_not.1 hraw,
              (Conn.take_ok htake).2⟩
      · simp at h
    · simp at h

/-- What `_answer` returns, it returns for the health route or for a body that it read. -/
theorem answer_ok {reply : Reply F} {rd : Reading} (h : answer s t r c = (.ok reply, rd)) :
    (∃ v, r.getAll (py "Authorization") = [v] ∧ s.authorized v = true) ∧
      (r.path.takeWhile (· != 63) = healthPath ∧ r.command = py "GET" ∧
          (∃ body, t.health = .answered body) ∧ reply.close = sentBody r ∧ rd = ⟨c, false, []⟩ ∨
        ∃ j, readJson s r c = (.ok j, rd)) := by
  unfold answer at h
  dsimp only at h
  split at h
  · simp at h
  rename_i hauth
  refine ⟨admits_iff.1 (by simpa using hauth), ?_⟩
  split at h
  · simp at h
  rename_i method hmethod
  split at h
  · simp at h
  rename_i hcommand
  split at h
  · rename_i hpath
    left
    rw [hpath] at hmethod
    obtain rfl : py "GET" = method := by simpa [routes] using hmethod
    cases hhealth : t.health with
    | answered body =>
      simp only [hhealth, Outcome.ok, Prod.mk.injEq, Except.ok.injEq] at h
      obtain ⟨rfl, rfl⟩ := h
      exact ⟨hpath, not_not.1 hcommand, ⟨body, rfl⟩, rfl, rfl⟩
    | refused e => simp [hhealth, Outcome.ok] at h
    | failed => simp [hhealth, Outcome.ok] at h
  · right
    split at h
    · rename_i j rd' hread
      simp only [Prod.mk.injEq] at h
      exact ⟨j, h.2 ▸ hread⟩
    · simp at h

theorem handle_open {reply : Reply F} {rd : Reading} (h : handle s t r c = (reply, rd))
    (hopen : reply.close = false) : answer s t r c = (.ok reply, rd) := by
  unfold handle at h
  split at h
  · simp only [Prod.mk.injEq] at h
    obtain ⟨rfl, rfl⟩ := h
    assumption
  · simp only [Prod.mk.injEq] at h
    rw [← h.1] at hopen
    simp at hopen
  · simp only [Prod.mk.injEq] at h
    rw [← h.1] at hopen
    simp at hopen

/-- A reading takes a body off the front of the stream, and has not touched the connection before
it marks the body read. -/
structure Reading.From (rd : Reading) (c : Conn) : Prop where
  body : rd.body <+: c.stream
  unread : rd.bodyRead = false → rd.conn = c ∧ rd.body = []

theorem from_unread (c : Conn) : Reading.From ⟨c, false, []⟩ c :=
  ⟨List.nil_prefix, fun _ => ⟨rfl, rfl⟩⟩

theorem from_failed (c c' : Conn) : Reading.From ⟨c', true, []⟩ c := ⟨List.nil_prefix, by simp⟩

theorem from_take {n : ℕ} {raw : Bytes} {c' : Conn} (h : c.take n = (.ok raw, c')) :
    Reading.From ⟨c', true, raw⟩ c :=
  ⟨⟨c'.stream, ((Conn.take_ok h).2).symm⟩, by simp⟩

theorem readJson_from (s : Server F) (r : Request) (c : Conn) : (readJson s r c).2.From c := by
  unfold readJson
  dsimp only
  split
  · exact from_unread c
  split
  · exact from_unread c
  · split
    · split
      · exact from_unread c
      · split
        · exact from_failed c _
        · exact from_failed c _
        · rename_i raw c' htake
          split
          · exact from_take htake
          · exact from_take htake
    · exact from_unread c
  · exact from_unread c

theorem answer_from (s : Server F) (t : Turn F) (r : Request) (c : Conn) :
    (answer s t r c).2.From c := by
  unfold answer
  dsimp only
  split
  · exact from_unread c
  split
  · exact from_unread c
  split
  · exact from_unread c
  split
  · exact from_unread c
  · have hread := readJson_from s r c
    split
    · rename_i j rd h
      rwa [h] at hread
    · rename_i e rd h
      rwa [h] at hread

theorem Reading.From.discardBody {rd : Reading} (h : rd.From c) (r : Request) :
    (discardBody r rd).From c := by
  unfold Intake.discardBody
  dsimp only
  split
  · exact h
  rename_i hread
  obtain ⟨rfl, -⟩ := h.unread (by simp_all)
  split
  · exact h
  split
  · rename_i raw c' htake
    exact from_take htake
  · exact from_failed _ _

theorem handle_from (s : Server F) (t : Turn F) (r : Request) (c : Conn) :
    (handle s t r c).2.From c := by
  have hanswer := answer_from s t r c
  unfold handle
  split
  · rename_i reply rd h
    rwa [h] at hanswer
  · rename_i e rd h
    rw [h] at hanswer
    exact hanswer.discardBody r
  · rename_i rd h
    rw [h] at hanswer
    exact hanswer.discardBody r

theorem handleHead_body (s : Server F) (t : Turn F) (start : ℕ) (head : Bytes) (c : Conn) :
    (handleHead s t start head c).1.body <+: c.stream := by
  unfold handleHead
  split
  · exact List.nil_prefix
  split
  · exact (handle_from s t _ c).body
  · exact List.nil_prefix

/-- The exchange of a head that is not the one over its bound. -/
theorem handleHead_fields (start : ℕ) (head : Bytes) :
    (handleHead s t start head c).1.start = start ∧ (handleHead s t start head c).1.turn = t ∧
      (handleHead s t start head c).1.head = head ∧
      (handleHead s t start head c).1.request = t.parse head := by
  unfold handleHead
  split
  · simp_all
  · split_ifs <;> simp_all

/-- A request that leaves the connection open is the health route's, which takes no body, or one
whose body was read. -/
theorem handleHead_open {start : ℕ} {head : Bytes} {x : Exchange F} {c' : Conn}
    (h : handleHead s t start head c = (x, c')) (hopen : x.closed = false) :
    ∃ r, t.parse head = some r ∧ r.close = false ∧ t.replied = true ∧ c.stream = x.body ++ c'.stream ∧
      (∃ v, r.getAll (py "Authorization") = [v] ∧ s.authorized v = true) ∧
      (r.path.takeWhile (· != 63) = healthPath ∧ r.command = py "GET" ∧
          (∃ body, t.health = .answered body) ∧ sentBody r = false ∧ x.body = [] ∨
        r.chunked = false ∧ ∃ v, r.lengths = [v] ∧ isLength (strip v) = true ∧
          x.body.length = digitsVal (strip v)) := by
  unfold handleHead at h
  split at h
  · simp only [Prod.mk.injEq] at h
    rw [← h.1] at hopen
    simp at hopen
  rename_i r hr
  split_ifs at h
  · simp only [Prod.mk.injEq] at h
    obtain ⟨rfl, rfl⟩ := h
    simp only [Bool.or_eq_false_iff, Bool.not_eq_false'] at hopen
    obtain ⟨⟨hclose, hreply⟩, hreplied⟩ := hopen
    have hanswer : answer s t r c = (.ok (handle s t r c).1, (handle s t r c).2) :=
      handle_open rfl hreply
    obtain ⟨hauth, hanswer⟩ := answer_ok hanswer
    rcases hanswer with ⟨hpath, hget, hhealth, hsent, hrd⟩ | ⟨j, hj⟩
    · refine ⟨r, hr, hclose, hreplied, ?_, hauth, Or.inl ⟨hpath, hget, hhealth, ?_, ?_⟩⟩
      · simp [hrd]
      · rw [← hsent, hreply]
      · simp [hrd]
    · obtain ⟨hplain, v, hv, hlen, hbody, hstream⟩ := readJson_ok hj
      exact ⟨r, hr, hclose, hreplied, hstream, hauth, Or.inr ⟨hplain, v, hv, hlen, hbody⟩⟩
  · simp only [Prod.mk.injEq] at h
    rw [← h.1] at hopen
    simp at hopen

theorem mem_of_sentBody_false {r : Request} (h : sentBody r = false) :
    r.chunked = false ∧ ∀ v ∈ r.lengths.head?, strip v = [] ∨ strip v = py "0" := by
  simp only [sentBody, Bool.or_eq_false_iff, Bool.not_eq_false', List.contains_iff_mem] at h
  refine ⟨h.1, fun v hv => ?_⟩
  have hmem := h.2
  rw [Option.mem_def.1 hv] at hmem
  simpa using hmem

/-- What an open connection's request announces, it consumed, unless it is overlooked. -/
theorem handleHead_consumed {start : ℕ} {head : Bytes} {x : Exchange F} {c' : Conn}
    (h : handleHead s t start head c = (x, c')) (hopen : x.closed = false)
    (hr : t.parse head = some r) (hseen : ¬Overlooks fr s t r) : x.Consumed fr r := by
  obtain ⟨r', hr', hclose, hreplied, -, hauth, hcase⟩ := handleHead_open h hopen
  obtain rfl : r = r' := Option.some.inj (hr.symm.trans hr')
  rcases hcase with ⟨hpath, hget, hhealth, hsent, hbody⟩ | ⟨hplain, v, hv, hlen, hbody⟩
  · obtain ⟨hplain, hfirst⟩ := mem_of_sentBody_false hsent
    refine ⟨hplain, fun w hw => ?_, fun _ => hbody⟩
    rw [hbody, List.length_nil]
    cases hlengths : r.lengths with
    | nil => simp [hlengths] at hw
    | cons v vs =>
      have hv := hfirst v (by simp [hlengths])
      rcases List.mem_cons.1 (hlengths ▸ hw) with rfl | hw
      · rcases hv with hv | hv
        · rw [hv, fr.empty]
        · rw [hv, fr.decimal _ (by decide) (by decide)]
          rfl
      · by_contra hne
        exact hseen ⟨hauth, hpath, hget, hclose, hhealth, hreplied, hplain,
          v, vs, hlengths, hv, w, hw, hne⟩
  · refine ⟨hplain, fun w hw => ?_, fun hnil => ?_⟩
    · obtain rfl : w = v := by simpa [hv] using hw
      rw [announces_of_isLength hlen, hbody]
    · simp [hv] at hnil

/-- A request that is overlooked leaves the connection open and its body unread. -/
theorem handleHead_overlooks {n : ℕ} {head : Bytes} (hr : t.parse head = some r)
    (h : Overlooks fr s t r) :
    (handleHead s t n head c).1.closed = false ∧ (handleHead s t n head c).1.body = [] := by
  obtain ⟨body, hbody⟩ := h.answered
  obtain ⟨v, vs, hlengths, hv, -⟩ := h.lengths
  have hsent : sentBody r = false := by
    rcases hv with hv | hv <;> simp [sentBody, h.plain, hlengths, hv, py]
  have hanswer : answer s t r c = (.ok ⟨200, body, [], false⟩, ⟨c, false, []⟩) := by
    have hroute : routes.lookup healthPath = some (py "GET") := by simp [routes]
    simp [answer, admits_iff.2 h.authorized, h.health, hroute, h.get, hbody, Outcome.ok, hsent]
  have hmethod : r.command ∈ methods := by simp [h.get, methods]
  simp [handleHead, hr, hmethod, handle, hanswer, h.keptAlive, h.replied]

/-! ## A connection -/

theorem serve_cons (s : Server F) (t : Turn F) (ts : List (Turn F)) (n : ℕ) (c : Conn) :
    (∃ raw c', c.stream = raw ++ Conn.stream c' ∧ serve s (t :: ts) n c =
        (handleHead s t n raw c').1 :: if (handleHead s t n raw c').1.closed then [] else
          serve s ts (n + raw.length + (handleHead s t n raw c').1.body.length)
            (handleHead s t n raw c').2) ∨
      serve s (t :: ts) n c = [tooLong t n] ∨ serve s (t :: ts) n c = [] := by
  rw [serve]
  split
  · rename_i raw c' h
    exact Or.inl ⟨raw, c', Conn.readHead_head h, rfl⟩
  · exact Or.inr (Or.inl rfl)
  · exact Or.inr (Or.inr rfl)

/-- Every request of a connection comes of its own head, but for a head over its bound. -/
theorem mem_serve {ts : List (Turn F)} {n : ℕ} {x : Exchange F} (hx : x ∈ serve s ts n c) :
    (∃ c', (handleHead s x.turn x.start x.head c').1 = x) ∨ x.request = none := by
  induction ts generalizing n c with
  | nil => simp [serve] at hx
  | cons t ts ih =>
    rcases serve_cons s t ts n c with ⟨raw, c', -, h⟩ | h | h
    · rw [h] at hx
      rcases List.mem_cons.1 hx with rfl | hx
      · obtain ⟨h1, h2, h3, -⟩ := handleHead_fields (s := s) (t := t) (c := c') n raw
        exact Or.inl ⟨c', by rw [h1, h2, h3]⟩
      · split_ifs at hx
        · simp at hx
        · exact ih hx
    · obtain rfl : x = tooLong t n := by simpa [h] using hx
      exact Or.inr rfl
    · simp [h] at hx

/-- A later request starts no earlier. -/
theorem le_start {ts : List (Turn F)} {n : ℕ} {x : Exchange F} (hx : x ∈ serve s ts n c) :
    n ≤ x.start := by
  induction ts generalizing n c with
  | nil => simp [serve] at hx
  | cons t ts ih =>
    rcases serve_cons s t ts n c with ⟨raw, c', -, h⟩ | h | h
    · rw [h] at hx
      rcases List.mem_cons.1 hx with rfl | hx
      · exact (handleHead_fields n raw).1.ge
      · split_ifs at hx
        · simp at hx
        · have := ih hx
          omega
    · obtain rfl : x = tooLong t n := by simpa [h] using hx
      exact le_rfl
    · simp [h] at hx

theorem framed_nil (fr : Framing) (stream : Bytes) : Framed fr stream ([] : List (Exchange F)) where
  located := by simp
  consumed := by simp
  last := .nil
  apart := .nil

theorem framed_closed (fr : Framing) {stream : Bytes} {x : Exchange F} (hclosed : x.closed = true)
    (hlocated : x.head ++ x.body <+: stream.drop x.start) : Framed fr stream [x] where
  located := by simpa using hlocated
  consumed := by simp [hclosed]
  last := List.pairwise_singleton _ _
  apart := List.pairwise_singleton _ _

/-- A request that consumed what it announced, before others that start past its body. -/
theorem Framed.cons {stream : Bytes} {x : Exchange F} {xs : List (Exchange F)}
    (h : Framed fr stream xs) (hlocated : x.head ++ x.body <+: stream.drop x.start)
    (hopen : x.closed = false) (hconsumed : ∀ r ∈ x.request, x.Consumed fr r)
    (hstart : ∀ y ∈ xs, x.start + x.head.length + x.body.length ≤ y.start) :
    Framed fr stream (x :: xs) where
  located := List.forall_mem_cons.2 ⟨hlocated, h.located⟩
  consumed := List.forall_mem_cons.2 ⟨fun r hr => Or.inr (hconsumed r hr), h.consumed⟩
  last := List.pairwise_cons.2 ⟨fun _ _ => hopen, h.last⟩
  apart := by
    refine List.pairwise_cons.2 ⟨fun y hy => ⟨hstart y hy, fun r hr => ?_⟩, h.apart⟩
    have hc := hconsumed r hr
    exact ⟨hc.plain, fun v hv => hc.length v hv ▸ hstart y hy⟩

/-- A connection none of whose requests is overlooked is framed, wherever in the stream it is. -/
theorem serve_framed {ts : List (Turn F)} {n : ℕ} {pre : Bytes} (hn : pre.length = n)
    (h : ∀ x ∈ serve s ts n c, ∀ r ∈ x.request, ¬Overlooks fr s x.turn r) :
    Framed fr (pre ++ c.stream) (serve s ts n c) := by
  induction ts generalizing n pre c with
  | nil => exact framed_nil fr _
  | cons t ts ih =>
    rcases serve_cons s t ts n c with ⟨raw, c', hstream, heq⟩ | heq | heq
    · rw [heq] at h ⊢
      obtain ⟨x, c'', hx⟩ : ∃ x c'', handleHead s t n raw c' = (x, c'') := ⟨_, _, rfl⟩
      have hfields := handleHead_fields (s := s) (t := t) (c := c') n raw
      have hbody := handleHead_body s t n raw c'
      simp only [hx] at h hfields hbody ⊢
      obtain ⟨hstart, hturn, hhead, hrequest⟩ := hfields
      have hlocated : x.head ++ x.body <+: (pre ++ c.stream).drop x.start := by
        rw [hstart, ← hn, List.drop_left, hhead, hstream]
        exact (List.prefix_append_right_inj raw).2 hbody
      cases hclosed : x.closed with
      | true => simpa using framed_closed fr hclosed hlocated
      | false =>
        obtain ⟨r, hr, -, -, hrest, -⟩ := handleHead_open hx hclosed
        have hpre : (pre ++ raw ++ x.body).length = n + raw.length + x.body.length := by
          simp [hn, Nat.add_assoc]
        have hwhole : pre ++ c.stream = pre ++ raw ++ x.body ++ c''.stream := by
          rw [hstream, hrest]
          simp
        simp only [hclosed, Bool.false_eq_true, if_false] at h ⊢
        have hframed := ih hpre (fun y hy => h y (List.mem_cons_of_mem _ hy))
        rw [← hwhole] at hframed
        refine hframed.cons hlocated hclosed (fun r hr => ?_) fun y hy => ?_
        · exact handleHead_consumed hx hclosed (hrequest ▸ hr) (hturn ▸ h x (by simp) r hr)
        · rw [hstart, hhead]
          exact le_start hy
    · rw [heq]
      exact framed_closed fr rfl List.nil_prefix
    · rw [heq]
      exact framed_nil fr _

/-- The requests of a connection consume what they announce, or close it, exactly when none is
overlooked. -/
theorem framed_iff (fr : Framing) (s : Server F) (ts : List (Turn F)) (c : Conn) :
    Framed fr c.stream (serve s ts 0 c) ↔
      ∀ x ∈ serve s ts 0 c, ∀ r ∈ x.request, ¬Overlooks fr s x.turn r := by
  have hstart (h : ∀ x ∈ serve s ts 0 c, ∀ r ∈ x.request, ¬Overlooks fr s x.turn r) :
      Framed fr ([] ++ c.stream) (serve s ts 0 c) := serve_framed rfl h
  refine ⟨fun h x hx r hr hover => ?_, hstart⟩
  rcases mem_serve hx with ⟨c', hc'⟩ | hnone
  · have hparse : x.turn.parse x.head = some r := by
      rw [← (handleHead_fields (s := s) (t := x.turn) (c := c') x.start x.head).2.2.2, hc']
      exact hr
    obtain ⟨hopen, hbody⟩ := handleHead_overlooks (n := x.start) (c := c') hparse hover
    rw [hc'] at hopen hbody
    rcases h.consumed x hx r hr with hclosed | hc
    · rw [hopen] at hclosed
      simp at hclosed
    · obtain ⟨v, vs, hlengths, -, w, hw, hne⟩ := hover.lengths
      exact hne (by rw [hc.length w (by simp [hlengths, hw]), hbody, List.length_nil])
  · simp [hnone] at hr

/-! ## A body that is parsed as a request -/

/-- Only decimal numbers announce a body. -/
def decimalFraming : Framing where
  announces v := if v.all isDigit then digitsVal v else 0
  empty := rfl
  decimal v _ hv := if_pos (by simpa using hv)

/-- A request of the health route with two lengths. -/
def twoLengths : Request where
  command := py "GET"
  path := healthPath
  headers := [(py "Authorization", py "Bearer t"), (py "Content-Length", py "0"),
    (py "Content-Length", py "18")]
  close := false

def twoLengthsHead : Bytes :=
  encodeUtf8 (py "GET /admin/health HTTP/1.1\r\nAuthorization: Bearer t\r\n" ++
    py "Content-Length: 0\r\nContent-Length: 18\r\n\r\n")

/-- The eighteen bytes of its body. -/
def bodyHead : Bytes := encodeUtf8 (py "GET / HTTP/1.1\r\n\r\n")

/-- `parse_request`, of these two heads. -/
def toyParse (head : Bytes) : Option Request :=
  if head = twoLengthsHead then some twoLengths
  else if head = bodyHead then some ⟨py "GET", py "/", [], false⟩
  else none

def toyServer : Server Tenths where
  authorized v := v == py "Bearer t"
  loads _ := .error ⟨400, py "The body is not valid JSON.", some (py "body"), []⟩

def toyTurn : Turn Tenths where
  parse := toyParse
  health := .answered [(py "ok", .bool true)]
  submit _ := .failed
  replied := true

/-- The client sends the request and its body. -/
def toyConn : Conn := ⟨[], [.chunk 71 (twoLengthsHead ++ bodyHead).tail]⟩

/-- The body that the second length announces is parsed as the head of a request. -/
theorem overlooked_parsed :
    (serve toyServer [toyTurn, toyTurn] 0 toyConn).map (fun x => (x.head, x.body, x.closed)) =
        [(twoLengthsHead, [], false), (bodyHead, [], true)] ∧
      ¬Framed decimalFraming toyConn.stream (serve toyServer [toyTurn, toyTurn] 0 toyConn) := by
  have hserve : (serve toyServer [toyTurn, toyTurn] 0 toyConn).map
      (fun x => (x.head, x.request, x.body, x.closed)) =
        [(twoLengthsHead, some twoLengths, [], false),
          (bodyHead, some ⟨py "GET", py "/", [], false⟩, [], true)] := by
    decide +kernel
  refine ⟨?_, fun h => ?_⟩
  · have := congrArg (List.map fun p => (p.1, p.2.2.1, p.2.2.2)) hserve
    simpa [Function.comp_def] using this
  · obtain ⟨x, xs, heq, hx, -⟩ := List.map_eq_cons_iff.1 hserve
    simp only [Prod.mk.injEq] at hx
    obtain ⟨-, hrequest, hbody, hopen⟩ := hx
    rcases h.consumed x (by simp [heq]) twoLengths hrequest with hclosed | hc
    · rw [hopen] at hclosed
      simp at hclosed
    · have hlength := hc.length (py "18") (by decide +kernel)
      rw [hbody] at hlength
      exact absurd hlength (by decide +kernel)

end Intake

end IcilOrchestrator

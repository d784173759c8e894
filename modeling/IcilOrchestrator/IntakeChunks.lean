import Mathlib
import IcilOrchestrator.IntakeFraming

/-!
# The chunks of a connection

Where `recv` cuts the bytes of a connection makes no difference to the intake, as long as no read
of it times out or fails (`Conn.Quiet`). The end of a head is searched for in what has arrived, and
its bound is checked against that : an end that is found is found in any more bytes too, and at its
place (`headEnd_append`), and what is decided of a head stays so (`headOf_append`). So a read comes
to what the stream alone says (`readHead_quiet`, `take_quiet`).

`serve_chunks` : two connections of one stream have the same exchanges.
-/

set_option linter.unusedSectionVars false

namespace Python

/-! ## The end of a head -/

variable {limit n : ℕ} {b : UInt8} {bs pending rest : Bytes}

theorem headEndAt_append (h : headEndAt bs = some n) (rest : Bytes) :
    headEndAt (bs ++ rest) = some n := by
  unfold headEndAt at h
  split at h <;> simp_all [headEndAt]

/-- Four bytes decide whether a match starts here. -/
theorem headEndAt_four (b₁ b₂ b₃ b₄ : UInt8) (bs rest : Bytes) :
    headEndAt (b₁ :: b₂ :: b₃ :: b₄ :: bs) = headEndAt (b₁ :: b₂ :: b₃ :: b₄ :: rest) := by
  unfold headEndAt
  split <;> split <;> simp_all

theorem headEnd_cons (b : UInt8) (bs : Bytes) :
    headEnd (b :: bs) = (headEndAt (b :: bs)).or ((headEnd bs).map (· + 1)) := by
  rw [headEnd]
  cases headEndAt (b :: bs) <;> rfl

theorem headEndAt_le (h : headEndAt bs = some n) : n ≤ bs.length := by
  unfold headEndAt at h
  split at h <;> simp_all <;> omega

theorem headEnd_pos (h : headEnd bs = some n) : 0 < n := by
  cases bs with
  | nil => simp [headEnd] at h
  | cons b bs =>
    rw [headEnd_cons, Option.or_eq_some_iff] at h
    rcases h with h | ⟨-, h⟩
    · unfold headEndAt at h
      split at h <;> simp_all <;> omega
    · obtain ⟨m, -, rfl⟩ := Option.map_eq_some_iff.1 h
      exact Nat.succ_pos m

theorem headEnd_le (h : headEnd bs = some n) : n ≤ bs.length := by
  induction bs generalizing n with
  | nil => simp [headEnd] at h
  | cons b bs ih =>
    rw [headEnd_cons, Option.or_eq_some_iff] at h
    rcases h with h | ⟨-, h⟩
    · exact headEndAt_le h
    · obtain ⟨m, hm, rfl⟩ := Option.map_eq_some_iff.1 h
      exact Nat.succ_le_succ (ih hm)

/-- No match starts before one that has arrived whole, whatever is still to arrive. -/
theorem headEndAt_none (hat : headEndAt (b :: bs) = none) (h : headEnd bs = some n)
    (rest : Bytes) : headEndAt (b :: bs ++ rest) = none := by
  match bs, hat, h with
  | [], _, h => simp [headEnd] at h
  | [x], _, h => simp [headEnd, headEndAt] at h
  | [x, y], hat, h =>
    -- the only match in two bytes is of two line feeds
    have hxy : x = 10 ∧ y = 10 := by
      rw [headEnd_cons, headEnd_cons, Option.or_eq_some_iff] at h
      rcases h with h | ⟨-, h⟩
      · unfold headEndAt at h
        split at h <;> simp_all
      · simp [headEnd, headEndAt] at h
    obtain ⟨rfl, rfl⟩ := hxy
    unfold headEndAt at hat ⊢
    split at hat <;> simp_all
  | x :: y :: z :: bs, hat, _ =>
    rw [List.cons_append, List.cons_append, List.cons_append, List.cons_append,
      headEndAt_four b x y z _ bs, hat]

/-- An end that is found is found in any more bytes too. -/
theorem headEnd_append (h : headEnd bs = some n) (rest : Bytes) :
    headEnd (bs ++ rest) = some n := by
  induction bs generalizing n with
  | nil => simp [headEnd] at h
  | cons b bs ih =>
    rw [headEnd_cons, Option.or_eq_some_iff] at h
    rw [List.cons_append, headEnd_cons, Option.or_eq_some_iff]
    rcases h with h | ⟨hat, h⟩
    · exact Or.inl (headEndAt_append h rest)
    · obtain ⟨m, hm, rfl⟩ := Option.map_eq_some_iff.1 h
      exact Or.inr ⟨headEndAt_none hat hm rest, by rw [ih hm, Option.map_some]⟩

/-- An end within the bytes that have arrived is found in them. -/
theorem headEndAt_of_append (h : headEndAt (bs ++ rest) = some n) (hn : n ≤ bs.length) :
    headEndAt bs = some n := by
  match bs, h, hn with
  | [], h, hn =>
    unfold headEndAt at h
    split at h <;> simp_all
  | [x], h, hn =>
    unfold headEndAt at h
    split at h <;> simp_all <;> omega
  | [x, y], h, hn =>
    unfold headEndAt at h
    split at h <;> simp_all [headEndAt] <;> omega
  | [x, y, z], h, hn =>
    unfold headEndAt at h
    split at h <;> simp_all [headEndAt]
    omega
  | x :: y :: z :: w :: bs, h, _ =>
    rw [headEndAt_four x y z w bs (bs ++ rest)]
    exact h

theorem headEnd_of_append (h : headEnd (bs ++ rest) = some n) (hn : n ≤ bs.length) :
    headEnd bs = some n := by
  induction bs generalizing n with
  | nil =>
    exact absurd (headEnd_pos h) (Nat.not_lt.2 hn)
  | cons b bs ih =>
    rw [List.cons_append, headEnd_cons, Option.or_eq_some_iff] at h
    rw [headEnd_cons, Option.or_eq_some_iff]
    rcases h with h | ⟨hat, h⟩
    · exact Or.inl (headEndAt_of_append h hn)
    · obtain ⟨m, hm, rfl⟩ := Option.map_eq_some_iff.1 h
      refine Or.inr ⟨?_, by rw [ih hm (Nat.le_of_succ_le_succ hn), Option.map_some]⟩
      by_contra hne
      obtain ⟨k, hk⟩ := Option.ne_none_iff_exists'.1 hne
      rw [← List.cons_append, headEndAt_append hk] at hat
      cases hat

/-- What is decided of a head stays so, whatever is still to arrive. -/
theorem headOf_append {r : HeadRead} (h : headOf limit pending = some r) (rest : Bytes) :
    headOf limit (pending ++ rest) = some r := by
  unfold headOf at h ⊢
  cases hend : headEnd pending with
  | some n =>
    rw [hend] at h
    rw [headEnd_append hend]
    simpa only [List.take_append_of_le_length (headEnd_le hend)] using h
  | none =>
    simp only [hend] at h
    split_ifs at h with hlong
    obtain rfl := Option.some.inj h
    have hlen : limit ≤ (pending ++ rest).length := by
      rw [List.length_append]
      omega
    cases hend' : headEnd (pending ++ rest) with
    | none => simp only [if_pos hlen]
    | some n =>
      have hlt : pending.length < n := by
        by_contra hle
        rw [headEnd_of_append hend' (Nat.not_lt.1 hle)] at hend
        cases hend
      simp only [if_neg (Nat.not_le.2 (hlong.trans_lt hlt))]

namespace Conn

/-! ## Reads -/

variable {c d : Conn}

/-- Nothing but bytes arrives. -/
def Quiet (c : Conn) : Prop := ∀ a ∈ c.arriving, ∃ b bs, a = .chunk b bs

/-- Two connections of one stream. -/
structure Alike (c d : Conn) : Prop where
  left : c.Quiet
  right : d.Quiet
  stream : c.stream = d.stream

theorem readHeadFrom_some {r : HeadRead} (h : headOf limit pending = some r) (as : List Arrival) :
    ∃ pending', readHeadFrom limit pending as = (r, ⟨pending', as⟩) := by
  cases r <;> cases as <;> simp [readHeadFrom, h]

theorem readHeadFrom_quiet {as : List Arrival} (hq : Quiet ⟨pending, as⟩) :
    (readHeadFrom limit pending as).1 =
        (headOf limit (pending ++ as.flatMap Arrival.bytes)).getD .closed ∧
      (readHeadFrom limit pending as).2.Quiet := by
  induction as generalizing pending with
  | nil =>
    cases h : headOf limit pending with
    | none => simp [readHeadFrom, h, Quiet]
    | some r =>
      obtain ⟨pending', heq⟩ := readHeadFrom_some h []
      simp [heq, h, Quiet]
  | cons a as ih =>
    cases h : headOf limit pending with
    | some r =>
      obtain ⟨pending', heq⟩ := readHeadFrom_some h (a :: as)
      rw [heq, headOf_append h]
      exact ⟨rfl, hq⟩
    | none =>
      obtain ⟨b, bs, rfl⟩ := hq a (List.mem_cons_self ..)
      have hrest : Quiet ⟨pending ++ b :: bs, as⟩ := fun a ha => hq a (List.mem_cons_of_mem _ ha)
      have := ih hrest
      simpa [readHeadFrom, h, Arrival.bytes] using this

/-- A head is read as the stream says. -/
theorem readHead_quiet (hc : c.Quiet) :
    (c.readHead limit).1 = (headOf limit c.stream).getD .closed ∧ (c.readHead limit).2.Quiet :=
  readHeadFrom_quiet hc

theorem takeFrom_quiet {as : List Arrival} (hq : Quiet ⟨pending, as⟩) :
    ∃ c, takeFrom n pending as = (.ok ((pending ++ as.flatMap Arrival.bytes).take n), c) ∧
      c.Quiet := by
  induction as generalizing pending with
  | nil => simp [takeFrom, Quiet]
  | cons a as ih =>
    simp only [takeFrom]
    split_ifs with hn
    · exact ⟨⟨pending.drop n, a :: as⟩, by rw [List.take_append_of_le_length hn], hq⟩
    · obtain ⟨b, bs, rfl⟩ := hq a (List.mem_cons_self ..)
      have hrest : Quiet ⟨pending ++ b :: bs, as⟩ := fun a ha => hq a (List.mem_cons_of_mem _ ha)
      have := ih hrest
      simpa [Arrival.bytes] using this

/-- A body is read as the stream says. -/
theorem take_quiet (hc : c.Quiet) :
    ∃ c', c.take n = (.ok (c.stream.take n), c') ∧ c'.Quiet := takeFrom_quiet hc

theorem Alike.refl (hc : c.Quiet) : c.Alike c := ⟨hc, hc, rfl⟩

/-- One body is read of both. -/
theorem Alike.take (h : c.Alike d) (n : ℕ) :
    ∃ raw c' d', c.take n = (.ok raw, c') ∧ d.take n = (.ok raw, d') ∧ c'.Alike d' := by
  obtain ⟨c', hc, hc'⟩ := take_quiet (n := n) h.left
  obtain ⟨d', hd, hd'⟩ := take_quiet (n := n) h.right
  rw [← h.stream] at hd
  refine ⟨_, c', d', hc, hd, hc', hd', (List.append_right_inj (c.stream.take n)).1 ?_⟩
  rw [← (take_ok hc).2, ← (take_ok hd).2, h.stream]

/-- One head is read of both. -/
theorem Alike.readHead (h : c.Alike d) (limit : ℕ) :
    (c.readHead limit).1 = (d.readHead limit).1 ∧
      ∀ raw, (c.readHead limit).1 = .head raw →
        (c.readHead limit).2.Alike (d.readHead limit).2 := by
  obtain ⟨hc, hc'⟩ : (c.readHead limit).1 = _ ∧ _ := readHead_quiet h.left
  obtain ⟨hd, hd'⟩ : (d.readHead limit).1 = _ ∧ _ := readHead_quiet h.right
  have heq : (c.readHead limit).1 = (d.readHead limit).1 := by rw [hc, hd, h.stream]
  refine ⟨heq, fun raw hraw => ⟨hc', hd', (List.append_right_inj raw).1 ?_⟩⟩
  have hleft : c.stream = raw ++ (c.readHead limit).2.stream := readHead_head (Prod.ext hraw rfl)
  have hright : d.stream = raw ++ (d.readHead limit).2.stream :=
    readHead_head (Prod.ext (heq ▸ hraw) rfl)
  rw [← hleft, ← hright, h.stream]

end Conn

end Python

namespace IcilOrchestrator

open Python

namespace Intake

variable {F : Type} {s : Server F} {t : Turn F} {r : Request} {c d : Conn}

/-! ## Requests -/

/-- Two readings that have come to the same. -/
structure Reading.Alike (rd rd' : Reading) : Prop where
  conn : rd.conn.Alike rd'.conn
  bodyRead : rd.bodyRead = rd'.bodyRead
  body : rd.body = rd'.body

theorem readJson_alike (h : c.Alike d) :
    (readJson s r c).1 = (readJson s r d).1 ∧ (readJson s r c).2.Alike (readJson s r d).2 := by
  unfold readJson
  dsimp only
  split_ifs
  · exact ⟨rfl, h, rfl, rfl⟩
  · split
    · exact ⟨rfl, h, rfl, rfl⟩
    · rename_i v _
      split_ifs
      · exact ⟨rfl, h, rfl, rfl⟩
      · obtain ⟨raw, c', d', hc, hd, hcd⟩ := h.take (digitsVal (strip v))
        rw [hc, hd]
        dsimp only
        split_ifs
        · exact ⟨rfl, hcd, rfl, rfl⟩
        · exact ⟨rfl, hcd, rfl, rfl⟩
      · exact ⟨rfl, h, rfl, rfl⟩
    · exact ⟨rfl, h, rfl, rfl⟩

theorem answer_alike (h : c.Alike d) :
    (answer s t r c).1 = (answer s t r d).1 ∧ (answer s t r c).2.Alike (answer s t r d).2 := by
  have hsame : Reading.Alike ⟨c, false, []⟩ ⟨d, false, []⟩ := ⟨h, rfl, rfl⟩
  unfold answer
  dsimp only
  cases hroute : routes.lookup (r.path.takeWhile (· != 63)) with
  | none => split_ifs <;> exact ⟨rfl, hsame⟩
  | some method =>
    dsimp only
    split_ifs
    · exact ⟨rfl, hsame⟩
    · exact ⟨rfl, hsame⟩
    · exact ⟨rfl, hsame⟩
    · obtain ⟨hres, hrd⟩ := readJson_alike (s := s) (r := r) h
      cases hc : readJson s r c with
      | mk res rd =>
        cases hd : readJson s r d with
        | mk res' rd' =>
          rw [hc, hd] at hres hrd
          obtain rfl : res = res' := hres
          cases res with
          | ok j => exact ⟨rfl, hrd⟩
          | error e => exact ⟨rfl, hrd⟩

theorem discardBody_alike {rd rd' : Reading} (h : rd.Alike rd') :
    (discardBody r rd).Alike (discardBody r rd') := by
  unfold discardBody
  rw [← h.bodyRead]
  dsimp only
  split_ifs
  · exact h
  · exact h
  · obtain ⟨raw, c', d', hc, hd, hcd⟩ := h.conn.take (digitsVal (strip (r.lengths.head?.getD [])))
    rw [hc, hd]
    exact ⟨hcd, rfl, rfl⟩

theorem handle_alike (h : c.Alike d) :
    (handle s t r c).1 = (handle s t r d).1 ∧ (handle s t r c).2.Alike (handle s t r d).2 := by
  obtain ⟨hres, hrd⟩ := answer_alike (s := s) (t := t) (r := r) h
  unfold handle
  cases hc : answer s t r c with
  | mk res rd =>
    cases hd : answer s t r d with
    | mk res' rd' =>
      rw [hc, hd] at hres hrd
      obtain rfl : res = res' := hres
      cases res with
      | ok reply => exact ⟨rfl, hrd⟩
      | error e =>
        cases e with
        | refused e => exact ⟨rfl, discardBody_alike hrd⟩
        | failed => exact ⟨rfl, discardBody_alike hrd⟩

theorem handleHead_alike (start : ℕ) (head : Bytes) (h : c.Alike d) :
    (handleHead s t start head c).1 = (handleHead s t start head d).1 ∧
      (handleHead s t start head c).2.Alike (handleHead s t start head d).2 := by
  unfold handleHead
  cases t.parse head with
  | none => exact ⟨rfl, h⟩
  | some r =>
    dsimp only
    split_ifs
    · obtain ⟨hreply, hrd⟩ := handle_alike (s := s) (t := t) (r := r) h
      exact ⟨by rw [hreply, hrd.body], hrd.conn⟩
    · exact ⟨rfl, h⟩

/-! ## A connection -/

/-- The exchanges of a connection are given by its stream. -/
theorem serve_alike (ts : List (Turn F)) (start : ℕ) (h : c.Alike d) :
    serve s ts start c = serve s ts start d := by
  induction ts generalizing start c d with
  | nil => rfl
  | cons t ts ih =>
    obtain ⟨hread, hconn⟩ := h.readHead maxHeadBytes
    unfold serve
    cases hc : c.readHead maxHeadBytes with
    | mk res c' =>
      cases hd : d.readHead maxHeadBytes with
      | mk res' d' =>
        rw [hc, hd] at hread hconn
        obtain rfl : res = res' := hread
        cases res with
        | head raw =>
          obtain ⟨hx, hx'⟩ := handleHead_alike (s := s) (t := t) start raw (hconn raw rfl)
          dsimp only
          rw [hx]
          split_ifs
          · rfl
          · rw [ih _ hx']
        | closed => rfl
        | long => rfl
        | failed e => rfl

/-- `RECEIVE_BYTES`. -/
def receiveBytes : ℕ := 16 * 1024

/-- What one `recv` returns, of a connection that is neither closed nor fails. -/
structure Chunk where
  first : UInt8
  more : Bytes
  short : more.length < receiveBytes

/-- A connection on which these chunks arrive, and its end. -/
def connOf (chunks : List Chunk) : Conn := ⟨[], chunks.map fun x => .chunk x.first x.more⟩

/-- The bytes of some chunks. -/
def bytesOf (chunks : List Chunk) : Bytes := chunks.flatMap fun x => x.first :: x.more

theorem connOf_quiet (chunks : List Chunk) : (connOf chunks).Quiet := by
  intro a ha
  obtain ⟨x, -, rfl⟩ := List.mem_map.1 ha
  exact ⟨x.first, x.more, rfl⟩

theorem stream_connOf (chunks : List Chunk) : (connOf chunks).stream = bytesOf chunks := by
  simp [Conn.stream, connOf, bytesOf, List.flatMap_map, Arrival.bytes]

/-- However `recv` cuts the bytes of a connection, its requests are taken, refused and answered
alike. -/
theorem serve_chunks (s : Server F) (ts : List (Turn F)) {chunks chunks' : List Chunk}
    (h : bytesOf chunks = bytesOf chunks') :
    serve s ts 0 (connOf chunks) = serve s ts 0 (connOf chunks') :=
  serve_alike ts 0 ⟨connOf_quiet chunks, connOf_quiet chunks', by
    rw [stream_connOf, stream_connOf, h]⟩

/-- Each byte is received alone. -/
def bytewise (bs : Bytes) : List Chunk := bs.map fun b => ⟨b, [], by decide⟩

/-- Two requests that are received at once, and byte by byte. -/
theorem toy_chunks :
    serve toyServer [toyTurn, toyTurn] 0 (connOf
        [⟨71, (twoLengthsHead ++ bodyHead).tail, by decide +kernel⟩]) =
      serve toyServer [toyTurn, toyTurn] 0 (connOf (bytewise (twoLengthsHead ++ bodyHead))) :=
  serve_chunks toyServer [toyTurn, toyTurn] (by decide +kernel)

end Intake

end IcilOrchestrator

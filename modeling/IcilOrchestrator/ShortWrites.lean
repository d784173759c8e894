import Mathlib
import IcilOrchestrator.Follows
import IcilOrchestrator.TornIndex

/-!
# Appending on a disk that may fail

The writer on a disk whose calls may raise, and where a write may report fewer bytes than it was
given. `append` does not look at what `os.write` returns, so a line cut short is reported as
appended and the head points past the index (`cut_appended`). As long as every write that returns
has written all it was given, what `append` and `rebuild_head` return is durable, after any run of
commands, kills and exceptions (`durable_of_reach`).
-/

set_option linter.unusedSectionVars false

namespace IcilOrchestrator

open Python Prog

variable {F : Type} [PyFloat F] [PyRepr F]

/-! ## The disk -/

/-- The files, and what the disk will make of the next call. -/
structure Disk where
  files : Files
  /-- The most bytes that the next write reports. -/
  room : ℕ
  /-- What the next call raises. -/
  fault : Option PyError

/-- A call of the system. -/
inductive Call where
  | other
  /-- A write of so many bytes. -/
  | write (n : ℕ)

/-- A program on the disk. -/
abbrev DiskProg (α : Type) := Prog Disk Call PyError α

/-- The files of the disk. -/
def filesLens : Lens Disk Files where
  get := Disk.files
  put s w := { w with files := s }
  get_put _ _ := rfl

/-- A method of `Store`, on the disk. -/
def onFiles {α : Type} (p : StoreProg α) : DiskProg α := p.lift filesLens fun _ => .other

/-- `os.write(fd, data)`, of the first bytes as far as there is room : how many were written. -/
def osWrite (p : Path) (data : Bytes) : DiskProg ℕ :=
  .act (.write data.length) id fun w =>
    (onFiles (appendBytes p (data.take w.room))).bind fun _ => .ret (.ok (min w.room data.length))

/-- `os.fsync(fd)`. -/
def fsync : DiskProg Unit := .write .other id

/-- What a disk may do between two calls, when each write that returns meets `meets`. -/
def Disk.env (meets : Call → Disk → Prop) : Env Disk Call where
  rely w w' := w'.files = w.files
  refl _ := rfl
  trans h h' := h'.trans h
  meets := meets

/-- The write is of all it is given. -/
def Whole : Call → Disk → Prop
  | .write n, w => n ≤ w.room
  | .other, _ => True

namespace Store

variable (st : Store)

/-- The line of a record, at the end of the index ; what `os.write` returns is not looked at. -/
def sendLine (track : PyStr) (signer : Signer st.crypto) (seq : ℤ) (record : Dict F) :
    DiskProg Unit := do
  let line ← .ret (st.signedLine signer record)
  onFiles (openAppend (indexPartPath track (st.spec.partOf seq).toNat))
  let _ ← osWrite (indexPartPath track (st.spec.partOf seq).toNat) line
  fsync
  onFiles (touch (indexPartPath track (st.spec.partOf seq).toNat))

/-- `Store.append`, on the disk. -/
def appendOn (track : PyStr) (record : Dict F) : DiskProg ℤ :=
  match st.signer with
  | none => .raise .runtimeError
  | some signer => do
    let eventId ← .ret (item record (py "event_id"))
    let sha ← onFiles (.try' () fun s => st.eventHash s.dir (eventPath track (strOf eventId)))
    onFiles (st.repairTail track)
    let seq ← onFiles (.try' () fun s => nextSeq F s.dir track)
    let signed := (record.set (py "event_sha256") (.str sha)).set (py "seq") (.int seq)
    st.sendLine track signer seq signed
    onFiles (st.advanceHead track seq signed)
    pure seq

/-- A command, and the number that an append returns. -/
def commandOn (track : PyStr) : Command F → DiskProg (Option ℤ)
  | .writeEvent event => do
    onFiles (writeEvent track event)
    pure none
  | .append record => do
    let seq ← st.appendOn track record
    pure (some seq)
  | .rebuildHead => (onFiles (st.rebuildHead F track)).bind fun _ => pure none

/-- A record that is appended is what a JSON text denotes. -/
def Command.IsJson : Command F → Prop
  | .append record => (Json.obj record).WF
  | _ => True

/-- Successive writers of a track on the disk : each call may raise, and the process may be killed
at any time. -/
def diskWriters (F : Type) [PyFloat F] [PyRepr F] (st : Store) (track : PyStr) :
    System Disk Call PyError (Option ℤ) (Command F) where
  prog c := (st.commandOn track c).fallible Disk.fault
  starts c _ := c.IsJson
  mayDie _ := True
  reset w := { w with files := { w.files with touched := [] } }

end Store

/-! ## Whole writes -/

variable {st : Store} {signer : Signer st.crypto} {track : PyStr}

theorem follows_osWrite (p : Path) (data : Bytes) {α : Type} {q : StoreProg α} {q' : DiskProg α}
    (h : Follows filesLens Whole q q') :
    Follows filesLens Whole ((appendBytes p data).bind fun _ => q)
      ((osWrite p data).bind fun _ => q') := by
  refine .idle fun w hw => ?_
  have hall : data.take w.room = data := List.take_of_length_le hw
  show Follows filesLens Whole _ (((onFiles (appendBytes p (data.take w.room))).bind fun _ =>
    .ret (.ok (min w.room data.length))).bind fun _ => q')
  rw [hall, bind_assoc]
  exact (Follows.lift _ _).bind fun _ => h

theorem follows_sendLine (seq : ℤ) (record : Dict F) :
    Follows filesLens Whole (st.appendLine track signer seq record)
      (st.sendLine track signer seq record) := by
  refine Follows.bind (.ret _) fun line => Follows.bind (.lift _ _) fun _ => ?_
  refine follows_osWrite _ _ (.idle fun _ _ => ?_)
  show Follows filesLens Whole _ (onFiles (touch _))
  exact .lift _ _

/-- With whole writes, an append on the disk does what an append does. -/
theorem follows_appendOn (record : Dict F) :
    Follows filesLens Whole (st.append track record) (st.appendOn track record) := by
  rw [Store.append, Store.appendOn]
  cases st.signer with
  | none => exact .ret _
  | some signer =>
    refine Follows.bind (.ret _) fun _ => Follows.bind (.lift _ _) fun _ =>
      Follows.bind (.lift _ _) fun _ => Follows.bind (.lift _ _) fun _ => ?_
    exact (follows_sendLine _ _).bind fun _ => Follows.bind (.lift _ _) fun _ => .ret _

/-! ## What a command returns -/

/-- An index of whole lines, and a cut of one more after them. -/
def Lines (st : Store) (signer : Signer st.crypto) (track : PyStr) (F : Type) [PyFloat F]
    (s : Files) : Prop :=
  ∃ (es : List (Entry F)) (tail : Bytes), st.Index signer track s.dir es tail

/-- The index ends with the line of the record with the number `seq`, and the head points at it. -/
structure LastLine (st : Store) (signer : Signer st.crypto) (track : PyStr) (record : Dict F)
    (seq : ℤ) (s : Files) (es : List (Entry F)) (e : Entry F) : Prop where
  index : st.Index signer track s.dir (es ++ [e]) []
  number : seq = es.length + 1
  record : ∃ signed, st.Stamped track s.dir record es.length signed ∧
    e.record = Json.sortDict signed ∧ ∃ king, st.HeadShows track s.dir seq signed king

/-- The index is whole lines, and the head points at the last. -/
structure HeadAtLast (st : Store) (signer : Signer st.crypto) (track : PyStr) (s : Files)
    (es : List (Entry F)) : Prop where
  index : st.Index signer track s.dir es []
  head : ∀ init e, es = init ++ [e] → ∃ king, st.HeadShows track s.dir es.length e.record king

/-- What a command that returns has made durable. -/
def Durable (st : Store) (signer : Signer st.crypto) (track : PyStr) :
    Store.Command F → Except PyError (Option ℤ) → Files → Prop
  | .append record, .ok (some seq), s =>
    ∃ (es : List (Entry F)) (e : Entry F), LastLine st signer track record seq s es e
  | .rebuildHead, .ok _, s => ∃ es : List (Entry F), HeadAtLast st signer track s es
  | _, _, _ => True

variable {s s' : Files} {es : List (Entry F)} {tail : Bytes}

theorem Appended.lastLine {record : Dict F} {hs : List (Entry F)} {e : Entry F}
    (h : Appended st signer track s es tail record s' hs e) :
    LastLine st signer track record (hs.length + 1) s' hs e := by
  obtain ⟨signed, previous, king, ⟨eventId, data, hid, hnode, hsigned⟩, he, -, -, hshows⟩ := h.head
  have hevent : s'.dir.node (eventPath track (strOf eventId)) = .file data := by
    rw [h.node _ (offIndex_eventPath track track _) (headPath_ne_eventPath _ _ _).symm, hnode]
  have hstamped : st.Stamped track s'.dir record hs.length signed :=
    ⟨eventId, data, hid, hevent, hsigned⟩
  exact ⟨h.index, rfl, signed, hstamped, he, king, hshows⟩

theorem Appending.lines {record : Dict F} (h : Appending st signer track s es tail record s')
    (hindex : st.Index signer track s.dir es tail) : Lines st signer track F s' := by
  cases h with
  | before h => exact h ▸ ⟨es, tail, hindex⟩
  | healed _ hi _ => exact ⟨_, _, hi⟩
  | torn _ _ _ _ hi _ => exact ⟨_, _, hi⟩
  | lined _ _ _ hi _ _ => exact ⟨_, _, hi⟩
  | appended h => exact ⟨_, _, h.index⟩

theorem Rebuilding.lines (h : Rebuilding st signer track s es tail s')
    (hindex : st.Index signer track s.dir es tail) : Lines st signer track F s' := by
  cases h with
  | before h => exact h ▸ ⟨es, tail, hindex⟩
  | healed _ hi _ => exact ⟨_, _, hi⟩
  | rebuilt h => exact ⟨_, _, h.index⟩

/-! ## Runs -/

/-- A command with whole writes, each act of which may raise. -/
theorem wp_commandOn (hsigner : st.signer = some signer) {c : Store.Command F} (hc : c.IsJson)
    {w : Disk} (hw : Lines st signer track F w.files) :
    Wp (Disk.env Whole) (fun _ _ w' => Lines st signer track F w'.files)
      (fun r w' => Durable st signer track c r w'.files)
      ((st.commandOn track c).fallible Disk.fault) w := by
  have hrely : ∀ w w' : Disk, (Disk.env Whole).rely w w' → filesLens.get w' = filesLens.get w :=
    fun _ _ h => h
  have herr : ∀ (e : PyError) (s : Files), Lines st signer track F s →
      Durable st signer track c (.error e) s := fun e s _ => by cases c <;> trivial
  obtain ⟨es, tail, hindex⟩ := hw
  cases c with
  | writeEvent event =>
    have hfollows : Follows filesLens Whole
        ((Store.writeEvent track event).bind fun _ => .ret (.ok none))
        (st.commandOn track (.writeEvent event)) := Follows.bind (.lift _ _) fun _ => .ret _
    refine Wp.follows_fallible hrely herr _ hfollows ⟨es, tail, hindex⟩ (wp_bind.2 ?_)
    refine wp_writeEvent ⟨es, tail, hindex⟩ (fun x => trivial)
      fun s' eventId text _ _ _ hnode _ => ⟨?_, wp_ret.2 trivial⟩
    exact ⟨es, tail, hindex.congr fun k => hnode _ (indexPartPath_ne_eventPath _ _ _ _)⟩
  | append record =>
    have hfollows : Follows filesLens Whole
        ((st.append track record).bind fun seq => .ret (.ok (some seq)))
        (st.commandOn track (.append record)) :=
      (follows_appendOn record).bind fun _ => .ret _
    refine Wp.follows_fallible hrely herr _ hfollows ⟨es, tail, hindex⟩ (wp_bind.2 ?_)
    exact wp_append hsigner hc hindex (fun s' h => h.lines hindex)
      (fun s' hs e h => wp_ret.2 ⟨hs, e, h.lastLine⟩) fun x s' h => herr x s' (h.lines hindex)
  | rebuildHead =>
    have hfollows : Follows filesLens Whole
        ((st.rebuildHead F track).bind fun _ => .ret (.ok none))
        (st.commandOn track (.rebuildHead : Store.Command F)) := by
      show Follows filesLens Whole _
        ((onFiles (st.rebuildHead F track)).bind fun _ => .ret (.ok none))
      exact (Follows.lift _ _).bind fun _ => .ret _
    refine Wp.follows_fallible hrely herr _ hfollows ⟨es, tail, hindex⟩ (wp_bind.2 ?_)
    refine wp_rebuildHead hsigner hindex (fun s' h => h.lines hindex)
      (fun r s' hs h => wp_ret.2 ⟨hs, h.index, fun init e he => ?_⟩)
      fun x s' h => herr x s' (h.lines hindex)
    exact (h.head init e he).imp fun king hking => hking.2

/-- As long as every write that returns is whole, what an append or a rebuild returns is durable :
after any run of commands, kills and exceptions. -/
theorem durable_of_reach (hsigner : st.signer = some signer) {w₀ w : Disk}
    (hnew : ∀ k, w₀.files.dir.node (indexPartPath track k) = .missing) {c : Store.Command F}
    {r : Except PyError (Option ℤ)}
    (h : (st.diskWriters F track).Reach (Disk.env Whole) w₀ ⟨w, some (c, .ret r)⟩) :
    Lines st signer track F w.files ∧ Durable st signer track c r w.files := by
  have hkeeps := h.inv (I := fun w => Lines st signer track F w.files)
    (Q := fun c r w => Durable st signer track c r w.files)
    (fun c w hc hw => wp_commandOn hsigner hc hw) (fun _ _ _ _ _ hw => hw)
    (fun w w' hw hrely => by
      have hfiles : w'.files = w.files := hrely
      rwa [hfiles])
    (fun w hw _ => hw) ⟨[], [], .nil hnew⟩
  exact ⟨hkeeps.inv, hkeeps.ended⟩

/-- A part of a whole index ends with a newline. -/
theorem Store.Index.ends (h : st.Index signer track s.dir es []) {k : ℕ} {data : Bytes}
    (hk : s.dir.node (indexPartPath track k) = .file data) : data = [] ∨ data.getLast? = some 10 := by
  obtain ⟨ps, -, -, hshow, -⟩ := h.parts
  rw [rendered_nil] at hshow
  rw [hshow k, List.getElem?_map] at hk
  cases hp : ps[k]? with
  | none => simp [hp] at hk
  | some p =>
    obtain rfl : render signer p = data := by simpa [hp] using hk
    rcases List.eq_nil_or_concat p with rfl | ⟨init, e, rfl⟩
    · exact Or.inl rfl
    · refine Or.inr ?_
      rw [render]
      exact getLast?_joinLines (by simp)

namespace Store

/-- The disk of a new store, with so much room for each write. -/
def toyDisk (room : ℕ) : Disk := ⟨toyFiles, room, none⟩

/-- The disk once an event is written. -/
def toyEvented (room : ℕ) : Disk :=
  (((toy.diskWriters Tenths (py "t")).prog toyEvent).exec (toyDisk room)).2

/-- The disk once its record is appended. -/
def toyAppended (room : ℕ) : Disk :=
  (((toy.diskWriters Tenths (py "t")).prog toyAppend).exec (toyEvented room)).2

theorem new_toyDisk (room k : ℕ) :
    (toyDisk room).files.dir.node (indexPartPath (py "t") k) = .missing := by
  simp only [toyDisk]
  exact initialised_toyFiles.1 k

/-- The run of the two commands, on a disk that lets them do their acts. -/
theorem reach_toyAppended (room : ℕ) {meets : Call → Disk → Prop} (m : Call → Disk → Bool)
    (hm : ∀ t w, m t w = true → meets t w)
    (hevent : ((toy.diskWriters Tenths (py "t")).prog toyEvent).meetsAll m (toyDisk room) = true)
    (happend : ((toy.diskWriters Tenths (py "t")).prog toyAppend).meetsAll m
      (toyEvented room) = true) :
    (toy.diskWriters Tenths (py "t")).Reach (Disk.env meets) (toyDisk room)
      ⟨toyAppended room, some (toyAppend, .ret
        (((toy.diskWriters Tenths (py "t")).prog toyAppend).exec (toyEvented room)).1)⟩ := by
  have hstart : (toy.diskWriters Tenths (py "t")).Reach (Disk.env meets) (toyDisk room)
      ⟨toyDisk room, some (toyEvent, (toy.diskWriters Tenths (py "t")).prog toyEvent)⟩ :=
    .single (.start trivial)
  have hnext : (toy.diskWriters Tenths (py "t")).Reach (Disk.env meets) (toyDisk room)
      ⟨toyEvented room, some (toyAppend, (toy.diskWriters Tenths (py "t")).prog toyAppend)⟩ :=
    ((hstart.exec_of_meets hm hevent).tail .finish).tail (.start (c := toyAppend) wf_vacancyFields)
  exact hnext.exec_of_meets hm happend

/-- Five bytes of the line are written, and the append returns 1. -/
theorem cut_appended : ∃ w₀ w : Disk,
    (∀ k, w₀.files.dir.node (indexPartPath (py "t") k) = .missing) ∧
      (toy.diskWriters Tenths (py "t")).Reach (Disk.env fun _ _ => True) w₀
        ⟨w, some (toyAppend, .ret (.ok (some 1)))⟩ ∧
      ¬Durable toy toyKeys (py "t") toyAppend (.ok (some 1)) w.files := by
  have hok : (((toy.diskWriters Tenths (py "t")).prog toyAppend).exec (toyEvented 5)).1 =
      .ok (some 1) := by decide +kernel
  have hmeets : ∀ (t : Call) (w : Disk), true = true → (fun _ _ => True : Call → Disk → Prop) t w :=
    fun _ _ _ => trivial
  have hreach := reach_toyAppended 5 (fun _ _ => true) hmeets (by decide +kernel)
    (by decide +kernel)
  rw [hok] at hreach
  refine ⟨toyDisk 5, toyAppended 5, new_toyDisk 5, hreach, ?_⟩
  rintro ⟨es, e, hlast⟩
  have hnode : (toyAppended 5).files.dir.node (indexPartPath (py "t") 0) =
      .file (encodeUtf8 (py "\x7b\"blo")) := by decide +kernel
  rcases hlast.index.ends hnode with hnil | hend
  · exact absurd hnil (by decide +kernel)
  · exact absurd hend (by decide +kernel)

/-- Whether a write is of all it is given. -/
def isWhole : Call → Disk → Bool
  | .write n, w => decide (n ≤ w.room)
  | .other, _ => true

/-- With room for the line, the append is durable. -/
theorem toy_durable : Durable toy toyKeys (py "t") toyAppend (.ok (some 1))
    (toyAppended 1000).files := by
  have hsigner : toy.signer = some toyKeys := rfl
  have hok : (((toy.diskWriters Tenths (py "t")).prog toyAppend).exec (toyEvented 1000)).1 =
      .ok (some 1) := by decide +kernel
  have hmeets : ∀ (t : Call) (w : Disk), isWhole t w = true → Whole t w := by
    intro t w ht
    cases t with
    | other => trivial
    | write n =>
      have hle : n ≤ w.room := by simpa [isWhole] using ht
      exact hle
  have hreach := reach_toyAppended 1000 isWhole hmeets (by decide +kernel) (by decide +kernel)
  rw [hok] at hreach
  exact (durable_of_reach hsigner (new_toyDisk 1000) hreach).2

end Store

end IcilOrchestrator

import Mathlib
import IcilOrchestrator.Text

/-!
# Files of lines

A file of lines is its lines, each followed by a newline, and what a writer left of a
line after them : `joinLines ls ++ tail`. Splitting at the newlines gives the lines and
the tail back (`lines_joinLines`), and a file whose last piece is empty is the lines
before it (`eq_joinLines`). A line itself is a text, a tab and a text (`splitTab_eq`).
-/

namespace Python

/-- `data.split(b"\n")`. -/
def lines (data : Bytes) : List Bytes := data.splitOn 10

/-- Lines, each with its newline. -/
def joinLines (ls : List Bytes) : Bytes := ls.flatMap (· ++ [10])

@[simp] theorem joinLines_nil : joinLines [] = [] := rfl

theorem joinLines_cons (l : Bytes) (ls : List Bytes) :
    joinLines (l :: ls) = l ++ 10 :: joinLines ls := by simp [joinLines]

theorem joinLines_append (ls ms : List Bytes) :
    joinLines (ls ++ ms) = joinLines ls ++ joinLines ms := by simp [joinLines]

/-- Splitting gives the lines and the tail. -/
theorem lines_joinLines {ls : List Bytes} {tail : Bytes} (hl : ∀ l ∈ ls, 10 ∉ l)
    (ht : 10 ∉ tail) : lines (joinLines ls ++ tail) = ls ++ [tail] := by
  induction ls with
  | nil => simpa [lines] using List.splitOn_eq_singleton ht
  | cons l ls ih =>
    rw [joinLines_cons, List.append_assoc, List.cons_append, lines,
      List.splitOn_append_cons_self_of_not_mem (hl l (by simp)), List.cons_append]
    exact congrArg _ (ih fun m hm => hl m (by simp [hm]))

/-- A file whose last piece is empty is the lines before it. -/
theorem eq_joinLines {data : Bytes} {ls : List Bytes} (h : lines data = ls ++ [[]]) :
    data = joinLines ls := by
  have hjoin : ∀ ls : List Bytes, [(10 : UInt8)].intercalate (ls ++ [[]]) = joinLines ls := by
    intro ls
    induction ls with
    | nil => rfl
    | cons l ls ih =>
      have hne : ls ++ [[]] ≠ [] := by simp
      rw [List.cons_append, List.intercalate_cons_of_ne_nil hne, ih, joinLines_cons]
      simp
  rw [← hjoin, ← h, lines, List.intercalate_splitOn]

theorem lines_ne_nil (data : Bytes) : lines data ≠ [] := List.splitOn_ne_nil _ _

/-- A file of lines with no tail ends in a newline, when it has any. -/
theorem getLast?_joinLines {ls : List Bytes} (h : ls ≠ []) :
    (joinLines ls).getLast? = some 10 := by
  obtain ⟨ms, l, rfl⟩ := List.eq_nil_or_concat ls |>.resolve_left h
  rw [List.concat_eq_append, joinLines_append, joinLines_cons]
  simp

/-- `data.rpartition(b"\n")`, without the newline it found. -/
def rpartition (data : Bytes) : Bytes × Bytes :=
  let tail := ((lines data).getLast?).getD []
  (data.take (data.length - (tail.length + 1)), tail)

/-- What comes before the last newline, and what a writer left of a line after it. -/
theorem rpartition_joinLines {ls : List Bytes} {l tail : Bytes} (hls : ∀ m ∈ ls, 10 ∉ m)
    (hl : 10 ∉ l) (ht : 10 ∉ tail) :
    rpartition (joinLines (ls ++ [l]) ++ tail) = (joinLines ls ++ l, tail) := by
  have hall : ∀ m ∈ ls ++ [l], 10 ∉ m := by
    intro m hm
    rcases List.mem_append.1 hm with hm | hm
    · exact hls m hm
    · rwa [List.mem_singleton.1 hm]
  have htail : ((lines (joinLines (ls ++ [l]) ++ tail)).getLast?).getD [] = tail := by
    rw [lines_joinLines hall ht]
    simp
  have hdata : joinLines (ls ++ [l]) ++ tail = (joinLines ls ++ l) ++ 10 :: tail := by
    simp [joinLines_append, joinLines_cons]
  have hlen : ((joinLines ls ++ l) ++ 10 :: tail).length - (tail.length + 1) =
      (joinLines ls ++ l).length := by
    simp only [List.length_append, List.length_cons]
    omega
  simp only [rpartition, htail]
  rw [hdata, hlen, List.take_left]

theorem rpartition_of_notMem {tail : Bytes} (h : 10 ∉ tail) : rpartition tail = ([], tail) := by
  have htail : lines tail = [tail] := List.splitOn_eq_singleton h
  simp [rpartition, htail]

/-! ## Lines of two texts -/

/-- `s.split("\t", 1)` of a text with a tab in it. -/
def splitTab (text : PyStr) : PyStr × PyStr :=
  (text.takeWhile (· != 9), (text.dropWhile (· != 9)).tail)

theorem splitTab_eq {text : PyStr} (h : text.contains 9) :
    text = (splitTab text).1 ++ 9 :: (splitTab text).2 := by
  induction text with
  | nil => simp at h
  | cons x text ih =>
    by_cases hx : x = 9
    · simp [splitTab, hx]
    · have htext : text.contains 9 := by
        simpa [Ne.symm hx] using h
      have := ih htext
      simp only [splitTab] at this ⊢
      simp [hx, ← this]

theorem splitTab_append {s : PyStr} (h : 9 ∉ s) (t : PyStr) : splitTab (s ++ 9 :: t) = (s, t) := by
  have hs : ∀ c ∈ s, (c != 9) = true := by
    intro c hc
    simpa using fun h9 : c = 9 => h (h9 ▸ hc)
  simp [splitTab, List.takeWhile_append_of_pos hs, List.dropWhile_append_of_pos hs]

end Python

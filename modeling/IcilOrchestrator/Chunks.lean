import Mathlib

/-!
# Lists in parts of a size

A list kept in parts of `per` elements, where only the last part may hold fewer
(`Filled`). The place for the next element is in the last part or in a new one
(`Filled.room`), and an element is in the part that its position names
(`Filled.getElem?_flatten`).
-/

namespace Python

variable {α : Type*} {per : ℕ} {ps init : List (List α)} {p : List α}

/-- Every part but the last holds `per` elements, and that one no more. -/
structure Filled (per : ℕ) (ps : List (List α)) : Prop where
  full : ∀ p ∈ ps.dropLast, p.length = per
  le : ∀ p ∈ ps.getLast?, p.length ≤ per

namespace Filled

theorem nil : Filled per ([] : List (List α)) := ⟨by simp, by simp⟩

theorem concat_iff : Filled per (init ++ [p]) ↔ (∀ q ∈ init, q.length = per) ∧ p.length ≤ per := by
  constructor
  · rintro ⟨hfull, hle⟩
    exact ⟨by simpa using hfull, hle p (by simp)⟩
  · rintro ⟨hfull, hle⟩
    exact ⟨by simpa using hfull, by simpa using hle⟩

theorem length_flatten (h : ∀ q ∈ init, q.length = per) :
    init.flatten.length = init.length * per := by
  rw [List.length_flatten, List.map_congr_left h, List.map_const', List.sum_replicate,
    smul_eq_mul]

/-- The next element goes to the last part, or to a new part after it. -/
theorem room (h : Filled per ps) (hper : 0 < per) :
    ∃ init p, Filled per (init ++ [p]) ∧ p.length < per ∧ (init ++ [p]).flatten = ps.flatten ∧
      init.length = ps.flatten.length / per ∧ (ps = init ++ [p] ∨ ps = init ∧ p = []) := by
  rcases List.eq_nil_or_concat ps with rfl | ⟨init, p, rfl⟩
  · exact ⟨[], [], concat_iff.2 (by simp), hper, rfl, by simp, Or.inr ⟨rfl, rfl⟩⟩
  · rw [List.concat_eq_append] at h ⊢
    obtain ⟨hfull, hle⟩ := concat_iff.1 h
    have hlen : (init ++ [p]).flatten.length = init.length * per + p.length := by
      rw [List.flatten_concat, List.length_append, length_flatten hfull]
    rcases Nat.lt_or_ge p.length per with hlt | hge
    · refine ⟨init, p, h, hlt, rfl, ?_, Or.inl rfl⟩
      rw [hlen, Nat.mul_comm, Nat.mul_add_div hper, Nat.div_eq_of_lt hlt, Nat.add_zero]
    · have heq : p.length = per := le_antisymm hle hge
      have hall : ∀ q ∈ init ++ [p], q.length = per := by
        intro q hq
        rcases List.mem_append.1 hq with hq | hq
        · exact hfull q hq
        · rw [List.mem_singleton.1 hq, heq]
      refine ⟨init ++ [p], [], concat_iff.2 ⟨hall, by simp⟩, hper, by simp, ?_,
        Or.inr ⟨rfl, rfl⟩⟩
      rw [length_flatten hall, Nat.mul_div_cancel _ hper]

/-- One more element in the last part. -/
theorem push (h : Filled per (init ++ [p])) (hp : p.length < per) (x : α) :
    Filled per (init ++ [p ++ [x]]) := by
  obtain ⟨hfull, -⟩ := concat_iff.1 h
  refine concat_iff.2 ⟨hfull, ?_⟩
  rw [List.length_append, List.length_singleton]
  omega

/-- The elements of a part are those at its positions. -/
theorem getElem?_flatten (h : Filled per ps) {i j : ℕ} (hp : ps[i]? = some p) (hj : j < p.length) :
    ps.flatten[i * per + j]? = p[j]? ∧ p.length ≤ per := by
  have hi : i < ps.length := (List.getElem?_eq_some_iff.1 hp).1
  have hsplit : ps = ps.take i ++ p :: ps.drop (i + 1) := by
    rw [← (List.getElem?_eq_some_iff.1 hp).2, ← List.drop_eq_getElem_cons hi, List.take_append_drop]
  have hbefore : ∀ q ∈ ps.take i, q.length = per := by
    intro q hq
    refine h.full q ?_
    rw [List.dropLast_eq_take]
    exact List.take_subset_take_left ps (by omega) hq
  have hle : p.length ≤ per := by
    rcases Nat.lt_or_ge (i + 1) ps.length with hlt | hge
    · refine le_of_eq (h.full p ?_)
      rw [List.dropLast_eq_take, List.mem_iff_getElem?]
      exact ⟨i, by rw [List.getElem?_take_of_lt (by omega), hp]⟩
    · refine h.le p ?_
      rw [List.getLast?_eq_getElem?, show ps.length - 1 = i by omega, hp]
      rfl
  refine ⟨?_, hle⟩
  have hlen : (ps.take i).flatten.length = i * per := by
    rw [length_flatten hbefore, List.length_take, Nat.min_eq_left hi.le]
  conv_lhs => rw [hsplit]
  rw [List.flatten_append, List.getElem?_append_right (by omega), hlen, Nat.add_sub_cancel_left,
    List.flatten_cons, List.getElem?_append_left hj]

end Filled

end Python

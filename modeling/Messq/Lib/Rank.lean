import Messq.Lib.Table

/-! # The first rows of an order

`ORDER BY f LIMIT n` takes the rows with fewer than `n` rows before them (`mem_take_orderBy`). -/

namespace Messq.Lib

universe u

variable {α : Type u} [LinearOrder α] {l : List α} {a : α} {n : ℕ}

/-- How many elements of the list are smaller. -/
def rank (l : List α) (a : α) : ℕ := l.countP (· < a)

theorem rank_cons (b : α) (l : List α) (a : α) : rank (b :: l) a = rank l a + if b < a then 1 else 0 := by
  rw [rank, List.countP_cons, rank]
  simp

theorem rank_lt_length (h : a ∈ l) : rank l a < l.length := by
  refine lt_of_le_of_ne List.countP_le_length fun he => ?_
  have hall := List.countP_eq_length.mp he a h
  exact absurd (of_decide_eq_true hall) (lt_irrefl a)

theorem rank_mono (l : List α) {b : α} (h : a ≤ b) : rank l a ≤ rank l b := by
  refine List.countP_mono_left fun c _ hc => ?_
  exact decide_eq_true ((of_decide_eq_true hc).trans_le h)

/-- An element has the smaller ones on one side and the greater ones on the other. -/
theorem rank_add_count (l : List α) (a : α) : rank l a + l.count a + l.countP (a < ·) = l.length := by
  induction l with
  | nil => rfl
  | cons b l ih =>
    rw [rank_cons, List.count_cons, List.countP_cons, List.length_cons, ← ih]
    rcases lt_trichotomy b a with h | h | h
    · simp [h, h.ne, h.not_gt]
      omega
    · simp [h]
      omega
    · simp [h, h.ne', h.not_gt]
      omega

theorem mem_take_of_sorted (hl : l.Pairwise (· < ·)) : a ∈ l.take n ↔ a ∈ l ∧ rank l a < n := by
  induction l generalizing n with
  | nil => simp
  | cons b l ih =>
    obtain ⟨hb, hl⟩ := List.pairwise_cons.mp hl
    cases n with
    | zero => simp
    | succ n =>
      rw [List.take_succ_cons, List.mem_cons, List.mem_cons, ih hl, rank_cons]
      by_cases hab : a = b
      · have hzero : rank l b = 0 := List.countP_eq_zero.mpr fun c hc => by simpa using (hb c hc).le
        simp [hab, hzero]
      · constructor
        · rintro (rfl | ⟨ha, hlt⟩)
          · exact absurd rfl hab
          · exact ⟨.inr ha, by rw [if_pos (hb a ha)]; exact Nat.succ_lt_succ hlt⟩
        · rintro ⟨ha | ha, hlt⟩
          · exact absurd ha hab
          · rw [if_pos (hb a ha)] at hlt
            exact .inr ⟨ha, Nat.lt_of_succ_lt_succ hlt⟩

/-- The first `n` elements in order are those of rank below `n`. -/
theorem mem_take_orderBy (hl : l.Nodup) : a ∈ (l.insertionSort (· ≤ ·)).take n ↔ a ∈ l ∧ rank l a < n := by
  have hperm := List.perm_insertionSort (· ≤ ·) l
  have hsorted : (l.insertionSort (· ≤ ·)).Pairwise (· < ·) := Table.strict_orderBy id hl fun _ _ _ _ => id
  rw [mem_take_of_sorted hsorted, hperm.mem_iff, rank, hperm.countP_eq]
  rfl

end Messq.Lib

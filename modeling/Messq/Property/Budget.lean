import Messq.Queue.Dead

/-! # The copy budget of a commit

A `DeadBudget` counts down while copies are written, each guarded by `canCopy`.

- `DeadBudget.copied` is what a sequence of guarded copies writes; `firstFit` is what two hard limits would let through,
  and `Overflows` says when the two part: the byte limit is met exactly and a byte follows while copies are left;
- the number of copies is bounded in every case (`length_copied_le`);
- the bytes are bounded when nothing overflows, and only then (`copied_within_iff`): a byte budget of zero is read as no
  limit, so what meets the limit exactly lifts it (`copied_past_exhaustion`). -/

namespace Messq

/-! ## Guarded copies -/

/-- The sizes that are copied, each after `canCopy` and followed by `take`. -/
def DeadBudget.copied : DeadBudget → List ℕ → List ℕ
  | _, [] => []
  | b, s :: ss => if b.canCopy s then s :: (b.take s).copied ss else b.copied ss

/-- What limits of `c` copies and `b` bytes let through. -/
def firstFit : ℕ → ℕ → List ℕ → List ℕ
  | _, _, [] => []
  | c, b, s :: ss => if 0 < c ∧ s ≤ b then s :: firstFit (c - 1) (b - s) ss else firstFit c b ss

/-- Some beginning fills the byte limit, and a byte is asked for before the copies are used up. -/
def Overflows (c b : ℕ) (sizes : List ℕ) : Prop :=
  ∃ l r, sizes = l ++ r ∧ (firstFit c b l).sum = b ∧ ∃ s ∈ r.take (c - (firstFit c b l).length), 0 < s

variable {c b s : ℕ} {ss : List ℕ}

/-- Within a positive byte budget the guard is the one of two hard limits. -/
theorem canCopy_iff (hb : 0 < b) : (DeadBudget.mk c b).canCopy s = true ↔ 0 < c ∧ s ≤ b := by
  simp only [DeadBudget.canCopy, decide_eq_true_eq]
  omega

theorem take_mk (hc : 0 < c) (hs : s ≤ b) : (DeadBudget.mk c b).take s = ⟨(c - 1 : ℕ), (b - s : ℕ)⟩ := by
  simp only [DeadBudget.take, DeadBudget.mk.injEq]
  omega

theorem take_succ (n s : ℕ) (bytes : ℤ) : (DeadBudget.mk (n + 1 : ℕ) bytes).take s = ⟨(n : ℕ), bytes - s⟩ := by
  simp [DeadBudget.take]

/-- A byte budget of zero or less is no limit: only the copies count. -/
theorem copied_of_bytes_nonpos (c : ℕ) {bytes : ℤ} (hb : bytes ≤ 0) (ss : List ℕ) :
    (DeadBudget.mk c bytes).copied ss = ss.take c := by
  induction ss generalizing c bytes with
  | nil => rw [List.take_nil]; rfl
  | cons s ss ih =>
    cases c with
    | zero =>
      have h := ih 0 hb
      rw [List.take_zero] at h
      simpa [DeadBudget.copied, DeadBudget.canCopy] using h
    | succ c =>
      have hcan : (DeadBudget.mk (c + 1 : ℕ) bytes).canCopy s = true := by
        simp only [DeadBudget.canCopy, decide_eq_true_eq]
        omega
      rw [DeadBudget.copied, if_pos hcan, take_succ, ih c (by omega), List.take_succ_cons]

theorem copied_cons_of_not (hb : 0 < b) (h : ¬ (0 < c ∧ s ≤ b)) :
    (DeadBudget.mk c b).copied (s :: ss) = (DeadBudget.mk c b).copied ss := by
  rw [DeadBudget.copied, if_neg]
  rwa [canCopy_iff hb]

theorem copied_cons (hb : 0 < b) (hc : 0 < c) (hs : s ≤ b) :
    (DeadBudget.mk c b).copied (s :: ss) = s :: (DeadBudget.mk (c - 1 : ℕ) (b - s : ℕ)).copied ss := by
  rw [DeadBudget.copied, if_pos ((canCopy_iff hb).mpr ⟨hc, hs⟩), take_mk hc hs]

theorem length_copied_le (c : ℕ) (bytes : ℤ) (ss : List ℕ) : ((DeadBudget.mk c bytes).copied ss).length ≤ c := by
  induction ss generalizing c bytes with
  | nil => exact Nat.zero_le c
  | cons s ss ih =>
    rw [DeadBudget.copied]
    split
    · rename_i hcan
      simp only [DeadBudget.canCopy, decide_eq_true_eq] at hcan
      obtain ⟨n, rfl⟩ : ∃ n, c = n + 1 := ⟨c - 1, by omega⟩
      rw [take_succ, List.length_cons]
      exact Nat.succ_le_succ (ih n _)
    · exact ih c bytes

/-! ## Overflow -/

theorem not_overflows_nil (hb : 0 < b) : ¬ Overflows c b [] := by
  rintro ⟨l, r, h, hsum, -⟩
  obtain ⟨rfl, rfl⟩ := List.append_eq_nil_iff.mp h.symm
  simp only [firstFit, List.sum_nil] at hsum
  omega

/-- A size that is refused changes nothing. -/
theorem overflows_cons_of_not (hb : 0 < b) (h : ¬ (0 < c ∧ s ≤ b)) : Overflows c b (s :: ss) ↔ Overflows c b ss := by
  constructor
  · rintro ⟨l, r, hss, hsum, hr⟩
    cases l with
    | nil =>
      simp only [firstFit, List.sum_nil] at hsum
      omega
    | cons x l =>
      obtain ⟨rfl, rfl⟩ := List.cons.inj hss
      rw [firstFit, if_neg h] at hsum hr
      exact ⟨l, r, rfl, hsum, hr⟩
  · rintro ⟨l, r, rfl, hsum, hr⟩
    refine ⟨s :: l, r, rfl, ?_, ?_⟩ <;> rw [firstFit, if_neg h]
    · exact hsum
    · exact hr

/-- A copy that does not meet the limit leaves smaller limits. -/
theorem overflows_cons (hb : 0 < b) (hc : 0 < c) (hs : s ≤ b) :
    Overflows c b (s :: ss) ↔ Overflows (c - 1) (b - s) ss := by
  have hlen : ∀ n, c - (n + 1) = c - 1 - n := fun n => by omega
  constructor
  · rintro ⟨l, r, hss, hsum, hr⟩
    cases l with
    | nil =>
      simp only [firstFit, List.sum_nil] at hsum
      omega
    | cons x l =>
      obtain ⟨rfl, rfl⟩ := List.cons.inj hss
      rw [firstFit, if_pos ⟨hc, hs⟩] at hsum hr
      rw [List.sum_cons] at hsum
      rw [List.length_cons, hlen] at hr
      exact ⟨l, r, rfl, by omega, hr⟩
  · rintro ⟨l, r, rfl, hsum, hr⟩
    refine ⟨s :: l, r, rfl, ?_, ?_⟩ <;> rw [firstFit, if_pos ⟨hc, hs⟩]
    · rw [List.sum_cons]
      omega
    · rw [List.length_cons, hlen]
      exact hr

/-- With no bytes left only empty messages fit. -/
theorem firstFit_zero (c : ℕ) {l : List ℕ} (h : ∀ s ∈ l.take c, s = 0) : firstFit c 0 l = l.take c := by
  induction l generalizing c with
  | nil => rw [List.take_nil]; rfl
  | cons s l ih =>
    cases c with
    | zero =>
      have := ih 0 (by simp)
      rw [List.take_zero] at this
      simpa [firstFit] using this
    | succ c =>
      rw [List.take_succ_cons] at h ⊢
      obtain ⟨rfl, htail⟩ := List.forall_mem_cons.mp h
      rw [firstFit, if_pos (by omega)]
      exact congrArg _ (ih c htail)

theorem sum_firstFit_zero (c : ℕ) (l : List ℕ) : (firstFit c 0 l).sum = 0 := by
  induction l generalizing c with
  | nil => rfl
  | cons s l ih =>
    rw [firstFit]
    split
    · rename_i h
      obtain rfl : s = 0 := by omega
      rw [List.sum_cons, ih, Nat.add_zero]
    · exact ih c

/-- With no bytes left every byte among the next copies overflows. -/
theorem overflows_zero_iff (c : ℕ) (ss : List ℕ) : Overflows c 0 ss ↔ ∃ s ∈ ss.take c, 0 < s := by
  constructor
  · rintro ⟨l, r, rfl, -, s, hs, hpos⟩
    by_contra hall
    have hzero : ∀ x ∈ (l ++ r).take c, x = 0 := by
      intro x hx
      by_contra hx0
      exact hall ⟨x, hx, Nat.pos_of_ne_zero hx0⟩
    rw [List.take_append] at hzero
    have hl : firstFit c 0 l = l.take c :=
      firstFit_zero c fun x hx => hzero x (List.mem_append_left _ hx)
    rw [hl, List.length_take] at hs
    -- what is left of the copies after `l` is what `take` leaves for `r`
    have hc : c - min c l.length = c - l.length := by omega
    rw [hc] at hs
    exact absurd (hzero s (List.mem_append_right _ hs)) (by omega)
  · rintro ⟨s, hs, hpos⟩
    exact ⟨[], ss, rfl, sum_firstFit_zero c [], s, by simpa [firstFit] using hs, hpos⟩

/-! ## The bound -/

theorem sum_pos_iff {l : List ℕ} : 0 < l.sum ↔ ∃ s ∈ l, 0 < s := by
  rw [Nat.pos_iff_ne_zero, Ne, List.sum_eq_zero_iff]
  push Not
  simp only [Nat.pos_iff_ne_zero]

/-- The bytes stay within the limit as long as nothing overflows. -/
theorem sum_copied_le_iff (c : ℕ) {b : ℕ} (hb : 0 < b) (ss : List ℕ) :
    ((DeadBudget.mk c b).copied ss).sum ≤ b ↔ ¬ Overflows c b ss := by
  induction ss generalizing c b with
  | nil => exact ⟨fun _ => not_overflows_nil hb, fun _ => Nat.zero_le b⟩
  | cons s ss ih =>
    by_cases hfit : 0 < c ∧ s ≤ b
    · obtain ⟨hc, hs⟩ := hfit
      rw [copied_cons hb hc hs, overflows_cons hb hc hs, List.sum_cons]
      rcases Nat.lt_or_eq_of_le hs with hlt | rfl
      · rw [← ih (c - 1) (Nat.sub_pos_of_lt hlt)]
        omega
      · -- the limit is met exactly: from here on every copy passes the guard
        rw [Nat.sub_self, copied_of_bytes_nonpos _ (by omega), overflows_zero_iff, ← sum_pos_iff]
        omega
    · rw [copied_cons_of_not hb hfit, overflows_cons_of_not hb hfit]
      exact ih c hb

/-- A fresh budget of positive limits bounds what a commit copies when nothing overflows, and only then. -/
theorem copied_within_iff (cfg : DLQConfig) (hc : 0 < cfg.maxCopiesPerCommit) (hb : 0 < cfg.maxBytesPerCommit)
    (sizes : List ℕ) :
    ((((newDeadBudget cfg).copied sizes).length : ℤ) ≤ cfg.maxCopiesPerCommit ∧
      (((newDeadBudget cfg).copied sizes).sum : ℤ) ≤ cfg.maxBytesPerCommit) ↔
      ¬ Overflows cfg.maxCopiesPerCommit.toNat cfg.maxBytesPerCommit.toNat sizes := by
  obtain ⟨c, hcfg⟩ := Int.eq_ofNat_of_zero_le hc.le
  obtain ⟨b, hbfg⟩ := Int.eq_ofNat_of_zero_le hb.le
  rw [newDeadBudget, hcfg, hbfg, Int.toNat_natCast, Int.toNat_natCast, Int.ofNat_le, Int.ofNat_le,
    and_iff_right (length_copied_le c b sizes)]
  exact sum_copied_le_iff c (by omega) sizes

/-- Two copies of at most ten bytes in all. -/
def tenByteBudget : DLQConfig :=
  { defaultDLQConfig defaultLimits with maxCopiesPerCommit := 2, maxBytesPerCommit := 10 }

/-- Sizes that leave a byte of the limit are bounded by it. -/
theorem copied_within_ten :
    ((((newDeadBudget tenByteBudget).copied [4, 7, 5, 1]).length : ℤ) ≤ 2 ∧
      (((newDeadBudget tenByteBudget).copied [4, 7, 5, 1]).sum : ℤ) ≤ 10) ∧ ¬ Overflows 2 10 [4, 7, 5, 1] := by
  have hw : (((newDeadBudget tenByteBudget).copied [4, 7, 5, 1]).length : ℤ) ≤ 2 ∧
      (((newDeadBudget tenByteBudget).copied [4, 7, 5, 1]).sum : ℤ) ≤ 10 := by decide
  exact ⟨hw, (copied_within_iff tenByteBudget (by decide) (by decide) [4, 7, 5, 1]).mp hw⟩

/-- A copy that meets the byte limit lifts it: the next one may have any size. -/
theorem copied_past_exhaustion :
    ¬ ∀ (cfg : DLQConfig) (sizes : List ℕ), 0 < cfg.maxCopiesPerCommit → 0 < cfg.maxBytesPerCommit →
      (((newDeadBudget cfg).copied sizes).length : ℤ) ≤ cfg.maxCopiesPerCommit ∧
        (((newDeadBudget cfg).copied sizes).sum : ℤ) ≤ cfg.maxBytesPerCommit := by
  intro h
  exact absurd (h tenByteBudget [10, 1000] (by decide) (by decide)).2 (by decide)

end Messq

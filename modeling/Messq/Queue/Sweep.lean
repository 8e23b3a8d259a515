import Messq.Queue.Settle

/-! # The lease sweeper's decision

`decideSweep` says what happens to one expired delivery row: it is skipped, released to ready at a jittered
backoff, or sent to the dead path. -/

namespace Messq

variable {j : Jitter} {nowMs delay schedule visibleAt : ℤ}

inductive DeadTrigger
  | ackWait | nak | term | policyLowered
  deriving DecidableEq

inductive SkipReason
  | notExpired | generation
  deriving DecidableEq

inductive SweepAction
  | skip (why : SkipReason)
  | dead (trigger : DeadTrigger)
  | redeliver (visibleAt delayMs scheduleMs : ℤ)
  deriving DecidableEq

structure SweepRow where
  attempts : ℤ
  generation : ℤ
  visibleAt : ℤ
  deliveredAt : ℤ

structure SweepPolicy where
  maxDeliver : ℤ
  backoff : List ℤ
  generation : ℤ

variable {p : SweepPolicy} {r : SweepRow}

structure SweepDecision where
  action : SweepAction
  heldMs : ℤ
  latenessMs : ℤ

def decideSweep (r : SweepRow) (p : SweepPolicy) (nowMs : ℤ) (j : Jitter) : SweepDecision :=
  let held := max (nowMs - r.deliveredAt) 0
  let lateness := max (nowMs - r.visibleAt) 0
  let action : SweepAction :=
    if r.visibleAt > nowMs then .skip .notExpired
    else if r.generation ≠ p.generation then .skip .generation
    else if p.maxDeliver > 0 ∧ r.attempts ≥ p.maxDeliver then
      .dead (if r.attempts > p.maxDeliver then .policyLowered else .ackWait)
    else
      let base := backoffFor p.backoff r.attempts
      let delay := milliseconds (j base)
      .redeliver (nowMs + delay) delay (milliseconds base)
  ⟨action, held, lateness⟩

/-- A row of the consumer's own generation is never skipped for its generation. -/
theorem decideSweep_generation (h : r.generation = p.generation) :
    (decideSweep r p nowMs j).action ≠ .skip .generation := by
  simp only [decideSweep]
  split
  · simp
  · rw [if_neg (by simp [h])]
    split <;> simp

/-- An expired row is skipped only for its generation, and it dies only at the bound. -/
theorem decideSweep_cases (hv : r.visibleAt ≤ nowMs) :
    r.generation ≠ p.generation ∧ (decideSweep r p nowMs j).action = .skip .generation ∨
    r.generation = p.generation ∧ (0 < p.maxDeliver ∧ p.maxDeliver ≤ r.attempts) ∧
      (∃ trigger, (decideSweep r p nowMs j).action = .dead trigger) ∨
    r.generation = p.generation ∧ ¬ (0 < p.maxDeliver ∧ p.maxDeliver ≤ r.attempts) ∧
      ∃ visibleAt delay schedule, (decideSweep r p nowMs j).action = .redeliver visibleAt delay schedule := by
  simp only [decideSweep]
  rw [if_neg (not_lt.mpr hv)]
  by_cases hg : r.generation = p.generation
  · rw [if_neg (not_not.mpr hg)]
    by_cases hb : p.maxDeliver > 0 ∧ r.attempts ≥ p.maxDeliver
    · rw [if_pos hb]
      exact .inr (.inl ⟨hg, hb, _, rfl⟩)
    · rw [if_neg hb]
      exact .inr (.inr ⟨hg, hb, _, _, _, rfl⟩)
  · rw [if_pos hg]
    exact .inl ⟨hg, rfl⟩

/-- A redelivery waits for the jittered backoff. -/
theorem decideSweep_visibleAt (h : (decideSweep r p nowMs j).action = .redeliver visibleAt delay schedule) :
    visibleAt = nowMs + milliseconds (j (backoffFor p.backoff r.attempts)) := by
  simp only [decideSweep] at h
  split at h
  · cases h
  split at h
  · cases h
  split at h
  · cases h
  · simp only [SweepAction.redeliver.injEq] at h
    exact h.1.symm

end Messq

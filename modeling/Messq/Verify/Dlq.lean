import Messq.Store.Dead

/-! # The dead-letter checker

Check P-DLQ1 reads the `msg.dead` rows of the audit trail: a copy that was written has to be stored still, unless the
messages of its stream begin behind it. -/

namespace Messq

open Lib

/-- A JSON number is decoded to a binary64 and converted back: above 53 bits it is rounded, ties to even. -/
def throughFloat64 (n : ℤ) : ℤ :=
  let a := n.natAbs
  let e := a.log2 - 52
  let q := a / 2 ^ e
  let r := a % 2 ^ e
  let q' := if 2 * r > 2 ^ e ∨ (2 * r = 2 ^ e ∧ q % 2 = 1) then q + 1 else q
  n.sign * ((q' * 2 ^ e : ℕ) : ℤ)

theorem throughFloat64_eq {n : ℤ} (h : n.natAbs < 2 ^ 53) : throughFloat64 n = n := by
  have he : n.natAbs.log2 - 52 = 0 := by
    by_cases h0 : n.natAbs = 0
    · rw [h0]; rfl
    · have := (Nat.log2_lt h0).mpr h
      omega
  simp only [throughFloat64, he, pow_zero, Nat.div_one, Nat.mod_one, mul_zero, mul_one]
  rw [if_neg (by omega), Int.sign_mul_natAbs]

/-- `parseDeadDetail`, as far as the check reads it: the copy that the detail says was written. -/
def Detail.written : Detail → Option (Bytes × ℤ)
  | .dead _ _ _ _ (.written dlq seq _ _ _) _ _ _ => some (dlq, throughFloat64 seq)
  | _ => .none

/-- A copy that is neither stored nor passed by the first number of its stream. -/
structure DlqFinding where
  stream : Bytes
  consumer : Bytes
  seq : ℤ
  dlqStream : Bytes
  dlqSeq : ℤ
  deriving DecidableEq

def Store.checkDead (st : Store) (e : Event) : Option DlqFinding :=
  if e.name = .msgDead then
    match e.detail.written with
    | none => none
    | some (dlq, seq) =>
      if (st.messages.find? (dlq, seq)).isSome then none
      else if (st.firstSeq dlq).any fun first => first > seq then none
      else some ⟨e.stream.getD [], e.consumer.getD [], e.seq.getD 0, dlq, seq⟩
  else none

/-- `checkP_DLQ1`. -/
def Store.checkDlq (st : Store) : List DlqFinding :=
  (st.events.rows.insertionSort fun a b => a.id ≤ b.id).filterMap fun r => st.checkDead r.event

end Messq

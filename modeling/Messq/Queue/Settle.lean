import Messq.Queue.Token

/-! # The settle planner

`planSettle` decides from a parsed token, the consumer's fence facts and the live delivery row what one
settle item may do. A plan that mutates has passed the fence (`planSettle_cases`): the token names the
consumer's generation and the row's attempt. -/

namespace Messq

variable {now : ℤ}

inductive Verb
  | ack | nak | term | extend
  deriving DecidableEq

inductive ItemStatus
  | ok | stale | staleAck | wrongGeneration | unknown
  deriving DecidableEq

/-- The `deliveries.state` column. -/
inductive DeliveryState
  | ready | inflight
  deriving DecidableEq

inductive SettleAction
  | noop | ack | release | extend | dead
  deriving DecidableEq

inductive DeadCause
  | maxDeliver | terminated
  deriving DecidableEq

/-- Why a settle was rejected, as the audit row names it. -/
inductive RejectReason
  | none | generation | futureAttempt | notInflight
  deriving DecidableEq

/-- The scheduling seam: the delay to schedule for a computed delay. -/
abbrev Jitter := ℤ → ℤ

def maxNakDelay : ℤ := 24 * hour

/-- `ConsumerConfig.BackoffFor`: the last entry repeats past the end. -/
def backoffFor (backoff : List ℤ) (attempt : ℤ) : ℤ :=
  if backoff = [] then 0
  else
    let i := attempt - 1
    let i : ℤ := if i < 0 then 0 else if i ≥ (backoff.length : ℤ) then (backoff.length : ℤ) - 1 else i
    backoff.getD i.toNat 0

/-- `ReleaseDelay`: an explicit delay is used verbatim, the schedule is jittered. -/
def releaseDelay (c : ConsumerConfig) (attempt : ℤ) (explicit : Option ℤ) (j : Jitter) : Except Refusal ℤ :=
  match explicit with
  | some d => if d < 0 ∨ d > maxNakDelay then .error (.nakDelay d) else .ok d
  | none => .ok (j (backoffFor c.backoff attempt))

/-- The live delivery row as the planner sees it. -/
structure RowView where
  state : DeliveryState
  attempts : ℤ
  visibleAt : ℤ
  deliveredAt : ℤ
  deriving DecidableEq

structure SettleRequest where
  verb : Verb
  token : Token
  generation : ℤ
  cursorSeq : ℤ
  config : ConsumerConfig
  maxAckWait : ℤ
  row : Option RowView
  nakDelay : Option ℤ
  jitter : Jitter

structure SettlePlan where
  status : ItemStatus
  action : SettleAction := .noop
  late : Bool := false
  dead : Bool := false
  cause : DeadCause := .maxDeliver
  reason : RejectReason := .none
  currentAttempt : ℤ := 0
  newVisibleAt : ℤ := 0
  heldMs : ℤ := 0

variable {row : RowView} {plan : SettlePlan} {req : SettleRequest}

def planAck (row : RowView) (now : ℤ) : SettlePlan where
  status := .ok
  action := .ack
  heldMs := if row.deliveredAt ≠ 0 then unixMilli now - row.deliveredAt else 0
  late := row.state = .ready

def planNak (req : SettleRequest) (row : RowView) (now : ℤ) : Except Refusal SettlePlan := do
  let delay ← releaseDelay req.config row.attempts req.nakDelay req.jitter
  let dead : Bool := req.config.maxDeliver > 0 ∧ row.attempts ≥ req.config.maxDeliver
  if row.state = .inflight ∧ dead then
    return { status := .ok, action := .dead, dead := true, cause := .maxDeliver }
  else
    let computed := unixMilli (now + delay)
    -- a retried nak only ever pulls a waiting row in
    let computed := if row.state = .ready ∧ computed > row.visibleAt then row.visibleAt else computed
    return { status := .ok, action := .release, newVisibleAt := computed }

def planTerm : SettlePlan where
  status := .ok
  action := .dead
  dead := true
  cause := .terminated

def planExtend (req : SettleRequest) (row : RowView) (now : ℤ) : Except Refusal SettlePlan :=
  if row.state ≠ .inflight then
    .ok { status := .staleAck, currentAttempt := row.attempts, reason := .notInflight }
  else
    let nowMs := unixMilli now
    let base := if row.visibleAt < nowMs then nowMs else row.visibleAt
    let newDeadline := base + milliseconds req.config.ackWait
    let maxHold := row.deliveredAt + milliseconds req.maxAckWait
    if newDeadline > maxHold then .error .extendPastCap
    else .ok { status := .ok, action := .extend, newVisibleAt := newDeadline }

/-- `PlanSettle`: the fence, then the verb. -/
def planSettle (req : SettleRequest) (now : ℤ) : Except Refusal SettlePlan :=
  if req.token.generation ≠ req.generation then .ok { status := .wrongGeneration, reason := .generation }
  else match req.row with
    | none => if req.token.seq < req.cursorSeq then .ok { status := .stale } else .ok { status := .unknown }
    | some row =>
      if req.token.attempt ≠ row.attempts then
        .ok { status := .staleAck, currentAttempt := row.attempts,
              reason := if req.token.attempt > row.attempts then .futureAttempt else .none }
      else match req.verb with
        | .ack => .ok (planAck row now)
        | .nak => planNak req row now
        | .term => .ok planTerm
        | .extend => planExtend req row now

/-- A plan that prescribes nothing. -/
def SettlePlan.Rejects (p : SettlePlan) : Prop := p.status ≠ .ok ∧ p.action = .noop

/-- The cause under which a verb gives a delivery up. -/
def Verb.cause : Verb → DeadCause
  | .term => .terminated
  | _ => .maxDeliver

/-- The verb gives up a delivery at this row: a term always does, a nak at the bound of a held lease. -/
def SettleRequest.GivesUp (req : SettleRequest) (row : RowView) : Prop :=
  req.verb = .term ∨ req.verb = .nak ∧ row.state = .inflight ∧ 0 < req.config.maxDeliver ∧
    req.config.maxDeliver ≤ row.attempts

/-- A plan that prescribes a mutation of the row; only a held lease is extended, and a held lease at the bound is
not released. -/
structure SettlePlan.Grants (p : SettlePlan) (req : SettleRequest) (row : RowView) : Prop where
  status : p.status = .ok
  action : p.action ≠ .noop
  extend : p.action = .extend → row.state = .inflight
  release : p.action = .release → row.state = .inflight →
    ¬ (0 < req.config.maxDeliver ∧ req.config.maxDeliver ≤ row.attempts)
  dead : p.action = .dead → p.cause = req.verb.cause ∧ req.GivesUp row

theorem planNak_grants (hv : req.verb = .nak) (h : planNak req row now = .ok plan) : plan.Grants req row := by
  simp only [planNak, Lib.bind_eq_ok] at h
  obtain ⟨d, -, h⟩ := h
  split at h
  · rename_i hd
    cases h
    exact ⟨rfl, by simp, by simp, by simp, fun _ => ⟨by rw [hv]; rfl, .inr ⟨hv, hd.1, by simpa using hd.2⟩⟩⟩
  · rename_i hd
    cases h
    exact ⟨rfl, by simp, by simp, fun _ hi hb => hd ⟨hi, by simpa using hb⟩, by simp⟩

theorem planExtend_cases (h : planExtend req row now = .ok plan) : plan.Rejects ∨ plan.Grants req row := by
  simp only [planExtend] at h
  split at h
  · cases h; exact .inl ⟨by simp, rfl⟩
  · rename_i hs
    rw [Lib.guard_eq_ok] at h
    cases h.2
    exact .inr ⟨rfl, by simp, fun _ => not_not.mp hs, by simp, by simp⟩

/-- **The fence.** A plan either prescribes nothing, or the token named the consumer's generation and the
attempt of a live row. -/
theorem planSettle_cases (h : planSettle req now = .ok plan) :
    plan.Rejects ∨ ∃ row, req.row = some row ∧ req.token.generation = req.generation ∧
      req.token.attempt = row.attempts ∧ plan.Grants req row := by
  unfold planSettle at h
  split at h
  · cases h; exact .inl ⟨by simp, rfl⟩
  rename_i hgen
  split at h
  · split at h <;> · cases h; exact .inl ⟨by simp, rfl⟩
  rename_i row hrow
  split at h
  · cases h; exact .inl ⟨by simp, rfl⟩
  rename_i hatt
  refine Or.imp_right (fun hp : plan.Grants req row => ⟨row, hrow, not_not.mp hgen, not_not.mp hatt, hp⟩) ?_
  cases hv : req.verb with
  | ack =>
    simp only [hv] at h
    cases h
    exact .inr ⟨rfl, by simp [planAck], by simp [planAck], by simp [planAck], by simp [planAck]⟩
  | nak => simp only [hv] at h; exact .inr (planNak_grants hv h)
  | term =>
    simp only [hv] at h
    cases h
    exact .inr ⟨rfl, by simp [planTerm], by simp [planTerm], by simp [planTerm], fun _ => ⟨by rw [hv]; rfl, .inl hv⟩⟩
  | extend => simp only [hv] at h; exact planExtend_cases h

end Messq

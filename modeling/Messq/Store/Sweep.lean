import Messq.Store.Settle

/-! # Sweep and retire

The sweep takes the expired leases in the order of the expiry index and releases or gives up each one; the retire
pass gives up ready rows that a lowered `max_deliver` left at or above the bound. Both delete and update by the
lease they loaded, and both go on when the copy budget of the command is spent. -/

namespace Messq

open Lib

structure SweepResult where
  expired : ℕ := 0
  redelivered : ℕ := 0
  dead : ℕ := 0
  skipped : ℕ := 0
  deferred : ℕ := 0
  woke : List (Bytes × Bytes) := []
  more : Bool := false
  nextDueMs : ℤ := 0
  maxLatenessMs : ℤ := 0

/-- `ORDER BY visible_at, stream, consumer, seq`. -/
def DeliveryRow.expiresBefore (a b : DeliveryRow) : Bool :=
  a.visibleAt < b.visibleAt ∨ (a.visibleAt = b.visibleAt ∧ (a.stream < b.stream ∨ (a.stream = b.stream ∧
    (a.consumer < b.consumer ∨ (a.consumer = b.consumer ∧ a.seq ≤ b.seq)))))

/-- The expired leases, bounded. -/
def Store.expired (st : Store) (nowMs : ℤ) (limit : ℕ) : List DeliveryRow :=
  ((st.deliveries.select fun d => d.state == .inflight && d.visibleAt ≤ nowMs).insertionSort
    fun a b => a.expiresBefore b).take limit

/-- The row as it was loaded: same key, state, attempt and generation. -/
def DeliveryRow.sameLease (r d : DeliveryRow) : Bool :=
  d.key == r.key && d.state == r.state && d.attempts == r.attempts && d.generation == r.generation

/-- The fence facts of a consumer; a missing one is reported so that its rows are skipped. -/
structure LoadedPolicy where
  policy : SweepPolicy
  ackWaitMs : ℤ

def loadSweepPolicy (st : Store) (stream consumer : Bytes) : Tx (Option LoadedPolicy) :=
  match st.consumers.find? (stream, consumer) with
  | none => return none
  | some c => do
    let generation ← scanInt32 c.generation
    return some ⟨⟨toInt32 c.maxDeliver, c.backoffMs.map msDuration, generation⟩, c.ackWaitMs⟩

/-- The two load phases: every row is scanned, then every policy. -/
def scanLeases : List DeliveryRow → Tx Unit
  | [] => return ()
  | d :: ds => do
    let _ ← scanInt32 d.attempts
    let _ ← scanInt32 d.generation
    scanLeases ds

def loadPolicies (st : Store) : List DeliveryRow → Tx (List (DeliveryRow × Option LoadedPolicy))
  | [] => return []
  | d :: ds => do
    let policy ← loadSweepPolicy st d.stream d.consumer
    return (d, policy) :: (← loadPolicies st ds)

/-- The event of a lapsed lease. -/
def timeoutEvent (env : Env) (st : Store) (d : DeliveryRow) (lp : LoadedPolicy) (dec : SweepDecision) : Event :=
  let m := st.messages.find? (d.stream, d.seq)
  let (delay, schedule, retryAt) := match dec.action with
    | .redeliver visibleAt delay schedule => (delay, schedule, visibleAt)
    | _ => (0, 0, 0)
  { ts := env.nowMs, name := .msgTimeout, stream := nullStr d.stream, consumer := nullStr d.consumer,
    subject := nullStr d.subject, msgId := m.bind fun m => nullStr m.id, seq := nullI64 d.seq,
    attempt := nullI64 d.attempts, traceId := m.bind fun m => nullStr m.traceId,
    detail := .timeout dec.heldMs dec.latenessMs lp.ackWaitMs schedule delay retryAt d.attempts lp.policy.maxDeliver }

/-- What the sink is told about a lease that is given up. -/
def DeliveryRow.deadCtx (st : Store) (d : DeliveryRow) (maxDeliver : ℤ) (trigger : DeadTrigger) : DeadCtx :=
  let m := st.messages.find? (d.stream, d.seq)
  { stream := d.stream, consumer := d.consumer, subject := d.subject, seq := d.seq,
    msgId := (m.map MessageRow.id).getD [], traceId := (m.map MessageRow.traceId).getD [],
    attempts := toInt32 d.attempts, generation := toInt32 d.generation, maxDeliver := toInt32 maxDeliver,
    cause := .maxDeliver, trigger := trigger, lastReason := d.lastReason.getD [] }

/-- `DELETE … WHERE` the lease is unchanged: how many rows went. -/
def deleteLease (r : DeliveryRow) : Tx ℕ := do
  let st ← get
  set { st with deliveries := st.deliveries.delete r.sameLease }
  return (st.deliveries.select r.sameLease).length

/-- The release of a lapsed lease. -/
def releaseLease (r : DeliveryRow) (visibleAt : ℤ) : Tx ℕ := do
  let st ← get
  set { st with
    deliveries := st.deliveries.update r.sameLease
      (fun d => { d with state := .ready, visibleAt := visibleAt, lastReason := some (str "ack_wait") })
        fun _ _ => rfl }
  return (st.deliveries.select r.sameLease).length

def sweepRedeliver (env : Env) (d : DeliveryRow) (visibleAt : ℤ) (res : SweepResult) : Tx SweepResult := do
  let n ← releaseLease d visibleAt
  if n = 0 then return { res with skipped := res.skipped + 1 }
  else
    let key := (d.stream, d.consumer)
    let woke := if visibleAt ≤ env.nowMs ∧ key ∉ res.woke then res.woke ++ [key] else res.woke
    return { res with redelivered := res.redelivered + 1, woke := woke }

/-- A spent budget leaves the row inflight for the next tick. -/
def sweepDead (env : Env) (budget : DeadBudget) (d : DeliveryRow) (maxDeliver : ℤ) (trigger : DeadTrigger)
    (res : SweepResult) : Tx (SweepResult × DeadBudget) := do
  match ← deadLetter env budget (d.deadCtx (← get) maxDeliver trigger) with
  | none => return ({ res with deferred := res.deferred + 1 }, budget)
  | some budget =>
    let n ← deleteLease d
    if n = 0 then return ({ res with skipped := res.skipped + 1 }, budget)
    else return ({ res with dead := res.dead + 1 }, budget)

/-- One row of the decide-and-apply phase. -/
def sweepOne (env : Env) (n : ℕ) (d : DeliveryRow) (lp : Option LoadedPolicy) (res : SweepResult)
    (budget : DeadBudget) : Tx (SweepResult × DeadBudget) :=
  match lp with
  | none => return ({ res with skipped := res.skipped + 1 }, budget)
  | some lp => do
    let dec := decideSweep ⟨d.attempts, d.generation, d.visibleAt, d.deliveredAt.getD 0⟩ lp.policy env.nowMs
      (env.jitter n)
    let res := { res with maxLatenessMs := max res.maxLatenessMs dec.latenessMs }
    match dec.action with
    | .skip _ => return ({ res with skipped := res.skipped + 1 }, budget)
    | .redeliver visibleAt _ _ => do
      commitEvent (timeoutEvent env (← get) d lp dec)
      return (← sweepRedeliver env d visibleAt res, budget)
    | .dead trigger => do
      commitEvent (timeoutEvent env (← get) d lp dec)
      sweepDead env budget d lp.policy.maxDeliver trigger res

def sweepRows (env : Env) : ℕ → List (DeliveryRow × Option LoadedPolicy) → SweepResult → DeadBudget → Tx SweepResult
  | _, [], res, _ => return res
  | n, p :: ps, res, budget => do
    let (res, budget) ← sweepOne env n p.1 p.2 res budget
    sweepRows env (n + 1) ps res budget

/-- `SELECT MIN(visible_at) FROM deliveries WHERE state = 1`. -/
def Store.nextDue (st : Store) : ℤ :=
  (((st.deliveries.select fun d => d.state == .inflight).map DeliveryRow.visibleAt).min?).getD 0

/-- `SweepCmd.Apply`. -/
def sweep (env : Env) (limit : ℕ) : Tx SweepResult := do
  let st ← get
  let rows := st.expired env.nowMs limit
  scanLeases rows
  let loaded ← loadPolicies st rows
  let res ← sweepRows env 0 loaded { expired := rows.length, more := rows.length = limit } (newDeadBudget env.opts.dlq)
  return { res with nextDueMs := (← get).nextDue }

/-! ## Retire -/

/-- The ready rows of a consumer at or above its bound, in sequence order. -/
def Store.stranded (st : Store) (c : ConsumerRow) (limit : ℕ) : List DeliveryRow :=
  (((st.pendingOf c.stream c.name).filter fun d =>
    d.state == .ready && d.attempts ≥ c.maxDeliver && d.generation == c.generation).insertionSort
      fun a b => a.seq ≤ b.seq).take limit

/-- The rows of one consumer; `none` when the budget ran out. -/
def retireRows (env : Env) (maxDeliver : ℤ) : List DeliveryRow → ℕ → DeadBudget → Tx (ℕ × Option DeadBudget)
  | [], retired, budget => return (retired, some budget)
  | d :: ds, retired, budget => do
    match ← deadLetter env budget (d.deadCtx (← get) maxDeliver .policyLowered) with
    | none => return (retired, none)
    | some budget =>
      let n ← deleteLease d
      retireRows env maxDeliver ds (if n = 0 then retired else retired + 1) budget

def retireTargets (env : Env) (limit : ℕ) : List ConsumerRow → ℕ → DeadBudget → Tx ℕ
  | [], retired, _ => return retired
  | c :: cs, retired, budget => do
    let (retired, budget) ← retireRows env c.maxDeliver ((← get).stranded c limit) retired budget
    match budget with
    | none => return retired
    | some budget => retireTargets env limit cs retired budget

/-- `RetireCmd.Apply`: an unlimited consumer never retires a row. -/
def retire (env : Env) (limit : ℕ) : Tx ℕ := do
  let st ← get
  retireTargets env limit (st.consumers.select fun c => c.maxDeliver > 0) 0 (newDeadBudget env.opts.dlq)

end Messq

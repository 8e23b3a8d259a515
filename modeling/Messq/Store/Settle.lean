import Messq.Store.Dead

/-! # Settle

A settle batch loads each item's consumer and delivery row up front, then decides and applies the items in
request order; a token repeated in the batch is answered `stale` without work. Every mutating statement repeats
the fence on attempt and generation and must change exactly one row: the planner compares the token's generation
with the consumer's, the fence with the row's. -/

namespace Messq

open Lib

structure SettleItem where
  token : Token
  verb : Verb
  delay : Option ℤ := none
  reason : Bytes := []
  deriving DecidableEq

structure ItemResult where
  token : Token
  status : ItemStatus
  attempt : ℤ := 0
  maxDeliver : ℤ := 0
  currentAttempt : ℤ := 0
  deadline : ℤ := 0
  retryAt : ℤ := 0
  dead : Bool := false
  late : Bool := false
  heldMs : ℤ := 0
  err : Option Refusal := none

structure SettleResult where
  results : List ItemResult
  ok : ℕ
  failed : ℕ

/-! ## Loading -/

structure SettleConsumer where
  generation : ℤ
  cursorSeq : ℤ
  cfg : ConsumerConfig

/-- The configuration a settle plans with: the consumer's backoff is appended to the default one. -/
def settleConfig (c : ConsumerRow) : ConsumerConfig :=
  { defaultConsumerConfig c.name with
    ackWait := msDuration c.ackWaitMs
    maxDeliver := toInt32 c.maxDeliver
    backoff := defaultConsumerBackoff ++ c.backoffMs.map msDuration }

/-- `loadSettleConsumer`. -/
def loadSettleConsumer (st : Store) (stream name : Bytes) : Tx (Option SettleConsumer) :=
  match st.consumers.find? (stream, name) with
  | none => return none
  | some c => do
    let generation ← scanInt32 c.generation
    return some ⟨generation, c.cursorSeq, settleConfig c⟩

structure SettleRow where
  view : RowView
  generation : ℤ
  subject : Bytes
  msgId : Bytes
  traceId : Bytes

/-- `loadSettleRows` for one row: the message is left-joined, so an orphaned row stays settleable. -/
def loadSettleRow (st : Store) (stream consumer : Bytes) (seq : ℤ) : Tx (Option SettleRow) :=
  match st.deliveries.find? (stream, consumer, seq) with
  | none => return none
  | some d => do
    let attempts ← scanInt32 d.attempts
    let generation ← scanInt32 d.generation
    let m := st.messages.find? (stream, seq)
    return some {
      view := ⟨d.state, attempts, d.visibleAt, d.deliveredAt.getD 0⟩, generation, subject := d.subject,
      msgId := (m.map MessageRow.id).getD [], traceId := (m.map MessageRow.traceId).getD [] }

/-- An item with what was loaded for it. -/
inductive Prepared
  | repeated (it : SettleItem)
  | loaded (it : SettleItem) (consumer : Option SettleConsumer) (row : Option SettleRow)

/-- The load phase; `seen` are the token texts met so far. -/
def prepare (st : Store) : List Bytes → List SettleItem → Tx (List Prepared)
  | _, [] => return []
  | seen, it :: its =>
    if it.token.string ∈ seen then return .repeated it :: (← prepare st seen its)
    else do
      let consumer ← loadSettleConsumer st it.token.stream it.token.consumer
      let row ← loadSettleRow st it.token.stream it.token.consumer it.token.seq
      return .loaded it consumer row :: (← prepare st (it.token.string :: seen) its)

/-! ## The fence -/

/-- `stream = ? AND consumer = ? AND seq = ? AND attempts = ? AND generation = ?`. -/
def Token.fences (t : Token) (d : DeliveryRow) : Bool :=
  d.key == (t.stream, t.consumer, t.seq) && d.attempts == t.attempt && d.generation == t.generation

/-- `changed`: a statement must have changed exactly one row. -/
def requireOne (n : ℕ) : Tx Unit := if n ≠ 1 then fail (.fence n) else pure ()

def fencedDelete (t : Token) : Tx Unit := do
  let st ← get
  requireOne (st.deliveries.select t.fences).length
  set { st with deliveries := st.deliveries.delete t.fences }

def fencedUpdate (t : Token) (extra : DeliveryRow → Bool) (f : DeliveryRow → DeliveryRow)
    (hf : ∀ d, (f d).key = d.key) : Tx Unit := do
  let st ← get
  requireOne (st.deliveries.select fun d => t.fences d && extra d).length
  set { st with deliveries := st.deliveries.update (fun d => t.fences d && extra d) f fun d _ => hf d }

/-! ## Applying one item -/

/-- The event of a mutation: it names the delivery, the attempt and the message. -/
def settleEvent (nowMs : ℤ) (name : EventName) (t : Token) (row : SettleRow) (detail : Detail) : Event where
  ts := nowMs
  name := name
  stream := nullStr t.stream
  consumer := nullStr t.consumer
  subject := nullStr row.subject
  msgId := nullStr row.msgId
  seq := nullI64 t.seq
  attempt := nullI64 t.attempt
  traceId := nullStr row.traceId
  detail := detail

def applyAck (env : Env) (it : SettleItem) (row : SettleRow) (plan : SettlePlan) (res : ItemResult) :
    Tx ItemResult := do
  fencedDelete it.token
  let held := max plan.heldMs 0
  commitEvent (settleEvent env.nowMs .msgAck it.token row (.ack held plan.late))
  return { res with heldMs := held, late := plan.late }

def applyRelease (env : Env) (it : SettleItem) (row : SettleRow) (plan : SettlePlan) (reason : Bytes)
    (res : ItemResult) : Tx ItemResult := do
  fencedUpdate it.token (fun _ => true)
    (fun d => { d with state := .ready, visibleAt := plan.newVisibleAt, lastReason := some reason }) fun _ => rfl
  -- a repeat that did not move the deadline writes no second event
  if row.view.state ≠ .ready ∨ row.view.visibleAt ≠ plan.newVisibleAt then
    commitEvent (settleEvent env.nowMs .msgNak it.token row
      (.nak (max (plan.newVisibleAt - env.nowMs) 0) reason it.delay.isSome))
  else pure ()
  return { res with retryAt := plan.newVisibleAt }

def applyExtend (env : Env) (it : SettleItem) (row : SettleRow) (plan : SettlePlan) (res : ItemResult) :
    Tx ItemResult := do
  fencedUpdate it.token (fun d => d.state == .inflight) (fun d => { d with visibleAt := plan.newVisibleAt })
    fun _ => rfl
  commitEvent (settleEvent env.nowMs .msgExtend it.token row (.extend plan.newVisibleAt))
  return { res with deadline := plan.newVisibleAt }

/-- The dead path of a verb: its event, the sink, the fenced delete. A spent budget aborts the batch. -/
def applyDead (env : Env) (budget : DeadBudget) (it : SettleItem) (cons : SettleConsumer) (row : SettleRow)
    (plan : SettlePlan) (reason : Bytes) (res : ItemResult) : Tx (ItemResult × DeadBudget) := do
  let t := it.token
  commitEvent (settleEvent env.nowMs (if plan.cause = .terminated then .msgTerm else .msgNak) t row (.reason reason))
  let budget ← deadLetter env budget {
    stream := t.stream, consumer := t.consumer, subject := row.subject, seq := t.seq, msgId := row.msgId,
    traceId := row.traceId, attempts := t.attempt, generation := t.generation, maxDeliver := cons.cfg.maxDeliver,
    cause := plan.cause, trigger := if plan.cause = .terminated then .term else .nak, lastReason := reason }
  let budget ← Tx.require .deadBudget budget
  fencedDelete t
  return ({ res with dead := true }, budget)

/-- `applyAction`: the mutation of an `ok` plan. -/
def applyAction (env : Env) (budget : DeadBudget) (it : SettleItem) (cons : SettleConsumer) (row : SettleRow)
    (plan : SettlePlan) (reason : Bytes) (res : ItemResult) : Tx (ItemResult × DeadBudget) :=
  match plan.action with
  | .noop => return (res, budget)
  | .ack => return (← applyAck env it row plan res, budget)
  | .release => return (← applyRelease env it row plan reason res, budget)
  | .extend => return (← applyExtend env it row plan res, budget)
  | .dead => applyDead env budget it cons row plan reason res

/-- `rejectionLimiter.due`: whether to emit, and how many were suppressed before. -/
def rejectionDue (key : Bytes × Bytes × EventName) (nowMs intervalMs : ℤ) : Tx (Option ℤ) := do
  let st ← get
  let lim := (st.limiter.find? key).getD ⟨key, 0, 0⟩
  if lim.lastMs = 0 ∨ nowMs - lim.lastMs ≥ intervalMs then do
    set { st with limiter := st.limiter.upsert ⟨key, nowMs, 0⟩ }
    return some lim.suppressed
  else do
    set { st with limiter := st.limiter.upsert { lim with suppressed := lim.suppressed + 1 } }
    return none

/-- `rejectionEvent`: at most one row an interval for a consumer and event name. -/
def rejectionEvent (env : Env) (t : Token) (name : EventName) (reason : RejectReason) (res : ItemResult) : Tx Unit := do
  match ← rejectionDue (t.stream, t.consumer, name) env.nowMs (milliseconds env.opts.eventRepeatInterval) with
  | none => return ()
  | some suppressed =>
    commitEvent {
      ts := env.nowMs, name := name, stream := nullStr t.stream, consumer := nullStr t.consumer,
      seq := nullI64 t.seq, attempt := nullI64 t.attempt,
      detail := .reject res.attempt res.currentAttempt reason suppressed }

/-- The planner's request for one loaded item. -/
def settleRequest (env : Env) (n : ℕ) (it : SettleItem) (cons : SettleConsumer) (row : Option SettleRow) :
    SettleRequest where
  verb := it.verb
  token := it.token
  generation := cons.generation
  cursorSeq := cons.cursorSeq
  config := cons.cfg
  maxAckWait := env.opts.consumerLimits.maxAckWait
  row := row.map SettleRow.view
  nakDelay := it.delay
  jitter := env.jitter n

/-- Carrying out a plan. -/
def applyPlan (env : Env) (budget : DeadBudget) (it : SettleItem) (cons : SettleConsumer) (row : Option SettleRow)
    (plan : SettlePlan) (res : ItemResult) : Tx (ItemResult × DeadBudget) := do
  match plan.status with
  | .ok =>
    let reason := truncateUTF8 (trimSpace it.reason) env.opts.maxReasonBytes
    match row with
    | some row => applyAction env budget it cons row plan reason { res with status := .ok }
    | none => return ({ res with status := .ok }, budget)
  | .stale =>
    let res := { res with status := .stale }
    rejectionEvent env it.token .msgAckDup .none res
    return (res, budget)
  | .unknown => return ({ res with status := .unknown }, budget)
  | status =>
    let res := { res with status := status, currentAttempt := plan.currentAttempt }
    rejectionEvent env it.token .msgAckStale plan.reason res
    return (res, budget)

/-- `applyOne`: an absent consumer is unknown, a planner refusal is a per-item rejection. -/
def applyOne (env : Env) (n : ℕ) (budget : DeadBudget) (it : SettleItem) (cons : Option SettleConsumer)
    (row : Option SettleRow) : Tx (ItemResult × DeadBudget) :=
  match cons with
  | none => return ({ token := it.token, status := .unknown, attempt := it.token.attempt }, budget)
  | some cons =>
    let res : ItemResult :=
      { token := it.token, status := .unknown, attempt := it.token.attempt, maxDeliver := cons.cfg.maxDeliver }
    match planSettle (settleRequest env n it cons row) env.now with
    | .error r => return ({ res with err := some r }, budget)
    | .ok plan => applyPlan env budget it cons row plan res

/-- The apply phase, in request order. -/
def settleItems (env : Env) : ℕ → DeadBudget → List Prepared → Tx (List ItemResult)
  | _, _, [] => return []
  | n, budget, .repeated it :: ps => return ⟨it.token, .stale, 0, 0, 0, 0, 0, false, false, 0, none⟩ ::
      (← settleItems env (n + 1) budget ps)
  | n, budget, .loaded it cons row :: ps => do
    let (res, budget) ← applyOne env n budget it cons row
    return res :: (← settleItems env (n + 1) budget ps)

/-- `SettleCmd.Apply`, with a fresh copy budget for the command. -/
def settle (env : Env) (items : List SettleItem) : Tx SettleResult := do
  let prepared ← prepare (← get) [] items
  let results ← settleItems env 0 (newDeadBudget env.opts.dlq) prepared
  let ok := (results.filter fun r => r.status == .ok || r.status == .stale).length
  return ⟨results, ok, results.length - ok⟩

end Messq

import Messq.Queue.Dead
import Messq.Queue.Retention
import Messq.Lib.Transaction

/-! # The store's tables

The SQLite schema as keyed tables, the audit trail, and the transaction monad in which command bodies run.
A name column is a byte string, an `INTEGER` column an integer. `Store` also holds what the writer goroutine
keeps in memory: the two rate-limit maps and the carriers of the running command. -/

namespace Messq

open Lib

/-! ## Rows -/

/-- The keys of the `meta` table: `seq_hwm.<name>`, `reap.<name>` and `cstart.<stream>\0<consumer>`. -/
inductive MetaKey
  | seqHwm (name : Bytes)
  | reap (name : Bytes)
  | cstart (stream consumer : Bytes)
  deriving DecidableEq

/-- A `meta` value: a decimal number or a recorded start position. -/
inductive MetaVal
  | int (n : ℤ)
  | start (p : StartPosition)

structure MetaRow where
  k : MetaKey
  v : MetaVal

structure StreamRow where
  name : Bytes
  subjects : List Bytes
  retention : Retention
  maxMsgs : ℤ
  maxBytes : ℤ
  maxAgeMs : ℤ
  maxMsgSize : ℤ
  discard : Discard
  dedupWindowMs : ℤ
  createdAt : ℤ

structure SeqRow where
  stream : Bytes
  next : ℤ

structure StatsRow where
  stream : Bytes
  msgs : ℤ
  bytes : ℤ
  expiredSeq : ℤ
  expiredAt : ℤ

structure MessageRow where
  stream : Bytes
  seq : ℤ
  id : Bytes
  subject : Bytes
  hdr : Option Headers
  body : Bytes
  size : ℤ
  publishedAt : ℤ
  traceId : Bytes
  dedupKey : Option Bytes

abbrev MessageRow.key (m : MessageRow) : Bytes × ℤ := (m.stream, m.seq)

structure ConsumerRow where
  stream : Bytes
  name : Bytes
  filters : List Bytes
  ackWaitMs : ℤ
  maxDeliver : ℤ
  maxAckPending : ℤ
  backoffMs : List ℤ
  deadPolicy : DeadPolicy
  cursorSeq : ℤ
  generation : ℤ
  paused : Bool
  createdAt : ℤ

abbrev ConsumerRow.key (c : ConsumerRow) : Bytes × Bytes := (c.stream, c.name)

/-- The stored configuration as the validation layer's value. -/
def ConsumerRow.config (c : ConsumerRow) : ConsumerConfig where
  name := c.name
  filters := c.filters
  ackWait := msDuration c.ackWaitMs
  maxDeliver := c.maxDeliver
  maxAckPending := c.maxAckPending
  backoff := c.backoffMs.map msDuration
  deadPolicy := c.deadPolicy
  paused := c.paused

structure DeliveryRow where
  stream : Bytes
  consumer : Bytes
  seq : ℤ
  subject : Bytes
  state : DeliveryState
  attempts : ℤ
  visibleAt : ℤ
  generation : ℤ
  deliveredAt : Option ℤ
  lastReason : Option Bytes
  deriving DecidableEq

abbrev DeliveryRow.key (d : DeliveryRow) : Bytes × Bytes × ℤ := (d.stream, d.consumer, d.seq)

/-! ## Events -/

inductive EventName
  | streamCreate | streamUpdate | streamDelete | streamPurge
  | msgPublish | msgDup | msgDeliver | msgAck | msgNak | msgTerm | msgExtend | msgTimeout | msgDead
  | msgAckDup | msgAckStale
  | consumerCreate | consumerUpdate | consumerDelete | consumerPause | consumerSeek | flowBlocked
  | retentionExpire | retentionBlocked | recoveryReclaimed | recoveryUnclean | adminAction
  deriving DecidableEq

inductive DeadOutcome
  | written (dlqStream : Bytes) (dlqSeq bytes : ℤ) (trimmed reasonTruncated : Bool)
  | dropped
  | originMissing
  deriving DecidableEq

/-- The `detail` column, one constructor for each JSON shape the source writes. -/
inductive Detail
  | none
  | streamCreate (nextSeq : ℤ)
  | dlqCreate (origin : Bytes)
  | fields (fs : List Field)
  | shrink (fs : List Field) (overshoot : ℤ)
  | streamDelete (messages bytes consumers : ℤ)
  | purge (messages bytes pendingDropped firstSeqAfter : ℤ) (subject : Bytes)
  | publish (size : ℤ) (headers : ℕ) (dedup : Bool) (skewMs : Option ℤ)
  | dup (originalSeq : ℤ) (subjectDiffers : Bool)
  | deliver (attempt deadlineMs : ℤ)
  | ack (heldMs : ℤ) (late : Bool)
  | nak (delayMs : ℤ) (reason : Bytes) (explicit : Bool)
  | reason (reason : Bytes)
  | extend (deadlineMs : ℤ)
  | timeout (heldMs latenessMs ackWaitMs scheduleMs delayMs retryAt attempt maxDeliver : ℤ)
  | dead (cause : DeadCause) (policy : DeadPolicy) (attempts generation : ℤ) (outcome : DeadOutcome)
      (trigger : DeadTrigger) (maxDeliver : ℤ) (lastReason : Bytes)
  | reject (tokenAttempt currentAttempt : ℤ) (reason : RejectReason) (suppressed : ℤ)
  | consumerCreate (cursorSeq : ℤ) (start : StartPosition)
  | consumerDelete (pending inflight : ℤ)
  | paused (paused : Bool)
  | seek (source target dropped : ℤ) (clamped : Bool)
  | flowBlocked (pending maxAckPending : ℤ)
  | expire (deleted freed msgsLeft bytesLeft : ℤ)
  | blocked (blockingSeq wouldFreeBytes ageMs : ℤ)
  | reclaimed (count jitterMs : ℤ)
  | admin (setting source target : Bytes)

/-- One audit row without its id. -/
structure Event where
  ts : ℤ
  name : EventName
  stream : Option Bytes := .none
  consumer : Option Bytes := .none
  subject : Option Bytes := .none
  msgId : Option Bytes := .none
  seq : Option ℤ := .none
  attempt : Option ℤ := .none
  traceId : Option Bytes := .none
  actor : Option Bytes := .none
  detail : Detail := .none

structure EventRow where
  id : ℤ
  event : Event

/-- `nullStr`: the empty string is SQL `NULL`. -/
def nullStr (s : Bytes) : Option Bytes := if s = [] then none else some s

/-- `nullI64`: zero is SQL `NULL`. -/
def nullI64 (n : ℤ) : Option ℤ := if n = 0 then none else some n

/-! ## The store -/

structure FlowRow where
  key : Bytes × Bytes
  lastMs : ℤ

structure LimiterRow where
  key : Bytes × Bytes × EventName
  lastMs : ℤ
  suppressed : ℤ

structure Store where
  metaTable : Table MetaRow.k := .empty
  streams : Table StreamRow.name := .empty
  streamSeq : Table SeqRow.stream := .empty
  streamStats : Table StatsRow.stream := .empty
  messages : Table MessageRow.key := .empty
  consumers : Table ConsumerRow.key := .empty
  deliveries : Table DeliveryRow.key := .empty
  events : Table EventRow.id := .empty
  /-- `flowBlocked`: when the last `flow.blocked` of a consumer was written. -/
  flow : Table FlowRow.key := .empty
  /-- `settleBlocked`: the repeat limiter of the rejection rows. -/
  limiter : Table LimiterRow.key := .empty
  /-- The events of the running command, for the fan-out after its commit. -/
  carriers : List Event := []
  /-- How many identifiers the process has minted. -/
  minted : ℕ := 0

/-- The process options the commands read. -/
structure Options where
  limits : Limits
  consumerLimits : ConsumerLimits
  dlq : DLQConfig
  maxBatchMsgs : ℕ
  maxSettleBatch : ℕ
  maxSweepBatch : ℕ
  maxReasonBytes : ℕ
  eventRepeatInterval : ℤ
  reclaimJitter : ℤ

/-- `applyDefaults`. -/
def defaultOptions : Options where
  limits := defaultLimits
  consumerLimits := defaultConsumerLimits
  dlq := defaultDLQConfig defaultLimits
  maxBatchMsgs := 1000
  maxSettleBatch := 1024
  maxSweepBatch := 1024
  maxReasonBytes := 4096
  eventRepeatInterval := 10 * second
  reclaimJitter := second

/-- What a command body reads besides the store: the batch time stamp, the options, and the values the
process draws at random (identifiers, trace ids, backoff jitter, the spread of reclaimed leases). -/
structure Env where
  now : ℤ
  opts : Options
  newID : ℕ → Bytes
  traceID : ℕ → Bytes
  jitter : ℕ → Jitter
  random : Bytes × Bytes × ℤ → ℕ

def Env.nowMs (env : Env) : ℤ := unixMilli env.now

/-! ## Transactions -/

/-- A command body: it reads and writes the store and may be refused or fail. -/
abbrev Tx := StateT Store (Except Err)

def refuse {α : Type} (r : Refusal) : Tx α := fun _ => .error (.refused r)

def fail {α : Type} (f : Fault) : Tx α := fun _ => .error (.fault f)

/-- A validation inside a command: its refusal is marked. -/
def Tx.check {α : Type} : Except Refusal α → Tx α
  | .ok a => pure a
  | .error r => refuse r

def Tx.require {α : Type} (f : Fault) : Option α → Tx α
  | some a => pure a
  | none => fail f

/-- The rowid SQLite picks for the next audit row. -/
def nextEventId (t : Table EventRow.id) : ℤ := (t.rows.map EventRow.id).foldl max 0 + 1

/-- `insertEvent`: one audit row in the command's own transaction. -/
def insertEvent (e : Event) : Tx Unit :=
  modify fun st => { st with events := st.events.insertIgnore ⟨nextEventId st.events, e⟩ }

/-- `commitEvent`: the audit row and its carrier. -/
def commitEvent (e : Event) : Tx Unit := do
  insertEvent e
  modify fun st => { st with carriers := st.carriers ++ [e] }

def commitEvents : List Event → Tx Unit
  | [] => return ()
  | e :: es => do
    commitEvent e
    commitEvents es

/-- A column read into an `int32`: a value that does not fit is a scan error. -/
def scanInt32 (v : ℤ) : Tx ℤ := if -2147483648 ≤ v ∧ v ≤ maxInt32 then pure v else fail (.int32Overflow v)

/-- The conversion `int32(v)`, which wraps. -/
def toInt32 (v : ℤ) : ℤ := v.bmod (2 ^ 32)

theorem toInt32_eq {n : ℤ} (h1 : 1 ≤ n) (h2 : n ≤ maxInt32) : toInt32 n = n := by
  unfold toInt32 maxInt32 at *
  rw [Int.bmod_eq_of_le] <;> omega

/-- The next identifier and trace id the process mints. -/
def mint (env : Env) : Tx (Bytes × Bytes) := do
  let st ← get
  set { st with minted := st.minted + 1 }
  return (env.newID st.minted, env.traceID st.minted)

/-! ## Runs that commit -/

section Runs

variable {α : Type} {st st' : Store} {a : α}

@[simp] theorem refuse_run {r : Refusal} : refuse r st = .ok (a, st') ↔ False := ⟨fun h => (nomatch h), False.elim⟩

@[simp] theorem fail_run {f : Fault} : fail f st = .ok (a, st') ↔ False := ⟨fun h => (nomatch h), False.elim⟩

theorem check_run {e : Except Refusal α} : Tx.check e st = .ok (a, st') ↔ e = .ok a ∧ st = st' := by
  cases e with
  | ok b => exact run_pure.trans (and_congr_left' ⟨congrArg _, Except.ok.inj⟩)
  | error r => exact ⟨fun h => (nomatch h), fun h => nomatch h.1⟩

theorem require_run {f : Fault} {o : Option α} : Tx.require f o st = .ok (a, st') ↔ o = some a ∧ st = st' := by
  cases o with
  | some b => exact run_pure.trans (and_congr_left' ⟨congrArg _, Option.some.inj⟩)
  | none => exact ⟨fun h => (nomatch h), fun h => nomatch h.1⟩

theorem scanInt32_run {v b : ℤ} :
    scanInt32 v st = .ok (b, st') ↔ (-2147483648 ≤ v ∧ v ≤ maxInt32) ∧ v = b ∧ st = st' := by
  unfold scanInt32
  split
  · rename_i h; rw [run_pure]; exact ⟨fun hr => ⟨h, hr⟩, fun hr => hr.2⟩
  · rename_i h; exact ⟨fun hr => (nomatch hr), fun hr => absurd hr.1 h⟩

theorem insertEvent_run {e : Event} {u : Unit} : insertEvent e st = .ok (u, st') ↔
    { st with events := st.events.insertIgnore ⟨nextEventId st.events, e⟩ } = st' := run_modify

theorem commitEvent_run {e : Event} {u : Unit} : commitEvent e st = .ok (u, st') ↔
    { st with events := st.events.insertIgnore ⟨nextEventId st.events, e⟩, carriers := st.carriers ++ [e] } = st' := by
  simp only [commitEvent, run_bind, insertEvent_run, run_modify]
  exact ⟨fun ⟨_, _, h₁, h₂⟩ => by subst h₁; exact h₂, fun h => ⟨(), _, rfl, h⟩⟩

theorem succeeds_scanInt32 {v : ℤ} (h : -2147483648 ≤ v ∧ v ≤ maxInt32) (st : Store) : Succeeds (scanInt32 v) st :=
  ⟨v, st, scanInt32_run.mpr ⟨h, rfl, rfl⟩⟩

theorem succeeds_commitEvent (e : Event) (st : Store) : Succeeds (commitEvent e) st := ⟨(), _, commitEvent_run.mpr rfl⟩

theorem succeeds_commitEvents (es : List Event) (st : Store) : Succeeds (commitEvents es) st := by
  induction es generalizing st with
  | nil => exact succeeds_pure _ _
  | cons e es ih => exact (succeeds_commitEvent e st).bind fun _ st₁ _ => ih st₁

theorem mint_run {env : Env} {p : Bytes × Bytes} : mint env st = .ok (p, st') ↔
    (env.newID st.minted, env.traceID st.minted) = p ∧ { st with minted := st.minted + 1 } = st' := by
  simp only [mint, run_bind, run_get, run_set, run_pure]
  constructor
  · rintro ⟨_, _, ⟨rfl, rfl⟩, _, _, rfl, rfl, rfl⟩; exact ⟨rfl, rfl⟩
  · rintro ⟨rfl, rfl⟩; exact ⟨st, st, ⟨rfl, rfl⟩, (), _, rfl, rfl, rfl⟩

end Runs

end Messq

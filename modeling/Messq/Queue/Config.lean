import Messq.Errors
import Messq.Header

/-! # Configuration of streams and consumers

Stream and consumer configurations, the process-wide ceilings that bound them, and their validation.
Durations are nanosecond counts, as `time.Duration` is; a persisted duration is a millisecond count. The
process defaults pass their own checks (`validateStreamConfig_default`, `validateConsumerConfig_default`). -/

namespace Messq

variable {name : Bytes} {d ms : ℤ}

/-! ## Time -/

def millisecond : ℤ := 1000000
def second : ℤ := 1000 * millisecond
def minute : ℤ := 60 * second
def hour : ℤ := 60 * minute

/-- `Duration.Milliseconds`, which truncates towards zero. -/
def milliseconds (d : ℤ) : ℤ := d.tdiv millisecond

/-- `int64` arithmetic. -/
def toInt64 (v : ℤ) : ℤ := v.bmod (2 ^ 64)

/-- What an `int64` holds. -/
def IsInt64 (v : ℤ) : Prop := -2 ^ 63 ≤ v ∧ v < 2 ^ 63

/-- `time.Duration(ms) * time.Millisecond`, whose product wraps around. -/
def msDuration (ms : ℤ) : ℤ := toInt64 (ms * millisecond)

/-- `Time.UnixMilli` of a nanosecond time stamp, which rounds down. -/
def unixMilli (t : ℤ) : ℤ := t / millisecond

instance (v : ℤ) : Decidable (IsInt64 v) := inferInstanceAs (Decidable (_ ∧ _))

theorem isInt64_toInt64 (v : ℤ) : IsInt64 (toInt64 v) := by
  unfold IsInt64 toInt64
  have h₁ := Int.le_bmod (x := v) (m := 2 ^ 64) (by decide)
  have h₂ := Int.bmod_lt (x := v) (m := 2 ^ 64) (by decide)
  omega

theorem toInt64_of_isInt64 {v : ℤ} (h : IsInt64 v) : toInt64 v = v := by
  unfold IsInt64 at h
  unfold toInt64
  rw [Int.bmod_eq_of_le] <;> omega

theorem isInt64_milliseconds (h : IsInt64 d) : IsInt64 (milliseconds d * millisecond) := by
  unfold IsInt64 milliseconds millisecond at *
  rcases le_total 0 d with hd | hd
  · rw [Int.tdiv_eq_ediv_of_nonneg hd]
    omega
  · have hneg : d.tdiv 1000000 = -(-d / 1000000) := by
      rw [← Int.tdiv_eq_ediv_of_nonneg (by omega), Int.neg_tdiv, neg_neg]
    rw [hneg]
    omega

theorem msDuration_eq (h : IsInt64 (ms * millisecond)) : msDuration ms = ms * millisecond := toInt64_of_isInt64 h

/-- A millisecond count survives the way through a `time.Duration` that can hold it, and no other. -/
theorem milliseconds_msDuration : milliseconds (msDuration ms) = ms ↔ IsInt64 (ms * millisecond) := by
  constructor
  · intro h
    have hd := isInt64_milliseconds (isInt64_toInt64 (ms * millisecond))
    rwa [← msDuration, h] at hd
  · intro h
    rw [msDuration_eq h]
    exact Int.mul_tdiv_cancel _ (by decide)

/-- A `time.Duration` survives the way through a millisecond count when it is whole. -/
theorem msDuration_milliseconds (h : IsInt64 d) : msDuration (milliseconds d) = d ↔ millisecond ∣ d := by
  rw [msDuration_eq (isInt64_milliseconds h), milliseconds]
  constructor
  · exact fun he => ⟨_, he.symm.trans (Int.mul_comm _ _)⟩
  · exact Int.tdiv_mul_cancel

theorem map_eq_self_iff {α : Type} {f : α → α} {l : List α} : l.map f = l ↔ ∀ x ∈ l, f x = x := by
  simpa using List.map_eq_map_iff (f := f) (g := id) (l := l)

/-! ## Streams -/

inductive Retention
  | limits | workqueue
  deriving DecidableEq

inductive Discard
  | old | new
  deriving DecidableEq

structure StreamConfig where
  name : Bytes
  subjects : List Bytes
  retention : Retention
  maxMsgs : ℤ
  maxBytes : ℤ
  maxAge : ℤ
  maxMsgSize : ℤ
  discard : Discard
  dedupWindow : ℤ
  deriving DecidableEq

structure Limits where
  maxMsgSizeCeiling : ℤ
  maxHeaderBytes : ℕ
  maxHeaders : ℕ
  maxSubjects : ℕ
  maxDedupWindow : ℤ

def defaultConfig (name : Bytes) : StreamConfig where
  name := name
  subjects := [str ">"]
  retention := .limits
  maxMsgs := 0
  maxBytes := 0
  maxAge := 7 * 24 * hour
  maxMsgSize := 1048576
  discard := .old
  dedupWindow := 120 * second

def defaultLimits : Limits where
  maxMsgSizeCeiling := 8388608
  maxHeaderBytes := 4096
  maxHeaders := 32
  maxSubjects := 32
  maxDedupWindow := 24 * hour

def dlqSuffix : Bytes := str ".dlq"

/-- `IsDLQ`, the suffix test every naming rule shares. -/
def isDLQ (name : Bytes) : Bool := dlqSuffix.isSuffixOf name

def dlqName (stream : Bytes) : Bytes := stream ++ dlqSuffix

theorem isDLQ_dlqName (s : Bytes) : isDLQ (dlqName s) = true := by
  rw [isDLQ, List.isSuffixOf_iff_suffix]
  exact List.suffix_append s dlqSuffix

/-- `queue.ValidateStreamName`: the rules for a name a user may create. -/
def validateNewStreamName (name : Bytes) : Except Refusal Unit :=
  if isDLQ name then .error (.reservedName name) else liftGrammar (Subject.validateNewStreamName name)

def validateExistingStreamName (name : Bytes) : Except Refusal Unit :=
  liftGrammar (Subject.validateStreamName name)

def validateStreamConfig (c : StreamConfig) (l : Limits) : Except Refusal Unit := do
  validateNewStreamName c.name
  if c.subjects.length < 1 ∨ c.subjects.length > l.maxSubjects then
    .error (.outOfRange .subjects c.subjects.length)
  else do
    let _ ← liftGrammar (Subject.parseSet c.subjects)
    if c.maxMsgs < 0 then .error (.outOfRange .maxMsgs c.maxMsgs)
    else if c.maxBytes < 0 then .error (.outOfRange .maxBytes c.maxBytes)
    else if c.maxAge < 0 then .error (.outOfRange .maxAge c.maxAge)
    else if c.maxMsgSize < 1 ∨ c.maxMsgSize > l.maxMsgSizeCeiling then .error (.outOfRange .maxMsgSize c.maxMsgSize)
    else if c.dedupWindow < 0 ∨ c.dedupWindow > l.maxDedupWindow then .error (.outOfRange .dedupWindow c.dedupWindow)
    else .ok ()

/-! ## Narrowing a stream -/

/-- What a stream holds, and what a narrower limit would make the janitor delete. -/
structure Usage where
  msgs : ℤ
  bytes : ℤ
  atRiskMsgs : ℤ
  atRiskBytes : ℤ

/-- A limit that was unlimited or wider and is now exceeded. -/
def narrows (old next held : ℤ) : Bool := next ≠ 0 ∧ held > next ∧ (old = 0 ∨ old > next)

/-- `ValidateUpdate`: a change that deletes data is refused unless it is allowed. -/
def validateUpdate (old next : StreamConfig) (u : Usage) (allowLoss : Bool) : Except Refusal Unit :=
  if next.name ≠ old.name then .error (.immutableName old.name next.name)
  else if allowLoss then .ok ()
  else if narrows old.maxMsgs next.maxMsgs u.msgs then .error (.wouldLoseData .maxMsgs u.atRiskMsgs u.atRiskBytes)
  else if narrows old.maxBytes next.maxBytes u.bytes then .error (.wouldLoseData .maxBytes u.atRiskMsgs u.atRiskBytes)
  else if next.maxAge ≠ 0 ∧ u.atRiskMsgs > 0 ∧ (old.maxAge = 0 ∨ old.maxAge > next.maxAge) then
    .error (.wouldLoseData .maxAge u.atRiskMsgs u.atRiskBytes)
  else if old.retention = .limits ∧ next.retention = .workqueue then
    .error (.wouldLoseData .retention u.atRiskMsgs u.atRiskBytes)
  else .ok ()

/-! ## Consumers -/

inductive DeadPolicy
  | dlq | drop
  deriving DecidableEq

structure ConsumerConfig where
  name : Bytes
  filters : List Bytes
  ackWait : ℤ
  maxDeliver : ℤ
  maxAckPending : ℤ
  backoff : List ℤ
  deadPolicy : DeadPolicy
  paused : Bool
  deriving DecidableEq

structure ConsumerLimits where
  minAckWait : ℤ
  maxAckWait : ℤ
  maxFilters : ℕ
  maxBackoffEntries : ℕ
  maxBackoffDelay : ℤ
  maxAckPendingCap : ℤ
  scanLimit : ℕ
  maxFetchBatch : ℕ
  fetchMaxBytes : ℤ
  flowBlockedInterval : ℤ
  /-- The windows are `time.Duration` values. -/
  ackWait_int64 : IsInt64 minAckWait ∧ IsInt64 maxAckWait
  backoff_int64 : IsInt64 maxBackoffDelay

variable {c : ConsumerConfig} {l : ConsumerLimits}

def maxDeliverCap : ℤ := 1000

def defaultConsumerBackoff : List ℤ := [second, 5 * second, 30 * second, 2 * minute, 10 * minute]

def defaultConsumerConfig (name : Bytes) : ConsumerConfig where
  name := name
  filters := [str ">"]
  ackWait := 30 * second
  maxDeliver := 5
  maxAckPending := 1000
  backoff := defaultConsumerBackoff
  deadPolicy := .dlq
  paused := false

theorem hour_isInt64 : IsInt64 (100 * millisecond) ∧ IsInt64 hour := by decide

theorem day_isInt64 : IsInt64 (24 * hour) := by decide

def defaultConsumerLimits : ConsumerLimits where
  minAckWait := 100 * millisecond
  maxAckWait := hour
  maxFilters := 32
  maxBackoffEntries := 16
  maxBackoffDelay := 24 * hour
  maxAckPendingCap := 1000000
  scanLimit := 4096
  maxFetchBatch := 1024
  fetchMaxBytes := 8388608
  flowBlockedInterval := 10 * second
  ackWait_int64 := hour_isInt64
  backoff_int64 := day_isInt64

def validateConsumerName (name : Bytes) : Except Refusal Unit := liftGrammar (Subject.validateConsumerName name)

/-- The first backoff entry outside its window refuses the configuration. -/
def validateBackoff (maxDelay : ℤ) : ℕ → List ℤ → Except Refusal Unit
  | _, [] => .ok ()
  | i, d :: ds => if d < 0 ∨ d > maxDelay then .error (.backoffOutOfRange i d) else validateBackoff maxDelay (i + 1) ds

def validateConsumerConfig (c : ConsumerConfig) (l : ConsumerLimits) : Except Refusal Unit := do
  validateConsumerName c.name
  if c.filters.length < 1 ∨ c.filters.length > l.maxFilters then .error (.outOfRange .filters c.filters.length)
  else do
    let _ ← liftGrammar (Subject.parseSet c.filters)
    if c.ackWait < l.minAckWait ∨ c.ackWait > l.maxAckWait then .error (.outOfRange .ackWait c.ackWait)
    else if c.maxDeliver < 0 ∨ c.maxDeliver > maxDeliverCap then .error (.outOfRange .maxDeliver c.maxDeliver)
    else if c.maxAckPending < 1 ∨ c.maxAckPending > l.maxAckPendingCap then
      .error (.outOfRange .maxAckPending c.maxAckPending)
    else if c.backoff.length < 1 ∨ c.backoff.length > l.maxBackoffEntries then
      .error (.outOfRange .backoff c.backoff.length)
    else validateBackoff l.maxBackoffDelay 0 c.backoff

/-- What a configuration within the process limits looks like. -/
structure ConsumerConfig.Within (c : ConsumerConfig) (l : ConsumerLimits) : Prop where
  name : validateConsumerName c.name = .ok ()
  filters : 1 ≤ c.filters.length ∧ c.filters.length ≤ l.maxFilters
  patterns : ∃ set, Subject.parseSet c.filters = .ok set
  ackWait : l.minAckWait ≤ c.ackWait ∧ c.ackWait ≤ l.maxAckWait
  maxDeliver : 0 ≤ c.maxDeliver ∧ c.maxDeliver ≤ maxDeliverCap
  maxAckPending : 1 ≤ c.maxAckPending ∧ c.maxAckPending ≤ l.maxAckPendingCap
  backoff : 1 ≤ c.backoff.length ∧ c.backoff.length ≤ l.maxBackoffEntries
  delays : ∀ d ∈ c.backoff, 0 ≤ d ∧ d ≤ l.maxBackoffDelay

theorem validateBackoff_eq_ok {maxDelay : ℤ} {i : ℕ} {ds : List ℤ} :
    validateBackoff maxDelay i ds = .ok () ↔ ∀ d ∈ ds, 0 ≤ d ∧ d ≤ maxDelay := by
  induction ds generalizing i with
  | nil => simp [validateBackoff]
  | cons d ds ih => rw [validateBackoff, Lib.guard_eq_ok, ih, List.forall_mem_cons, not_or, not_lt, not_lt]

theorem validateConsumerConfig_eq_ok : validateConsumerConfig c l = .ok () ↔ c.Within l := by
  simp only [validateConsumerConfig, Lib.bind_eq_ok, Lib.guard_eq_ok, validateBackoff_eq_ok, liftGrammar_eq_ok]
  constructor
  · rintro ⟨_, hname, hf, set, hset, ha, hd, hp, hb, hds⟩
    exact ⟨hname, by omega, ⟨set, hset⟩, by omega, by omega, by omega, by omega, hds⟩
  · rintro ⟨hname, hf, ⟨set, hset⟩, ha, hd, hp, hb, hds⟩
    exact ⟨(), hname, by omega, set, hset, by omega, by omega, by omega, by omega, hds⟩

/-- The window of the limits holds `time.Duration` values only. -/
theorem ConsumerConfig.Within.int64 (h : c.Within l) : IsInt64 c.ackWait ∧ ∀ d ∈ c.backoff, IsInt64 d := by
  obtain ⟨⟨hmin, -⟩, -, hmax⟩ := l.ackWait_int64
  refine ⟨⟨hmin.trans h.ackWait.1, h.ackWait.2.trans_lt hmax⟩, fun d hd => ?_⟩
  obtain ⟨h₀, h₁⟩ := h.delays d hd
  exact ⟨by omega, h₁.trans_lt l.backoff_int64.2⟩

/-- `ValidateDeadPolicyForStream`: there is no dead-letter stream of a dead-letter stream. -/
def validateDeadPolicyForStream (stream : Bytes) (dp : DeadPolicy) : Except Refusal Unit :=
  if isDLQ stream ∧ dp = .dlq then .error (.dlqPolicyOnDLQ stream) else .ok ()

/-- Where a new consumer's cursor starts. -/
inductive StartPosition
  | first
  | new
  | seq (n : ℤ)
  | time (unixMs : ℤ)
  | rel (offset : ℤ)
  deriving DecidableEq

/-! ## The defaults are valid -/

theorem validateStreamConfig_default (h : validateNewStreamName name = .ok ()) :
    validateStreamConfig (defaultConfig name) defaultLimits = .ok () := by
  have hs : (Subject.parseSet [str ">"]).isOk = true := by decide
  simp only [validateStreamConfig, defaultConfig, h]
  cases hp : Subject.parseSet [str ">"] with
  | error e => rw [hp] at hs; cases hs
  | ok ps => rfl

theorem validateConsumerConfig_default (h : validateConsumerName name = .ok ()) :
    validateConsumerConfig (defaultConsumerConfig name) defaultConsumerLimits = .ok () := by
  have hs : (Subject.parseSet [str ">"]).isOk = true := by decide
  simp only [validateConsumerConfig, defaultConsumerConfig, h]
  cases hp : Subject.parseSet [str ">"] with
  | error e => rw [hp] at hs; cases hs
  | ok ps => rfl

end Messq

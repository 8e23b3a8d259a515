import Messq.Subject

/-! # Errors

A command ends in one of three ways: it returns, it is refused with a domain sentinel (its savepoint is rolled
back and its batch-mates commit), or it fails with an unmarked error, which aborts the batch and latches the
writer read-only. `Refusal` has one constructor for each refusing return of the source, with the data its
message carries. -/

namespace Messq

/-- The domain sentinels of `internal/errs`: the only errors `maybeCmdErr` marks. -/
inductive Sentinel
  | notFound | conflict | badRequest | badSubject | tooLarge | streamFull
  deriving DecidableEq

/-- The fields a configuration refusal can name. -/
inductive Field
  | subjects | maxMsgs | maxBytes | maxAge | maxMsgSize | dedupWindow | retention
  | filters | ackWait | maxDeliver | maxAckPending | backoff | deadPolicy | start | body | headers
  | header (key : Bytes)
  | msgId | traceId | batch | discard | paused
  deriving DecidableEq

inductive Refusal
  | streamNotFound (stream : Bytes)
  | consumerNotFound (stream consumer : Bytes)
  | grammar (e : Subject.Err)
  | reservedName (name : Bytes)
  | outOfRange (field : Field) (value : ℤ)
  | backoffOutOfRange (index : ℕ) (value : ℤ)
  | dlqPolicyOnDLQ (stream : Bytes)
  | mismatch (subject : Bytes) (accepted : List Bytes)
  | tooLarge (field : Field) (size limit : ℤ)
  | tooManyHeaders (n max : ℕ)
  | headerInvalidUTF8 (key : Bytes)
  | headerCaseCollision (prev key value : Bytes)
  | reservedHeader (key : Bytes)
  | nonPrintable (field : Field)
  | zeroTraceId
  | emptyBatch
  | line (n : ℕ) (r : Refusal)
  | immutableName (old next : Bytes)
  | wouldLoseData (field : Field) (msgs bytes : ℤ)
  | reapInProgress (name : Bytes) (remaining : ℤ)
  | streamExists (name : Bytes) (diff : List Field)
  | confirmMismatch (confirm name : Bytes)
  | nameCaseCollision (name existing : Bytes)
  | startImmutable (stream consumer : Bytes)
  | startInvalid
  | seekBelowFloor
  | purgeBelowFirst (upTo : ℤ)
  | purgeAmbiguous (keep upTo : ℤ)
  | purgeNegativeKeep (keep : ℤ)
  | purgeSubject (subject : Bytes) (e : Subject.Err)
  | settleBatchTooLarge (n : ℕ)
  | nakDelay (delay : ℤ)
  | extendPastCap
  deriving DecidableEq

def Refusal.sentinel : Refusal → Sentinel
  | .streamNotFound _ | .consumerNotFound _ _ => .notFound
  | .grammar e => match e with
    | .nameEmpty | .nameTooLong | .nameCharset | .nameDot => .badRequest
    | _ => .badSubject
  | .mismatch _ _ => .badSubject
  | .tooLarge _ _ _ => .tooLarge
  | .wouldLoseData _ _ _ | .reapInProgress _ _ | .streamExists _ _ | .confirmMismatch _ _ | .nameCaseCollision _ _
  | .startImmutable _ _ => .conflict
  | .line _ r => r.sentinel
  | _ => .badRequest

/-- The unmarked errors a command body can return on a healthy disk. -/
inductive Fault
  | deadBudget
  | fence (changed : ℕ)
  | headerSet
  | int32Overflow (value : ℤ)
  | keyTaken
  | idTaken
  | dedupMissed
  | patternSet (e : Subject.Err)
  | noSequence (stream : Bytes)
  | unexpected
  deriving DecidableEq

inductive Err
  | refused (r : Refusal)
  | fault (f : Fault)

/-- A subject or name error as the refusal it becomes. -/
def liftGrammar {α : Type} : Except Subject.Err α → Except Refusal α
  | .ok a => .ok a
  | .error e => .error (.grammar e)

theorem liftGrammar_eq_ok {α : Type} {r : Except Subject.Err α} {a : α} : liftGrammar r = .ok a ↔ r = .ok a := by
  cases r <;> simp [liftGrammar]

end Messq

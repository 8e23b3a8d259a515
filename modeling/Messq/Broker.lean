import Messq.Store.Recovery
import Messq.Lib.Machine

/-! # The broker

The store behind its single writer, driven one request at a time. A request is checked, runs as one
transaction and ends in one of three ways: it commits with a reply and its events; it is refused and leaves the
store as it was; or it fails with an unmarked error, which also leaves the store as it was but latches the
writer until the process restarts. A deletion of a stream goes on in the background: its caller submits reap
chunks one after the other until one of them says that it is done. -/

namespace Messq

/-! ## Requests and replies -/

/-- A settle item as a client can submit it: its token came out of `parseToken`. -/
abbrev ClientItem := { it : SettleItem // it.token.Valid }

inductive Request
  | createStream (cfg : StreamConfig) (actor : Bytes)
  | updateStream (name : Bytes) (p : StreamPatch) (allowDataLoss : Bool) (actor : Bytes)
  | deleteStream (name confirm actor : Bytes)
  /-- The next chunk of a running `DeleteStream`. -/
  | reapChunk (name : Bytes)
  | reapResume
  | publish (stream : Bytes) (req : PublishReq)
  | publishBatch (stream : Bytes) (reqs : List PublishReq)
  | sweepDedup (stream : Bytes)
  | createConsumer (stream : Bytes) (cfg : ConsumerConfig) (start : StartPosition) (actor : Bytes)
  | updateConsumer (stream name : Bytes) (p : ConsumerPatch) (actor : Bytes)
  | deleteConsumer (stream name actor : Bytes)
  | setPaused (stream name : Bytes) (paused : Bool) (actor : Bytes)
  | fetch (stream consumer : Bytes) (batch maxBytes : ℤ)
  | settle (items : List ClientItem)
  | sweep (limit : ℤ)
  | retire (limit : ℤ)
  | seek (stream consumer : Bytes) (dest : StartPosition) (dryRun : Bool) (actor : Bytes)
  | purge (stream : Bytes) (spec : PurgeSpec) (dryRun : Bool) (actor : Bytes)
  | retention (batch : ℤ)
  | trimEvents (spec : TrimSpec) (batch : ℤ)
  | adminAction (setting source target actor : Bytes)
  | restart (unclean : Option Bytes)

inductive Reply
  | stream (r : CreateStreamResult)
  | updated (r : UpdateResult)
  | deleted (r : DeleteResult)
  | chunk (r : ReapChunkResult)
  | resumed (r : ReapResumeResult)
  | ack (a : Ack)
  | acks (as : List Ack)
  | swept (n : ℕ)
  | consumer (r : ConsumerCreateResult)
  | consumerUpdated (r : ConsumerRow)
  | consumerDeleted (r : ConsumerDeleteResult)
  | fetched (r : FetchResult)
  | settled (r : SettleResult)
  | expired (r : SweepResult)
  | retired (n : ℕ)
  | sought (r : SeekResult)
  | purged (r : PurgeResult)
  | retained (r : RetentionResult)
  | trimmed (r : TrimResult)
  | done

inductive Outcome
  | ok (reply : Reply) (events : List Event)
  | refused (r : Refusal)
  | failed (f : Fault)
  | unavailable

/-! ## Commands -/

/-- The checks a `Store` method makes before it submits its command. -/
def checkRequest (env : Env) : Request → Except Refusal Unit
  | .createStream cfg _ => do
    validateNewStreamName cfg.name
    validateStreamConfig cfg env.opts.limits
  | .updateStream name _ _ _ => validateExistingStreamName name
  | .deleteStream name confirm _ => do
    validateExistingStreamName name
    if confirm ≠ name then .error (.confirmMismatch confirm name) else .ok ()
  | .publish stream _ => validateExistingStreamName stream
  | .publishBatch stream reqs => do
    validateExistingStreamName stream
    if reqs = [] then .error .emptyBatch
    else if reqs.length > env.opts.maxBatchMsgs then .error (.outOfRange .batch reqs.length)
    else .ok ()
  | .sweepDedup stream => validateExistingStreamName stream
  | .createConsumer stream cfg _ _ => do
    validateExistingStreamName stream
    validateDeadPolicyForStream stream cfg.deadPolicy
    validateConsumerConfig cfg env.opts.consumerLimits
  | .updateConsumer stream name _ _ | .deleteConsumer stream name _ | .setPaused stream name _ _
  | .seek stream name _ _ _ => do
    validateExistingStreamName stream
    validateConsumerName name
  | .fetch stream consumer batch _ => do
    validateExistingStreamName stream
    validateConsumerName consumer
    if batch ≤ 0 then .error (.outOfRange .batch batch) else .ok ()
  | .settle items =>
    if items.length > env.opts.maxSettleBatch then .error (.settleBatchTooLarge items.length) else .ok ()
  | .sweep limit => if limit > env.opts.maxSweepBatch then .error (.outOfRange .batch limit) else .ok ()
  | .purge stream spec _ _ => do
    validateExistingStreamName stream
    validatePurgeSpec spec
  | .reapChunk _ | .reapResume | .retire _ | .retention _ | .trimEvents _ _ | .adminAction _ _ _ _ | .restart _ =>
    .ok ()

/-- A limit that is not positive selects the default. -/
def limitOr (limit : ℤ) (dflt : ℕ) : ℕ := if limit ≤ 0 then dflt else limit.toNat

def defaultRetentionBatch : ℕ := 512
def defaultTrimBatch : ℕ := 512

/-- The transaction of a request. -/
def applyRequest (env : Env) : Request → Tx Reply
  | .createStream cfg actor => Reply.stream <$> createStream env cfg actor
  | .updateStream name p allowDataLoss actor => Reply.updated <$> updateStream env name p allowDataLoss actor
  | .deleteStream name _ actor => Reply.deleted <$> deleteStream env name actor
  | .reapChunk name => Reply.chunk <$> reapChunk name
  | .reapResume => Reply.resumed <$> reapResume
  | .publish stream req => Reply.ack <$> publish env stream req
  | .publishBatch stream reqs => Reply.acks <$> publishBatch env stream reqs
  | .sweepDedup stream => Reply.swept <$> sweepDedup env stream
  | .createConsumer stream cfg start actor => Reply.consumer <$> createConsumer env stream cfg start actor
  | .updateConsumer stream name p actor => Reply.consumerUpdated <$> updateConsumer env stream name p actor
  | .deleteConsumer stream name actor => Reply.consumerDeleted <$> deleteConsumer env stream name actor
  | .setPaused stream name paused actor => (fun _ => .done) <$> setPaused env stream name paused actor
  | .fetch stream consumer batch maxBytes =>
    Reply.fetched <$> fetch env stream consumer (min batch.toNat env.opts.consumerLimits.maxFetchBatch)
      (if maxBytes ≤ 0 then env.opts.consumerLimits.fetchMaxBytes else maxBytes)
  | .settle items => Reply.settled <$> settle env (items.map Subtype.val)
  | .sweep limit => Reply.expired <$> sweep env (limitOr limit env.opts.maxSweepBatch)
  | .retire limit => Reply.retired <$> retire env (limitOr limit env.opts.maxSweepBatch)
  | .seek stream consumer dest dryRun actor => Reply.sought <$> seek env stream consumer dest dryRun actor
  | .purge stream spec dryRun actor => Reply.purged <$> purge stream spec dryRun actor
  | .retention batch => Reply.retained <$> retention env (limitOr batch defaultRetentionBatch)
  | .trimEvents spec batch => Reply.trimmed <$> trimEvents env spec (limitOr batch defaultTrimBatch)
  | .adminAction setting source target actor => (fun _ => .done) <$> adminAction env setting source target actor
  | .restart unclean => (fun _ => .done) <$> restart env unclean

/-- A request's checks and its transaction. -/
def command (env : Env) (req : Request) : Tx Reply := do
  Tx.check (checkRequest env req)
  applyRequest env req

/-! ## The broker -/

structure Broker where
  store : Store := {}
  /-- The deletions whose chunk loop is still running. -/
  reaping : List Bytes := []
  latched : Bool := false

/-- A latched writer refuses everything until a restart; a chunk is submitted only by a running deletion. -/
def Broker.admits (b : Broker) : Request → Bool
  | .restart _ => true
  | .reapChunk name => !b.latched && b.reaping.contains name
  | _ => !b.latched

/-- The chunk loops still running after a committed request. -/
def nextReaping (reaping : List Bytes) : Request → Reply → List Bytes
  | .restart _, _ => []
  | .deleteStream name _ _, _ => name :: reaping
  | .reapChunk name, .chunk r => if r.cleared ∨ r.removed = 0 then reaping.erase name else reaping
  | _, _ => reaping

/-- A request with what the process reads when it runs. -/
structure Step where
  env : Env
  req : Request

/-- One request. -/
def Broker.exec (b : Broker) (s : Step) : Broker × Outcome :=
  if !b.admits s.req then (b, .unavailable)
  else match command s.env s.req { b.store with carriers := [] } with
    | .ok (reply, st) =>
      (⟨{ st with carriers := [] }, nextReaping b.reaping s.req reply, false⟩, .ok reply st.carriers)
    | .error (.refused r) => (b, .refused r)
    | .error (.fault f) => ({ b with latched := true }, .failed f)

/-! ## Runs -/

/-- One step of a run. -/
abbrev Visit := Lib.Visit Broker Step Outcome

/-- What happened to a data directory, from its creation on. -/
def Runs (h : List Visit) (b : Broker) : Prop := Lib.History Broker.exec {} h b

/-- The events a visit committed. -/
def Outcome.events : Outcome → List Event
  | .ok _ es => es
  | _ => []

end Messq

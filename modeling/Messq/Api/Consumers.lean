import Messq.Broker

/-! # The consumer routes

`POST /v1/streams/{s}/consumers` is a declarative upsert: a free name is created, a taken name is answered as unchanged
when the document is the stored configuration and refused otherwise. `PATCH` is the sparse edit. Both read the store
before they submit their command; durations travel as milliseconds. -/

namespace Messq

/-! ## Documents -/

/-- A decoded create document, over the defaults. `start` is what the text of the position parses to, and an absent
`dead_policy` is chosen by the stream. -/
structure ConsumerConfigRequest where
  name : Bytes
  filters : List Bytes
  ackWaitMs : ℤ
  maxDeliver : ℤ
  maxAckPending : ℤ
  backoffMs : List ℤ
  deadPolicy : Option DeadPolicy
  paused : Bool
  start : Option StartPosition
  ordered : Option Bool
  maxRate : Option ℤ

/-- The document that names nothing but its consumer and its start. -/
def defaultConsumerConfigRequest (name : Bytes) (start : StartPosition) : ConsumerConfigRequest where
  name := name
  filters := (defaultConsumerConfig []).filters
  ackWaitMs := milliseconds (defaultConsumerConfig []).ackWait
  maxDeliver := (defaultConsumerConfig []).maxDeliver
  maxAckPending := (defaultConsumerConfig []).maxAckPending
  backoffMs := (defaultConsumerConfig []).backoff.map milliseconds
  deadPolicy := none
  paused := false
  start := some start
  ordered := none
  maxRate := none

def defaultDeadPolicyForStream (stream : Bytes) : DeadPolicy := if isDLQ stream then .drop else .dlq

/-- `consumerConfigRequest.config`. -/
def ConsumerConfigRequest.config (r : ConsumerConfigRequest) (stream : Bytes) : ConsumerConfig where
  name := r.name
  filters := r.filters
  ackWait := msDuration r.ackWaitMs
  maxDeliver := r.maxDeliver
  maxAckPending := r.maxAckPending
  backoff := r.backoffMs.map msDuration
  deadPolicy := r.deadPolicy.getD (defaultDeadPolicyForStream stream)
  paused := r.paused

/-! ## Comparison with the stored configuration -/

/-- `consumerConfigsEqual`: the order of the filters does not count. -/
def consumerConfigsEqual (stored want : ConsumerConfig) : Bool :=
  sortStrings stored.filters == sortStrings want.filters && stored.ackWait == want.ackWait &&
    stored.maxDeliver == want.maxDeliver && stored.maxAckPending == want.maxAckPending &&
    stored.backoff == want.backoff && stored.deadPolicy == want.deadPolicy

/-- `configDiffNames`. -/
def configDiffNames (stored want : ConsumerConfig) : List Field :=
  flaggedFields [
    (stored.filters != want.filters, .filters), (stored.ackWait != want.ackWait, .ackWait),
    (stored.maxDeliver != want.maxDeliver, .maxDeliver), (stored.maxAckPending != want.maxAckPending, .maxAckPending),
    (stored.backoff != want.backoff, .backoff), (stored.deadPolicy != want.deadPolicy, .deadPolicy)]

/-! ## Handlers -/

/-- A feature of a later phase. -/
inductive Unsupported
  | ordered | maxRate
  deriving DecidableEq

inductive ConsumerError
  | badStart
  | unsupported (feature : Unsupported)
  /-- The name is taken by another configuration. -/
  | consumerExists (diff : List Field)
  /-- The filters change without the permission, from that many patterns to that many. -/
  | filterChange (old next : ℕ)
  | refused (r : Refusal)
  | failed
  | latched

structure CreateConsumerResponse where
  status : ℕ
  info : ConsumerRow
  clamped : Bool
  changed : Bool

def actorAPI : Bytes := str "api"

/-- `GetConsumer`: the row of the name as it is spelled. -/
def Store.getConsumer (st : Store) (stream name : Bytes) : Except Refusal ConsumerRow := do
  validateExistingStreamName stream
  validateConsumerName name
  match st.consumers.find? (stream, name) with
  | none => .error (.consumerNotFound stream name)
  | some row => .ok row

/-- `consumerExistsRefusal`: a missing consumer falls through to the create. -/
def consumerExistsRefusal (st : Store) (stream : Bytes) (want : ConsumerConfig) : Except ConsumerError Unit :=
  match st.getConsumer stream want.name with
  | .error (.consumerNotFound _ _) => .ok ()
  | .error e => .error (.refused e)
  | .ok cur =>
    if consumerConfigsEqual cur.config want then .ok ()
    else .error (.consumerExists (configDiffNames cur.config want))

/-- The answer to a submitted create: the row is read again by the name of the document. -/
def createAnswer (st : Store) (stream name : Bytes) : Outcome → Except ConsumerError CreateConsumerResponse
  | .ok (.consumer r) _ => match st.getConsumer stream name with
    | .error e => .error (.refused e)
    | .ok info => .ok ⟨if r.created then 201 else 200, info, r.clamped, r.created || r.updated⟩
  | .ok _ _ => .error .failed
  | .refused r => .error (.refused r)
  | .failed _ => .error .failed
  | .unavailable => .error .latched

/-- `handleCreateConsumer`, from the decoded document on. -/
def handleCreateConsumer (env : Env) (stream : Bytes) (req : ConsumerConfigRequest) (b : Broker) :
    Broker × Except ConsumerError CreateConsumerResponse :=
  match validateExistingStreamName stream with
  | .error e => (b, .error (.refused e))
  | .ok () =>
    if req.ordered.isSome then (b, .error (.unsupported .ordered))
    else if req.maxRate.isSome then (b, .error (.unsupported .maxRate))
    else match req.start with
      | none => (b, .error .badStart)
      | some start => match consumerExistsRefusal b.store stream (req.config stream) with
        | .error e => (b, .error e)
        | .ok () =>
          let (b, out) := b.exec ⟨env, .createConsumer stream (req.config stream) start actorAPI⟩
          (b, createAnswer b.store stream req.name out)

end Messq

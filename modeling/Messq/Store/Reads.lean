import Messq.Lib.Paging
import Messq.Store.Fetch

/-! # Reads

What the read pool answers, without a command: the pending listing of a consumer, a page of the audit trail, one message
by its number, and a page of a stream's messages. Each listing is bounded and says where the next page begins. -/

namespace Messq

open Lib

/-- `LIMIT n`: a negative bound is none. -/
def sqlLimit {α : Type} (n : ℤ) (rows : List α) : List α := if n < 0 then rows else rows.take n.toNat

/-- The ceilings of the listings. -/
structure ReadLimits where
  peekMaxLimit : ℤ := 0
  peekScanLimit : ℤ := 0
  eventQueryMaxLimit : ℤ := 0
  eventScanBudget : ℤ := 0

def ReadLimits.applyDefaults (o : ReadLimits) : ReadLimits where
  peekMaxLimit := if o.peekMaxLimit ≤ 0 then 1000 else o.peekMaxLimit
  peekScanLimit := if o.peekScanLimit ≤ 0 then 10000 else o.peekScanLimit
  eventQueryMaxLimit := if o.eventQueryMaxLimit ≤ 0 then 1000 else o.eventQueryMaxLimit
  eventScanBudget := if o.eventScanBudget ≤ 0 then 10000 else o.eventScanBudget

/-! ## Pending deliveries -/

structure PendingItem where
  seq : ℤ
  state : DeliveryState
  attempts : ℤ
  maxDeliver : ℤ
  visibleAt : ℤ
  ackToken : Option Bytes

structure PendingList where
  stream : Bytes
  consumer : Bytes
  limit : ℤ
  nextAfter : Option ℤ
  items : List PendingItem

structure PendingQuery where
  limit : ℤ
  after : ℤ := 0
  olderThanMs : ℤ := 0
  state : Bytes := []

inductive PendingErr
  | negativeLimit
  | unknownState (state : Bytes)
  | scan (value : ℤ)

/-- The clause on the state column. -/
def pendingState (state : Bytes) : Except PendingErr (DeliveryRow → Bool) :=
  if state = [] then .ok fun _ => true
  else if state = str "ready" then .ok fun d => d.state == .ready
  else if state = str "inflight" then .ok fun d => d.state == .inflight
  else .error (.unknownState state)

/-- A column read into an `int32`. -/
def pendingInt32 (v : ℤ) : Except PendingErr ℤ :=
  if -2147483648 ≤ v ∧ v ≤ maxInt32 then .ok v else .error (.scan v)

def queueToken (stream consumer : Bytes) (seq attempts generation : ℤ) : Bytes :=
  Token.string ⟨stream, consumer, seq, toInt32 attempts, generation⟩

/-- One row of the listing. -/
def scanPending (c : ConsumerRow) (d : DeliveryRow) : Except PendingErr PendingItem := do
  let maxDeliver ← pendingInt32 c.maxDeliver
  let generation ← pendingInt32 d.generation
  return {
    seq := d.seq, state := d.state, attempts := d.attempts, maxDeliver := maxDeliver, visibleAt := d.visibleAt,
    ackToken := if d.state = .inflight then some (queueToken c.stream c.name d.seq d.attempts generation) else none }

/-- `ORDER BY d.visible_at ASC, d.seq ASC`. -/
def pendingOrder (rows : List DeliveryRow) : List DeliveryRow :=
  rows.insertionSort fun a b => toLex (a.visibleAt, a.seq) ≤ toLex (b.visibleAt, b.seq)

/-- `PendingList`. -/
def Store.pendingList (st : Store) (stream consumer : Bytes) (q : PendingQuery) : Except PendingErr PendingList := do
  if q.limit < 0 then throw .negativeLimit
  let limit := if q.limit = 0 then -1 else q.limit
  let inState ← pendingState q.state
  let selected := fun d => inState d && (q.after ≤ 0 || q.after < d.seq) &&
    (q.olderThanMs ≤ 0 || d.visibleAt ≤ q.olderThanMs)
  -- the join with the consumer's row
  let rows := (st.consumers.find? (stream, consumer)).toList.flatMap fun c =>
    (pendingOrder ((st.pendingOf stream consumer).filter selected)).map fun d => (c, d)
  let items ← (sqlLimit limit rows).mapM fun p => scanPending p.1 p.2
  let full := (items.length : ℤ) = limit ∧ limit > 0 ∧ items.length > 0
  return {
    stream := stream, consumer := consumer, limit := max q.limit limit, items := items,
    nextAfter := if full then items.getLast?.map PendingItem.seq else none }

/-! ## The audit trail -/

inductive EventOrder
  | asc | desc
  deriving DecidableEq

structure EventFilter where
  msgId : Bytes := []
  traceId : Bytes := []
  stream : Bytes := []
  consumer : Bytes := []
  events : List Bytes := []
  sinceMs : ℤ := 0
  untilMs : ℤ := 0
  afterId : ℤ := 0
  limit : ℤ := 0
  scanBudget : ℤ := 0
  order : EventOrder := .asc

structure EventPage where
  events : List Event
  complete : Bool
  scannedToId : ℤ
  nextAfterId : ℤ
  horizonTs : ℤ

def EventName.text : EventName → Bytes
  | .streamCreate => str "stream.create"
  | .streamUpdate => str "stream.update"
  | .streamDelete => str "stream.delete"
  | .streamPurge => str "stream.purge"
  | .msgPublish => str "msg.publish"
  | .msgDup => str "msg.dup"
  | .msgDeliver => str "msg.deliver"
  | .msgAck => str "msg.ack"
  | .msgNak => str "msg.nak"
  | .msgTerm => str "msg.term"
  | .msgExtend => str "msg.extend"
  | .msgTimeout => str "msg.timeout"
  | .msgDead => str "msg.dead"
  | .msgAckDup => str "msg.ack_dup"
  | .msgAckStale => str "msg.ack_stale"
  | .consumerCreate => str "consumer.create"
  | .consumerUpdate => str "consumer.update"
  | .consumerDelete => str "consumer.delete"
  | .consumerPause => str "consumer.pause"
  | .consumerSeek => str "consumer.seek"
  | .flowBlocked => str "flow.blocked"
  | .retentionExpire => str "retention.expire"
  | .retentionBlocked => str "retention.blocked"
  | .recoveryReclaimed => str "recovery.reclaimed"
  | .recoveryUnclean => str "recovery.unclean"
  | .adminAction => str "admin.action"

def eventPatternMatch (pattern name : Bytes) : Bool :=
  if (str ".*").isSuffixOf pattern then pattern.dropLast.isPrefixOf name else pattern == name

/-- The residual predicates. -/
def EventFilter.matches (f : EventFilter) (e : Event) : Bool :=
  (f.stream == [] || e.stream.getD [] == f.stream) && (f.consumer == [] || e.consumer.getD [] == f.consumer) &&
    (f.events.isEmpty || f.events.any fun pattern => eventPatternMatch pattern e.name.text)

/-- The anchors of `buildEventQuery`. -/
def EventFilter.anchors (f : EventFilter) (r : EventRow) : Bool :=
  (f.msgId == [] || r.event.msgId == some f.msgId) && (f.traceId == [] || r.event.traceId == some f.traceId) &&
    (f.sinceMs ≤ 0 || f.sinceMs ≤ r.event.ts) && (f.untilMs ≤ 0 || r.event.ts < f.untilMs)

/-- The cursor of `buildEventQuery`, exclusive in the direction of the scan. -/
def EventFilter.beyond (f : EventFilter) (r : EventRow) : Bool :=
  f.afterId ≤ 0 || match f.order with
    | .asc => f.afterId < r.id
    | .desc => r.id < f.afterId

/-- `ORDER BY id`. -/
def EventOrder.sort (o : EventOrder) (rows : List EventRow) : List EventRow :=
  match o with
  | .asc => rows.insertionSort fun a b => a.id ≤ b.id
  | .desc => rows.insertionSort fun a b => b.id ≤ a.id

/-- The rows of `buildEventQuery`, up to its hard cap. -/
def Store.eventQuery (st : Store) (f : EventFilter) (maxRows : ℤ) : List EventRow :=
  sqlLimit maxRows (f.order.sort (st.events.select fun r => f.anchors r && f.beyond r))

/-- A requested bound, clamped to its ceiling; none is the ceiling. -/
def clampLimit (requested ceiling : ℤ) : ℤ := if requested ≤ 0 ∨ requested > ceiling then ceiling else requested

def Store.eventHorizon (st : Store) : ℤ := ((st.events.rows.map fun r => r.event.ts).min?).getD 0

/-- `Events`. The hard cap is a machine integer. -/
def Store.eventPage (st : Store) (o : ReadLimits) (f : EventFilter) : EventPage :=
  let limit := clampLimit f.limit o.eventQueryMaxLimit
  let budget := clampLimit f.scanBudget o.eventScanBudget
  let rows := st.eventQuery f (toInt64 (limit + budget))
  let s := scan (fun r => f.matches r.event) limit.toNat budget.toNat rows
  let scannedToId := (s.last.map EventRow.id).getD 0
  { events := s.taken.map EventRow.event, complete := !(s.filled || s.bounded), scannedToId := scannedToId,
    nextAfterId := if s.filled || s.bounded then scannedToId else 0, horizonTs := st.eventHorizon }

/-! ## Messages -/

/-- The read shape of a message. -/
structure Message where
  stream : Bytes
  seq : ℤ
  id : Bytes
  subject : Bytes
  headers : Option Headers
  body : Bytes
  size : ℤ
  publishedAt : ℤ
  traceId : Bytes

def MessageRow.read (m : MessageRow) (body : Bool) : Message where
  stream := m.stream
  seq := m.seq
  id := m.id
  subject := m.subject
  headers := m.hdr
  body := if body then m.body else []
  size := m.size
  publishedAt := m.publishedAt
  traceId := m.traceId

inductive MissReason
  | expired | neverPublished
  deriving DecidableEq

inductive PeekErr
  | name (r : Refusal)
  | noStream (stream : Bytes)
  /-- `PeekMissError`. -/
  | miss (stream : Bytes) (reason : MissReason) (boundary : ℤ)
  | noRow (stream : Bytes) (seq first next : ℤ)

def Store.peekSeq (st : Store) (stream : Bytes) (seq : ℤ) : Except PeekErr Message :=
  match validateExistingStreamName stream with
  | .error r => .error (.name r)
  | .ok () =>
    let first := st.firstSeq stream
    -- the query coalesces a missing counter to 0, so this column is never NULL
    let next : Option ℤ := some (((st.streamSeq.find? stream).map SeqRow.next).getD 0)
    if first = none ∧ next = none then .error (.noStream stream)
    else if ∃ f ∈ first, seq < f then .error (.miss stream .expired (first.getD 0))
    else if next.getD 0 ≤ seq then .error (.miss stream .neverPublished (next.getD 0 - 1))
    else match st.messages.find? (stream, seq) with
      | some m => .ok (m.read true)
      | none => .error (.noRow stream seq (first.getD 0) (next.getD 0))

structure ListQuery where
  stream : Bytes
  fromSeq : ℤ := 0
  subject : Bytes := []
  limit : ℤ := 0
  order : Bytes := []
  includeBody : Bool := false

structure Page where
  messages : List Message
  complete : Bool
  scannedToSeq : ℤ
  limit : ℤ

inductive ListErr
  | name (r : Refusal)
  | subject (raw : Bytes) (e : Subject.Err)

def ListQuery.desc (q : ListQuery) : Bool := q.order == str "desc"

/-- `fromClause`. -/
def ListQuery.fromClause (q : ListQuery) (m : MessageRow) : Bool :=
  q.fromSeq ≤ 0 || if q.desc then m.seq ≤ q.fromSeq else q.fromSeq ≤ m.seq

/-- `literalClause`: a literal subject is an exact one. -/
def ListQuery.literalClause (q : ListQuery) (m : MessageRow) : Bool :=
  match Subject.parsePattern q.subject with
  | .ok p => !p.isLiteral || m.subject == q.subject
  | .error _ => true

/-- `orderBy`. -/
def ListQuery.orderBy (q : ListQuery) (rows : List MessageRow) : List MessageRow :=
  if q.desc then rows.insertionSort fun a b => b.seq ≤ a.seq else rows.insertionSort fun a b => a.seq ≤ b.seq

/-- The page limit after clamping; bodies tighten it tenfold. -/
def ListQuery.effective (q : ListQuery) (o : ReadLimits) : ℤ :=
  clampLimit q.limit (if q.includeBody then o.peekMaxLimit / 10 else o.peekMaxLimit)

/-- The subject filter, if there is one. -/
def ListQuery.matcher (q : ListQuery) : Except ListErr (MessageRow → Bool) :=
  if q.subject = [] then .ok fun _ => true
  else match Subject.parseSet [q.subject] with
    | .ok set => .ok fun m => set.match m.subject
    | .error e => .error (.subject q.subject e)

/-- `ListMessages`. -/
def Store.listMessages (st : Store) (o : ReadLimits) (q : ListQuery) : Except ListErr Page := do
  match validateExistingStreamName q.stream with
  | .error r => throw (.name r)
  | .ok () =>
    let limit := q.effective o
    let keep ← q.matcher
    let rows := q.orderBy ((st.messagesOf q.stream).filter fun m => q.fromClause m && q.literalClause m)
    let s := scan keep limit.toNat o.peekScanLimit.toNat rows
    -- the page is filled, or the whole source fit inside the bound
    let complete : Bool := (s.taken.length : ℤ) ≥ limit ∨ !s.bounded
    return {
      messages := s.taken.map fun m => m.read q.includeBody, complete := complete, limit := limit,
      scannedToSeq := if complete then 0 else (s.last.map MessageRow.seq).getD 0 }

end Messq

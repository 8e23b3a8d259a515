import Messq.Store.Consumer

/-! # Fetch

One fetch is one command: the top-up scans messages from the cursor and inserts ready delivery rows for the
matching ones while the pending set is below its bound, then the claim takes a prefix of the visible ready rows
in sequence order and flips them to inflight. A claimed row keeps the generation it was inserted with; its
token carries the consumer's. -/

namespace Messq

open Lib

inductive Hold
  | none | paused | flowControl | backoff | catchingUp | empty
  deriving DecidableEq

/-- One claimed row, with its attempt count after the claim. -/
structure Claimed where
  seq : ℤ
  attempt : ℤ
  deadlineMs : ℤ
  ackWaitMs : ℤ
  deriving DecidableEq

structure FetchResult where
  stream : Bytes
  consumer : Bytes
  claimed : List Claimed := []
  hold : Hold
  cursorSeq : ℤ
  pending : ℤ := 0
  inflight : ℤ := 0
  backlog : ℤ := 0
  maxAckPending : ℤ := 0
  nextVisibleMs : ℤ := 0
  generation : ℤ
  maxDeliver : ℤ
  ackWaitMs : ℤ
  conflicts : ℤ := 0

/-- The token handed out with a claimed message. -/
def FetchResult.token (r : FetchResult) (c : Claimed) : Token :=
  ⟨r.stream, r.consumer, c.seq, c.attempt, toInt32 r.generation⟩

/-- The tokens one fetch mints. -/
def FetchResult.tokens (r : FetchResult) : List Token := r.claimed.map r.token

/-! ## Top-up -/

/-- The row a top-up admits. -/
def readyRow (c : ConsumerRow) (m : MessageRow) : DeliveryRow where
  stream := c.stream
  consumer := c.name
  seq := m.seq
  subject := m.subject
  state := .ready
  attempts := 0
  visibleAt := 0
  generation := c.generation
  deliveredAt := none
  lastReason := none

/-- The accumulators of the top-up scan. -/
structure Admission where
  deliveries : Table DeliveryRow.key
  pending : ℤ
  conflicts : ℤ := 0
  declined : Option ℤ := none

/-- The scan: a match beyond the bound stops it and pins the cursor. -/
def admitMatches (pats : Subject.PatternSet) (c : ConsumerRow) : Admission → List MessageRow → Admission
  | acc, [] => acc
  | acc, m :: ms =>
    if !pats.match m.subject then admitMatches pats c acc ms
    else if acc.pending ≥ c.maxAckPending then { acc with declined := some m.seq }
    else match acc.deliveries.insert (readyRow c m) with
      | none => admitMatches pats c { acc with conflicts := acc.conflicts + 1 } ms
      | some t => admitMatches pats c { acc with deliveries := t, pending := acc.pending + 1 } ms

/-- `SELECT seq, subject FROM messages WHERE stream = ? AND seq >= ? ORDER BY seq LIMIT ?`. -/
def Store.scanWindow (st : Store) (stream : Bytes) (cursor : ℤ) (limit : ℕ) : List MessageRow :=
  (((st.messagesOf stream).filter fun m => m.seq ≥ cursor).insertionSort fun a b => a.seq ≤ b.seq).take limit

/-- Where the cursor goes: to the declined match, past a full window, or to the head. -/
def nextCursor (acc : Admission) (window : List MessageRow) (scanLimit : ℕ) (cursor streamNext : ℤ) : ℤ :=
  let next := match acc.declined with
    | some seq => seq
    | none => if window.length = scanLimit then (window.getLast?.map MessageRow.seq).getD 0 + 1 else streamNext
  if next < cursor then cursor else next

/-- `topUp`: the new cursor and the number of conflicts. -/
def topUp (c : ConsumerRow) (pending streamNext : ℤ) (scanLimit : ℕ) : Tx (ℤ × ℤ) := do
  let st ← get
  match Subject.parseSet c.filters with
  | .error e => fail (.patternSet e)
  | .ok pats =>
    let window := st.scanWindow c.stream c.cursorSeq scanLimit
    let acc := admitMatches pats c { deliveries := st.deliveries, pending := pending } window
    let cursor := nextCursor acc window scanLimit c.cursorSeq streamNext
    set { st with deliveries := acc.deliveries }
    setCursor c.stream c.name cursor
    return (cursor, acc.conflicts)

/-! ## Claim -/

/-- The visible ready rows whose message is stored, with its size, in sequence order. -/
def Store.claimCandidates (st : Store) (stream consumer : Bytes) (nowMs : ℤ) : List (ℤ × ℤ) :=
  (((st.pendingOf stream consumer).filter fun d => d.state == .ready && d.visibleAt ≤ nowMs).filterMap fun d =>
    (st.messages.find? (stream, d.seq)).map fun m => (d.seq, m.size)).insertionSort fun a b => a.1 ≤ b.1

/-- The rest of the byte budget's prefix, `used` bytes in. -/
def withinBudget (maxBytes : ℤ) : ℤ → List (ℤ × ℤ) → List ℤ
  | _, [] => []
  | used, c :: cs => if used + c.2 > maxBytes then [] else c.1 :: withinBudget maxBytes (used + c.2) cs

/-- The byte budget: the first row always, then while the sum fits. -/
def chooseClaims (maxBytes : ℤ) : List (ℤ × ℤ) → List ℤ
  | [] => []
  | c :: cs => c.1 :: withinBudget maxBytes c.2 cs

/-- What a claim writes into a row. -/
def DeliveryRow.claim (d : DeliveryRow) (nowMs ackWaitMs : ℤ) : DeliveryRow :=
  { d with state := .inflight, attempts := d.attempts + 1, visibleAt := nowMs + ackWaitMs, deliveredAt := some nowMs }

/-- `RETURNING seq, attempts`, scanned into an `int32`. -/
def scanAttempts (st : Store) (stream consumer : Bytes) : List ℤ → Tx (List (ℤ × ℤ))
  | [] => return []
  | seq :: seqs => do
    let attempts ← scanInt32 (((st.deliveries.find? (stream, consumer, seq)).map DeliveryRow.attempts).getD 0)
    return (seq, attempts) :: (← scanAttempts st stream consumer seqs)

/-- `applyClaim`: the update by key, and each row's attempt count after it. -/
def applyClaim (stream consumer : Bytes) (nowMs ackWaitMs : ℤ) (chosen : List ℤ) : Tx (List (ℤ × ℤ)) := do
  modify fun st => { st with
    deliveries := st.deliveries.update (fun d => d.stream == stream && d.consumer == consumer && chosen.contains d.seq)
      (fun d => d.claim nowMs ackWaitMs) fun _ _ => rfl }
  scanAttempts (← get) stream consumer chosen

/-- `claimReady`. -/
def claimReady (stream consumer : Bytes) (nowMs ackWaitMs : ℤ) (batch : ℕ) (maxBytes : ℤ) : Tx (List Claimed) := do
  let st ← get
  let chosen := chooseClaims maxBytes ((st.claimCandidates stream consumer nowMs).take batch)
  let attempts ← applyClaim stream consumer nowMs ackWaitMs chosen
  return attempts.map fun p => ⟨p.1, p.2, nowMs + ackWaitMs, ackWaitMs⟩

/-! ## The command -/

/-- The last `flow.blocked` of the consumer is less than an interval ago. -/
def Store.flowHeld (st : Store) (key : Bytes × Bytes) (nowMs intervalMs : ℤ) : Bool :=
  (st.flow.find? key).any fun row => nowMs - row.lastMs < intervalMs

/-- `flowBlockedDue`: at most one event an interval, and the emission is recorded. -/
def flowBlockedDue (key : Bytes × Bytes) (nowMs intervalMs : ℤ) : Tx Bool := do
  let st ← get
  if st.flowHeld key nowMs intervalMs then return false
  else do
    set { st with flow := st.flow.upsert ⟨key, nowMs⟩ }
    return true

/-- `consumerBacklog`: exact for `>` and for literal filters, an upper bound otherwise. -/
def Store.consumerBacklog (st : Store) (stream : Bytes) (cursor next : ℤ) (filters : List Bytes) : ℤ × Bool :=
  let remaining := max (next - cursor) 0
  if filters = [str ">"] then (remaining, true)
  else match Subject.parseSet filters with
    | .error _ => (remaining, false)
    | .ok pats =>
      if !pats.pats.all Subject.Pattern.isLiteral then (remaining, false)
      else ((pats.strings.map fun lit =>
        (((st.messagesOf stream).filter fun m => m.subject == lit && m.seq ≥ cursor).length : ℤ)).sum, true)

def fetchHold (full : Bool) (pending cursor next bound : ℤ) : Hold :=
  if full then .none
  else if bound > 0 ∧ pending ≥ bound then .flowControl
  else if pending = 0 then (if cursor < next then .catchingUp else .empty)
  else .none

/-- `consumerBlockedBy`: why a consumer makes no progress, the first match. -/
def consumerBlockedBy (paused : Bool) (pending readyNow cursor next bound : ℤ) : Hold :=
  if paused then .paused
  else if bound > 0 ∧ pending ≥ bound then .flowControl
  else if pending > 0 ∧ readyNow = 0 then .backoff
  else if pending = 0 ∧ cursor < next then .catchingUp
  else if pending = 0 then .empty
  else .none

/-- The derived columns of a consumer's description. -/
structure ConsumerStats where
  pending : ℤ
  inflight : ℤ
  readyNow : ℤ
  inBackoff : ℤ
  backlog : ℤ
  backlogExact : Bool
  oldestPendingAgeMs : ℤ
  blockedBy : Hold

/-- `fillConsumerStats`; its counts are of the rows whose message is stored. -/
def Store.consumerStats (st : Store) (c : ConsumerRow) (nowMs : ℤ) : ConsumerStats :=
  let rows := (st.pendingOf c.stream c.name).filter fun d => (st.messages.find? (c.stream, d.seq)).isSome
  let pending : ℤ := rows.length
  let inflight : ℤ := (rows.filter fun d => d.state == .inflight).length
  let readyNow : ℤ := (rows.filter fun d => d.state == .ready && d.visibleAt ≤ nowMs).length
  let next := ((st.streamSeq.find? c.stream).map SeqRow.next).getD 0
  let backlog := st.consumerBacklog c.stream c.cursorSeq next c.filters
  let oldest := ((rows.filterMap fun d => (st.messages.find? (c.stream, d.seq)).map MessageRow.publishedAt).min?).getD 0
  { pending, inflight, readyNow, inBackoff := pending - inflight - readyNow, backlog := backlog.1,
    backlogExact := backlog.2,
    oldestPendingAgeMs := if pending = 0 then 0 else nowMs - oldest
    blockedBy := consumerBlockedBy c.paused pending readyNow c.cursorSeq next c.maxAckPending }

def deliverEvent (nowMs : ℤ) (stream consumer : Bytes) (d : Claimed) : Event where
  ts := nowMs
  name := .msgDeliver
  stream := nullStr stream
  consumer := nullStr consumer
  seq := nullI64 d.seq
  attempt := nullI64 d.attempt
  detail := .deliver d.attempt d.deadlineMs

/-- The pending set is full: no top-up, only a rate-limited event. -/
def flowBlocked (env : Env) (c : ConsumerRow) (pending : ℤ) : Tx Unit := do
  let due ← flowBlockedDue c.key env.nowMs (milliseconds env.opts.consumerLimits.flowBlockedInterval)
  if due then
    commitEvent {
      ts := env.nowMs, name := .flowBlocked, stream := nullStr c.stream, consumer := nullStr c.name,
      detail := .flowBlocked pending c.maxAckPending }
  else return ()

/-- The top-up half of a fetch: the cursor after it and the conflicts. -/
def fetchAdmit (env : Env) (c : ConsumerRow) (streamNext : ℤ) : Tx (ℤ × ℤ) := do
  let st ← get
  let pending : ℤ := (st.pendingOf c.stream c.name).length
  if pending ≥ c.maxAckPending then do
    flowBlocked env c pending
    return (c.cursorSeq, 0)
  else topUp c pending streamNext env.opts.consumerLimits.scanLimit

/-- `fetchCmd.Apply`. `nextVisibleAt` compares the integer state column with a string, so it finds no row. -/
def fetch (env : Env) (stream consumer : Bytes) (batch : ℕ) (maxBytes : ℤ) : Tx FetchResult := do
  let st ← get
  match st.consumers.find? (stream, consumer) with
  | none => refuse (.consumerNotFound stream consumer)
  | some c =>
    let maxDeliver ← scanInt32 c.maxDeliver
    if c.paused then
      return { stream, consumer, hold := .paused, cursorSeq := c.cursorSeq, generation := c.generation, maxDeliver,
               ackWaitMs := c.ackWaitMs }
    else match st.streamSeq.find? stream with
      | none => refuse (.streamNotFound stream)
      | some head => do
        let (cursor, conflicts) ← fetchAdmit env c head.next
        let claimed ← claimReady stream consumer env.nowMs c.ackWaitMs batch maxBytes
        commitEvents (claimed.map (deliverEvent env.nowMs stream consumer))
        let st ← get
        let rows := st.pendingOf stream consumer
        let pending : ℤ := rows.length
        let hold := fetchHold (claimed.length = batch) pending cursor head.next c.maxAckPending
        return {
          stream, consumer, claimed, hold, cursorSeq := cursor, pending,
          inflight := (rows.filter fun d => d.state == .inflight).length,
          backlog := (st.consumerBacklog stream cursor head.next c.filters).1,
          maxAckPending := if hold = .flowControl then c.maxAckPending else 0,
          generation := c.generation, maxDeliver, ackWaitMs := c.ackWaitMs, conflicts }

end Messq

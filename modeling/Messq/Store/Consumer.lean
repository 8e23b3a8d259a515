import Messq.Store.Streams

/-! # Consumer lifecycle

Creation, configuration and deletion of a consumer, and the resolution of a start position to a cursor. A
new row starts at generation 1. Lowering `max_ack_pending` by an update runs `shrinkDeliveries`, which drops
never-claimed rows from the tail and moves the cursor back to the lowest of them. -/

namespace Messq

open Lib

/-! ## Start positions -/

/-- `SELECT min(seq) FROM messages WHERE stream = ?`. -/
def Store.firstSeq (st : Store) (stream : Bytes) : Option ℤ := ((st.messagesOf stream).map MessageRow.seq).min?

/-- `streamBounds`: the oldest stored sequence number and the next one; they coincide on an empty stream. -/
def streamBounds (stream : Bytes) : Tx (ℤ × ℤ) := do
  let st ← get
  match st.streamSeq.find? stream with
  | none => refuse (.streamNotFound stream)
  | some row => return ((st.firstSeq stream).getD row.next, row.next)

def clampCursor (seq first next : ℤ) : ℤ := if seq < first then first else if seq > next then next else seq

/-- The messages of a stream at or after `t`, in the order of the `messages_age` index. -/
def Store.messagesSince (st : Store) (stream : Bytes) (t : ℤ) : List MessageRow :=
  ((st.messagesOf stream).filter fun m => m.publishedAt ≥ t).insertionSort fun a b =>
    a.publishedAt < b.publishedAt ∨ (a.publishedAt = b.publishedAt ∧ a.seq ≤ b.seq)

/-- `resolveTimeStart`. -/
def Store.resolveTimeStart (st : Store) (stream : Bytes) (t next : ℤ) : ℤ × Bool :=
  match st.messagesSince stream t with
  | [] => (next, false)
  | m :: _ =>
    (m.seq, match ((st.messagesOf stream).map MessageRow.publishedAt).min? with
      | some oldest => t < oldest
      | none => false)

/-- `resolveStartPosition`: the cursor, and whether the position pointed into deleted history. -/
def resolveStartPosition (env : Env) (stream : Bytes) (start : StartPosition) : Tx (ℤ × Bool) := do
  let (first, next) ← streamBounds stream
  let st ← get
  match start with
  | .first => return (first, false)
  | .new => return (next, false)
  | .seq n => return (clampCursor n first next, first < next ∧ n < clampCursor n first next)
  | .time t => return st.resolveTimeStart stream t next
  | .rel offset => return st.resolveTimeStart stream (unixMilli (env.now + offset)) next

/-! ## Create -/

/-- `UPDATE consumers SET filters, ack_wait_ms, …`: what an update writes. -/
def ConsumerRow.withConfig (c : ConsumerRow) (next : ConsumerConfig) : ConsumerRow :=
  { c with
    filters := sortedSet next.filters
    ackWaitMs := milliseconds next.ackWait
    maxDeliver := next.maxDeliver
    maxAckPending := next.maxAckPending
    backoffMs := next.backoff.map milliseconds
    deadPolicy := next.deadPolicy }

def setConsumerConfig (stream name : Bytes) (next : ConsumerConfig) : Tx Unit :=
  modify fun st => { st with
    consumers := st.consumers.update (fun c => c.key == (stream, name)) (fun c => c.withConfig next) fun _ _ => rfl }

/-- `consumerConfigDiff`: paused is operational state, not configuration. -/
def ConsumerConfig.diff (old next : ConsumerConfig) : List Field :=
  flaggedFields [
    (sortedSet old.filters != sortedSet next.filters, .filters), (old.ackWait != next.ackWait, .ackWait),
    (old.maxDeliver != next.maxDeliver, .maxDeliver), (old.maxAckPending != next.maxAckPending, .maxAckPending),
    (old.backoff != next.backoff, .backoff), (old.deadPolicy != next.deadPolicy, .deadPolicy)]

structure ConsumerCreateResult where
  info : ConsumerRow
  created : Bool
  updated : Bool
  clamped : Bool

/-- The row `applyInsert` writes. -/
def newConsumer (stream : Bytes) (cfg : ConsumerConfig) (cursor createdAt : ℤ) : ConsumerRow where
  stream := stream
  name := cfg.name
  filters := sortedSet cfg.filters
  ackWaitMs := milliseconds cfg.ackWait
  maxDeliver := cfg.maxDeliver
  maxAckPending := cfg.maxAckPending
  backoffMs := cfg.backoff.map milliseconds
  deadPolicy := cfg.deadPolicy
  cursorSeq := cursor
  generation := 1
  paused := cfg.paused
  createdAt := createdAt

/-- `applyInsert`. The start record is a plain insert: one that a deleted stream left behind is a fault. -/
def insertConsumer (env : Env) (stream : Bytes) (cfg : ConsumerConfig) (start : StartPosition) (actor : Bytes) :
    Tx ConsumerCreateResult := do
  let (cursor, clamped) ← resolveStartPosition env stream start
  let st ← get
  let row := newConsumer stream cfg cursor env.nowMs
  let consumers ← Tx.require .keyTaken (st.consumers.insert row)
  let metaTable ← Tx.require .keyTaken (st.metaTable.insert ⟨.cstart stream cfg.name, .start start⟩)
  set { st with consumers := consumers, metaTable := metaTable }
  commitEvent {
    ts := env.nowMs, name := .consumerCreate, stream := nullStr stream, consumer := nullStr cfg.name,
    actor := nullStr actor, detail := .consumerCreate cursor start }
  return ⟨{ row with filters := cfg.filters }, true, false, clamped⟩

/-- `checkStartImmutable`: moving the cursor is seek's job. -/
def checkStartImmutable (stream name : Bytes) (start : StartPosition) : Tx Unit := do
  let st ← get
  match (st.metaTable.find? (.cstart stream name)).map MetaRow.v with
  | none => return ()
  | some (.start recorded) => if recorded ≠ start then refuse (.startImmutable stream name) else return ()
  | some (.int _) => refuse (.startImmutable stream name)

/-- `applyUpdate` of a create: no shrink, and the name is matched exactly. -/
def replaceConsumer (env : Env) (stream : Bytes) (existing : ConsumerRow) (cfg : ConsumerConfig) (diff : List Field)
    (actor : Bytes) : Tx ConsumerCreateResult := do
  Tx.check (validateDeadPolicyForStream stream cfg.deadPolicy)
  Tx.check (validateConsumerConfig { cfg with paused := existing.paused } env.opts.consumerLimits)
  setConsumerConfig stream cfg.name cfg
  commitEvent {
    ts := env.nowMs, name := .consumerUpdate, stream := nullStr stream, consumer := nullStr cfg.name,
    actor := nullStr actor, detail := .fields diff }
  return ⟨{ existing.withConfig cfg with filters := cfg.filters }, false, true, false⟩

/-- `createConsumerCmd.Apply`. -/
def createConsumer (env : Env) (stream : Bytes) (cfg : ConsumerConfig) (start : StartPosition) (actor : Bytes) :
    Tx ConsumerCreateResult := do
  refuseDuringReap stream
  let st ← get
  if st.streams.find? stream |>.isNone then refuse (.streamNotFound stream)
  else match st.consumers.rows.find? fun c => c.stream == stream && eqNoCase c.name cfg.name with
    | none => insertConsumer env stream cfg start actor
    | some existing => do
      checkStartImmutable stream cfg.name start
      let diff := existing.config.diff cfg
      if diff = [] then return ⟨existing, false, false, false⟩
      else replaceConsumer env stream existing cfg diff actor

/-! ## Update -/

structure ConsumerPatch where
  filters : Option (List Bytes) := none
  ackWaitMs : Option ℤ := none
  maxDeliver : Option ℤ := none
  maxAckPending : Option ℤ := none
  backoffMs : Option (List ℤ) := none
  deadPolicy : Option DeadPolicy := none

def ConsumerPatch.fields (p : ConsumerPatch) : List Field :=
  flaggedFields [
    (p.filters.isSome, .filters), (p.ackWaitMs.isSome, .ackWait), (p.maxDeliver.isSome, .maxDeliver),
    (p.maxAckPending.isSome, .maxAckPending), (p.backoffMs.isSome, .backoff), (p.deadPolicy.isSome, .deadPolicy)]

/-- `applyConsumerPatch`. -/
def ConsumerPatch.apply (p : ConsumerPatch) (old : ConsumerConfig) : ConsumerConfig :=
  { old with
    filters := p.filters.getD old.filters
    ackWait := (p.ackWaitMs.map msDuration).getD old.ackWait
    maxDeliver := p.maxDeliver.getD old.maxDeliver
    maxAckPending := p.maxAckPending.getD old.maxAckPending
    backoff := (p.backoffMs.map fun l => l.map msDuration).getD old.backoff
    deadPolicy := p.deadPolicy.getD old.deadPolicy }

/-- The bound of a patch that lowers `max_ack_pending`. -/
def ConsumerPatch.shrinkTo (p : ConsumerPatch) (existing : ConsumerRow) : Option ℤ :=
  p.maxAckPending.filter fun bound => bound < existing.maxAckPending

/-- The delivery rows of a consumer. -/
def Store.pendingOf (st : Store) (stream name : Bytes) : List DeliveryRow :=
  st.deliveries.select fun d => d.stream == stream && d.consumer == name

/-- The rows a shrink may drop, in sequence order: ready and never claimed. -/
def Store.droppableOf (st : Store) (stream name : Bytes) : List DeliveryRow :=
  ((st.pendingOf stream name).filter fun d => d.state == .ready && d.attempts == 0).insertionSort
    fun a b => a.seq ≤ b.seq

/-- `UPDATE consumers SET cursor_seq = ? WHERE stream = ? AND name = ?`. -/
def setCursor (stream name : Bytes) (cursor : ℤ) : Tx Unit :=
  modify fun st => { st with
    consumers := st.consumers.update (fun c => c.key == (stream, name)) (fun c => { c with cursorSeq := cursor })
      fun _ _ => rfl }

/-- `shrinkDeliveries`: the residue above the bound that could not be dropped. -/
def shrinkDeliveries (stream name : Bytes) (bound : ℤ) : Tx ℤ := do
  let st ← get
  let pending : ℤ := (st.pendingOf stream name).length
  if pending ≤ bound then return 0
  else do
    let excess := pending - bound
    let droppable := st.droppableOf stream name
    let dropped := min excess.toNat droppable.length
    -- the highest `dropped` rows; their lowest is the rewind target
    match droppable.drop (droppable.length - dropped) with
    | [] => return excess
    | lowest :: others =>
      let keys := (lowest :: others).map DeliveryRow.key
      set { st with deliveries := st.deliveries.delete fun d => d.key ∈ keys }
      setCursor stream name lowest.seq
      return excess - dropped

/-- `updateConsumerCmd.Apply`: the shrink runs before the new bound is stored. -/
def updateConsumer (env : Env) (stream name : Bytes) (p : ConsumerPatch) (actor : Bytes) : Tx ConsumerRow := do
  let st ← get
  match st.consumers.find? (stream, name) with
  | none => refuse (.consumerNotFound stream name)
  | some existing =>
    let next := p.apply existing.config
    if p.fields = [] then return existing
    else
      Tx.check (validateDeadPolicyForStream stream next.deadPolicy)
      Tx.check (validateConsumerConfig next env.opts.consumerLimits)
      let detail ← match p.shrinkTo existing with
        | some bound => do
          let overshoot ← shrinkDeliveries stream name bound
          pure (Detail.shrink p.fields overshoot)
        | none => pure (Detail.fields p.fields)
      setConsumerConfig stream name next
      commitEvent {
        ts := env.nowMs, name := .consumerUpdate, stream := nullStr stream, consumer := nullStr name,
        actor := nullStr actor, detail := detail }
      return { existing.withConfig next with filters := next.filters }

/-! ## Delete and pause -/

structure ConsumerDeleteResult where
  pending : ℤ
  inflight : ℤ

/-- `deleteConsumerCmd.Apply`. -/
def deleteConsumer (env : Env) (stream name : Bytes) (actor : Bytes) : Tx ConsumerDeleteResult := do
  let st ← get
  match st.consumers.find? (stream, name) with
  | none => refuse (.consumerNotFound stream name)
  | some _ =>
    let rows := st.pendingOf stream name
    let res : ConsumerDeleteResult := ⟨rows.length, (rows.filter fun d => d.state == .inflight).length⟩
    set { st with
      deliveries := st.deliveries.delete fun d => d.stream == stream && d.consumer == name
      consumers := st.consumers.delete fun c => c.key == (stream, name)
      metaTable := st.metaTable.delete fun r => r.k == MetaKey.cstart stream name
      flow := st.flow.delete fun r => r.key == (stream, name) }
    commitEvent {
      ts := env.nowMs, name := .consumerDelete, stream := nullStr stream, consumer := nullStr name,
      actor := nullStr actor, detail := .consumerDelete res.pending res.inflight }
    return res

/-- `setPausedCmd.Apply`: an unchanged flag writes nothing. -/
def setPaused (env : Env) (stream name : Bytes) (paused : Bool) (actor : Bytes) : Tx Unit := do
  let st ← get
  match st.consumers.find? (stream, name) with
  | none => refuse (.consumerNotFound stream name)
  | some row =>
    if row.paused = paused then return ()
    else
      set { st with
        consumers := st.consumers.update (fun c => c.key == (stream, name)) (fun c => { c with paused := paused })
          fun _ _ => rfl }
      commitEvent {
        ts := env.nowMs, name := .consumerPause, stream := nullStr stream, consumer := nullStr name,
        actor := nullStr actor, detail := .paused paused }

end Messq

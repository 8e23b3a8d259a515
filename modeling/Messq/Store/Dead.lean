import Messq.Store.Fetch

/-! # The dead-letter sink

`deadLetter` runs inside the transaction of the settle, sweep or retire command that gives a delivery up. It
copies the message into `<stream>.dlq`, creating that stream on the first death, and writes the `msg.dead` row;
deleting the delivery row is the caller's. The lazily created stream is seeded at sequence number 1: unlike
`createStream`, the sink does not read the high-water mark of a deleted stream. -/

namespace Messq

open Lib

/-- The row of a lazily created dead-letter stream. -/
def dlqRow (cfg : DLQConfig) (dlq : Bytes) (nowMs : ℤ) : StreamRow where
  name := dlq
  subjects := [str ">"]
  retention := .limits
  maxMsgs := cfg.maxMsgs
  maxBytes := cfg.maxBytes
  maxAgeMs := milliseconds cfg.maxAge
  maxMsgSize := cfg.maxMsgSize
  discard := .old
  dedupWindowMs := 0
  createdAt := nowMs

/-- `ensureDLQStream`: three inserts that do nothing on a conflict; the audit row only on a creation. -/
def ensureDLQStream (env : Env) (dlq origin : Bytes) : Tx Unit := do
  let st ← get
  set { st with
    streams := st.streams.insertIgnore (dlqRow env.opts.dlq dlq env.nowMs)
    streamSeq := st.streamSeq.insertIgnore ⟨dlq, 1⟩
    streamStats := st.streamStats.insertIgnore ⟨dlq, 0, 0, 0, 0⟩ }
  if (st.streams.find? dlq).isSome then return ()
  else insertEvent {
    ts := env.nowMs, name := .streamCreate, stream := nullStr dlq, actor := some (str "system"),
    detail := .dlqCreate origin }

/-- `loadDeadPolicy`: a missing consumer drops. -/
def Store.deadPolicyOf (st : Store) (stream consumer : Bytes) : DeadPolicy :=
  ((st.consumers.find? (stream, consumer)).map ConsumerRow.deadPolicy).getD .drop

/-- `deadEvent`: the row names the origin, its detail the copy. -/
def deadEvent (env : Env) (d : DeadCtx) (policy : DeadPolicy) (outcome : DeadOutcome) : Event where
  ts := env.nowMs
  name := .msgDead
  stream := nullStr d.stream
  consumer := nullStr d.consumer
  subject := nullStr d.subject
  msgId := nullStr d.msgId
  seq := nullI64 d.seq
  attempt := nullI64 d.attempts
  traceId := nullStr d.traceId
  detail := .dead d.cause policy d.attempts d.generation outcome d.trigger d.maxDeliver d.lastReason

/-- The copy of `origin` into the dead-letter stream and its audit row. -/
def copyDead (env : Env) (d : DeadCtx) (policy : DeadPolicy) (dlq : Bytes) (origin : MessageRow) : Tx Unit := do
  ensureDLQStream env dlq d.stream
  let seq ← Tx.require (.noSequence dlq) (← takeSeq dlq)
  let (prov, reasonTruncated) := provenanceHeaders d origin.publishedAt env.nowMs env.opts.dlq.reasonHeaderBytes
  let (hdr, trimmed) ← Tx.require .headerSet (mergeCopyHeaders (2 * env.opts.limits.maxHeaderBytes) origin.hdr prov)
  let publishedAt := (← get).clampPublishedAt dlq env.nowMs
  let (msgId, _) ← mint env
  insertMessage {
    stream := dlq, seq := seq, id := msgId, subject := origin.subject, hdr := some hdr,
    body := origin.body, size := origin.size, publishedAt := publishedAt, traceId := origin.traceId, dedupKey := none }
  addStats dlq 1 origin.size
  commitEvent (deadEvent env d policy (.written dlq seq origin.size trimmed reasonTruncated))

/-- `DLQSink.Dead`: the budget left after it, or `none` when the budget refused the copy and nothing was
written. -/
def deadLetter (env : Env) (budget : DeadBudget) (d : DeadCtx) : Tx (Option DeadBudget) := do
  let st ← get
  let policy := st.deadPolicyOf d.stream d.consumer
  let plan := planDead d policy
  if !plan.copy then
    commitEvent (deadEvent env d policy .dropped)
    return some budget
  else match st.messages.find? (d.stream, d.seq) with
    | none => do
      commitEvent (deadEvent env d policy .originMissing)
      return some budget
    | some origin =>
      if !budget.canCopy origin.size then return none
      else do
        copyDead env d policy plan.dlqStream origin
        return some (budget.take origin.size)

end Messq

import Messq.Store.Schema
import Messq.Queue.Publish
import Messq.Lib.Transaction

/-! # Publishing

`publishTx` stores one message in its command's transaction: validation against the authoritative stream row,
the dedup lookup, the sequence number, the row, the counters and the audit row. The sequence number is taken
from `stream_seq`, so a publish that is refused later leaves no gap. -/

namespace Messq

open Lib

structure Ack where
  stream : Bytes
  seq : ℤ
  id : Bytes
  traceId : Bytes
  duplicate : Bool
  publishedAt : ℤ

/-- The messages of one stream. -/
def Store.messagesOf (st : Store) (stream : Bytes) : List MessageRow := st.messages.select fun m => m.stream == stream

/-- `SELECT max(published_at) FROM messages WHERE stream = ?`. -/
def Store.lastPublishedAt (st : Store) (stream : Bytes) : Option ℤ :=
  ((st.messagesOf stream).map MessageRow.publishedAt).max?

/-- `clampPublishedAt`: time stamps of one stream never go back. -/
def Store.clampPublishedAt (st : Store) (stream : Bytes) (nowMs : ℤ) : ℤ :=
  match st.lastPublishedAt stream with
  | some last => if last > nowMs then last else nowMs
  | none => nowMs

/-- `UPDATE stream_seq SET next = next + 1 WHERE stream = ? RETURNING next - 1`. -/
def takeSeq (stream : Bytes) : Tx (Option ℤ) := do
  let st ← get
  match st.streamSeq.find? stream with
  | none => return none
  | some row =>
    set { st with
      streamSeq := st.streamSeq.update (fun r => r.stream == stream) (fun r => { r with next := r.next + 1 })
        fun _ _ => rfl }
    return some row.next

/-- `allocSeq`: a missing counter is a missing stream. -/
def allocSeq (stream : Bytes) : Tx ℤ := do
  match ← takeSeq stream with
  | none => refuse (.streamNotFound stream)
  | some seq => return seq

/-- The `INSERT INTO messages` with its three uniqueness constraints. -/
def insertMessage (m : MessageRow) : Tx Unit := do
  let st ← get
  if m.dedupKey.isSome ∧ st.messages.rows.any (fun r => r.stream == m.stream && r.dedupKey == m.dedupKey) then
    fail .dedupMissed
  else if st.messages.rows.any (fun r => r.id == m.id) then fail .idTaken
  else match st.messages.insert m with
    | none => fail .keyTaken
    | some t => set { st with messages := t }

/-- `UPDATE stream_stats SET msgs = msgs + ?, bytes = bytes + ? WHERE stream = ?`. -/
def addStats (stream : Bytes) (msgs bytes : ℤ) : Tx Unit :=
  modify fun st => { st with
    streamStats := st.streamStats.update (fun r => r.stream == stream)
      (fun r => { r with msgs := r.msgs + msgs, bytes := r.bytes + bytes }) fun _ _ => rfl }

/-- What a publish reads of its stream's row. -/
structure LoadedConfig where
  name : Bytes
  subjects : List Bytes
  maxMsgSize : ℤ
  window : ℤ

def loadStreamConfig (name : Bytes) : Tx LoadedConfig := do
  let st ← get
  match st.streams.find? name with
  | none => refuse (.streamNotFound name)
  | some row => return ⟨name, row.subjects, row.maxMsgSize, row.dedupWindowMs⟩

/-- `findDedupHit`. -/
def Store.findDedupHit (st : Store) (stream key : Bytes) : Option MessageRow :=
  st.messages.rows.find? fun m => m.stream == stream && m.dedupKey == some key

/-- The receipt of a duplicate: the original's, with no new sequence number. -/
def publishDuplicate (env : Env) (stream : Bytes) (r : PublishReq) (orig : MessageRow) : Tx Ack := do
  commitEvent {
    ts := env.nowMs, name := .msgDup, stream := nullStr stream, subject := nullStr r.subject,
    msgId := nullStr orig.id, seq := nullI64 orig.seq, traceId := nullStr orig.traceId,
    detail := .dup orig.seq (orig.subject != r.subject) }
  return ⟨stream, orig.seq, orig.id, orig.traceId, true, orig.publishedAt⟩

/-- The insert half of `publishTxWithConfig`. -/
def publishFresh (env : Env) (lc : LoadedConfig) (r : PublishReq) : Tx Ack := do
  let stream := lc.name
  let seq ← allocSeq stream
  let (msgId, mintedTrace) ← mint env
  let traceId := if r.traceId ≠ [] then r.traceId else mintedTrace
  let hdr ← Tx.check (encodeHeaders r.headers env.opts.limits)
  let st ← get
  let publishedAt := st.clampPublishedAt stream env.nowMs
  let skew := (st.lastPublishedAt stream).bind fun last => if env.nowMs - last ≥ 0 then none
    else some (env.nowMs - last)
  insertMessage {
    stream := stream, seq := seq, id := msgId, subject := r.subject, hdr := hdr, body := r.body,
    size := r.body.length, publishedAt := publishedAt, traceId := traceId,
    dedupKey := if lc.window = 0 then none else nullStr r.msgId }
  addStats stream 1 r.body.length
  commitEvent {
    ts := env.nowMs, name := .msgPublish, stream := nullStr stream, subject := nullStr r.subject,
    msgId := nullStr msgId, seq := nullI64 seq, traceId := nullStr traceId,
    detail := .publish r.body.length r.headers.rows.length (r.msgId != []) skew }
  return ⟨stream, seq, msgId, traceId, false, publishedAt⟩

def publishTxWithConfig (env : Env) (lc : LoadedConfig) (r : PublishReq) : Tx Ack := do
  Tx.check (validatePublish lc.subjects lc.maxMsgSize r env.opts.limits)
  let st ← get
  match (if r.msgId ≠ [] ∧ lc.window > 0 then st.findDedupHit lc.name r.msgId else none) with
  | some orig => publishDuplicate env lc.name r orig
  | none => publishFresh env lc r

/-- `publishWriteCmd.Apply`. -/
def publish (env : Env) (stream : Bytes) (r : PublishReq) : Tx Ack := do
  let lc ← loadStreamConfig stream
  publishTxWithConfig env lc r

/-- A refusal inside a batch names its line. -/
def Tx.atLine {α : Type} (n : ℕ) (x : Tx α) : Tx α := fun st =>
  match x st with
  | .error (.refused r) => .error (.refused (.line n r))
  | res => res

/-- The loop of `batchPublishCmd.Apply`; `n` is the number of lines stored already. -/
def publishLines (env : Env) (lc : LoadedConfig) : ℕ → List PublishReq → Tx (List Ack)
  | _, [] => return []
  | n, r :: rs => do
    let ack ← Tx.atLine (n + 1) (publishTxWithConfig env lc r)
    return ack :: (← publishLines env lc (n + 1) rs)

/-- `batchPublishCmd.Apply`: every line or none. -/
def publishBatch (env : Env) (stream : Bytes) (reqs : List PublishReq) : Tx (List Ack) := do
  let lc ← loadStreamConfig stream
  publishLines env lc 0 reqs

/-- `sweepDedupCmd.Apply`: at most `sweepBound` expired keys of one stream are cleared. -/
def sweepBound : ℕ := 10000

def sweepDedup (env : Env) (stream : Bytes) : Tx ℕ := do
  let st ← get
  match st.streams.find? stream with
  | none => refuse (.streamNotFound stream)
  | some row =>
    let expired := (st.messagesOf stream).filter fun m =>
      m.publishedAt < env.nowMs - row.dedupWindowMs && m.dedupKey.isSome
    let hit := ((expired.insertionSort fun a b => a.publishedAt ≤ b.publishedAt).take sweepBound).map MessageRow.key
    set { st with
      messages := st.messages.update (fun m => m.key ∈ hit) (fun m => { m with dedupKey := none }) fun _ _ => rfl }
    return hit.length

end Messq

import Messq.Store.Publish

/-! # Stream lifecycle

Creation, update and deletion of a stream. A deletion removes the metadata in one command, records the
sequence high-water mark under `seq_hwm.<name>` and a marker under `reap.<name>`, and leaves the messages to
chunk commands; the chunk that comes up short clears the marker. `reapChunk` itself never reads the marker. -/

namespace Messq

open Lib

/-- The stored configuration as the validation layer's value. -/
def StreamRow.config (r : StreamRow) : StreamConfig where
  name := r.name
  subjects := r.subjects
  retention := r.retention
  maxMsgs := r.maxMsgs
  maxBytes := r.maxBytes
  maxAge := msDuration r.maxAgeMs
  maxMsgSize := r.maxMsgSize
  discard := r.discard
  dedupWindow := msDuration r.dedupWindowMs

/-- A configuration as the row that stores it: subjects as a sorted set, durations in milliseconds. -/
def StreamConfig.row (c : StreamConfig) (createdAt : ℤ) : StreamRow where
  name := c.name
  subjects := sortedSet c.subjects
  retention := c.retention
  maxMsgs := c.maxMsgs
  maxBytes := c.maxBytes
  maxAgeMs := milliseconds c.maxAge
  maxMsgSize := c.maxMsgSize
  discard := c.discard
  dedupWindowMs := milliseconds c.dedupWindow
  createdAt := createdAt

/-- The fields whose flag is set, in order. -/
def flaggedFields (flags : List (Bool × Field)) : List Field := (flags.filter Prod.fst).map Prod.snd

/-- `configDiff`: the fields in which two configurations disagree. -/
def StreamConfig.diff (old next : StreamConfig) : List Field :=
  flaggedFields [
    (sortedSet old.subjects != sortedSet next.subjects, .subjects), (old.retention != next.retention, .retention),
    (old.maxMsgs != next.maxMsgs, .maxMsgs), (old.maxBytes != next.maxBytes, .maxBytes),
    (old.maxAge != next.maxAge, .maxAge), (old.maxMsgSize != next.maxMsgSize, .maxMsgSize),
    (old.discard != next.discard, .discard), (old.dedupWindow != next.dedupWindow, .dedupWindow)]

/-! ## Create -/

/-- `refuseDuringReap`: a name whose messages are still being deleted is taken. -/
def refuseDuringReap (name : Bytes) : Tx Unit := do
  let st ← get
  match (st.metaTable.find? (.reap name)).map MetaRow.v with
  | none => return ()
  | some (.int remaining) => refuse (.reapInProgress name remaining)
  | some (.start _) => fail .unexpected

/-- `resumeSeq`: one above the high-water mark of a deleted stream, 1 for a fresh name. -/
def resumeSeq (name : Bytes) : Tx ℤ := do
  let st ← get
  match (st.metaTable.find? (.seqHwm name)).map MetaRow.v with
  | none => return 1
  | some (.int hwm) => return hwm + 1
  | some (.start _) => fail .unexpected

structure CreateStreamResult where
  info : StreamRow
  existed : Bool

/-- The three inserts and the audit row of a fresh name. -/
def insertStream (env : Env) (cfg : StreamConfig) (actor : Bytes) : Tx CreateStreamResult := do
  let next ← resumeSeq cfg.name
  let st ← get
  let row := cfg.row env.nowMs
  let streams ← Tx.require .keyTaken (st.streams.insert row)
  let streamSeq ← Tx.require .keyTaken (st.streamSeq.insert ⟨cfg.name, next⟩)
  let streamStats ← Tx.require .keyTaken (st.streamStats.insert ⟨cfg.name, 0, 0, 0, 0⟩)
  set { st with streams := streams, streamSeq := streamSeq, streamStats := streamStats }
  commitEvent {
    ts := env.nowMs, name := .streamCreate, stream := nullStr cfg.name, actor := nullStr actor,
    detail := .streamCreate next }
  return ⟨{ row with subjects := cfg.subjects }, false⟩

/-- `createStreamCmd.Apply`. -/
def createStream (env : Env) (cfg : StreamConfig) (actor : Bytes) : Tx CreateStreamResult := do
  refuseDuringReap cfg.name
  let st ← get
  match st.streams.rows.find? fun r => eqNoCase r.name cfg.name with
  | none => insertStream env cfg actor
  | some existing =>
    if existing.name ≠ cfg.name then refuse (.nameCaseCollision cfg.name existing.name)
    else if existing.config.diff cfg ≠ [] then refuse (.streamExists cfg.name (existing.config.diff cfg))
    else return ⟨existing, true⟩

/-! ## Update -/

structure StreamPatch where
  subjects : Option (List Bytes) := none
  retention : Option Retention := none
  maxMsgs : Option ℤ := none
  maxBytes : Option ℤ := none
  maxAgeMs : Option ℤ := none
  maxMsgSize : Option ℤ := none
  discard : Option Discard := none
  dedupWindowMs : Option ℤ := none

/-- The fields a patch carries, in the order the audit row names them. -/
def StreamPatch.fields (p : StreamPatch) : List Field :=
  flaggedFields [
    (p.subjects.isSome, .subjects), (p.retention.isSome, .retention), (p.maxMsgs.isSome, .maxMsgs),
    (p.maxBytes.isSome, .maxBytes), (p.maxAgeMs.isSome, .maxAge), (p.maxMsgSize.isSome, .maxMsgSize),
    (p.discard.isSome, .discard), (p.dedupWindowMs.isSome, .dedupWindow)]

/-- `applyPatch`. -/
def StreamPatch.apply (p : StreamPatch) (old : StreamConfig) : StreamConfig where
  name := old.name
  subjects := p.subjects.getD old.subjects
  retention := p.retention.getD old.retention
  maxMsgs := p.maxMsgs.getD old.maxMsgs
  maxBytes := p.maxBytes.getD old.maxBytes
  maxAge := (p.maxAgeMs.map msDuration).getD old.maxAge
  maxMsgSize := p.maxMsgSize.getD old.maxMsgSize
  discard := p.discard.getD old.discard
  dedupWindow := (p.dedupWindowMs.map msDuration).getD old.dedupWindow

/-- The window query of `measureUsage`: walking from the newest message, with the rank and the running size
including the row itself, the sizes of the rows some new limit would cut. -/
def atRisk (next : StreamConfig) (nowMs : ℤ) : ℤ → ℤ → List MessageRow → List ℤ
  | _, _, [] => []
  | rank, running, m :: ms =>
    let rank := rank + 1
    let running := running + m.size
    let maxAge := milliseconds next.maxAge
    let cut : Bool := (maxAge > 0 ∧ m.publishedAt < nowMs - maxAge) ∨ (next.maxMsgs > 0 ∧ rank > next.maxMsgs) ∨
      (next.maxBytes > 0 ∧ running > next.maxBytes)
    if cut then m.size :: atRisk next nowMs rank running ms else atRisk next nowMs rank running ms

def measureUsage (st : Store) (stats : StatsRow) (name : Bytes) (next : StreamConfig) (nowMs : ℤ) : Usage :=
  let sizes := atRisk next nowMs 0 0 ((st.messagesOf name).insertionSort fun a b => b.seq ≤ a.seq)
  ⟨stats.msgs, stats.bytes, sizes.length, sizes.sum⟩

structure UpdateResult where
  info : StreamRow
  msgs : ℤ
  bytes : ℤ
  narrowedMsgs : ℤ
  fields : List Field

/-- `countUnmatched`: the stored messages the new subject list no longer accepts. -/
def countUnmatched (st : Store) (name : Bytes) (patterns : List Bytes) : Tx ℤ :=
  match Subject.parseSet patterns with
  | .error e => fail (.patternSet e)
  | .ok pats => return ((st.messagesOf name).filter fun m => !pats.match m.subject).length

/-- `updateStreamCmd.Apply`. -/
def updateStream (env : Env) (name : Bytes) (p : StreamPatch) (allowDataLoss : Bool) (actor : Bytes) :
    Tx UpdateResult := do
  let st ← get
  match st.streams.find? name with
  | none => refuse (.streamNotFound name)
  | some old =>
    let next := p.apply old.config
    if p.fields = [] then
      let stats ← Tx.require .unexpected (st.streamStats.find? name)
      return ⟨old, stats.msgs, stats.bytes, 0, []⟩
    else
      Tx.check (validateStreamConfig next env.opts.limits)
      let stats ← Tx.require .unexpected (st.streamStats.find? name)
      Tx.check (validateUpdate old.config next (measureUsage st stats name next env.nowMs) allowDataLoss)
      set { st with
        streams := st.streams.update (fun r => r.name == name)
          (fun r => { next.row r.createdAt with name := r.name }) fun _ _ => rfl }
      commitEvent {
        ts := env.nowMs, name := .streamUpdate, stream := nullStr name, actor := nullStr actor,
        detail := .fields p.fields }
      let narrowed ← if sortedSet old.config.subjects ≠ sortedSet next.subjects
        then countUnmatched st name next.subjects else pure 0
      return ⟨{ next.row old.createdAt with subjects := next.subjects }, stats.msgs, stats.bytes, narrowed, p.fields⟩

/-! ## Delete -/

structure DeleteResult where
  messages : ℤ
  bytes : ℤ
  consumers : ℤ

/-- `deleteStreamCmd.Apply`: the metadata goes at once, the messages stay for the chunk commands. -/
def deleteStream (env : Env) (name : Bytes) (actor : Bytes) : Tx DeleteResult := do
  let st ← get
  match st.streamStats.find? name with
  | none => refuse (.streamNotFound name)
  | some stats =>
    let res : DeleteResult := ⟨stats.msgs, stats.bytes, (st.consumers.select fun c => c.stream == name).length⟩
    let next := ((st.streamSeq.find? name).map SeqRow.next).getD 0
    set { st with
      deliveries := st.deliveries.delete fun d => d.stream == name
      consumers := st.consumers.delete fun c => c.stream == name
      streamStats := st.streamStats.delete fun r => r.stream == name
      streamSeq := st.streamSeq.delete fun r => r.stream == name
      metaTable := (st.metaTable.upsert ⟨.seqHwm name, .int (next - 1)⟩).upsert ⟨.reap name, .int stats.msgs⟩
      streams := st.streams.delete fun r => r.name == name }
    commitEvent {
      ts := env.nowMs, name := .streamDelete, stream := nullStr name, actor := nullStr actor,
      detail := .streamDelete res.messages res.bytes res.consumers }
    return res

/-- `deleteChunkRows`. -/
def deleteChunkRows : ℕ := 10000

structure ReapChunkResult where
  removed : ℕ
  cleared : Bool

/-- `reapChunkCmd.Apply`: the marker is cleared by a chunk that comes up short, and never looked at. -/
def reapChunk (name : Bytes) : Tx ReapChunkResult := do
  let st ← get
  let chunk := ((st.messagesOf name).take deleteChunkRows).map MessageRow.key
  let cleared := chunk.length < deleteChunkRows
  set { st with
    messages := st.messages.delete fun m => m.key ∈ chunk
    metaTable := if cleared then st.metaTable.delete fun r => r.k == MetaKey.reap name else st.metaTable }
  return ⟨chunk.length, cleared⟩

/-- The name of a reap marker. -/
def MetaRow.reapName (r : MetaRow) : Option Bytes :=
  match r.k with
  | .reap name => some name
  | _ => none

/-- The streams whose deletion is unfinished, in key order. -/
def Store.reapNames (st : Store) : List Bytes :=
  (st.metaTable.rows.filterMap MetaRow.reapName).insertionSort fun a b => a ≤ b

structure ReapResumeResult where
  removed : ℕ
  pending : Bool

/-- `reapResumeCmd.Apply`: one chunk of the first unfinished deletion. -/
def reapResume : Tx ReapResumeResult := do
  let st ← get
  match st.reapNames with
  | [] => return ⟨0, false⟩
  | name :: _ =>
    let chunk ← reapChunk name
    return ⟨chunk.removed, !chunk.cleared⟩

end Messq

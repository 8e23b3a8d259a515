import Messq.Store.Seek

/-! # Housekeeping

The retention sweep deletes old messages of every stream within its limits, never one a delivery row still
names: the planner skips pinned candidates and the deleting statement checks again. The other janitor work
trims the audit trail and records administrative actions. -/

namespace Messq

open Lib

/-! ## Retention -/

structure RetentionResult where
  streams : ℕ := 0
  deleted : ℤ := 0
  freedBytes : ℤ := 0
  blockedCount : ℤ := 0
  blockedBytes : ℤ := 0
  more : Bool := false

def maxBlameHolders : ℕ := 64

/-- A delivery row of some consumer names the message. -/
def Store.pinned (st : Store) (stream : Bytes) (seq : ℤ) : Bool :=
  st.deliveries.rows.any fun d => d.stream == stream && d.seq == seq

/-- `candidatesFor`: the oldest window of a stream; a work queue without consumers has none. -/
def Store.retentionCandidates (st : Store) (row : StreamRow) (window : ℕ) : Option (List Candidate) :=
  let oldest := (st.messagesOf row.name).insertionSort fun a b => a.seq ≤ b.seq
  let candidates := fun ms : List MessageRow =>
    (ms.take window).map fun m => Candidate.mk m.seq m.size m.publishedAt (st.pinned row.name m.seq)
  match row.retention with
  | .limits => some (candidates oldest)
  | .workqueue =>
    (((st.consumers.select fun c => c.stream == row.name).map ConsumerRow.cursorSeq).min?).map fun floor =>
      candidates (oldest.filter fun m => m.seq < floor)

/-- `retentionDeleteBatch`: the guarded delete, with the count and size of what it removed. -/
def guardedDelete (stream : Bytes) (seqs : List ℤ) : Tx (ℤ × ℤ) := do
  let st ← get
  let hit : MessageRow → Bool := fun m => m.stream == stream && seqs.contains m.seq && !st.pinned stream m.seq
  let gone := st.messages.select hit
  set { st with messages := st.messages.delete hit }
  return (gone.length, (gone.map MessageRow.size).sum)

/-- `updateWatermarks`. -/
def updateWatermarks (stream : Bytes) (highDel nowMs deleted freed : ℤ) : Tx Unit :=
  modify fun st => { st with
    streamStats := st.streamStats.update (fun r => r.stream == stream)
      (fun r => { r with
        msgs := r.msgs - deleted, bytes := r.bytes - freed, expiredSeq := max r.expiredSeq highDel,
        expiredAt := if highDel > r.expiredSeq then nowMs else r.expiredAt }) fun _ _ => rfl }

/-- `emitBlockedEvent`: the holder of the oldest pin is blamed. -/
def blockedEvent (env : Env) (st : Store) (stream : Bytes) (highestBlocked wouldFree : ℤ) : Option Event :=
  let rows := (st.holdsOn stream fun seq => seq ≤ highestBlocked).insertionSort fun a b => a.seq ≤ b.seq
  (selectBlame ((rows.take maxBlameHolders).map fun d => ⟨d.consumer, d.seq⟩)).map fun blame =>
    let oldest := (((st.messagesOf stream).filter fun m => m.seq ≤ highestBlocked).map MessageRow.publishedAt).min?
    let age := match oldest with
      | some t => if env.nowMs > t then env.nowMs - t else 0
      | none => 0
    { ts := env.nowMs, name := .retentionBlocked, stream := nullStr stream, consumer := nullStr blame.consumer,
      detail := .blocked blame.seq wouldFree age }

/-- Carrying out a plan on one stream. -/
def applyEviction (env : Env) (row : StreamRow) (view : RetentionView) (batch : ℕ) (plan : EvictionPlan)
    (res : RetentionResult) : Tx RetentionResult := do
  let (del, freed) ← guardedDelete row.name plan.seqs
  if del > 0 ∧ plan.highestDeletedSeq > 0 then updateWatermarks row.name plan.highestDeletedSeq env.nowMs del freed
  else pure ()
  let violating := stillViolating (view.msgs - del) (view.bytes - freed) view
  if del > 0 then
    commitEvent {
      ts := env.nowMs, name := .retentionExpire, stream := nullStr row.name,
      detail := .expire del freed (view.msgs - del) (view.bytes - freed) }
  else pure ()
  if plan.blockedCount > 0 ∧ violating then
    commitEvents (blockedEvent env (← get) row.name plan.highestBlockedSeq plan.blockedBytes).toList
  else pure ()
  return {
    streams := res.streams + 1, deleted := res.deleted + del, freedBytes := res.freedBytes + freed,
    blockedCount := res.blockedCount + plan.blockedCount, blockedBytes := res.blockedBytes + plan.blockedBytes,
    more := res.more || plan.more || (del = batch && violating) }

/-- `sweepOne`. -/
def retainStream (env : Env) (batch : ℕ) (row : StreamRow) (stats : Option StatsRow) (res : RetentionResult) :
    Tx RetentionResult := do
  let view : RetentionView := {
    maxMsgs := row.maxMsgs, maxBytes := row.maxBytes, maxAgeMs := row.maxAgeMs,
    msgs := (stats.map StatsRow.msgs).getD 0, bytes := (stats.map StatsRow.bytes).getD 0, nowMs := env.nowMs }
  match (← get).retentionCandidates row (batch * 2 + maxBlameHolders) with
  | none => return { res with streams := res.streams + 1 }
  | some cands =>
    let plan := match row.retention with
      | .limits => planEviction cands view batch
      | .workqueue => planWorkqueue cands batch
    applyEviction env row view batch plan res

def retainStreams (env : Env) (batch : ℕ) : List (StreamRow × Option StatsRow) → RetentionResult → Tx RetentionResult
  | [], res => return res
  | p :: ps, res => do
    let res ← retainStream env batch p.1 p.2 res
    retainStreams env batch ps res

/-- `RetentionCmd.Apply`: every stream in name order, with its counters as the command found them. -/
def retention (env : Env) (batch : ℕ) : Tx RetentionResult := do
  let st ← get
  let rows := st.streams.rows.insertionSort fun a b => a.name ≤ b.name
  retainStreams env batch (rows.map fun row => (row, st.streamStats.find? row.name)) {}

/-! ## The audit trail -/

structure TrimSpec where
  maxAgeMs : ℤ
  maxRows : ℤ

/-- The ids of the oldest `n` audit rows that satisfy `p`. -/
def oldestEvents (t : Table EventRow.id) (p : EventRow → Bool) (n : ℕ) : List ℤ :=
  (((t.select p).map EventRow.id).insertionSort (· ≤ ·)).take n

/-- One round of `TrimEventsCmd.Apply`: the ids the age pass deletes, then those of the row ceiling. -/
def trimRound (spec : TrimSpec) (nowMs : ℤ) (budget : ℕ) (t : Table EventRow.id) : Table EventRow.id × ℕ :=
  let aged := if spec.maxAgeMs > 0 then oldestEvents t (fun r => r.event.ts < nowMs - spec.maxAgeMs) budget else []
  let t₁ := t.delete fun r => aged.contains r.id
  let budget := budget - aged.length
  let excess := (t₁.rows.length : ℤ) - spec.maxRows
  let surplus := if spec.maxRows > 0 then oldestEvents t₁ (fun _ => true) (min excess.toNat budget) else []
  (t₁.delete fun r => surplus.contains r.id, aged.length + surplus.length)

/-- The loop: rounds go on while one of them found work and the budget lasts. -/
def trimLoop (spec : TrimSpec) (nowMs : ℤ) : ℕ → ℕ → Table EventRow.id → Table EventRow.id × ℕ
  | 0, _, t => (t, 0)
  | fuel + 1, budget, t =>
    let (t', n) := trimRound spec nowMs budget t
    if n = 0 ∨ budget - n = 0 then (t', n)
    else
      let (t'', m) := trimLoop spec nowMs fuel (budget - n) t'
      (t'', n + m)

structure TrimResult where
  deleted : ℕ
  more : Bool

/-- `TrimEventsCmd.Apply`. A round that goes on spends budget, so `batch` rounds are enough. -/
def trimEvents (env : Env) (spec : TrimSpec) (batch : ℕ) : Tx TrimResult := do
  let st ← get
  let (t, deleted) := trimLoop spec env.nowMs batch batch st.events
  set { st with events := t }
  let aged := t.rows.any fun r => r.event.ts < env.nowMs - spec.maxAgeMs
  return ⟨deleted, (spec.maxRows > 0 ∧ (t.rows.length : ℤ) > spec.maxRows) ∨ (spec.maxAgeMs > 0 ∧ aged)⟩

/-- `adminActionCmd.Apply`. -/
def adminAction (env : Env) (setting source target actor : Bytes) : Tx Unit :=
  commitEvent { ts := env.nowMs, name := .adminAction, actor := nullStr actor, detail := .admin setting source target }

end Messq

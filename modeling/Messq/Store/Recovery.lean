import Messq.Store.Retention

/-! # Restart

What `Open` does to an existing database before the writer starts: every inflight lease goes back to ready
with its attempt count kept, expired dedup keys are cleared, and the message chunks of interrupted stream
deletions are finished. The maps the process keeps in memory start empty. -/

namespace Messq

open Lib

/-- What the reclaim writes into a row. -/
def DeliveryRow.reclaim (d : DeliveryRow) (nowMs jitterMs : ℤ) (random : ℕ) : DeliveryRow :=
  { d with
    state := .ready
    visibleAt := nowMs + if jitterMs > 0 then ((random % 2 ^ 31 : ℕ) : ℤ) % jitterMs else 0
    deliveredAt := none
    lastReason := some (str "broker_restart") }

/-- `reclaimSQL`. -/
def Store.reclaimLeases (st : Store) (env : Env) : Store :=
  { st with
    deliveries := st.deliveries.update (fun d => d.state == .inflight)
      (fun d => d.reclaim env.nowMs (milliseconds env.opts.reclaimJitter) (env.random d.key)) fun _ _ => rfl }

/-- `trimDedupSQL`. -/
def Store.trimDedup (st : Store) (nowMs : ℤ) : Store :=
  { st with
    messages := st.messages.update
      (fun m => (st.streams.find? m.stream).any fun s => m.publishedAt + s.dedupWindowMs < nowMs)
      (fun m => { m with dedupKey := none }) fun _ _ => rfl }

/-- `finishInterruptedReaps`: the chunks of every marked stream, to the end. -/
def Store.finishReaps (st : Store) : Store :=
  { st with
    messages := st.messages.delete fun m => st.reapNames.contains m.stream
    metaTable := st.metaTable.delete fun r => r.reapName.isSome }

/-- The recovery transaction, the end of the interrupted deletions, and a process that starts afresh. -/
def recover (env : Env) : Tx Unit := do
  let st ← get
  let reclaimed := (st.deliveries.select fun d => d.state == .inflight).length
  set (st.reclaimLeases env)
  insertEvent {
    ts := env.nowMs, name := .recoveryReclaimed, detail := .reclaimed reclaimed (milliseconds env.opts.reclaimJitter) }
  modify fun st => { (st.trimDedup env.nowMs).finishReaps with flow := .empty, limiter := .empty, carriers := [] }

/-- A restart; `unclean` is the reason when the last shutdown was not clean. -/
def restart (env : Env) (unclean : Option Bytes) : Tx Unit := do
  match unclean with
  | some reason => insertEvent { ts := env.nowMs, name := .recoveryUnclean, detail := .reason reason }
  | none => pure ()
  recover env

end Messq

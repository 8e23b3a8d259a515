import Messq.Store.Sweep

/-! # Seek and purge

Both destroy pending state on an operator's word. A seek drops every delivery row of the consumer, moves the
cursor and bumps the generation. A purge deletes messages together with the delivery rows on them, and bumps
the generation of every consumer that held one of those rows; the consumer's other rows keep the generation
they have. -/

namespace Messq

open Lib

/-! ## Seek -/

structure SeekResult where
  cursorBefore : ℤ
  cursorAfter : ℤ
  pendingDropped : ℤ
  messages : ℤ
  clamped : Bool
  generation : ℤ

/-- The exactness report of a seek. A relative time is compared as the time 0. -/
def Store.seekClamped (st : Store) (stream : Bytes) (dest : StartPosition) (target first next : ℤ) : Bool :=
  match dest with
  | .seq n => n ≠ target ∧ target = clampCursor n first next
  | .time t => (st.messagesSince stream t).isEmpty
  | .rel _ => (st.messagesSince stream 0).isEmpty
  | .first | .new => false

/-- `seekCmd.Apply`. -/
def seek (env : Env) (stream consumer : Bytes) (dest : StartPosition) (dryRun : Bool) (actor : Bytes) :
    Tx SeekResult := do
  let st ← get
  match st.consumers.find? (stream, consumer) with
  | none => refuse (.consumerNotFound stream consumer)
  | some c => do
    let (target, belowFloor) ← resolveStartPosition env stream dest
    if belowFloor then refuse .seekBelowFloor
    else do
      let dropped : ℤ := (st.pendingOf stream consumer).length
      let (first, next) ← streamBounds stream
      let clamped := st.seekClamped stream dest target first next
      let res : SeekResult := {
        cursorBefore := c.cursorSeq, cursorAfter := target, pendingDropped := dropped,
        messages := ((st.messagesOf stream).filter fun m => m.seq ≥ target).length, clamped, generation := 0 }
      if dryRun then return res
      else do
        set { st with
          deliveries := st.deliveries.delete fun d => d.stream == stream && d.consumer == consumer
          consumers := st.consumers.update (fun c => c.key == (stream, consumer))
            (fun c => { c with cursorSeq := target, generation := c.generation + 1 }) fun _ _ => rfl }
        commitEvent {
          ts := 0, name := .consumerSeek, stream := nullStr stream, consumer := nullStr consumer,
          actor := nullStr actor, detail := .seek c.cursorSeq target dropped clamped }
        return { res with generation := c.generation + 1 }

/-! ## Purge -/

/-- `upToSeq` is inclusive; `keep` spares the newest matching messages. -/
structure PurgeSpec where
  upToSeq : Option ℤ := none
  subject : Bytes := []
  keep : ℤ := 0

def validatePurgeSpec (spec : PurgeSpec) : Except Refusal Unit := do
  match spec.upToSeq with
  | some n =>
    if n < 1 then .error (.purgeBelowFirst n)
    else if spec.keep > 0 then .error (.purgeAmbiguous spec.keep n)
    else .ok ()
  | none => .ok ()
  if spec.keep < 0 then .error (.purgeNegativeKeep spec.keep)
  else if spec.subject = [] then .ok ()
  else match Subject.parsePattern spec.subject with
    | .ok _ => .ok ()
    | .error e => .error (.purgeSubject spec.subject e)

structure PurgeResult where
  messages : ℤ
  bytes : ℤ
  pendingDropped : ℤ := 0
  consumersAffected : List Bytes
  firstSeqAfter : ℤ
  cursorBefore : ℤ := 0
  cursorAfter : ℤ := 0
  clamped : Bool := false

/-- The delivery rows of a stream on the sequence numbers `hit`. -/
def Store.holdsOn (st : Store) (stream : Bytes) (hit : ℤ → Bool) : List DeliveryRow :=
  st.deliveries.select fun d => d.stream == stream && hit d.seq

/-- The consumers that hold such a row, in name order. -/
def Store.holdersOn (st : Store) (stream : Bytes) (hit : ℤ → Bool) : List Bytes :=
  sortedSet ((st.holdsOn stream hit).map DeliveryRow.consumer)

/-- `coalesce(min(cursor_seq), 0)`. -/
def Store.minCursor (st : Store) (stream : Bytes) : ℤ :=
  (((st.consumers.select fun c => c.stream == stream).map ConsumerRow.cursorSeq).min?).getD 0

/-- The deletions and generation bumps both purge paths make. -/
def Store.purged (st : Store) (stream : Bytes) (hit : ℤ → Bool) (affected : List Bytes) : Store :=
  { st with
    deliveries := st.deliveries.delete fun d => d.stream == stream && hit d.seq
    consumers := st.consumers.update (fun c => c.stream == stream && affected.contains c.name)
      (fun c => { c with generation := c.generation + 1 }) fun _ _ => rfl
    messages := st.messages.delete fun m => m.stream == stream && hit m.seq }

/-- The forward-only clamp of an unfiltered purge. -/
def Store.clampCursors (st : Store) (stream : Bytes) (cursor : ℤ) : Store :=
  { st with
    consumers := st.consumers.update (fun c => c.stream == stream && c.cursorSeq < cursor)
      (fun c => { c with cursorSeq := cursor }) fun _ _ => rfl }

def purgeEvent (stream actor subject : Bytes) (r : PurgeResult) : Event where
  ts := 0
  name := .streamPurge
  stream := nullStr stream
  actor := nullStr actor
  detail := .purge r.messages r.bytes r.pendingDropped r.firstSeqAfter subject

/-- `applyFastRange`: everything at or below `upper`. -/
def purgeRange (stream : Bytes) (upper next : ℤ) (dryRun : Bool) (actor : Bytes) : Tx PurgeResult := do
  let st ← get
  let hit : ℤ → Bool := fun seq => seq ≤ upper
  let victims := (st.messagesOf stream).filter fun m => hit m.seq
  let affected := st.holdersOn stream hit
  let res : PurgeResult := {
    messages := victims.length, bytes := (victims.map MessageRow.size).sum, consumersAffected := affected,
    firstSeqAfter := ((((st.messagesOf stream).filter fun m => m.seq > upper).map MessageRow.seq).min?).getD next,
    cursorBefore := st.minCursor stream }
  if dryRun ∨ victims = [] then return res
  else do
    let dropped := (st.holdsOn stream hit).length
    let st' := (st.clampCursors stream (upper + 1)).purged stream hit affected
    set st'
    addStats stream (-res.messages) (-res.bytes)
    let res := { res with
      pendingDropped := dropped, cursorAfter := st'.minCursor stream, clamped :=
        res.cursorBefore ≠ st'.minCursor stream }
    commitEvent (purgeEvent stream actor [] res)
    return res

/-- `selectVictims` after `keep`: matching messages newest first, the newest ones spared. -/
def Store.purgeVictims (st : Store) (stream : Bytes) (pat : Option Subject.Pattern) (upper keep : ℤ) :
    List MessageRow :=
  (((st.messagesOf stream).filter fun m => m.seq ≤ upper && pat.all fun p => p.match m.subject).insertionSort
    fun a b => b.seq ≤ a.seq).drop keep.toNat

/-- `applyScanPath`: no cursor moves. -/
def purgeScan (stream : Bytes) (pat : Option Subject.Pattern) (spec : PurgeSpec) (upper next : ℤ) (dryRun : Bool)
    (actor : Bytes) : Tx PurgeResult := do
  let st ← get
  let victims := st.purgeVictims stream pat upper spec.keep
  let seqs := victims.map MessageRow.seq
  let hit : ℤ → Bool := fun seq => seqs.contains seq
  let affected := st.holdersOn stream hit
  let firstSeqAfter := match seqs with
    | [] => 0
    | newest :: _ =>
      ((((st.messagesOf stream).filter fun m => newest < m.seq && m.seq < next).map MessageRow.seq).min?).getD
        (newest + 1)
  let res : PurgeResult := {
    messages := victims.length, bytes := (victims.map MessageRow.size).sum,
    pendingDropped := (st.holdsOn stream hit).length, consumersAffected := affected, firstSeqAfter }
  if dryRun ∨ victims = [] then return res
  else do
    set (st.purged stream hit affected)
    addStats stream (-res.messages) (-res.bytes)
    commitEvent (purgeEvent stream actor spec.subject res)
    return res

def purgePattern (subject : Bytes) : Tx (Option Subject.Pattern) :=
  if subject = [] then return none
  else do return some (← Tx.check (liftGrammar (Subject.parsePattern subject)))

/-- The head a purge works with: a missing counter counts as 1. -/
def Store.headOf (st : Store) (stream : Bytes) : ℤ := ((st.streamSeq.find? stream).map SeqRow.next).getD 1

/-- The last sequence number in range. -/
def PurgeSpec.upper (spec : PurgeSpec) (next : ℤ) : ℤ :=
  match spec.upToSeq with
  | some n => min n (next - 1)
  | none => next - 1

/-- `purgeCmd.Apply`. -/
def purge (stream : Bytes) (spec : PurgeSpec) (dryRun : Bool) (actor : Bytes) : Tx PurgeResult := do
  let pat ← purgePattern spec.subject
  let next := (← get).headOf stream
  if pat.isNone ∧ spec.keep = 0 then purgeRange stream (spec.upper next) next dryRun actor
  else purgeScan stream pat spec (spec.upper next) next dryRun actor

end Messq

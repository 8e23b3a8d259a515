import Messq.Store.Recovery

/-! # The publish checker

`CheckPublishInvariants` audits every stream that exists against the rules P1 to P5 and returns all it finds. It runs on
the read pool and repairs nothing. -/

namespace Messq

open Lib

/-- What is found, with the values its text names. -/
inductive PublishFinding
  /-- Gap between two numbers. -/
  | gap (stream : Bytes) (prev seq : ℤ)
  /-- The time stamp goes backwards. -/
  | backwards (stream : Bytes) (prev seq : ℤ)
  /-- The size is not the length of the body. -/
  | wrongSize (stream : Bytes) (seq size bodyLen : ℤ)
  /-- A key outlived its window. -/
  | outlived (stream : Bytes) (seq excess : ℤ)
  | counterMissing (stream : Bytes)
  /-- A message is not below the counter. -/
  | beyondCounter (stream : Bytes) (maxSeq next : ℤ)
  /-- The counter is not above the mark of a deletion. -/
  | reusedHwm (stream : Bytes) (next hwm : ℤ)
  /-- The statistics are not those of the scan. -/
  | wrongStats (stream : Bytes) (msgs bytes foundMsgs foundBytes : ℤ)
  /-- A key occurs more than once. -/
  | keyTwice (stream key : Bytes) (n : ℕ)
  deriving DecidableEq

/-- One row of the scan, against the row before it; the scan starts with -1 for both. -/
def checkRow (name : Bytes) (window nowMs sweepMs prevSeq prevPub : ℤ) (m : MessageRow) : List PublishFinding :=
  (if prevSeq ≥ 0 ∧ m.seq ≠ prevSeq + 1 then [.gap name prevSeq m.seq] else []) ++
  (if prevPub ≥ 0 ∧ m.publishedAt < prevPub then [.backwards name prevSeq m.seq] else []) ++
  (if m.size ≠ m.body.length then [.wrongSize name m.seq m.size m.body.length] else []) ++
  (if m.dedupKey.isSome ∧ window > 0 ∧ m.publishedAt < nowMs - window - sweepMs then
    [.outlived name m.seq (nowMs - window - sweepMs - m.publishedAt)] else [])

def checkRows (name : Bytes) (window nowMs sweepMs : ℤ) : ℤ → ℤ → List MessageRow → List PublishFinding
  | _, _, [] => []
  | prevSeq, prevPub, m :: ms =>
    checkRow name window nowMs sweepMs prevSeq prevPub m ++ checkRows name window nowMs sweepMs m.seq m.publishedAt ms

/-- The counter against the last row of the scan and the mark of a past deletion. -/
def Store.checkCounter (st : Store) (name : Bytes) (lastSeq : ℤ) : List PublishFinding :=
  match st.streamSeq.find? name with
  | none => [.counterMissing name]
  | some row =>
    (if lastSeq ≥ row.next then [.beyondCounter name lastSeq row.next] else []) ++
    match (st.metaTable.find? (.seqHwm name)).map MetaRow.v with
    | some (.int hwm) => if row.next ≤ hwm then [.reusedHwm name row.next hwm] else []
    | _ => []

def Store.checkStats (st : Store) (name : Bytes) (rows : List MessageRow) : List PublishFinding :=
  match st.streamStats.find? name with
  | none => []
  | some r =>
    if r.msgs ≠ rows.length ∨ r.bytes ≠ (rows.map MessageRow.size).sum then
      [.wrongStats name r.msgs r.bytes rows.length (rows.map MessageRow.size).sum] else []

/-- `checkStreamInvariants`. -/
def Store.checkStream (st : Store) (nowMs sweepMs : ℤ) (row : StreamRow) : List PublishFinding :=
  let rows := (st.messagesOf row.name).insertionSort fun a b => a.seq ≤ b.seq
  checkRows row.name row.dedupWindowMs nowMs sweepMs (-1) (-1) rows ++
    st.checkCounter row.name ((rows.getLast?.map MessageRow.seq).getD (-1)) ++ st.checkStats row.name rows

/-- `checkStoreWideInvariants`: the keys that occur more than once, also of streams that are deleted. -/
def Store.checkKeys (st : Store) : List PublishFinding :=
  let keys := st.messages.rows.filterMap fun m => m.dedupKey.map fun k => (m.stream, k)
  keys.dedup.filterMap fun p => if keys.count p > 1 then some (.keyTwice p.1 p.2 (keys.count p)) else none

/-- `CheckPublishInvariants`; `sweepMs` is the interval of the dedup sweep. -/
def Store.checkPublish (st : Store) (nowMs sweepMs : ℤ) : List PublishFinding :=
  (st.streams.rows.insertionSort fun a b => a.name ≤ b.name).flatMap (st.checkStream nowMs sweepMs) ++ st.checkKeys

end Messq

import Messq.Queue.Config

/-! # Publish requests

Validation of one publish against the stream's configuration, and the canonical form of its headers. -/

namespace Messq

open Lib

structure PublishReq where
  subject : Bytes
  headers : Headers := Table.empty
  body : Bytes
  msgId : Bytes := []
  traceId : Bytes := []

def maxMsgIDBytes : ℕ := 256
def maxHeaderValueBytes : ℕ := 1024

/-- The loop of `EncodeHeaders`, in the order `range` visits the map. -/
def canonicalHeaders : Headers → List (Bytes × Bytes) → Except Refusal Headers
  | canonical, [] => .ok canonical
  | canonical, (k, v) :: rest =>
    let ck := canonicalMIMEHeaderKey k
    if !validString v then .error (.headerInvalidUTF8 k)
    else if v.length > maxHeaderValueBytes then .error (.tooLarge (.header k) v.length maxHeaderValueBytes)
    -- the message has the value of the first header where its key is meant
    else if canonical.has ck then .error (.headerCaseCollision (((canonical.find? ck).map Prod.snd).getD []) k v)
    else if (str "Messq-").isPrefixOf ck then .error (.reservedHeader ck)
    else canonicalHeaders (canonical.set ck v) rest

/-- `EncodeHeaders`: the map whose object is persisted, or nothing for an empty one. -/
def encodeHeaders (h : Headers) (l : Limits) : Except Refusal (Option Headers) :=
  if h.rows = [] then .ok none
  else if h.rows.length > l.maxHeaders then .error (.tooManyHeaders h.rows.length l.maxHeaders)
  else do
    let canonical ← canonicalHeaders Table.empty h.rows
    if canonical.marshal.length > l.maxHeaderBytes then
      .error (.tooLarge .headers canonical.marshal.length l.maxHeaderBytes)
    else .ok (some canonical)

/-- The headers of a publish fit. -/
theorem encodeHeaders_le {h h' : Headers} {l : Limits} (he : encodeHeaders h l = .ok (some h')) :
    h'.marshal.length ≤ l.maxHeaderBytes := by
  unfold encodeHeaders at he
  split at he
  · cases he
  split at he
  · cases he
  obtain ⟨canonical, -, he⟩ := bind_eq_ok.mp he
  split at he
  · cases he
  · rename_i hle
    cases he
    exact not_lt.mp hle

def printable (c : UInt8) : Bool := ¬ (c.toNat ≤ 0x20 ∨ c.toNat = 0x7F)

def validateMsgID (msgId : Bytes) : Except Refusal Unit :=
  if msgId = [] then .ok ()
  else if msgId.length > maxMsgIDBytes then .error (.outOfRange .msgId msgId.length)
  else if !msgId.all printable then .error (.nonPrintable .msgId)
  else .ok ()

def validateTraceIDToken (traceId : Bytes) : Except Refusal Unit :=
  if traceId = [] then .ok ()
  else if traceId.length < 8 ∨ traceId.length > 128 then .error (.outOfRange .traceId traceId.length)
  else if !traceId.all printable then .error (.nonPrintable .traceId)
  else if traceId = List.replicate 32 (chr '0') then .error .zeroTraceId
  else .ok ()

/-- `ValidatePublish` against the columns a publish reads of its stream. -/
def validatePublish (subjects : List Bytes) (maxMsgSize : ℤ) (r : PublishReq) (l : Limits) : Except Refusal Unit := do
  liftGrammar (Subject.parseSubject r.subject)
  let set ← liftGrammar (Subject.parseSet subjects)
  if !set.match r.subject then .error (.mismatch r.subject set.strings)
  else if (r.body.length : ℤ) > maxMsgSize then .error (.tooLarge .body r.body.length maxMsgSize)
  else do
    let _ ← encodeHeaders r.headers l
    validateMsgID r.msgId
    validateTraceIDToken r.traceId

end Messq

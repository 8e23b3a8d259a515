import Messq.Queue.Sweep

/-! # Dead letters

The pure half of the dead path: the copy decision, the budget of one transaction, the provenance headers of a
copy and the ladder that trims them to the header budget. -/

namespace Messq

variable {r : Headers × Bool} {capBytes : ℕ}

structure DeadCtx where
  stream : Bytes
  consumer : Bytes
  subject : Bytes
  seq : ℤ
  msgId : Bytes
  traceId : Bytes
  attempts : ℤ
  generation : ℤ
  maxDeliver : ℤ
  cause : DeadCause
  trigger : DeadTrigger
  lastReason : Bytes

structure DLQConfig where
  maxAge : ℤ
  maxMsgs : ℤ
  maxBytes : ℤ
  maxMsgSize : ℤ
  reasonHeaderBytes : ℕ
  maxCopiesPerCommit : ℤ
  maxBytesPerCommit : ℤ

def defaultDLQConfig (l : Limits) : DLQConfig where
  maxAge := 720 * hour
  maxMsgs := 0
  maxBytes := 0
  maxMsgSize := l.maxMsgSizeCeiling
  reasonHeaderBytes := 1024
  maxCopiesPerCommit := 128
  maxBytesPerCommit := 33554432

/-- What one transaction may still copy. -/
structure DeadBudget where
  copies : ℤ
  bytes : ℤ
  deriving DecidableEq

def newDeadBudget (cfg : DLQConfig) : DeadBudget := ⟨cfg.maxCopiesPerCommit, cfg.maxBytesPerCommit⟩

def DeadBudget.canCopy (b : DeadBudget) (size : ℤ) : Bool := ¬ b.copies ≤ 0 ∧ ¬ (b.bytes > 0 ∧ size > b.bytes)

def DeadBudget.take (b : DeadBudget) (size : ℤ) : DeadBudget := ⟨b.copies - 1, b.bytes - size⟩

structure DeadPlan where
  copy : Bool
  dlqStream : Bytes

/-- `PlanDead`: only the policy `dlq` copies, into the stream the naming contract derives. -/
def planDead (d : DeadCtx) (policy : DeadPolicy) : DeadPlan :=
  if policy ≠ .dlq then ⟨false, []⟩ else ⟨true, dlqName d.stream⟩

theorem planDead_copy {d : DeadCtx} {policy : DeadPolicy} (h : (planDead d policy).copy = true) :
    policy = .dlq ∧ (planDead d policy).dlqStream = dlqName d.stream := by
  by_cases hp : policy = .dlq
  · exact ⟨hp, by simp [planDead, hp]⟩
  · simp [planDead, hp] at h

/-! ## Provenance -/

def controlEscape (r : ℕ) : Bytes :=
  if r = 7 then str "\\a" else if r = 8 then str "\\b" else if r = 0x1B then str "\\e" else str "\\u" ++ hex 4 r

/-- The loop of `SanitizeReason`; `inWS` is whether the last rune was white space. -/
def sanitizeRunes : Bool → List (Option ℕ) → Bytes
  | _, [] => []
  | inWS, r :: rs =>
    let r := r.getD runeError
    if isSpace r then (if inWS then [] else [chr ' ']) ++ sanitizeRunes true rs
    else (if isControl r then controlEscape r else encodeRune r) ++ sanitizeRunes false rs

/-- `SanitizeReason`: a header-safe reason and whether it was cut. -/
def sanitizeReason (s : Bytes) (maxBytes : ℕ) : Bytes × Bool :=
  let out := sanitizeRunes false (runes s)
  if maxBytes > 0 ∧ out.length > maxBytes then (truncateUTF8 out maxBytes, true) else (out, false)

/-- A number padded with zeros on the left to `width` digits. -/
def padded (width : ℕ) (n : ℤ) : Bytes :=
  let ds := itoa n.natAbs
  (if n < 0 then [chr '-'] else []) ++ List.replicate (width - ds.length) (chr '0') ++ ds

/-- `formatRFC3339MS`: the proleptic Gregorian date of a unix millisecond stamp, in UTC. -/
def formatRFC3339MS (ms : ℤ) : Bytes :=
  let days := ms / 86400000
  let rem := ms % 86400000
  let z := days + 719468
  let era := z / 146097
  let doe := z - era * 146097
  let yoe := (doe - doe / 1460 + doe / 36524 - doe / 146096) / 365
  let doy := doe - (365 * yoe + yoe / 4 - yoe / 100)
  let mp := (5 * doy + 2) / 153
  let day := doy - (153 * mp + 2) / 5 + 1
  let month := if mp < 10 then mp + 3 else mp - 9
  let year := yoe + era * 400 + (if month ≤ 2 then 1 else 0)
  padded 4 year ++ [chr '-'] ++ padded 2 month ++ [chr '-'] ++ padded 2 day ++ [chr 'T'] ++
    padded 2 (rem / 3600000) ++ [chr ':'] ++ padded 2 (rem / 60000 % 60) ++ [chr ':'] ++
    padded 2 (rem / 1000 % 60) ++ [chr '.'] ++ padded 3 (rem % 1000) ++ [chr 'Z']

def DeadCause.text : DeadCause → Bytes
  | .maxDeliver => str "max_deliver"
  | .terminated => str "terminated"

def DeadTrigger.text : DeadTrigger → Bytes
  | .ackWait => str "ack_wait"
  | .nak => str "nak"
  | .term => str "term"
  | .policyLowered => str "policy_lowered"

def lastReasonKey : Bytes := str "Messq-Last-Reason"
def publishedAtKey : Bytes := str "Messq-Origin-Published-At"

/-- `ProvenanceHeaders`, with whether the reason was cut. -/
def provenanceHeaders (d : DeadCtx) (publishedAt nowMs : ℤ) (maxReason : ℕ) : Headers × Bool :=
  let reason := sanitizeReason d.lastReason maxReason
  let fixed : List (Bytes × Bytes) :=
    [(str "Messq-Origin-Id", d.msgId), (str "Messq-Origin-Stream", d.stream), (str "Messq-Origin-Seq", itoa d.seq),
     (str "Messq-Origin-Consumer", d.consumer), (str "Messq-Origin-Generation", itoa d.generation),
     (publishedAtKey, formatRFC3339MS publishedAt), (str "Messq-Attempts", itoa d.attempts),
     (str "Messq-Max-Deliver", itoa d.maxDeliver), (str "Messq-Cause", d.cause.text),
     (str "Messq-Trigger", d.trigger.text)]
  let last : List (Bytes × Bytes) :=
    if d.lastReason = [] then []
    else (lastReasonKey, reason.1) :: (if reason.2 then [(str "Messq-Last-Reason-Truncated", str "true")] else [])
  let pairs := fixed ++ last ++ [(str "Messq-Dead-At", formatRFC3339MS nowMs)]
  (Headers.ofPairs (pairs.map fun p => (canonicalMIMEHeaderKey p.1, p.2)), d.lastReason ≠ [] && reason.2)

/-- The degradation ladder of `mergeCopyHeaders`: proposals leave in order until the set fits. -/
def trimHeaders (capBytes : ℕ) : List Bytes → Headers → Bool → Option (Headers × Bool)
  | keys, merged, trimmed =>
    if merged.marshal.length ≤ capBytes then some (merged, trimmed)
    else match keys with
      | [] => none
      | k :: ks => if merged.has k then trimHeaders capBytes ks (merged.erase k) true
        else trimHeaders capBytes ks merged trimmed

/-- `mergeCopyHeaders`: provenance over the origin's user headers; `none` when even the mandatory set does
not fit. -/
def mergeCopyHeaders (capBytes : ℕ) (originHdr : Option Headers) (prov : Headers) : Option (Headers × Bool) :=
  let merged := prov.rows.foldl (fun h p => h.set p.1 p.2) ((originHdr.map Headers.persisted).getD Lib.Table.empty)
  trimHeaders capBytes [lastReasonKey, publishedAtKey] merged false

theorem erase_of_not_has {h : Headers} {k : Bytes} (hk : h.has k = false) : h.erase k = h := by
  have hrows : (h.erase k).rows = h.rows := by
    refine List.filter_eq_self.mpr fun p hp => ?_
    have hne : p.1 ≠ k := by
      rintro rfl
      rw [Headers.has, Lib.Table.find?_of_mem (t := h) hp] at hk
      cases hk
    simp [hne]
  exact Lib.Table.eq_of_rows hrows

theorem trimHeaders_le {keys : List Bytes} {merged : Headers} {trimmed : Bool}
    (h : trimHeaders capBytes keys merged trimmed = some r) : r.1.marshal.length ≤ capBytes := by
  induction keys generalizing merged trimmed with
  | nil =>
    unfold trimHeaders at h
    split at h
    · cases h
      assumption
    · cases h
  | cons k ks ih =>
    unfold trimHeaders at h
    split at h
    · cases h
      assumption
    · simp only at h
      split at h
      · exact ih h
      · exact ih h

/-- The headers of a copy fit. -/
theorem mergeCopyHeaders_le {originHdr : Option Headers} {prov : Headers}
    (h : mergeCopyHeaders capBytes originHdr prov = some r) : r.1.marshal.length ≤ capBytes := trimHeaders_le h

example : formatRFC3339MS 1709210096789 = str "2024-02-29T12:34:56.789Z" := by decide

end Messq

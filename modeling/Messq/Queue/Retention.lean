import Messq.Queue.Config

/-! # The retention planner

One bounded sweep over the oldest messages of a stream: which candidates leave, and how much is held back by
delivery rows. The planner only proposes; the deleting statement checks the delivery rows again. -/

namespace Messq

structure Candidate where
  seq : ℤ
  size : ℤ
  publishedAt : ℤ
  hasDelivery : Bool

structure RetentionView where
  maxMsgs : ℤ
  maxBytes : ℤ
  maxAgeMs : ℤ
  msgs : ℤ
  bytes : ℤ
  nowMs : ℤ

structure EvictionPlan where
  seqs : List ℤ := []
  freedBytes : ℤ := 0
  highestDeletedSeq : ℤ := 0
  blockedCount : ℤ := 0
  blockedBytes : ℤ := 0
  highestBlockedSeq : ℤ := 0
  more : Bool := false

def EvictionPlan.block (p : EvictionPlan) (c : Candidate) : EvictionPlan :=
  { p with blockedCount := p.blockedCount + 1, blockedBytes := p.blockedBytes + c.size,
           highestBlockedSeq := max p.highestBlockedSeq c.seq }

def EvictionPlan.take (p : EvictionPlan) (c : Candidate) : EvictionPlan :=
  { p with seqs := p.seqs ++ [c.seq], freedBytes := p.freedBytes + c.size,
           highestDeletedSeq := max p.highestDeletedSeq c.seq }

/-- `StillViolating`: an active count or byte limit is exceeded. -/
def stillViolating (msgs bytes : ℤ) (v : RetentionView) : Bool :=
  (v.maxMsgs > 0 ∧ msgs > v.maxMsgs) ∨ (v.maxBytes > 0 ∧ bytes > v.maxBytes)

/-- The walk of `PlanEviction`; `excess` and `need` are what the count and byte passes still want. -/
def evictFrom (v : RetentionView) (batch : ℕ) : ℤ → ℤ → EvictionPlan → List Candidate → EvictionPlan
  | _, _, p, [] => p
  | excess, need, p, c :: cs =>
    let wantAge : Bool := v.maxAgeMs > 0 ∧ c.publishedAt < v.nowMs - v.maxAgeMs
    if !wantAge ∧ ¬ excess > 0 ∧ ¬ need > 0 then evictFrom v batch excess need p cs
    else if c.hasDelivery then evictFrom v batch excess need (p.block c) cs
    -- count and byte pressure keep the last message, age does not
    else if !wantAge ∧ v.msgs - p.seqs.length ≤ 1 then p
    else
      let p' := p.take c
      if p'.seqs.length = batch then p'
      else evictFrom v batch (if excess > 0 then excess - 1 else excess) (max (need - c.size) 0) p' cs

def planEviction (cands : List Candidate) (v : RetentionView) (batch : ℕ) : EvictionPlan :=
  if batch = 0 then {}
  else
    let excess := if v.maxMsgs > 0 ∧ v.msgs > v.maxMsgs then v.msgs - v.maxMsgs else 0
    let need := if v.maxBytes > 0 ∧ v.bytes > v.maxBytes then v.bytes - v.maxBytes else 0
    let p := evictFrom v batch excess need {} cands
    { p with more := p.seqs.length = batch ∧ stillViolating (v.msgs - p.seqs.length) (v.bytes - p.freedBytes) v }

/-- `planWorkqueue`: every unpinned message below the consumers' shared floor. -/
def workqueueFrom (batch : ℕ) : EvictionPlan → List Candidate → EvictionPlan
  | p, [] => p
  | p, c :: cs =>
    if c.hasDelivery then workqueueFrom batch (p.block c) cs
    else if p.seqs.length ≥ batch then p
    else workqueueFrom batch (p.take c) cs

def planWorkqueue (cands : List Candidate) (batch : ℕ) : EvictionPlan :=
  let p := workqueueFrom batch {} cands
  { p with more := p.seqs.length = batch }

structure Holder where
  consumer : Bytes
  seq : ℤ

/-- `SelectBlame`: the owner of the oldest blocking row, the smallest name among equals. -/
def selectBlame : List Holder → Option Holder
  | [] => none
  | h :: hs => some (hs.foldl (fun best h =>
      if h.seq < best.seq ∨ (h.seq = best.seq ∧ h.consumer < best.consumer) then h else best) h)

end Messq

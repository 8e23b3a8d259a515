import Messq.Lib.Machine

/-! # Callers, the writer goroutine and shutdown

Any number of `Do` calls, the goroutine `run` and any number of `Close` calls, one atomic step at a time. A call of `Do`
is named by the request it makes. Where the source selects among channels, every arm that is ready is a step of its
own. -/

namespace Messq.Writer

open Lib

/-- What the goroutine reads of the configuration and of the commands. -/
structure Config where
  queueDepth : ℕ
  commitMaxBatch : ℕ
  commitMaxBytes : ℤ
  /-- `CommitWindow` is positive. -/
  lingers : Bool
  bytes : ℕ → ℤ
  solo : ℕ → Bool

/-- The budgets a writer is configured with. -/
structure Settings where
  commitWindow : ℤ
  commitMaxBatch : ℤ
  commitMaxBytes : ℤ
  queueDepth : ℤ

/-- `fillDefaults`: a budget that is not positive means the default. -/
def Settings.fillDefaults (c : Settings) (bytes : ℕ → ℤ) (solo : ℕ → Bool) : Config where
  queueDepth := if c.queueDepth ≤ 0 then 2048 else c.queueDepth.toNat
  commitMaxBatch := if c.commitMaxBatch ≤ 0 then 256 else c.commitMaxBatch.toNat
  commitMaxBytes := if c.commitMaxBytes ≤ 0 then 8388608 else c.commitMaxBytes
  lingers := c.commitWindow > 0
  bytes := bytes
  solo := solo

/-- Why a call of `Do` has returned. -/
inductive Return
  | answered | latched | closing | cancelled | commitUnknown
deriving DecidableEq, Repr

/-- Where a call of `Do` stands: before each of its three checks, at the first select, at the second, or done. -/
inductive Caller
  | idle
  | called
  | unlatched
  | unclosed
  | sending
  | waiting
  | returned (why : Return)
deriving DecidableEq, Repr

/-- Where `run` stands. -/
inductive Runner
  /-- At the head of the loop, with the command held over. -/
  | top (pending : Option ℕ)
  /-- In `nextRequest`, before its first select. -/
  | next
  /-- In `nextRequest`, after `stop` was seen. -/
  | draining
  /-- In `takeBatch`, before it looks for queued commands. -/
  | filling (batch : List ℕ)
  /-- In `takeBatch`, waiting for a command or the timer. -/
  | lingering (batch : List ℕ)
  /-- In `commitBatch` or `commitSolo`; these are not yet answered. -/
  | committing (batch : List ℕ) (pending : Option ℕ)
  /-- Returned, before the deferred `close(done)`. -/
  | leaving
  | ended
deriving DecidableEq, Repr

/-- Where a call of `Close` stands. -/
inductive Closer
  | idle | stored | stopped | returned
deriving DecidableEq, Repr

structure Threads where
  ch : List ℕ := []
  /-- The requests whose `done` is closed. -/
  answered : List ℕ := []
  latched : Bool := false
  closing : Bool := false
  stop : Bool := false
  runner : Runner := .top none
  callers : ℕ → Caller := fun _ => .idle
  /-- The calls whose context is cancelled. -/
  cancelled : ℕ → Bool := fun _ => false
  closers : ℕ → Closer := fun _ => .idle

/-- The steps of the threads. -/
inductive Act
  | call (c : ℕ) | check (c : ℕ) | send (c : ℕ) | refuse (c : ℕ) | giveUp (c : ℕ) | receive (c : ℕ) | cancel (c : ℕ)
  | turn | recv | seeStop | pass | fire | answer (c : ℕ) | fail | leave
  | close (k : ℕ)
deriving DecidableEq, Repr

/-- `w.done` is closed. -/
def Threads.over (s : Threads) : Bool := s.runner == .ended

def Threads.goto (s : Threads) (c : ℕ) (p : Caller) : Threads := { s with callers := Function.update s.callers c p }

section Steps

variable (cfg : Config)

/-- The estimated size of a batch. -/
def batchBytes (batch : List ℕ) : ℤ := (batch.map cfg.bytes).sum

/-- `fill`, on the request `r`: into the batch, or held over for the next turn. -/
def fill (batch : List ℕ) (r : ℕ) : Runner :=
  if cfg.solo r ∨ batchBytes cfg batch + cfg.bytes r > cfg.commitMaxBytes then .committing batch (some r)
  else .filling (batch ++ [r])

/-- Where a request opens a batch or runs alone. -/
def openWith (r : ℕ) : Runner := if cfg.solo r then .committing [r] none else .filling [r]

/-- Where a received request takes the goroutine. -/
def received (r : ℕ) : Runner → Option Runner
  | .next => some (openWith cfg r)
  | .draining => some (openWith cfg r)
  | .filling batch => if batch.length < cfg.commitMaxBatch then some (fill cfg batch r) else none
  | .lingering batch => some (fill cfg batch r)
  | _ => none

/-- The next state, when the step can be taken. -/
def next (s : Threads) : Act → Option Threads
  | .call c => if s.callers c = .idle then some (s.goto c .called) else none
  | .check c => match s.callers c with
    | .called => some (s.goto c (if s.latched then .returned .latched else .unlatched))
    | .unlatched => some (s.goto c (if s.closing then .returned .closing else .unclosed))
    | .unclosed => some (s.goto c (if s.cancelled c then .returned .cancelled else .sending))
    | _ => none
  | .send c =>
    if s.callers c = .sending ∧ s.ch.length < cfg.queueDepth then some { s.goto c .waiting with ch := s.ch ++ [c] }
    else none
  | .refuse c => if s.callers c = .sending ∧ s.over then some (s.goto c (.returned .closing)) else none
  | .giveUp c =>
    if s.cancelled c then match s.callers c with
      | .sending => some (s.goto c (.returned .cancelled))
      | .waiting => some (s.goto c (.returned .commitUnknown))
      | _ => none
    else none
  | .receive c => if s.callers c = .waiting ∧ c ∈ s.answered then some (s.goto c (.returned .answered)) else none
  | .cancel c => some { s with cancelled := Function.update s.cancelled c true }
  | .turn => match s.runner with
    | .top none => some { s with runner := .next }
    | .top (some r) => some { s with runner := openWith cfg r }
    | .committing [] pending => some { s with runner := .top pending }
    | _ => none
  | .recv => match s.ch with
    | [] => none
    | r :: ch => (received cfg r s.runner).map fun p => { s with ch := ch, runner := p }
  | .seeStop => if s.runner = .next ∧ s.stop then some { s with runner := .draining } else none
  -- the default arm is for an empty channel only
  | .pass => match s.runner with
    | .draining => if s.ch = [] then some { s with runner := .leaving } else none
    | .filling batch =>
      if cfg.commitMaxBatch ≤ batch.length then some { s with runner := .committing batch none }
      else if s.ch = [] then some { s with runner := if cfg.lingers then .lingering batch else .committing batch none }
      else none
    | _ => none
  | .fire => match s.runner with
    | .lingering batch => some { s with runner := .committing batch none }
    | _ => none
  | .answer c => match s.runner with
    | .committing batch pending =>
      if c ∈ batch then
        some { s with runner := .committing (batch.erase c) pending, answered := c :: s.answered }
      else none
    | _ => none
  | .fail => match s.runner with
    | .committing _ _ => some { s with latched := true }
    | _ => none
  | .leave => if s.runner = .leaving then some { s with runner := .ended } else none
  | .close k => match s.closers k with
    | .idle => some { s with closing := true, closers := Function.update s.closers k .stored }
    | .stored => some { s with stop := true, closers := Function.update s.closers k .stopped }
    | .stopped => if s.over then some { s with closers := Function.update s.closers k .returned } else none
    | .returned => none

/-- A step that cannot be taken changes nothing. -/
def Threads.exec (s : Threads) (a : Act) : Threads × Unit := ((next cfg s a).getD s, ())

/-- The interleavings of a writer's life. -/
def Interleaves (h : List (Lib.Visit Threads Act Unit)) (s : Threads) : Prop := History (Threads.exec cfg) {} h s

end Steps

end Messq.Writer

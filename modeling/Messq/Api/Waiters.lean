import Messq.Store.Schema
import Messq.Lib.Machine

/-! # Parked fetches

The registry of the long polls: who is parked on which consumer, with the filters of the moment it subscribed, and a
wake channel that holds at most one token. Waiters live in shards by stream, each under its own lock; the counter
`total` is shared by all of them. `Parking` interleaves the calls one access of `total` at a time. -/

namespace Messq

/-- One parked fetch. `token` is whether its channel holds a token. -/
structure Waiter where
  id : ℕ
  key : Bytes × Bytes
  filters : Subject.PatternSet
  token : Bool := false
  deriving DecidableEq

/-- The waiters of all shards, with the shared counter. -/
structure Registry where
  max : ℕ
  maxPer : ℕ
  waiters : List Waiter := []
  total : ℤ := 0
  /-- The waiters whose channel `ReleaseAll` has closed. -/
  released : List ℕ := []

def numShards : ℕ := 64

/-- `shardOf`: FNV-1a of the stream's name. -/
def shardOf (stream : Bytes) : ℕ :=
  ((stream.foldl (fun h c => (h ^^^ c.toUInt32) * 16777619) (2166136261 : UInt32)) % 64).toNat

def Waiter.shard (w : Waiter) : ℕ := shardOf w.key.1

/-! ## Calls -/

/-- The checks of `Subscribe`. -/
def Registry.admits (r : Registry) (k : Bytes × Bytes) : Bool :=
  !(r.total ≥ r.max) && !(r.waiters.countP (fun w => w.key == k) ≥ r.maxPer)

/-- A waiter enters its shard and is counted. -/
def Registry.enter (r : Registry) (w : Waiter) : Registry :=
  { r with waiters := r.waiters ++ [w], total := r.total + 1 }

/-- The loop of `Close` over the waiters of its shard. -/
def Registry.unlink (r : Registry) (id : ℕ) : Registry := { r with waiters := r.waiters.filter fun w => w.id != id }

/-- A token for those the predicate picks; a channel that holds one already keeps it. -/
def Registry.signal (r : Registry) (p : Waiter → Bool) : Registry :=
  { r with waiters := r.waiters.map fun w => if p w then { w with token := true } else w }

/-- `Wake`. -/
def Registry.wake (r : Registry) (k : Bytes × Bytes) : Registry := r.signal fun w => w.key == k

/-- `wakeMatching`. -/
def Registry.wakeMatching (r : Registry) (stream subject : Bytes) : Registry :=
  r.signal fun w => w.key.1 == stream && w.filters.match subject

/-- `Publish`: the committed publishes among the events. -/
def Registry.publish (r : Registry) (evs : List Event) : Registry :=
  evs.foldl (fun r e =>
    if e.name = .msgPublish ∧ e.stream.getD [] ≠ [] then r.wakeMatching (e.stream.getD []) (e.subject.getD []) else r) r

/-- `Waiting`: the keys with parked waiters. -/
def Registry.waiting (r : Registry) : List (Bytes × Bytes) :=
  if r.total = 0 then [] else (r.waiters.map Waiter.key).dedup

/-- `ReleaseAll` on one shard: the channels are closed and the map is replaced. -/
def Registry.releaseShard (r : Registry) (n : ℕ) : Registry :=
  { r with
    waiters := r.waiters.filter fun w => w.shard != n
    released := (r.waiters.filter fun w => w.shard == n).map Waiter.id ++ r.released }

/-! ## Interleavings -/

namespace Parking

/-- A call between two of its accesses of `total`. -/
inductive Flight
  /-- In `Subscribe`, past the checks and under the lock of its shard. -/
  | admitted (w : Waiter)
  /-- In `Close`, unlinked and under the lock of its shard. -/
  | unlinked (id shard : ℕ)
  /-- In `ReleaseAll`, before this shard; before the store of `total` after the last. -/
  | releasing (shard : ℕ)
  deriving DecidableEq

def Flight.locks (n : ℕ) : Flight → Bool
  | .admitted w => w.shard == n
  | .unlinked _ shard => shard == n
  | .releasing _ => false

structure State where
  registry : Registry
  flights : List Flight := []
  /-- The subscriptions handed out, with their shard. -/
  subs : List (ℕ × ℕ) := []
  /-- The subscriptions whose `Close` has run. -/
  closed : List ℕ := []
  minted : ℕ := 0

inductive Act
  | subscribe (key : Bytes × Bytes) (filters : Subject.PatternSet)
  | add (w : Waiter)
  | close (id : ℕ)
  | subtract (id shard : ℕ)
  | wake (key : Bytes × Bytes)
  | releaseAll
  | release (shard : ℕ)
  | store

/-- The shard's mutex is held. -/
def State.locked (s : State) (n : ℕ) : Bool := s.flights.any (Flight.locks n)

/-- The once-function of the subscription is running. -/
def State.closing (s : State) (id : ℕ) : Bool := s.flights.any fun
  | .unlinked i _ => i == id
  | _ => false

/-- A call waits for the lock of its shard, and the second `Close` of a subscription for the first. -/
def next (s : State) : Act → Option State
  | .subscribe key filters =>
    if s.locked (shardOf key.1) then none
    else if s.registry.admits key then
      some { s with flights := .admitted ⟨s.minted, key, filters, false⟩ :: s.flights, minted := s.minted + 1 }
    else some s
  | .add w =>
    if .admitted w ∈ s.flights then
      some { s with
        registry := s.registry.enter w, flights := s.flights.erase (.admitted w), subs := (w.id, w.shard) :: s.subs }
    else none
  | .close id => match s.subs.find? (fun p => p.1 == id) with
    | none => none
    | some sub =>
      if s.closing id then none
      else if id ∈ s.closed then some s
      else if s.locked sub.2 then none
      else some { s with registry := s.registry.unlink id, flights := .unlinked id sub.2 :: s.flights }
  | .subtract id shard =>
    if .unlinked id shard ∈ s.flights then
      some { s with
        registry := { s.registry with total := s.registry.total - 1 }
        flights := s.flights.erase (.unlinked id shard)
        closed := id :: s.closed }
    else none
  | .wake key => if s.locked (shardOf key.1) then none else some { s with registry := s.registry.wake key }
  | .releaseAll => some { s with flights := .releasing 0 :: s.flights }
  | .release n =>
    if .releasing n ∈ s.flights ∧ n < numShards ∧ s.locked n = false then
      some { s with
        registry := s.registry.releaseShard n
        flights := .releasing (n + 1) :: s.flights.erase (.releasing n) }
    else none
  | .store =>
    if .releasing numShards ∈ s.flights then
      some { s with
        registry := { s.registry with total := 0 }, flights := s.flights.erase (.releasing numShards) }
    else none

/-- A step that cannot be taken changes nothing. -/
def State.exec (s : State) (a : Act) : State × Unit := ((next s a).getD s, ())

/-- The interleavings of a registry's life. -/
def Interleaves (max maxPer : ℕ) (h : List (Lib.Visit State Act Unit)) (s : State) : Prop :=
  Lib.History State.exec { registry := { max := max, maxPer := maxPer } } h s

end Parking

end Messq

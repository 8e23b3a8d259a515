import Mathlib.Data.List.Basic
import Mathlib.Data.List.Induction
import Mathlib.Tactic.Ring

/-! # The worker's lease keeper

The loop that extends the leases of the messages a worker holds. What it does to them does not depend on the order of
its heap, which is a list here. Times are nanoseconds. -/

namespace Messq.Client

variable {τ : Type}

structure Lease (τ : Type) where
  token : τ
  ackWait : ℤ
  localDeadline : ℤ
  nextExtendAt : ℤ
  totalHeld : ℤ := 0

structure WorkerConfig where
  /-- A duration times the configured fraction, as the floats round it. -/
  extendAt : ℤ → ℤ
  maxLease : ℤ

def extendMargin (ackWait : ℤ) : ℤ :=
  let m := ackWait.tdiv 10
  if m < 500000000 then 500000000 else if m > 5000000000 then 5000000000 else m

def nextExtend (cfg : WorkerConfig) (now ackWait localDeadline : ℤ) : ℤ :=
  let next := now + cfg.extendAt ackWait
  let cap := localDeadline - extendMargin ackWait
  if next > cap then cap else next

def newLease (cfg : WorkerConfig) (now : ℤ) (token : τ) (ackWait : ℤ) : Lease τ where
  token := token
  ackWait := ackWait
  localDeadline := now + ackWait
  nextExtendAt := nextExtend cfg now ackWait (now + ackWait)

def Lease.extended (cfg : WorkerConfig) (now : ℤ) (l : Lease τ) : Lease τ :=
  { l with
    totalHeld := l.totalHeld + l.ackWait
    localDeadline := l.localDeadline + l.ackWait
    nextExtendAt := nextExtend cfg now l.ackWait (l.localDeadline + l.ackWait) }

/-- `reply` says which tokens the daemon extended; it is `none` where the request failed. -/
def extendDue (cfg : WorkerConfig) (now : ℤ) (reply : Option (τ → Bool)) (h : List (Lease τ)) : List (Lease τ) :=
  let (due, later) := h.partition fun l => l.nextExtendAt ≤ now + 250000000
  let live := due.filter fun l => ¬ (cfg.maxLease > 0 ∧ l.totalHeld + l.ackWait > cfg.maxLease)
  match reply with
  | none => later
  | some ok => later ++ (live.filter fun l => ok l.token).map (Lease.extended cfg now)

/-- What the loop reacts to. -/
inductive Wake (τ : Type)
  | addLease (now : ℤ) (token : τ) (ackWait : ℤ)
  | doneToken (token : τ)
  | timer (now : ℤ) (reply : Option (τ → Bool))
  | drained

def keeperLoop [DecidableEq τ] (cfg : WorkerConfig) (h : List (Lease τ)) : Wake τ → List (Lease τ)
  | .addLease now token ackWait => newLease cfg now token ackWait :: h
  | .doneToken token => h.eraseP fun l => l.token = token
  | .timer now reply => extendDue cfg now reply h
  | .drained => []

/-- What a lease taken at `t` is from then on: every extension adds to its deadline, together they stay within the
maximum, and the next one comes before the margin. -/
structure Lease.Kept (cfg : WorkerConfig) (t : ℤ) (l : Lease τ) : Prop where
  deadline : l.localDeadline = t + l.ackWait + l.totalHeld
  capped : 0 < cfg.maxLease → l.totalHeld ≤ cfg.maxLease
  ahead : l.nextExtendAt ≤ l.localDeadline - extendMargin l.ackWait

variable {cfg : WorkerConfig} {t now : ℤ} {l : Lease τ} {evs : List (Wake τ)}

theorem nextExtend_le (d : ℤ) : nextExtend cfg now t d ≤ d - extendMargin t := by
  unfold nextExtend
  dsimp only
  split <;> omega

theorem Lease.Kept.extended (h : l.Kept cfg t) (hm : ¬ (cfg.maxLease > 0 ∧ l.totalHeld + l.ackWait > cfg.maxLease)) :
    (l.extended cfg now).Kept cfg t where
  deadline := by simp only [Lease.extended, h.deadline]; ring
  capped := fun hpos => not_lt.mp fun hgt => hm ⟨hpos, hgt⟩
  ahead := nextExtend_le _

/-- **Keeper.** Whatever the loop reacts to, in any order, the leases it holds were added and are kept. -/
theorem keeper_leases_kept [DecidableEq τ] (hl : l ∈ evs.foldl (keeperLoop cfg) []) :
    ∃ t, .addLease t l.token l.ackWait ∈ evs ∧ l.Kept cfg t := by
  induction evs using List.reverseRecOn generalizing l with
  | nil => cases hl
  | append_singleton evs e ih =>
    have hold : ∀ {l : Lease τ}, l ∈ evs.foldl (keeperLoop cfg) [] →
        ∃ t, .addLease t l.token l.ackWait ∈ evs ++ [e] ∧ l.Kept cfg t := fun hl =>
      (ih hl).imp fun _ h => ⟨List.mem_append_left _ h.1, h.2⟩
    rw [List.foldl_append] at hl
    cases e with
    | addLease now token ackWait =>
      rcases List.mem_cons.mp hl with rfl | hl
      · exact ⟨now, by simp [newLease], by simp [newLease], fun h => h.le, nextExtend_le _⟩
      · exact hold hl
    | doneToken token => exact hold (List.mem_of_mem_eraseP hl)
    | timer now reply =>
      simp only [List.foldl, keeperLoop, extendDue, List.partition_eq_filter_filter] at hl
      cases reply with
      | none => exact hold (List.mem_of_mem_filter hl)
      | some ok =>
        rcases List.mem_append.mp hl with hl | hl
        · exact hold (List.mem_of_mem_filter hl)
        · obtain ⟨l, hmem, rfl⟩ := List.mem_map.mp hl
          obtain ⟨hdue, hm⟩ := List.mem_filter.mp (List.mem_of_mem_filter hmem)
          obtain ⟨t, hadd, hk⟩ := hold (List.mem_of_mem_filter hdue)
          exact ⟨t, hadd, hk.extended (of_decide_eq_true hm)⟩
    | drained => cases hl

/-- Two leases, one of them settled before the other, of 30 s, is extended. -/
def twoLeases : List (Wake ℕ) :=
  [.addLease 0 7 30000000000, .addLease 1000000000 8 20000000000, .doneToken 8, .timer 27000000000 (some fun _ => true)]

theorem keeper_leases_kept_once : ∃ l ∈ twoLeases.foldl (keeperLoop ⟨id, 60000000000⟩) [],
    l.token = 7 ∧ l.totalHeld = 30000000000 ∧
      ∃ t, .addLease t l.token l.ackWait ∈ twoLeases ∧ l.Kept ⟨id, 60000000000⟩ t := by
  obtain ⟨l, hl, htoken, hheld⟩ : ∃ l ∈ twoLeases.foldl (keeperLoop ⟨id, 60000000000⟩) [],
      l.token = 7 ∧ l.totalHeld = 30000000000 := by decide
  exact ⟨l, hl, htoken, hheld, keeper_leases_kept hl⟩

end Messq.Client

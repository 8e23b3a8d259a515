import Messq.Writer.Queue

/-! # No request is stranded

A request whose send succeeded is in the channel, with the goroutine, or answered (`Interleaves.held`). The goroutine
leaves an empty channel behind, and it stays empty as long as no call of `Do` is on its way past the `closing` check
when `Close` is called (`no_stranded`). A call that is on its way can send to a writer that has gone
(`late_send_strands`). -/

namespace Messq.Writer

open Lib

variable {p p' : Runner} {d r c : ℕ} {a : Act} {cfg : Config}

/-- The call has passed the `closing` check and has not sent. -/
def Caller.late : Caller → Bool
  | .unclosed => true
  | .sending => true
  | _ => false

/-- The send of the call succeeded. -/
def Caller.sent : Caller → Bool
  | .waiting => true
  | .returned .answered => true
  | .returned .commitUnknown => true
  | _ => false

/-- The requests the goroutine has taken and not answered. -/
def Runner.held : Runner → List ℕ
  | .top pending => pending.toList
  | .filling batch => batch
  | .lingering batch => batch
  | .committing batch pending => batch ++ pending.toList
  | _ => []

/-- The goroutine has seen `stop`, and is in the last loop turn or gone. -/
def Runner.stopping : Runner → Bool
  | .draining => true
  | .leaving => true
  | .ended => true
  | _ => false

/-- The goroutine has left. -/
def Runner.gone : Runner → Bool
  | .leaving => true
  | .ended => true
  | _ => false

/-- Every sent request is in the channel, with the goroutine, or answered. -/
def Threads.Held (s : Threads) : Prop :=
  ∀ c, (s.callers c).sent = true → c ∈ s.ch ∨ c ∈ s.runner.held ∨ c ∈ s.answered

/-- Shutdown in order: first `closing`, then `stop`, then the goroutine; nobody sends after the first. -/
structure Threads.Ordered (s : Threads) : Prop where
  stored : ∀ k, s.closers k ≠ .idle → s.closing = true
  stop : s.stop = true → s.closing = true
  stopping : s.runner.stopping = true → s.stop = true
  late : s.closing = true → ∀ c, (s.callers c).late = false
  empty : s.runner.gone = true → s.ch = []

/-- `Close` is not called while a call of `Do` is on its way from its `closing` check to its send. -/
def Unhurried (v : Lib.Visit Threads Act Unit) : Prop :=
  ∀ k, v.act = .close k → v.pre.closers k = .idle → ∀ c, (v.pre.callers c).late = false

section Step

variable {s s' : Threads}

theorem goto_callers (s : Threads) (c d : ℕ) (p : Caller) :
    (s.goto c p).callers d = if d = c then p else s.callers d := by
  simp [Threads.goto, Function.update_apply]

theorem held_openWith (r : ℕ) : (openWith cfg r).held = [r] := by
  unfold openWith
  split <;> rfl

theorem held_fill (batch : List ℕ) (r : ℕ) : (fill cfg batch r).held = batch ++ [r] := by
  unfold fill
  split <;> rfl

/-- A received request is held, beside those that were. -/
theorem held_received (h : received cfg r p = some p') : p'.held = p.held ++ [r] := by
  cases p with
  | next | draining =>
    cases h
    exact held_openWith r
  | filling batch =>
    simp only [received] at h
    split at h <;> cases h
    exact held_fill batch r
  | lingering batch =>
    cases h
    exact held_fill batch r
  | _ => cases h

/-- What a step can do. -/
inductive Moves (cfg : Config) (s : Threads) : Act → Threads → Prop
  /-- A call moves on without touching the channel. -/
  | caller {a : Act} (c : ℕ) (p : Caller) (hsent : p.sent = true → (s.callers c).sent = true)
      (hlate : p.late = true → (s.callers c).late = true ∨ s.closing = false) (ha : ∀ k, a ≠ .close k) :
      Moves cfg s a (s.goto c p)
  | send (c : ℕ) (h : s.callers c = .sending) : Moves cfg s (.send c) { s.goto c .waiting with ch := s.ch ++ [c] }
  | cancel (c : ℕ) : Moves cfg s (.cancel c) { s with cancelled := Function.update s.cancelled c true }
  | fail : Moves cfg s .fail { s with latched := true }
  | recv {r : ℕ} {ch : List ℕ} {p : Runner} (hch : s.ch = r :: ch) (h : received cfg r s.runner = some p) :
      Moves cfg s .recv { s with ch := ch, runner := p }
  /-- The goroutine moves on without touching the channel. -/
  | runner {a : Act} (p : Runner) (hheld : p.held = s.runner.held)
      (hstop : p.stopping = true → s.runner.stopping = true ∨ s.stop = true)
      (hgone : p.gone = true → s.runner.gone = true ∨ s.ch = []) (ha : ∀ k, a ≠ .close k) :
      Moves cfg s a { s with runner := p }
  | answer {c : ℕ} {batch : List ℕ} {pending : Option ℕ} (h : s.runner = .committing batch pending) :
      Moves cfg s (.answer c) { s with runner := .committing (batch.erase c) pending, answered := c :: s.answered }
  | store (k : ℕ) (h : s.closers k = .idle) :
      Moves cfg s (.close k) { s with closing := true, closers := Function.update s.closers k .stored }
  | stop (k : ℕ) (h : s.closers k = .stored) :
      Moves cfg s (.close k) { s with stop := true, closers := Function.update s.closers k .stopped }
  | closed (k : ℕ) (h : s.closers k = .stopped) :
      Moves cfg s (.close k) { s with closers := Function.update s.closers k .returned }

theorem moves_check (h : next cfg s (.check c) = some s') : Moves cfg s (.check c) s' := by
  simp only [next] at h
  split at h
  · cases h
    exact .caller c _ (by split <;> simp [Caller.sent]) (by split <;> simp [Caller.late]) nofun
  · cases h
    refine .caller c _ (by split <;> simp [Caller.sent]) (fun hl => .inr ?_) nofun
    by_cases hc : s.closing = true
    · simp [hc, Caller.late] at hl
    · simpa using hc
  · rename_i hp
    cases h
    exact .caller c _ (by split <;> simp [Caller.sent]) (by simp [hp, Caller.late]) nofun
  · cases h

theorem moves_turn (h : next cfg s .turn = some s') : Moves cfg s .turn s' := by
  simp only [next] at h
  split at h
  · rename_i hp
    cases h
    exact .runner _ (by simp [hp, Runner.held]) nofun nofun nofun
  · rename_i r hp
    cases h
    refine .runner _ ((held_openWith r).trans (by simp [hp, Runner.held])) ?_ ?_ nofun <;>
      (unfold openWith; split <;> exact nofun)
  · rename_i hp
    cases h
    exact .runner _ (by simp [hp, Runner.held]) nofun nofun nofun
  · cases h

theorem moves_pass (h : next cfg s .pass = some s') : Moves cfg s .pass s' := by
  simp only [next] at h
  split at h
  · rename_i hp
    split at h <;> cases h
    rename_i hch
    exact .runner _ (by simp [hp, Runner.held]) (fun _ => .inl (by simp [hp, Runner.stopping]))
      (fun _ => .inr hch) nofun
  · rename_i batch hp
    split at h
    · cases h
      exact .runner _ (by simp [hp, Runner.held]) nofun nofun nofun
    · split at h <;> cases h
      cases cfg.lingers <;> exact .runner _ (by simp [hp, Runner.held]) nofun nofun nofun
  · cases h

/-- **Inversion.** -/
theorem moves_of_next (h : next cfg s a = some s') : Moves cfg s a s' := by
  cases a with
  | check c => exact moves_check h
  | turn => exact moves_turn h
  | pass => exact moves_pass h
  | call c =>
    simp only [next] at h
    split at h <;> cases h
    exact .caller c _ nofun nofun nofun
  | send c =>
    simp only [next] at h
    split at h <;> cases h
    rename_i hp
    exact .send c hp.1
  | refuse c =>
    simp only [next] at h
    split at h <;> cases h
    exact .caller c _ nofun nofun nofun
  | giveUp c =>
    simp only [next] at h
    split at h
    · split at h <;> cases h
      · exact .caller c _ nofun nofun nofun
      · rename_i hp
        exact .caller c _ (fun _ => by simp [hp, Caller.sent]) nofun nofun
    · cases h
  | receive c =>
    simp only [next] at h
    split at h <;> cases h
    rename_i hp
    exact .caller c _ (fun _ => by simp [hp.1, Caller.sent]) nofun nofun
  | cancel c =>
    cases h
    exact .cancel c
  | recv =>
    simp only [next] at h
    split at h
    · cases h
    · rename_i r ch hch
      obtain ⟨p, hp, rfl⟩ := Option.map_eq_some_iff.mp h
      exact .recv hch hp
  | seeStop =>
    simp only [next] at h
    split at h <;> cases h
    rename_i hp
    exact .runner _ (by simp [hp.1, Runner.held]) (fun _ => .inr hp.2) nofun nofun
  | fire =>
    simp only [next] at h
    split at h <;> cases h
    rename_i hp
    exact .runner _ (by simp [hp, Runner.held]) nofun nofun nofun
  | answer c =>
    simp only [next] at h
    split at h
    · rename_i hp
      split at h <;> cases h
      exact .answer hp
    · cases h
  | fail =>
    simp only [next] at h
    split at h <;> cases h
    exact .fail
  | leave =>
    simp only [next] at h
    split at h <;> cases h
    rename_i hp
    exact .runner _ (by simp [hp, Runner.held]) (fun _ => .inl (by simp [hp, Runner.stopping]))
      (fun _ => .inl (by simp [hp, Runner.gone])) nofun
  | close k =>
    simp only [next] at h
    split at h
    · rename_i hp
      cases h
      exact .store k hp
    · rename_i hp
      cases h
      exact .stop k hp
    · rename_i hp
      split at h <;> cases h
      exact .closed k hp
    · cases h

/-- **Step.** A sent request stays in the channel, with the goroutine, or answered. -/
theorem Threads.Held.step (hs : s.Held) (h : Moves cfg s a s') : s'.Held := by
  intro d hd
  cases h with
  | caller c p hsent =>
    rw [goto_callers] at hd
    split at hd
    · rename_i he
      exact hs d (he ▸ hsent hd)
    · exact hs d hd
  | send c =>
    rw [show ({ s.goto c .waiting with ch := s.ch ++ [c] } : Threads).callers d = _ from goto_callers s c d _] at hd
    split at hd
    · rename_i he
      exact .inl (by simp [he])
    · exact (hs d hd).imp_left (List.mem_append_left _)
  | recv hch hr =>
    rcases hs d hd with h | h | h
    · rw [hch, List.mem_cons] at h
      exact h.elim (fun he => .inr (.inl (by simp [held_received hr, he]))) .inl
    · exact .inr (.inl (by simp [held_received hr, h]))
    · exact .inr (.inr h)
  | runner p hheld => exact (hs d hd).imp_right (Or.imp_left fun h => hheld ▸ h)
  | answer hp =>
    rename_i c batch pending
    by_cases hc : d = c
    · exact .inr (.inr (by simp [hc]))
    · rcases hs d hd with h | h | h
      · exact .inl h
      · rw [hp] at h
        refine .inr (.inl ?_)
        simpa [Runner.held, List.mem_erase_of_ne hc] using h
      · exact .inr (.inr (List.mem_cons_of_mem _ h))
  | cancel | fail | store | stop | closed => exact hs d hd

/-- A goroutine that receives has not left, and stops only where it did. -/
theorem received_going (h : received cfg r p = some p') : p'.stopping = false ∧ p'.gone = false := by
  have hopen : (openWith cfg r).stopping = false ∧ (openWith cfg r).gone = false := by
    unfold openWith
    split <;> exact ⟨rfl, rfl⟩
  have hfill : ∀ batch, (fill cfg batch r).stopping = false ∧ (fill cfg batch r).gone = false := by
    intro batch
    unfold fill
    split <;> exact ⟨rfl, rfl⟩
  cases p with
  | next | draining =>
    cases h
    exact hopen
  | filling batch =>
    simp only [received] at h
    split at h <;> cases h
    exact hfill batch
  | lingering batch =>
    cases h
    exact hfill batch
  | _ => cases h

/-- **Step.** The order of a shutdown is kept, provided `Close` finds nobody on the way. -/
theorem Threads.Ordered.step (hs : s.Ordered) (h : Moves cfg s a s')
    (hu : ∀ k, a = .close k → s.closers k = .idle → ∀ c, (s.callers c).late = false) : s'.Ordered := by
  cases h with
  | caller c p hsent hlate =>
    refine ⟨hs.stored, hs.stop, hs.stopping, fun hc d => ?_, hs.empty⟩
    rw [goto_callers]
    split
    · rw [← Bool.not_eq_true]
      intro hp
      rcases hlate hp with h | h
      · simp [hs.late hc c] at h
      · exact absurd (h.symm.trans hc) nofun
    · exact hs.late hc d
  | send c hp =>
    -- the sender is late, so `Close` has not been called and the goroutine is not leaving
    have hopen : s.closing = false := by
      rw [← Bool.not_eq_true]
      intro hc
      simpa [hp, Caller.late] using hs.late hc c
    refine ⟨hs.stored, hs.stop, hs.stopping, fun hc => absurd (hopen.symm.trans hc) nofun, fun hg => ?_⟩
    have hstop : s.runner.stopping = true := by
      revert hg
      show s.runner.gone = true → _
      cases s.runner <;> simp [Runner.gone, Runner.stopping]
    exact absurd (hopen.symm.trans (hs.stop (hs.stopping hstop))) nofun
  | cancel | fail => exact ⟨hs.stored, hs.stop, hs.stopping, hs.late, hs.empty⟩
  | recv hch hr =>
    obtain ⟨h₁, h₂⟩ := received_going hr
    refine ⟨hs.stored, hs.stop, fun h => ?_, hs.late, fun h => ?_⟩
    · exact absurd (h₁.symm.trans h) nofun
    · exact absurd (h₂.symm.trans h) nofun
  | runner p hheld hstop hgone =>
    exact ⟨hs.stored, hs.stop, fun h => (hstop h).elim hs.stopping id, hs.late, fun h => (hgone h).elim hs.empty id⟩
  | answer => exact ⟨hs.stored, hs.stop, nofun, hs.late, nofun⟩
  | store k hp => exact ⟨fun _ _ => rfl, fun _ => rfl, hs.stopping, fun _ => hu k rfl hp, hs.empty⟩
  | stop k hp =>
    have hc : s.closing = true := hs.stored k (by simp [hp])
    exact ⟨fun _ _ => hc, fun _ => hc, fun _ => rfl, hs.late, hs.empty⟩
  | closed k hp =>
    have hc : s.closing = true := hs.stored k (by simp [hp])
    exact ⟨fun _ _ => hc, hs.stop, hs.stopping, hs.late, hs.empty⟩

end Step

/-! ## Whole runs -/

section Run

variable {h : List (Lib.Visit Threads Act Unit)} {s : Threads}

/-- A step is a move, or changes nothing. -/
theorem exec_cases (cfg : Config) (s : Threads) (a : Act) :
    (s.exec cfg a).1 = s ∨ Moves cfg s a (s.exec cfg a).1 := by
  unfold Threads.exec
  cases hn : next cfg s a with
  | none => exact .inl rfl
  | some s' => exact .inr (moves_of_next hn)

theorem Interleaves.held (r : Interleaves cfg h s) : s.Held := by
  refine r.invariant (C := fun _ _ => True) (I := fun _ s => s.Held) (fun _ _ _ _ => trivial) nofun fun _ s a hs _ => ?_
  rcases exec_cases cfg s a with he | hm
  · rwa [he]
  · exact hs.step hm

theorem Interleaves.ordered (r : Interleaves cfg h s) (hu : ∀ v ∈ h, Unhurried v) : s.Ordered := by
  refine r.invariant (C := fun _ v => Unhurried v) (I := fun _ s => s.Ordered) (upheld_of_forall hu)
    ⟨fun _ h => absurd rfl h, nofun, nofun, nofun, nofun⟩ fun _ s a hs hv => ?_
  rcases exec_cases cfg s a with he | hm
  · rwa [he]
  · exact hs.step hm hv

end Run

/-- The steps a call takes on its own, its context left alone. -/
def ownSteps (c : ℕ) : List Act := [.check c, .check c, .check c, .refuse c, .receive c]

/-- When the goroutine has ended, a call returns by its own steps, unless it waits for an answer that was not given. -/
theorem returns_of_ended {s : Threads} (hend : s.runner = .ended) (hc : s.callers c ≠ .idle)
    (hans : s.callers c = .waiting → c ∈ s.answered) :
    ∃ why, (run (Threads.exec cfg) s (ownSteps c)).callers c = .returned why := by
  cases hp : s.callers c with
  | idle => exact absurd hp hc
  | waiting => simp [run, ownSteps, Threads.exec, next, hp, hans hp, Threads.goto]
  | returned why => simp [run, ownSteps, Threads.exec, next, hp]
  | sending => simp [run, ownSteps, Threads.exec, next, hp, Threads.over, hend, Threads.goto]
  | unclosed =>
    cases hx : s.cancelled c <;> simp [run, ownSteps, Threads.exec, next, hp, Threads.over, hend, Threads.goto, hx]
  | unlatched =>
    cases hx : s.cancelled c <;> cases hy : s.closing <;>
      simp [run, ownSteps, Threads.exec, next, hp, Threads.over, hend, Threads.goto, hx, hy]
  | called =>
    cases hx : s.cancelled c <;> cases hy : s.closing <;> cases hz : s.latched <;>
      simp [run, ownSteps, Threads.exec, next, hp, Threads.over, hend, Threads.goto, hx, hy, hz]

/-- **No stranded request.** In every interleaving in which `Close` is not called while a call of `Do` is on its way to
its send: once the goroutine has ended every request that was sent is answered, and every call returns by its own
steps. -/
theorem no_stranded {cfg : Config} {h : List (Lib.Visit Threads Act Unit)} {s : Threads} (r : Interleaves cfg h s)
    (hu : ∀ v ∈ h, Unhurried v) (hend : s.runner = .ended) (c : ℕ) :
    ((s.callers c).sent = true → c ∈ s.answered) ∧
    (s.callers c ≠ .idle → ∃ why, (run (Threads.exec cfg) s (ownSteps c)).callers c = .returned why) := by
  have hans : (s.callers c).sent = true → c ∈ s.answered := by
    intro hsent
    have hempty : s.ch = [] := (r.ordered hu).empty (by simp [hend, Runner.gone])
    simpa [hempty, hend, Runner.held] using r.held c hsent
  exact ⟨hans, fun hc => returns_of_ended hend hc fun hw => hans (by simp [hw, Caller.sent])⟩

/-! ## A send that comes too late -/

/-- The goroutine has ended and left the request `c` of a patient caller in the channel. -/
structure Stranded (s : Threads) (c : ℕ) : Prop where
  ended : s.runner = .ended
  waiting : s.callers c = .waiting
  unanswered : c ∉ s.answered
  uncancelled : s.cancelled c = false

section Stranded

variable {s s' : Threads}

theorem Stranded.goto_other (h : Stranded s c) (hd : c ≠ d) (p : Caller) : Stranded (s.goto d p) c :=
  ⟨h.ended, by rw [goto_callers, if_neg hd, h.waiting], h.unanswered, h.uncancelled⟩

/-- A call that does not wait is another one. -/
theorem Stranded.goto (h : Stranded s c) (hd : s.callers d ≠ .waiting) (p : Caller) : Stranded (s.goto d p) c :=
  h.goto_other (by rintro rfl; exact hd h.waiting) p

/-- **Step.** Only its context can free the caller. -/
theorem Stranded.step (h : Stranded s c) (ha : a ≠ .cancel c) (hn : next cfg s a = some s') : Stranded s' c := by
  have hgone : ∀ {p : Runner}, p ≠ .ended → s.runner ≠ p := fun hp he => hp (he ▸ h.ended)
  cases a with
  | call d =>
    simp only [next] at hn
    split at hn <;> cases hn
    rename_i hp
    exact h.goto (by simp [hp]) _
  | check d =>
    simp only [next] at hn
    split at hn <;> cases hn <;> rename_i hp <;> exact h.goto (by simp [hp]) _
  | send d =>
    simp only [next] at hn
    split at hn <;> cases hn
    rename_i hp
    obtain ⟨h₁, h₂, h₃, h₄⟩ := h.goto (d := d) (by simp [hp.1]) .waiting
    exact ⟨h₁, h₂, h₃, h₄⟩
  | refuse d =>
    simp only [next] at hn
    split at hn <;> cases hn
    rename_i hp
    exact h.goto (by simp [hp.1]) _
  | giveUp d =>
    simp only [next] at hn
    split at hn
    · rename_i hd
      have hne : c ≠ d := by
        rintro rfl
        simp [h.uncancelled] at hd
      split at hn <;> cases hn <;> exact h.goto_other hne _
    · cases hn
  | receive d =>
    simp only [next] at hn
    split at hn <;> cases hn
    rename_i hp
    exact h.goto_other (fun he => h.unanswered (he ▸ hp.2)) _
  | cancel d =>
    cases hn
    have hne : c ≠ d := fun he => ha (by rw [he])
    exact ⟨h.ended, h.waiting, h.unanswered, by simp [hne, h.uncancelled]⟩
  | close k =>
    simp only [next] at hn
    split at hn
    · cases hn
      exact ⟨h.ended, h.waiting, h.unanswered, h.uncancelled⟩
    · cases hn
      exact ⟨h.ended, h.waiting, h.unanswered, h.uncancelled⟩
    · split at hn <;> cases hn
      exact ⟨h.ended, h.waiting, h.unanswered, h.uncancelled⟩
    · cases hn
  | recv =>
    simp only [next, h.ended, received] at hn
    split at hn <;> cases hn
  | turn | seeStop | pass | fire | answer | fail | leave => simp [next, h.ended] at hn

theorem Stranded.forever (h : Stranded s c) (as : List Act) (has : .cancel c ∉ as) :
    Stranded (run (Threads.exec cfg) s as) c := by
  induction as generalizing s with
  | nil => exact h
  | cons a as ih =>
    rw [List.mem_cons, not_or] at has
    refine ih (s := (s.exec cfg a).1) ?_ has.2
    unfold Threads.exec
    cases hn : next cfg s a with
    | none => exact h
    | some s' => exact h.step (Ne.symm has.1) hn

end Stranded

def sampleQueue : Config where
  queueDepth := 4
  commitMaxBatch := 4
  commitMaxBytes := 100
  lingers := false
  bytes _ := 1
  solo _ := false

/-- The request 0 is sent before `Close` is called, and drained. -/
def orderlyClose : List Act :=
  [.call 0, .check 0, .check 0, .check 0, .send 0, .close 0, .close 0, .turn, .seeStop, .recv, .pass, .answer 0, .turn,
    .turn, .seeStop, .pass, .leave]

theorem no_stranded_orderlyClose :
    (run (Threads.exec sampleQueue) {} orderlyClose).runner = .ended ∧
    0 ∈ (run (Threads.exec sampleQueue) {} orderlyClose).answered := by
  -- the first step of `Close` finds the caller waiting
  have hlate : ∀ c, (Function.update (fun _ => Caller.idle) 0 Caller.waiting c).late = false := by
    intro c
    cases c <;> rfl
  have hu : ∀ v ∈ trace (Threads.exec sampleQueue) {} orderlyClose, Unhurried v := by
    simpa [orderlyClose, trace, visit, Unhurried, Threads.exec, next, Threads.goto, sampleQueue] using hlate
  exact ⟨by decide, (no_stranded (history_trace _ _) hu (by decide) 0).1 (by decide)⟩

/-- `Close` is called, and the goroutine ends, between the last check of request 0 and its send. -/
def hurriedClose : List Act :=
  [.call 0, .check 0, .check 0, .check 0, .close 0, .close 0, .turn, .seeStop, .pass, .leave, .send 0]

/-- The send succeeds after the goroutine has ended, and no step but a cancellation lets the call return. -/
theorem late_send_strands :
    Interleaves sampleQueue (trace (Threads.exec sampleQueue) {} hurriedClose)
      (run (Threads.exec sampleQueue) {} hurriedClose) ∧
    (run (Threads.exec sampleQueue) {} hurriedClose).runner = .ended ∧
    ((run (Threads.exec sampleQueue) {} hurriedClose).callers 0).sent = true ∧
    0 ∉ (run (Threads.exec sampleQueue) {} hurriedClose).answered ∧
    ∀ as, Act.cancel 0 ∉ as →
      (run (Threads.exec sampleQueue) (run (Threads.exec sampleQueue) {} hurriedClose) as).callers 0 = .waiting := by
  have hs : Stranded (run (Threads.exec sampleQueue) {} hurriedClose) 0 := ⟨by decide, by decide, by decide, by decide⟩
  exact ⟨history_trace _ _, hs.ended, by decide, hs.unanswered, fun as has => (hs.forever as has).waiting⟩

end Messq.Writer

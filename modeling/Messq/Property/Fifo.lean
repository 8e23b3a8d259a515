import Messq.Writer.Queue

/-! # Batches in the order of arrival

What the goroutine takes from the channel it executes, in batches and solo commands, in the same order: at any moment
the received requests are those of the executed units followed by what the goroutine has in hand
(`batches_in_order`). -/

namespace Messq.Writer

open Lib

variable {batch : List ℕ} {r : ℕ} {cfg : Config} {s : Threads}

/-! ## What a run shows -/

/-- What left the channel in a step. -/
def taken (v : Lib.Visit Threads Act Unit) : List ℕ := v.pre.ch.take (v.pre.ch.length - v.post.ch.length)

/-- The unit of work a step begins: a batch for `commitBatch`, or one command for `commitSolo`. -/
def begun (p p' : Runner) : Option (List ℕ) :=
  match p, p' with
  | .committing _ _, _ => none
  | _, .committing batch _ => some batch
  | _, _ => none

/-- The requests received from the channel, in order. -/
def arrivals (h : List (Lib.Visit Threads Act Unit)) : List ℕ := h.flatMap taken

/-- The units executed, in order. -/
def executions (h : List (Lib.Visit Threads Act Unit)) : List (List ℕ) :=
  h.filterMap fun v => begun v.pre.runner v.post.runner

/-- What the goroutine holds and has not begun to execute. -/
def Runner.inHand : Runner → List ℕ
  | .top pending => pending.toList
  | .filling batch => batch
  | .lingering batch => batch
  | .committing _ pending => pending.toList
  | _ => []

/-- What `takeBatch` may return. -/
structure IsBatch (cfg : Config) (batch : List ℕ) : Prop where
  nonempty : batch ≠ []
  length : batch.length ≤ cfg.commitMaxBatch
  bytes : batch.length = 1 ∨ batchBytes cfg batch ≤ cfg.commitMaxBytes
  solo : ∀ r ∈ batch, cfg.solo r = false

/-- A unit of work: a batch, or a solo command alone. -/
def IsUnit (cfg : Config) (unit : List ℕ) : Prop := (∃ r, unit = [r] ∧ cfg.solo r = true) ∨ IsBatch cfg unit

/-! ## Steps -/

/-- What a step can do to the goroutine, with what it receives. -/
inductive Advances (cfg : Config) : Runner → List ℕ → Runner → Prop
  | stay (p : Runner) : Advances cfg p [] p
  | recv {r : ℕ} {p p' : Runner} (h : received cfg r p = some p') : Advances cfg p [r] p'
  | ask : Advances cfg (.top none) [] .next
  | turn (r : ℕ) : Advances cfg (.top (some r)) [] (openWith cfg r)
  | done (pending : Option ℕ) : Advances cfg (.committing [] pending) [] (.top pending)
  | stop : Advances cfg .next [] .draining
  | empty : Advances cfg .draining [] .leaving
  | full (batch : List ℕ) : Advances cfg (.filling batch) [] (.committing batch none)
  | linger {batch : List ℕ} (h : batch.length < cfg.commitMaxBatch) :
      Advances cfg (.filling batch) [] (.lingering batch)
  | fire (batch : List ℕ) : Advances cfg (.lingering batch) [] (.committing batch none)
  | answer (c : ℕ) (batch : List ℕ) (pending : Option ℕ) :
      Advances cfg (.committing batch pending) [] (.committing (batch.erase c) pending)
  | leave : Advances cfg .leaving [] .ended

section Step

variable {s' : Threads} {a : Act}

theorem advances_turn (h : next cfg s .turn = some s') : Advances cfg s.runner [] s'.runner ∧ s'.ch = s.ch := by
  simp only [next] at h
  split at h
  · rename_i hp
    cases h
    exact ⟨hp ▸ .ask, rfl⟩
  · rename_i r hp
    cases h
    exact ⟨hp ▸ .turn r, rfl⟩
  · rename_i pending hp
    cases h
    exact ⟨hp ▸ .done pending, rfl⟩
  · cases h

theorem advances_pass (h : next cfg s .pass = some s') : Advances cfg s.runner [] s'.runner ∧ s'.ch = s.ch := by
  simp only [next] at h
  split at h
  · rename_i hp
    split at h
    · cases h
      exact ⟨hp ▸ .empty, rfl⟩
    · cases h
  · rename_i batch hp
    split at h
    · cases h
      exact ⟨hp ▸ .full batch, rfl⟩
    · rename_i hlen
      split at h
      · cases h
        refine ⟨?_, rfl⟩
        rw [hp]
        dsimp only
        split
        · exact .linger (by omega)
        · exact .full batch
      · cases h
  · cases h

/-- **Inversion.** A step moves the goroutine in one of these ways, and only a receive takes from the channel. -/
theorem advances_of_next (h : next cfg s a = some s') :
    Advances cfg s.runner (s.ch.take (s.ch.length - s'.ch.length)) s'.runner := by
  -- a step that leaves the channel alone receives nothing
  have hnone : ∀ {p : Runner}, Advances cfg s.runner [] p → s'.ch = s.ch → s'.runner = p →
      Advances cfg s.runner (s.ch.take (s.ch.length - s'.ch.length)) s'.runner := by
    intro p hp hch hr
    rw [hch, hr, Nat.sub_self, List.take_zero]
    exact hp
  have hstay : s'.ch = s.ch → s'.runner = s.runner →
      Advances cfg s.runner (s.ch.take (s.ch.length - s'.ch.length)) s'.runner :=
    fun hch hr => hnone (.stay _) hch hr
  cases a with
  | turn =>
    obtain ⟨hp, hch⟩ := advances_turn h
    exact hnone hp hch rfl
  | pass =>
    obtain ⟨hp, hch⟩ := advances_pass h
    exact hnone hp hch rfl
  | recv =>
    simp only [next] at h
    split at h
    · cases h
    · rename_i r ch hch
      obtain ⟨p, hp, rfl⟩ := Option.map_eq_some_iff.mp h
      have htake : s.ch.take (s.ch.length - ch.length) = [r] := by
        rw [hch, List.length_cons, Nat.add_sub_cancel_left, List.take_succ_cons, List.take_zero]
      exact htake ▸ .recv hp
  | send c =>
    simp only [next] at h
    split at h
    · cases h
      have hlen : s.ch.length - (s.ch ++ [c]).length = 0 := by
        rw [List.length_append]
        omega
      show Advances cfg s.runner (s.ch.take (s.ch.length - (s.ch ++ [c]).length)) s.runner
      rw [hlen, List.take_zero]
      exact .stay _
    · cases h
  | seeStop =>
    simp only [next] at h
    split at h
    · rename_i hp
      cases h
      exact hnone (hp.1 ▸ .stop) rfl rfl
    · cases h
  | fire =>
    simp only [next] at h
    split at h
    · rename_i batch hp
      cases h
      exact hnone (hp ▸ .fire batch) rfl rfl
    · cases h
  | answer c =>
    simp only [next] at h
    split at h
    · rename_i batch pending hp
      split at h
      · cases h
        exact hnone (hp ▸ .answer c batch pending) rfl rfl
      · cases h
    · cases h
  | leave =>
    simp only [next] at h
    split at h
    · rename_i hp
      cases h
      exact hnone (hp ▸ .leave) rfl rfl
    · cases h
  | _ =>
    simp only [next] at h
    (repeat' split at h) <;> cases h <;> exact hstay rfl rfl

end Step

/-! ## Shape and order -/

section Order

variable {p p' : Runner} {xs : List ℕ}

/-- What `takeBatch` has assembled so far is a batch. -/
def Runner.Shaped (cfg : Config) : Runner → Prop
  | .filling batch => IsBatch cfg batch
  | .lingering batch => IsBatch cfg batch ∧ batch.length < cfg.commitMaxBatch
  | _ => True

theorem isBatch_singleton (hmax : 1 ≤ cfg.commitMaxBatch) (hr : cfg.solo r = false) : IsBatch cfg [r] where
  nonempty := List.cons_ne_nil _ _
  length := hmax
  bytes := .inl rfl
  solo := by simpa using hr

theorem IsBatch.fill (h : IsBatch cfg batch) (hlen : batch.length < cfg.commitMaxBatch) (hr : cfg.solo r = false)
    (hb : batchBytes cfg batch + cfg.bytes r ≤ cfg.commitMaxBytes) :
    IsBatch cfg (batch ++ [r]) where
  nonempty := by simp
  length := by
    rw [List.length_append, List.length_singleton]
    omega
  bytes := by
    refine .inr ?_
    rw [batchBytes, List.map_append, List.sum_append]
    simpa [batchBytes] using hb
  solo := by
    intro x hx
    rcases List.mem_append.mp hx with hx | hx
    · exact h.solo x hx
    · exact (List.mem_singleton.mp hx) ▸ hr

/-- What the step of a goroutine keeps: the shape of what it assembles, the shape of what it begins, and the order. -/
structure Keeps (cfg : Config) (p : Runner) (xs : List ℕ) (p' : Runner) : Prop where
  shaped : p'.Shaped cfg
  unit : ∀ u ∈ begun p p', IsUnit cfg u
  order : (begun p p').getD [] ++ p'.inHand = p.inHand ++ xs

theorem keeps_openWith (hmax : 1 ≤ cfg.commitMaxBatch) (hidle : ∀ batch pending, p ≠ .committing batch pending)
    (hp : p.inHand ++ xs = [r]) : Keeps cfg p xs (openWith cfg r) := by
  unfold openWith
  split
  · rename_i hr
    have hb : begun p (.committing [r] none) = some [r] := by
      cases p with
      | committing batch pending => exact absurd rfl (hidle batch pending)
      | _ => rfl
    refine ⟨trivial, ?_, ?_⟩
    · rw [hb]
      rintro u hu
      cases hu
      exact .inl ⟨r, rfl, hr⟩
    · rw [hb, hp]
      rfl
  · rename_i hr
    have hb : begun p (.filling [r]) = none := by cases p <;> rfl
    refine ⟨isBatch_singleton hmax (by simpa using hr), ?_, ?_⟩
    · rw [hb]
      rintro u hu
      cases hu
    · rw [hb, hp]
      rfl

theorem keeps_fill (hidle : ∀ batch pending, p ≠ .committing batch pending) (hp : p.inHand = batch)
    (h : IsBatch cfg batch) (hlen : batch.length < cfg.commitMaxBatch) : Keeps cfg p [r] (fill cfg batch r) := by
  unfold fill
  split
  · have hb : begun p (.committing batch (some r)) = some batch := by
      cases p with
      | committing batch pending => exact absurd rfl (hidle batch pending)
      | _ => rfl
    refine ⟨trivial, ?_, ?_⟩
    · rw [hb]
      rintro u hu
      cases hu
      exact .inr h
    · rw [hb, hp]
      rfl
  · rename_i hfit
    have hb : begun p (.filling (batch ++ [r])) = none := by cases p <;> rfl
    rw [not_or, Bool.not_eq_true, not_lt] at hfit
    refine ⟨h.fill hlen hfit.1 hfit.2, ?_, ?_⟩
    · rw [hb]
      rintro u hu
      cases hu
    · rw [hb, hp]
      rfl

/-- A batch that is complete goes to `commitBatch`. -/
theorem keeps_commit (hb : begun p (.committing batch none) = some batch) (hp : p.inHand = batch)
    (h : IsBatch cfg batch) : Keeps cfg p [] (.committing batch none) where
  shaped := trivial
  unit := by
    rw [hb]
    rintro u hu
    cases hu
    exact .inr h
  order := by
    rw [hb, hp]
    rfl

/-- A step that begins nothing and receives nothing. -/
theorem keeps_quiet (hb : begun p p' = none) (hs : p'.Shaped cfg) (hh : p'.inHand = p.inHand) : Keeps cfg p [] p' where
  shaped := hs
  unit := by
    rw [hb]
    rintro u hu
    cases hu
  order := by
    rw [hb, hh]
    simp

/-- **Step.** -/
theorem Advances.keeps (hmax : 1 ≤ cfg.commitMaxBatch) (h : Advances cfg p xs p') (hs : p.Shaped cfg) :
    Keeps cfg p xs p' := by
  cases h with
  | stay => exact keeps_quiet (by cases p <;> rfl) hs rfl
  | recv hr =>
    unfold received at hr
    split at hr
    · cases hr
      exact keeps_openWith hmax (by simp) rfl
    · cases hr
      exact keeps_openWith hmax (by simp) rfl
    · split at hr
      · rename_i batch hlen
        cases hr
        exact keeps_fill (by simp) rfl hs hlen
      · cases hr
    · cases hr
      exact keeps_fill (by simp) rfl hs.1 hs.2
    · cases hr
  | ask | stop | empty | leave => exact keeps_quiet rfl trivial rfl
  | turn r => exact keeps_openWith hmax (by simp) rfl
  | done pending => exact keeps_quiet rfl trivial rfl
  | full batch => exact keeps_commit rfl rfl hs
  | linger hlen => exact keeps_quiet rfl ⟨hs, hlen⟩ rfl
  | fire batch => exact keeps_commit rfl rfl hs.1
  | answer => exact keeps_quiet rfl trivial rfl

end Order

/-! ## Whole runs -/

theorem arrivals_concat (h : List (Lib.Visit Threads Act Unit)) (v : Lib.Visit Threads Act Unit) :
    arrivals (h ++ [v]) = arrivals h ++ taken v := by simp [arrivals]

theorem executions_concat (h : List (Lib.Visit Threads Act Unit)) (v : Lib.Visit Threads Act Unit) :
    executions (h ++ [v]) = executions h ++ (begun v.pre.runner v.post.runner).toList := by
  cases hb : begun v.pre.runner v.post.runner <;> simp [executions, hb]

theorem fillDefaults_max (c : Settings) (bytes : ℕ → ℤ) (solo : ℕ → Bool) :
    1 ≤ (c.fillDefaults bytes solo).commitMaxBatch := by
  simp only [Settings.fillDefaults]
  split <;> omega

/-- **Run.** -/
theorem Interleaves.keeps {h : List (Lib.Visit Threads Act Unit)} (hmax : 1 ≤ cfg.commitMaxBatch)
    (r : Interleaves cfg h s) : s.runner.Shaped cfg ∧ (∀ u ∈ executions h, IsUnit cfg u) ∧
      arrivals h = (executions h).flatten ++ s.runner.inHand := by
  refine r.invariant (C := fun _ _ => True)
    (I := fun h s => s.runner.Shaped cfg ∧ (∀ u ∈ executions h, IsUnit cfg u) ∧
      arrivals h = (executions h).flatten ++ s.runner.inHand) (fun _ _ _ _ => trivial) ⟨trivial, by
        simp [executions], rfl⟩ ?_
  rintro h s a ⟨hshape, hunits, horder⟩ -
  have hadv : Advances cfg s.runner (taken (visit (Threads.exec cfg) s a)) (s.exec cfg a).1.runner := by
    show Advances cfg s.runner (s.ch.take (s.ch.length - (s.exec cfg a).1.ch.length)) (s.exec cfg a).1.runner
    unfold Threads.exec
    cases hn : next cfg s a with
    | none =>
      rw [Option.getD_none, Nat.sub_self, List.take_zero]
      exact .stay _
    | some s' => exact advances_of_next hn
  have hk := hadv.keeps hmax hshape
  refine ⟨hk.shaped, ?_, ?_⟩
  · rw [executions_concat]
    intro u hu
    rcases List.mem_append.mp hu with hu | hu
    · exact hunits u hu
    · exact hk.unit u (Option.mem_toList.mp hu)
  · rw [arrivals_concat, executions_concat, List.flatten_append, horder, List.append_assoc, ← hk.order,
      List.append_assoc]
    congr 2
    show (begun s.runner (s.exec cfg a).1.runner).getD [] = (begun s.runner (s.exec cfg a).1.runner).toList.flatten
    cases hb : begun s.runner (s.exec cfg a).1.runner with
    | none => simp
    | some u => simp

/-- **Main theorem.** For every configuration and every interleaving the received requests are those of the executed
units, in order, followed by what the goroutine has in hand; at its end that is nothing. Every unit is a solo command
alone, or a batch within the budgets. -/
theorem batches_in_order (c : Settings) (bytes : ℕ → ℤ) (solo : ℕ → Bool) {h : List (Lib.Visit Threads Act Unit)}
    {s : Threads} (r : Interleaves (c.fillDefaults bytes solo) h s) :
    arrivals h = (executions h).flatten ++ s.runner.inHand ∧
    (s.runner = .leaving ∨ s.runner = .ended → arrivals h = (executions h).flatten) ∧
    ∀ u ∈ executions h, IsUnit (c.fillDefaults bytes solo) u := by
  obtain ⟨-, hunits, horder⟩ := r.keeps (fillDefaults_max c bytes solo)
  refine ⟨horder, ?_, hunits⟩
  rintro (hp | hp)
  · rw [horder, hp]
    exact List.append_nil _
  · rw [horder, hp]
    exact List.append_nil _

/-- Five requests of one byte, the third of them solo, and room for two bytes in a batch. -/
def smallBudget : Config := Settings.fillDefaults ⟨0, 0, 2, 0⟩ (fun _ => 1) (· == 2)

/-- The callers send, the goroutine works, and a shutdown finds two requests queued. -/
def busyRun : List Act :=
  ([0, 1, 2, 3, 4].flatMap fun c => [.call c, .check c, .check c, .check c, .send c]) ++
  [.turn, .recv, .recv, .recv, .answer 1, .answer 0, .turn, .turn, .answer 2, .turn, .close 0, .close 0,
    .turn, .seeStop, .recv, .recv, .pass, .answer 3, .answer 4, .turn, .turn, .seeStop, .pass, .leave]

theorem batches_in_order_busyRun :
    executions (trace (Threads.exec smallBudget) {} busyRun) = [[0, 1], [2], [3, 4]] ∧
    arrivals (trace (Threads.exec smallBudget) {} busyRun) =
      (executions (trace (Threads.exec smallBudget) {} busyRun)).flatten :=
  ⟨by decide +kernel, (batches_in_order ⟨0, 0, 2, 0⟩ (fun _ => 1) (· == 2) (history_trace _ busyRun)).2.1
    (.inr (by decide +kernel))⟩

end Messq.Writer

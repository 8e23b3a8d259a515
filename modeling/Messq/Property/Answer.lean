import Messq.Writer.Commit

/-! # How a batch is answered

A rejected caller is answered in the middle of the batch, everybody else at its end. `Looped` says what the loop leaves
behind; `answers_iff` draws the conclusion: a batch is answered as it should be exactly if it does not break after a
caller was turned away. -/

namespace Messq.Writer

variable {δ ρ η ε : Type} {o : Ended δ η ε} {rs : List (Request δ ρ η ε)}

/-! ## Closing -/

section Close

variable {f : Request δ ρ η ε → Option (Request δ ρ η ε)} {r : Request δ ρ η ε}

theorem closeAll_panics : (closeAll f rs).2 = true ↔ ∃ r ∈ rs, (f r).isSome ∧ r.closes ≠ 0 := by
  induction rs with
  | nil => simp [closeAll]
  | cons r rs ih =>
    cases hf : f r with
    | none => simp [closeAll, hf, ih]
    | some r' => by_cases hr : r.closes = 0 <;> simp [closeAll, hf, hr, ih]

theorem closeAll_eq (h : (closeAll f rs).2 = false) :
    (closeAll f rs).1 = rs.map fun r => ((f r).map Request.close).getD r := by
  induction rs with
  | nil => rfl
  | cons r rs ih =>
    cases hf : f r with
    | none =>
      simp only [closeAll, hf] at h ⊢
      simp [ih h, hf]
    | some r' =>
      by_cases hr : r.closes = 0
      · simp only [closeAll, hf, hr, if_true] at h ⊢
        simp [ih h, hf]
      · simp [closeAll, hf, hr] at h

/-- A request is left alone or closed, also when the closing stops halfway. -/
theorem mem_closeAll (h : r ∈ (closeAll f rs).1) : r ∈ rs ∨ ∃ r₀ r', f r₀ = some r' ∧ r = r'.close := by
  induction rs with
  | nil => exact .inl h
  | cons r₀ rs ih =>
    have hrest : r ∈ (closeAll f rs).1 → r ∈ r₀ :: rs ∨ ∃ r₀ r', f r₀ = some r' ∧ r = r'.close :=
      fun h => (ih h).imp_left (List.mem_cons_of_mem _)
    cases hf : f r₀ with
    | none =>
      simp only [closeAll, hf, List.mem_cons] at h
      exact h.elim (fun he => .inl (he ▸ List.mem_cons_self)) hrest
    | some r' =>
      by_cases hr : r₀.closes = 0
      · simp only [closeAll, hf, hr, if_true, List.mem_cons] at h
        exact h.elim (fun he => .inr ⟨r₀, r', hf, he⟩) hrest
      · simp only [closeAll, hf, hr, if_false, List.mem_cons] at h
        exact h.elim (fun he => .inr ⟨r₀, r', hf, he⟩) fun h => .inl (List.mem_cons_of_mem _ h)

end Close

/-! ## The loop -/

def Turn.isBroken : Turn ρ η ε → Bool
  | .broken _ _ => true
  | _ => false

def Turn.isRejected : Turn ρ η ε → Bool
  | .rejected _ => true
  | _ => false

/-- What becomes of the commands, each applied to what those before it have left; a rejected one leaves nothing. -/
def turns (env : Env ε) (now : ℤ) : ℕ → δ → List (Cmd δ ρ η ε) → List (Turn ρ η ε)
  | _, _, [] => []
  | i, db, c :: cs =>
    match turn env i (applyCommand c now db).2 with
    | .kept res evs => .kept res evs :: turns env now (i + 1) (applyCommand c now db).1 cs
    | t => t :: turns env now (i + 1) db cs

/-- The turns before the batch breaks, if it does. -/
def unbroken (ts : List (Turn ρ η ε)) : List (Turn ρ η ε) := ts.takeWhile fun t => !t.isBroken

/-- What the loop leaves of a batch with the turns `ts`. -/
structure Looped (ts : List (Turn ρ η ε)) (cmds : List (Cmd δ ρ η ε)) (batch : List (Request δ ρ η ε))
    (o : Ended δ η ε) : Prop where
  same : batch.map Request.cmd = cmds
  calm : o ≠ .panicked
  through : (∃ db evs, o = .through db evs) ↔ ∀ t ∈ ts, t.isBroken = false
  closed : ∀ r ∈ batch, r.closes = 0 ∧ r.err = none ∨ r.closes = 1 ∧ r.err ≠ none
  rejects : (∃ r ∈ batch, r.closes ≠ 0) ↔ ∃ t ∈ unbroken ts, t.isRejected = true
  kept : (∀ t ∈ ts, t.isBroken = false) → ∀ (i : ℕ) (r : Request δ ρ η ε), batch[i]? = some r → r.err = none →
    ∃ res evs, ts[i]? = some (Turn.kept res evs) ∧ r.res = some res

theorem looped (env : Env ε) (now : ℤ) (i : ℕ) (db : δ) (events : List η) (cmds : List (Cmd δ ρ η ε)) :
    Looped (turns env now i db cmds) cmds (commitLoop env now i db events (cmds.map Request.new)).1
      (commitLoop env now i db events (cmds.map Request.new)).2 := by
  induction cmds generalizing i db events with
  | nil => exact ⟨rfl, by simp [commitLoop], by simp [commitLoop, turns], by simp [commitLoop],
      by simp [commitLoop, turns, unbroken], by simp [commitLoop]⟩
  | cons c cs ih =>
    cases ht : turn env i (applyCommand c now db).2 with
    | kept res evs =>
      have h := ih (i + 1) (applyCommand c now db).1 (events ++ evs)
      simp only [List.map_cons, commitLoop, turns, Request.new, ht] at h ⊢
      refine ⟨by simp [h.same], h.calm, by simp [h.through, Turn.isBroken], by simpa using h.closed,
        by simpa [unbroken, Turn.isBroken, Turn.isRejected] using h.rejects, fun hb j r hj hr => ?_⟩
      cases j with
      | zero =>
        obtain rfl : _ = r := by simpa using hj
        exact ⟨res, evs, rfl, rfl⟩
      | succ j => exact h.kept (fun t ht => hb t (List.mem_cons_of_mem _ ht)) j r (by simpa using hj) hr
    | rejected err =>
      have h := ih (i + 1) db events
      simp only [List.map_cons, commitLoop, turns, Request.new, ht, Request.close, if_true] at h ⊢
      refine ⟨by simp [h.same], h.calm, by simp [h.through, Turn.isBroken], by simpa using h.closed,
        by simp [unbroken, Turn.isBroken, Turn.isRejected], fun hb j r hj hr => ?_⟩
      cases j with
      | zero =>
        obtain rfl : _ = r := by simpa using hj
        cases hr
      | succ j => exact h.kept (fun t ht => hb t (List.mem_cons_of_mem _ ht)) j r (by simpa using hj) hr
    | broken op cause =>
      -- the requests from here on are as they came
      simp only [List.map_cons, commitLoop, turns, Request.new, ht]
      exact ⟨by simp [Function.comp_def], nofun, by simp [Turn.isBroken], by simp,
        by simp [unbroken, Turn.isBroken], by simp [Turn.isBroken]⟩

/-! ## The batch -/

/-- The turns of the commands of a batch. -/
def batchTurns (env : Env ε) (w : State δ η ε) (cmds : List (Cmd δ ρ η ε)) : List (Turn ρ η ε) :=
  turns env (batchNow env w) 0 w.db cmds

/-- COMMIT is reached and returns nil. -/
structure Committed (env : Env ε) (w : State δ η ε) (cmds : List (Cmd δ ρ η ε)) : Prop where
  unlatched : w.latched = none
  begun : env.beginTx = none
  whole : ∀ t ∈ batchTurns env w cmds, t.isBroken = false
  hook : env.beforeCommit = none
  commit : env.commit = none

/-- A caller is turned away before the batch breaks, if it does. -/
structure Rejects (env : Env ε) (w : State δ η ε) (cmds : List (Cmd δ ρ η ε)) : Prop where
  unlatched : w.latched = none
  begun : env.beginTx = none
  rejected : ∃ t ∈ unbroken (batchTurns env w cmds), t.isRejected = true

/-- A batch that is not committed: `rs` is what `failAll` finds of it. -/
structure Failed (env : Env ε) (w : State δ η ε) (cmds : List (Cmd δ ρ η ε)) (rs : List (Request δ ρ η ε))
    (err : ReplyErr ε) (out : Answered δ ρ η ε) : Prop where
  uncommitted : ¬ Committed env w cmds
  same : rs.map Request.cmd = cmds
  closed : ∀ r ∈ rs, r.closes = 0 ∧ r.err = none ∨ r.closes = 1 ∧ r.err ≠ none
  rejects : (∃ r ∈ rs, r.closes ≠ 0) ↔ Rejects env w cmds
  batch : out.batch = (failAll rs err).1
  panicked : out.panicked = (failAll rs err).2
  silent : out.writer.evCh = w.evCh

theorem latch_evCh (w : State δ η ε) (fe : FatalError ε) : (w.latch fe).evCh = w.evCh := by
  unfold State.latch
  split <;> rfl

section Batch

variable {env : Env ε} {w w' : State δ η ε} {cmds : List (Cmd δ ρ η ε)} {err : ReplyErr ε} {out : Answered δ ρ η ε}

/-- Nobody has been answered before the loop. -/
theorem failed_fresh (h : w.latched ≠ none ∨ env.beginTx ≠ none)
    (hb : out.batch = (failAll (cmds.map Request.new) err).1)
    (hp : out.panicked = (failAll (cmds.map Request.new) err).2) (he : out.writer.evCh = w.evCh) :
    Failed env w cmds (cmds.map Request.new) err out where
  uncommitted hc := h.elim (· hc.unlatched) (· hc.begun)
  same := by simp [Function.comp_def]
  closed := by simp
  rejects := iff_of_false (by simp) fun hr => h.elim (· hr.unlatched) (· hr.begun)
  batch := hb
  panicked := hp
  silent := he

/-- The teardown after the loop. -/
theorem failed_looped {op : Op} {cause : ε} (hl : w.latched = none) (hb : env.beginTx = none)
    (h : Looped (batchTurns env w cmds) cmds rs o) (hc : ¬ Committed env w cmds) (he : w'.evCh = w.evCh) :
    Failed env w cmds rs (.commitUnknown op cause) (doomed env w' rs op cause) where
  uncommitted := hc
  same := h.same
  closed := h.closed
  rejects := h.rejects.trans ⟨fun hr => ⟨hl, hb, hr⟩, Rejects.rejected⟩
  batch := rfl
  panicked := rfl
  silent := (latch_evCh _ _).trans he

/-- **Step.** A batch fails as a whole, or it is committed and those are answered who have not been. -/
theorem commitBatch_cases (env : Env ε) (w : State δ η ε) (cmds : List (Cmd δ ρ η ε)) :
    (∃ rs err, Failed env w cmds rs err (commitBatch env w (cmds.map Request.new))) ∨
    Committed env w cmds ∧ ∃ rs o, Looped (batchTurns env w cmds) cmds rs o ∧
      (commitBatch env w (cmds.map Request.new)).panicked = false ∧
      (commitBatch env w (cmds.map Request.new)).batch = (replyAll rs).1 ∧ (replyAll rs).2 = false := by
  cases hl : w.latched with
  | some fe =>
    refine .inl ⟨_, .latched fe, failed_fresh (.inl (by simp [hl])) ?_ ?_ ?_⟩ <;> simp [commitBatch, hl]
  | none =>
    cases hb : env.beginTx with
    | some e =>
      refine .inl ⟨_, .commitUnknown .begin e, failed_fresh (.inr (by simp [hb])) ?_ ?_ ?_⟩ <;>
        simp [commitBatch, hl, hb, doomed, latch_evCh]
    | none =>
      have h := looped env (batchNow env w) 0 w.db [] cmds
      unfold commitBatch
      simp only [hl, hb]
      generalize commitLoop env (batchNow env w) 0 w.db [] (cmds.map Request.new) = loop at h ⊢
      obtain ⟨rs, o⟩ := loop
      have hcom : Committed env w cmds → ∃ db evs, o = .through db evs := fun hc => h.through.mpr hc.whole
      cases o with
      | panicked => exact absurd rfl h.calm
      | doomed op cause =>
        refine .inl ⟨rs, _, failed_looped hl hb h (fun hc => ?_) rfl⟩
        obtain ⟨_, _, ho⟩ := hcom hc
        cases ho
      | through db events =>
        cases hk : env.beforeCommit with
        | some e => exact .inl ⟨rs, _, failed_looped hl hb h (fun hc => by simp [hc.hook] at hk) rfl⟩
        | none =>
          cases hm : env.commit with
          | some e =>
            refine .inl ⟨rs, _, failed_looped hl hb h (fun hc => by simp [hc.commit] at hm) ?_⟩
            split <;> rfl
          | none =>
            have hcalm : (replyAll rs).2 = false := by
              rw [← Bool.not_eq_true, replyAll, closeAll_panics]
              rintro ⟨r, hr, hsome, hne⟩
              rcases h.closed r hr with ⟨h0, -⟩ | ⟨-, he⟩
              · exact hne h0
              · simp [Option.isNone_iff_eq_none, he] at hsome
            refine .inr ⟨⟨hl, hb, h.through.mp ⟨db, events, rfl⟩, hk, hm⟩, rs, _, h, ?_⟩
            dsimp only
            generalize replyAll rs = reply at hcalm ⊢
            obtain ⟨batch, panicked⟩ := reply
            cases hcalm
            exact ⟨rfl, rfl, rfl⟩

/-- The batch is answered as it should be: every caller once, a caller without an error only after its command was
applied and COMMIT returned nil, and nothing goes to the sink before that. -/
structure Answers (env : Env ε) (w : State δ η ε) (cmds : List (Cmd δ ρ η ε)) (out : Answered δ ρ η ε) : Prop where
  calm : out.panicked = false
  same : out.batch.map Request.cmd = cmds
  once : ∀ r ∈ out.batch, r.closes = 1
  honest : ∀ (i : ℕ) (r : Request δ ρ η ε), out.batch[i]? = some r → r.closes ≠ 0 → r.err = none →
    Committed env w cmds ∧ ∃ res evs, (batchTurns env w cmds)[i]? = some (Turn.kept res evs) ∧ r.res = some res
  silent : out.writer.evCh ≠ w.evCh → Committed env w cmds

theorem Failed.answers_unless (h : Failed env w cmds rs err out) : Answers env w cmds out ↔ ¬ Rejects env w cmds := by
  have hpanics : out.panicked = true ↔ Rejects env w cmds := by
    rw [h.panicked, failAll, closeAll_panics, ← h.rejects]
    simp
  refine ⟨fun ha hr => by simp [ha.calm] at hpanics; exact hpanics hr, fun hr => ?_⟩
  have hcalm : (failAll rs err).2 = false := by
    rw [← h.panicked, ← Bool.not_eq_true, hpanics]
    exact hr
  have hzero : ∀ r ∈ rs, r.closes = 0 := fun r hm => Classical.byContradiction fun hne => hr (h.rejects.mp ⟨r, hm, hne⟩)
  have hbatch : out.batch = rs.map fun r => { r with err := some err }.close := h.batch.trans (closeAll_eq hcalm)
  refine ⟨h.panicked.trans hcalm, ?_, ?_, fun i r hi _ he => ?_, fun hne => absurd h.silent hne⟩
  · rw [hbatch, List.map_map, ← h.same]
    rfl
  · rw [hbatch]
    simpa [Request.close] using hzero
  · have hm := List.mem_of_getElem? hi
    rw [hbatch] at hm
    obtain ⟨_, -, rfl⟩ := List.mem_map.mp hm
    cases he

/-- The second and the third part hold also where a caller is answered twice. -/
theorem Failed.honest (h : Failed env w cmds rs err out) :
    (∀ r ∈ out.batch, r.closes ≠ 0 → r.err ≠ none) ∧ out.writer.evCh = w.evCh := by
  refine ⟨fun r hm hc => ?_, h.silent⟩
  rw [h.batch] at hm
  rcases mem_closeAll hm with hm | ⟨r₀, r', hf, rfl⟩
  · rcases h.closed r hm with ⟨h0, -⟩ | ⟨-, he⟩
    · exact absurd h0 hc
    · exact he
  · cases hf
    exact nofun

theorem Committed.answers (hc : Committed env w cmds) (h : Looped (batchTurns env w cmds) cmds rs o)
    (hp : out.panicked = false) (hb : out.batch = (replyAll rs).1) (hcalm : (replyAll rs).2 = false) :
    Answers env w cmds out := by
  have hbatch : out.batch = rs.map fun r => if r.err.isNone then r.close else r := by
    rw [hb, replyAll, closeAll_eq hcalm]
    refine List.map_congr_left fun r _ => ?_
    split <;> rfl
  refine ⟨hp, ?_, fun r hm => ?_, fun i r hi _ he => ⟨hc, ?_⟩, fun _ => hc⟩
  · rw [hbatch, List.map_map, ← h.same]
    refine List.map_congr_left fun r _ => ?_
    simp only [Function.comp_apply]
    split <;> rfl
  · rw [hbatch] at hm
    obtain ⟨r₀, hm₀, rfl⟩ := List.mem_map.mp hm
    rcases h.closed r₀ hm₀ with ⟨h0, he⟩ | ⟨h1, he⟩
    · simp [he, Request.close, h0]
    · simp [Option.isNone_iff_eq_none, he, h1]
  · rw [hbatch, List.getElem?_map, Option.map_eq_some_iff] at hi
    obtain ⟨r₀, hi, rfl⟩ := hi
    have he₀ : r₀.err = none := by
      split at he <;> exact he
    obtain ⟨res, evs, ht, hres⟩ := h.kept hc.whole i r₀ hi he₀
    exact ⟨res, evs, ht, by split <;> exact hres⟩

end Batch

/-- **Answers.** A batch is answered as it should be exactly if it is committed whenever one of its callers was turned
away on the way. -/
theorem answers_iff (env : Env ε) (w : State δ η ε) (cmds : List (Cmd δ ρ η ε)) :
    Answers env w cmds (commitBatch env w (cmds.map Request.new)) ↔ (Rejects env w cmds → Committed env w cmds) := by
  rcases commitBatch_cases env w cmds with ⟨rs, err, h⟩ | ⟨hc, rs, o, h, hp, hb, hcalm⟩
  · rw [h.answers_unless]
    exact ⟨fun hr hrej => absurd hrej hr, fun hi hrej => h.uncommitted (hi hrej)⟩
  · exact iff_of_true (hc.answers h hp hb hcalm) fun _ => hc

/-- Success and events are honest in every batch, a panicking one included. -/
theorem commitBatch_honest (env : Env ε) (w : State δ η ε) (cmds : List (Cmd δ ρ η ε)) :
    (∀ (i : ℕ) (r : Request δ ρ η ε), (commitBatch env w (cmds.map Request.new)).batch[i]? = some r → r.closes ≠ 0 →
      r.err = none → Committed env w cmds ∧
        ∃ res evs, (batchTurns env w cmds)[i]? = some (Turn.kept res evs) ∧ r.res = some res) ∧
    ((commitBatch env w (cmds.map Request.new)).writer.evCh ≠ w.evCh → Committed env w cmds) := by
  rcases commitBatch_cases env w cmds with ⟨rs, err, h⟩ | ⟨hc, rs, o, h, hp, hb, hcalm⟩
  · exact ⟨fun i r hi hc he => absurd he (h.honest.1 r (List.mem_of_getElem? hi) hc), fun hne => absurd h.honest.2 hne⟩
  · have ha := hc.answers h hp hb hcalm
    exact ⟨ha.honest, ha.silent⟩

/-! ## A batch that breaks after a rejection -/

def calmEnv : Env ℕ where
  clock := 1
  failedAt := 2
  classify _ := .unknown

def rejectedCmd : Cmd ℕ ℕ ℕ ℕ := ⟨fun _ db => (db, .rejected 7)⟩

def storedCmd : Cmd ℕ ℕ ℕ ℕ := ⟨fun _ db => (db + 1, .ok db [db])⟩

/-- COMMIT fails after the first caller was turned away: `failAll` closes its channel again, the goroutine panics and
the second caller is never answered. -/
theorem rejected_caller_closed_twice :
    (commitBatch { calmEnv with commit := some 5 } { db := 0 }
      ([rejectedCmd, storedCmd].map Request.new)).panicked = true ∧
    (commitBatch { calmEnv with commit := some 5 } { db := 0 } ([rejectedCmd, storedCmd].map Request.new)).batch.map
      Request.closes = [2, 0] := by decide

end Messq.Writer

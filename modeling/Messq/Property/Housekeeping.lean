import Messq.Janitor

/-! # What a tick of the janitor touches

The jobs ask their budgets for rows, but a refused request only ends a run, and the tick starts the next one: the
commands of a tick do not depend on the allowance. The dedup job goes round the list of streams. -/

namespace Messq.Janitor

variable {j : DedupJob} {as : List Answer} {names streams : List Bytes}

/-! ## Turns without an allowance -/

/-- The command after which a job that drains a backlog is not run again. -/
def Answer.final (a : Answer) : Bool := a.failed || !a.more || a.expired || a.cancelled

/-- The sweep after which the dedup job leaves its window. -/
def Answer.stops (a : Answer) : Bool := a.failed || a.expired

/-- The commands up to the first one with which the work ends; the one behind the last answer fails. -/
def upTo (ends : Answer → Bool) : List Answer → List Answer
  | [] => [lost]
  | a :: as => if ends a then [a] else a :: upTo ends as

/-- The whole window of `limit` streams at the cursor is swept, the list of `n` streams goes on behind it, and the
janitor is not stopped. -/
def Through (limit cursor n : ℕ) (as : List Answer) : Prop :=
  cursor + limit < n ∧ limit ≤ as.length ∧ (∀ a ∈ as.take limit, a.stops = false) ∧
    (as.take limit).getLast?.any Answer.cancelled = false

instance (limit cursor n : ℕ) (as : List Answer) : Decidable (Through limit cursor n as) := by
  unfold Through; infer_instance

/-- The sweeps the dedup job has to issue: one for each stream of the window at the cursor until one fails or the time
is up, and then those of the next window, if there is one. -/
def windows (limit : ℕ) : List (Option (List Bytes)) → ℕ → List Answer → List Answer
  | [], _, _ => []
  | listing :: listings, cursor, as =>
    let n := (listing.getD []).length
    (upTo Answer.stops as).take (min limit (n - cursor)) ++
      if Through limit cursor n as then windows limit listings (cursor + limit) (as.drop limit) else []

/-- The commands a job has to issue until its work is done, its time is up or the janitor is stopped. -/
def Job.demand (as : List Answer) : Job → List Answer
  | .retention | .reaper | .events => upTo Answer.final as
  | .dedup listings j => windows j.limit listings j.cursor as
  | .checkpoint | .vacuum | .stats => []

/-- The commands of all due jobs. -/
def demand : List (Job × List Answer) → List Answer
  | [] => []
  | (job, as) :: due => job.demand as ++ if (job.demand as).getLast?.any Answer.cancelled then [] else demand due

/-- A run issues the commands in demand up to where it stops; if the job is run again, it has used an answer. -/
def Ran.Serves (r : Ran) (wanted : List Answer) (next : List Answer → List Answer) (as : List Answer) : Prop :=
  wanted = r.used ++ (if r.goesOn then next r.rest else []) ∧ (r.goesOn = true → r.rest.length < as.length)

theorem runRetention_serves (b : Budget) (as : List Answer) :
    (runRetention b as).Serves (upTo Answer.final as) (upTo Answer.final) as := by
  cases as with
  | nil => simp [Ran.Serves, runRetention, upTo, Ran.goesOn]
  | cons a as =>
    by_cases hf : a.failed = true
    · simp [Ran.Serves, runRetention, upTo, Ran.goesOn, Answer.final, hf]
    · cases hm : a.more <;> cases he : a.expired <;> cases hc : a.cancelled <;>
        simp [Ran.Serves, runRetention, upTo, Ran.goesOn, Answer.final, hf, hm, he, hc]

theorem drain_used_ne_nil (moreOnCancel : Bool) (as : List Answer) (rows : ℕ) (b : Budget) :
    (drain moreOnCancel as rows b false).used ≠ [] := by
  cases as with
  | nil => simp [drain]
  | cons a as =>
    unfold drain
    split_ifs <;> simp

/-- A run that goes on after its first command stops as the rest of it does. -/
theorem Ran.goesOn_cons {r : Ran} (h : r.used ≠ []) (a : Answer) :
    Ran.goesOn { r with used := a :: r.used } = r.goesOn := by
  obtain ⟨c, cs, hcs⟩ := List.exists_cons_of_ne_nil h
  simp [Ran.goesOn, hcs, List.getLast?_cons_cons]

-- A refused request for rows ends the run with more work to do, and an admitted one goes on in the same run: the
-- commands are the same.
theorem drain_serves (moreOnCancel : Bool) (as : List Answer) (rows : ℕ) (b : Budget) :
    (drain moreOnCancel as rows b false).Serves (upTo Answer.final as) (upTo Answer.final) as := by
  induction as generalizing rows b with
  | nil => simp [Ran.Serves, drain, upTo, Ran.goesOn]
  | cons a as ih =>
    by_cases hf : a.failed = true
    · simp [Ran.Serves, drain, upTo, Ran.goesOn, Answer.final, hf]
    by_cases hgo : (a.more && !a.expired && (b.take a.rows).1) = true
    · obtain ⟨⟨hm, he⟩, ht⟩ : (a.more = true ∧ a.expired = false) ∧ (b.take a.rows).1 = true := by simpa using hgo
      cases hc : a.cancelled with
      | true => simp [Ran.Serves, drain, upTo, Ran.goesOn, Answer.final, hf, hm, he, ht, hc]
      | false =>
        have hfinal : a.final = false := by simp [Answer.final, hf, hm, he, hc]
        obtain ⟨hw, hlt⟩ := ih (rows + a.rows) (b.take a.rows).2
        have hstep : drain moreOnCancel (a :: as) rows b false =
            { drain moreOnCancel as (rows + a.rows) (b.take a.rows).2 false with
              used := a :: (drain moreOnCancel as (rows + a.rows) (b.take a.rows).2 false).used } := by
          simp [drain, hf, hm, he, ht, hc]
        rw [hstep]
        refine ⟨?_, ?_⟩
        · rw [Ran.goesOn_cons (drain_used_ne_nil _ _ _ _)]
          simp only [upTo, hfinal, Bool.false_eq_true, if_false, List.cons_append]
          rw [← hw]
        · rw [Ran.goesOn_cons (drain_used_ne_nil _ _ _ _)]
          intro h
          exact (hlt h).trans (Nat.lt_succ_self _)
    · -- the run ends here; whether the job is run again is what `final` says
      cases hm : a.more <;> cases he : a.expired <;> cases hc : a.cancelled <;>
        simp_all [Ran.Serves, drain, upTo, Ran.goesOn, Answer.final]

/-! ## The dedup job -/

theorem sweepWindow_used (names : List Bytes) (as : List Answer) :
    (sweepWindow names as).1 = (upTo Answer.stops as).take names.length := by
  induction names generalizing as with
  | nil => simp [sweepWindow]
  | cons name names ih =>
    cases as with
    | nil => simp [sweepWindow, upTo]
    | cons a as =>
      by_cases ha : (a.failed || a.expired) = true
      · simp [sweepWindow, upTo, Answer.stops, ha]
      · simp only [sweepWindow, upTo, Answer.stops, ha, Bool.false_eq_true, if_false, List.length_cons,
          List.take_succ_cons]
        rw [ih as]

theorem sweepWindow_length (names : List Bytes) (as : List Answer) :
    (sweepWindow names as).1.length ≤ names.length := by
  rw [sweepWindow_used]
  exact List.length_take_le _ _

theorem sweepWindow_ne_nil (h : names ≠ []) (as : List Answer) : (sweepWindow names as).1 ≠ [] := by
  obtain ⟨name, names, rfl⟩ := List.exists_cons_of_ne_nil h
  cases as with
  | nil => simp [sweepWindow]
  | cons a as =>
    unfold sweepWindow
    split_ifs <;> simp

/-- A window that no sweep ends. -/
theorem sweepWindow_whole (hlen : names.length ≤ as.length) (h : ∀ a ∈ as.take names.length, a.stops = false) :
    sweepWindow names as = (as.take names.length, as.drop names.length) := by
  induction names generalizing as with
  | nil => rfl
  | cons name names ih =>
    obtain ⟨a, as, rfl⟩ := List.exists_cons_of_ne_nil (List.ne_nil_of_length_pos (Nat.zero_lt_of_lt hlen))
    have ha : (a.failed || a.expired) = false := h a (by simp)
    have hrest := ih (Nat.le_of_succ_le_succ hlen) fun c hc => h c (by simp [hc])
    simp [sweepWindow, ha, hrest]

/-- A window whose last stream was swept is one that no sweep ended, unless the last one did. -/
theorem sweepWindow_whole_of_length (hlen : (sweepWindow names as).1.length = names.length)
    (hlast : (sweepWindow names as).1.getLast?.any Answer.stops = false) :
    names.length ≤ as.length ∧ ∀ a ∈ as.take names.length, a.stops = false := by
  induction names generalizing as with
  | nil => simp
  | cons name names ih =>
    cases as with
    | nil => simp [sweepWindow, lost, Answer.stops] at hlast
    | cons a as =>
      by_cases ha : (a.failed || a.expired) = true
      · simp [sweepWindow, ha, Answer.stops] at hlast
      · simp only [sweepWindow, ha, Bool.false_eq_true, if_false, List.length_cons, Nat.succ_inj] at hlen hlast
        have hlast' : (sweepWindow names as).1.getLast?.any Answer.stops = false := by
          rcases hcs : (sweepWindow names as).1 with _ | ⟨c, cs⟩
          · rfl
          · rwa [hcs, List.getLast?_cons_cons] at hlast
        obtain ⟨hle, hall⟩ := ih hlen hlast'
        refine ⟨Nat.succ_le_succ hle, fun c hc => ?_⟩
        rcases List.mem_cons.mp hc with rfl | hc
        · exact Bool.eq_false_of_not_eq_true ha
        · exact hall c hc

@[simp] theorem DedupJob.length_window (j : DedupJob) (streams : List Bytes) :
    (j.window streams).length = j.bound streams.length := by
  simp [DedupJob.window, DedupJob.bound]

theorem DedupJob.bound_pos {n : ℕ} (h : j.cursor < n) : 0 < j.bound n := by
  have := j.limit_pos
  unfold DedupJob.bound
  omega

theorem last_unstopped (h : ∀ a ∈ as, a.stops = false) :
    as.getLast?.any Answer.failed = false ∧ as.getLast?.any Answer.expired = false := by
  cases hl : as.getLast? with
  | none => exact ⟨rfl, rfl⟩
  | some a => exact Bool.or_eq_false_iff.mp (h a (List.mem_of_getLast? hl))

/-- A run that sweeps its whole window leaves the cursor behind it. -/
theorem DedupJob.run_through (h : Through j.limit j.cursor streams.length as) :
    j.run as (some streams) = ⟨(j.window streams).take j.limit, { j with cursor := j.cursor + j.limit },
      as.take j.limit, some ⟨((as.take j.limit).map Answer.rows).sum, true⟩, as.drop j.limit⟩ := by
  obtain ⟨hlt, hlen, hok, -⟩ := h
  obtain ⟨name, names, rfl⟩ := List.exists_cons_of_ne_nil (List.ne_nil_of_length_pos (Nat.zero_lt_of_lt hlt))
  have hbound : j.bound (name :: names).length = j.limit := min_eq_left (by omega)
  have hwin : (j.window (name :: names)).length = j.limit := by rw [DedupJob.length_window, hbound]
  have hsweep : sweepWindow (j.window (name :: names)) as = (as.take j.limit, as.drop j.limit) := by
    rw [← hwin] at hlen hok ⊢
    exact sweepWindow_whole hlen hok
  have hunfailed : (as.take j.limit).getLast?.any Answer.failed = false := (last_unstopped hok).1
  have hcount : (as.take j.limit).length = j.limit := List.length_take_of_le hlen
  unfold DedupJob.run
  simp only [hsweep, hunfailed, Bool.false_eq_true, if_false, hcount, hbound, Nat.mod_eq_of_lt hlt, beq_self_eq_true,
    decide_eq_true hlt, Bool.and_self]

/-- The job is run again exactly when it swept a whole window and the list goes on. -/
theorem DedupJob.goesOn_iff (b : Budget) (listing : Option (List Bytes)) (listings : List (Option (List Bytes))) :
    ((Job.dedup (listing :: listings) j).run b as).2.goesOn = true ↔
      Through j.limit j.cursor (listing.getD []).length as := by
  simp only [Job.run, Ran.goesOn]
  rcases listing with _ | streams
  · simp [DedupJob.run, Through]
  refine ⟨fun h => ?_, fun h => ?_⟩
  · rcases streams with _ | ⟨name, names⟩
    · simp [DedupJob.run] at h
    unfold DedupJob.run at h
    dsimp only at h
    split_ifs at h with hf
    · simp at h
    · simp only [Option.any_some, Bool.and_eq_true, beq_iff_eq, decide_eq_true_eq, Bool.not_eq_true'] at h
      obtain ⟨⟨⟨hcount, hlt⟩, hexp⟩, hcan⟩ := h
      have hbound : j.bound (name :: names).length = j.limit := by
        rw [hcount] at hlt
        unfold DedupJob.bound at hlt ⊢
        omega
      have hwin : (j.window (name :: names)).length = j.limit := by rw [DedupJob.length_window, hbound]
      have hlast : (sweepWindow (j.window (name :: names)) as).1.getLast?.any Answer.stops = false := by
        revert hf hexp
        cases (sweepWindow (j.window (name :: names)) as).1.getLast? with
        | none => exact fun _ _ => rfl
        | some a => exact fun hf hexp => Bool.or_eq_false_iff.mpr ⟨Bool.eq_false_of_not_eq_true hf, hexp⟩
      obtain ⟨hle, hall⟩ := sweepWindow_whole_of_length (by rw [hcount, hbound, hwin]) hlast
      rw [sweepWindow_whole hle hall] at hcan
      rw [hwin] at hle hall hcan
      rw [hcount, hbound] at hlt
      exact ⟨hlt, hle, hall, hcan⟩
  · have hrun := j.run_through (show Through j.limit j.cursor streams.length as from h)
    rw [hrun]
    obtain ⟨-, -, hok, hcan⟩ := h
    simp [(last_unstopped hok).2, hcan]

/-- What a run of the dedup job issues. -/
theorem DedupJob.run_used (listing : Option (List Bytes)) :
    (j.run as listing).used = (upTo Answer.stops as).take (min j.limit ((listing.getD []).length - j.cursor)) := by
  rcases listing with _ | _ | ⟨name, names⟩
  · simp [DedupJob.run]
  · simp [DedupJob.run]
  · unfold DedupJob.run
    dsimp only
    split <;> exact (sweepWindow_used _ _).trans (by rw [DedupJob.length_window]; rfl)

theorem DedupJob.run_serves (b : Budget) (listing : Option (List Bytes)) (listings : List (Option (List Bytes))) :
    ((Job.dedup (listing :: listings) j).run b as).2.Serves ((Job.dedup (listing :: listings) j).demand as)
      (fun rest => ((Job.dedup (listing :: listings) j).run b as).1.demand rest) as := by
  have hiff := @DedupJob.goesOn_iff j as b listing listings
  unfold Ran.Serves
  by_cases hgo : Through j.limit j.cursor (listing.getD []).length as
  · rw [if_pos (hiff.mpr hgo)]
    rcases listing with _ | streams
    · exact absurd hgo.1 (Nat.not_lt_zero _)
    · have hpos := j.limit_pos
      have hlen := hgo.2.1
      have hrun := j.run_through (show Through j.limit j.cursor streams.length as from hgo)
      simp only [Job.run, Job.demand, windows, if_pos hgo, ← DedupJob.run_used, hrun, List.length_drop]
      exact ⟨trivial, fun _ => by omega⟩
  · rw [if_neg (mt hiff.mp hgo)]
    refine ⟨?_, fun h => absurd (hiff.mp h) hgo⟩
    simp only [Job.run, Job.demand, windows, if_neg hgo, DedupJob.run_used]

/-! ## The tick does what is in demand -/

theorem Job.run_serves (b : Budget) (as : List Answer) (job : Job) :
    (job.run b as).2.Serves (job.demand as) (fun rest => (job.run b as).1.demand rest) as := by
  cases job with
  | retention => exact runRetention_serves b as
  | reaper => exact drain_serves true as 0 b
  | events => exact drain_serves false as 0 b
  | dedup listings j =>
    cases listings with
    | nil => simp [Ran.Serves, Job.run, Job.demand, windows, Ran.goesOn]
    | cons listing listings => exact DedupJob.run_serves b listing listings
  | checkpoint | vacuum | stats => simp [Ran.Serves, Job.run, Job.demand, Ran.goesOn]

theorem takeTurn_eq_demand {fuel : ℕ} (h : as.length < fuel) (job : Job) (b : Budget) :
    takeTurn fuel job b as = job.demand as := by
  induction fuel generalizing as job b with
  | zero => omega
  | succ fuel ih =>
    obtain ⟨hw, hlt⟩ := job.run_serves b as
    rw [hw]
    unfold takeTurn
    dsimp only
    split_ifs with hgo
    · rw [ih (by have := hlt hgo; omega)]
    · rfl

theorem tick_eq_demand (maxRowsPerTick : ℤ) (due : List (Job × List Answer)) :
    tick maxRowsPerTick due = demand due := by
  induction due with
  | nil => rfl
  | cons d due ih =>
    obtain ⟨job, as⟩ := d
    simp only [tick, demand, takeTurn_eq_demand (Nat.lt_succ_self _), ih]

/-! ## The row cap -/

/-- The rows touched by each command. -/
def rows (commands : List Answer) : List ℕ := commands.map Answer.touched

/-- The cap on the rows of a tick: it is exceeded by one command at most, and no command starts once it is reached. -/
structure RowCap (m : ℕ) (slices : List ℕ) : Prop where
  excess : ∃ slice ∈ 0 :: slices, slices.sum ≤ m + slice
  stops : ∀ done slice later, slices = done ++ slice :: later → done.sum < m

theorem rowCap_iff_dropLast {m : ℕ} (hm : 0 < m) (slices : List ℕ) : RowCap m slices ↔ slices.dropLast.sum < m := by
  rcases slices.eq_nil_or_concat with rfl | ⟨init, last, rfl⟩
  · refine ⟨fun _ => by simpa using hm, fun _ => ⟨⟨0, by simp⟩, ?_⟩⟩
    intro done slice later h
    simp at h
  · simp only [List.concat_eq_append, List.dropLast_concat]
    refine ⟨fun h => h.stops init last [] rfl, fun h => ⟨⟨last, by simp, by simp; omega⟩, ?_⟩⟩
    -- what precedes a command is part of what precedes the last one
    intro done slice later hsplit
    have hinit := congrArg List.dropLast hsplit
    rw [List.dropLast_concat, List.dropLast_append_of_ne_nil (by simp)] at hinit
    have hpre : done <+: init := hinit ▸ List.prefix_append _ _
    exact (hpre.sublist.sum_le_sum (by simp)).trans_lt h

/-- The cap holds exactly when the work waiting for the jobs, but for the last command, is below it anyway. -/
theorem tick_rowCap_iff (m : ℕ) (hm : 0 < m) (due : List (Job × List Answer)) :
    RowCap m (rows (tick m due)) ↔ (rows (demand due)).dropLast.sum < m := by
  rw [tick_eq_demand]
  exact rowCap_iff_dropLast hm _

/-- A retention backlog of three batches: the allowance is five rows, and every batch takes five. -/
def backlog : List (Job × List Answer) :=
  [(.retention, [{ rows := 5, more := true }, { rows := 5, more := true }, { rows := 5 }])]

theorem backlog_exceeds_rowCap : rows (tick 5 backlog) = [5, 5, 5] ∧ ¬ RowCap 5 (rows (tick 5 backlog)) := by
  have hrows : rows (tick 5 backlog) = [5, 5, 5] := by decide
  refine ⟨hrows, ?_⟩
  rw [hrows]
  intro h
  obtain ⟨slice, hmem, hsum⟩ := h.excess
  have hle : slice ≤ 5 := by
    simp at hmem
    omega
  simp at hsum
  omega

theorem backlog_within_rowCap : RowCap 11 (rows (tick (11 : ℕ) backlog)) :=
  (tick_rowCap_iff 11 (by decide) backlog).mpr (by decide)

/-! ## The rotation of the dedup job -/

/-- Consecutive runs over one list of streams, each with the answers to its sweeps and the job it started from. -/
def DedupJob.rounds (streams : List Bytes) : DedupJob → List (List Answer) → List (DedupJob × DedupRan)
  | _, [] => []
  | j, as :: runs => (j, j.run as (some streams)) :: rounds streams (j.run as (some streams)).job runs

/-- The streams swept, in order. -/
def sweeps (rounds : List (DedupJob × DedupRan)) : List Bytes := (rounds.map fun r => r.2.swept).flatten

/-- No sweep of a run fails, however early its time is up. -/
def Unfailing (limit : ℕ) (as : List Answer) : Prop := limit ≤ as.length ∧ ∀ a ∈ as, a.failed = false

instance (limit : ℕ) (as : List Answer) : Decidable (Unfailing limit as) := inferInstanceAs (Decidable (_ ∧ _))

theorem sweepWindow_unfailing (h : Unfailing names.length as) :
    (sweepWindow names as).1.getLast?.any Answer.failed = false := by
  obtain ⟨hlen, hok⟩ := h
  induction names generalizing as with
  | nil => simp [sweepWindow]
  | cons name names ih =>
    cases as with
    | nil => simp at hlen
    | cons a as =>
      have ha : a.failed = false := hok a (by simp)
      unfold sweepWindow
      split_ifs with hstop
      · simpa using ha
      · have hrest := ih (by simpa using hlen) (fun c hc => hok c (by simp [hc]))
        rcases hcs : (sweepWindow names as).1 with _ | ⟨c, cs⟩
        · simpa using ha
        · simpa [hcs, List.getLast?_cons_cons] using hrest

/-- One run without failures: it sweeps a piece of the list that starts at the cursor, and the next one goes on behind
it. -/
structure DedupJob.Advances (streams : List Bytes) (j : DedupJob) (r : DedupRan) : Prop where
  pos : 1 ≤ r.swept.length
  le_limit : r.swept.length ≤ j.limit
  inside : j.cursor + r.swept.length ≤ streams.length
  swept : r.swept = (streams.drop j.cursor).take r.swept.length
  limit : r.job.limit = j.limit
  cursor : r.job.cursor = (j.cursor + r.swept.length) % streams.length
  more : ∃ res, r.res = some res ∧
    (res.more = true ↔ r.swept.length = j.limit ∧ j.cursor + r.swept.length < streams.length)

/-- A run over a window without failures. -/
theorem DedupJob.run_of_unfailed (hne : streams ≠ [])
    (h : (sweepWindow (j.window streams) as).1.getLast?.any Answer.failed = false) :
    let swept := (sweepWindow (j.window streams) as).1.length
    (j.run as (some streams)).swept = (j.window streams).take swept ∧
      (j.run as (some streams)).job = { j with cursor := (j.cursor + swept) % streams.length } ∧
      ∃ res, (j.run as (some streams)).res = some res ∧
        res.more = (swept == j.bound streams.length && decide (j.cursor + swept < streams.length)) := by
  obtain ⟨name, names, rfl⟩ := List.exists_cons_of_ne_nil hne
  simp [DedupJob.run, h]

theorem DedupJob.run_advances (hstart : j.cursor < streams.length) (h : Unfailing j.limit as) :
    j.Advances streams (j.run as (some streams)) := by
  have hbound : j.bound streams.length ≤ j.limit := min_le_left _ _
  have hremain : j.bound streams.length ≤ streams.length - j.cursor := min_le_right _ _
  have hf : (sweepWindow (j.window streams) as).1.getLast?.any Answer.failed = false := by
    apply sweepWindow_unfailing
    refine ⟨?_, h.2⟩
    rw [DedupJob.length_window]
    exact hbound.trans h.1
  have hle := sweepWindow_length (j.window streams) as
  rw [DedupJob.length_window] at hle
  have hpos : 0 < (sweepWindow (j.window streams) as).1.length := by
    apply List.length_pos_of_ne_nil
    apply sweepWindow_ne_nil
    apply List.ne_nil_of_length_pos
    rw [DedupJob.length_window]
    exact DedupJob.bound_pos hstart
  obtain ⟨hswept, hjob, res, hres, hmore⟩ := DedupJob.run_of_unfailed (List.ne_nil_of_length_pos (by omega)) hf
  generalize (sweepWindow (j.window streams) as).1.length = count at *
  have hcount : (j.run as (some streams)).swept.length = count := by
    rw [hswept, List.length_take, DedupJob.length_window]
    omega
  refine ⟨?_, ?_, ?_, ?_, ?_, ?_, res, hres, ?_⟩
  · omega
  · omega
  · omega
  · rw [hcount, hswept, DedupJob.window, List.take_take, min_eq_left hle]
  · rw [hjob]
  · rw [hcount, hjob]
  · rw [hcount, hmore, Bool.and_eq_true, beq_iff_eq, decide_eq_true_eq]
    -- a window shorter than the limit reaches the end of the list
    unfold DedupJob.bound at *
    omega

/-- The sweeps of consecutive runs follow the list round and round from the first cursor. -/
theorem DedupJob.rounds_advance (hstart : j.cursor < streams.length) {runs : List (List Answer)}
    (h : ∀ as ∈ runs, Unfailing j.limit as) :
    (∀ r ∈ j.rounds streams runs, r.1.limit = j.limit ∧ r.1.Advances streams r.2) ∧
      ∀ i < (sweeps (j.rounds streams runs)).length,
        (sweeps (j.rounds streams runs))[i]? = streams[(j.cursor + i) % streams.length]? := by
  induction runs generalizing j with
  | nil => simp [DedupJob.rounds, sweeps]
  | cons as runs ih =>
    have hadv := DedupJob.run_advances hstart (h as (by simp))
    have hnext : (j.run as (some streams)).job.cursor < streams.length := by
      rw [hadv.cursor]
      exact Nat.mod_lt _ (by omega)
    obtain ⟨hall, hsweeps⟩ := ih hnext (fun as' has' => by rw [hadv.limit]; exact h as' (by simp [has']))
    refine ⟨?_, ?_⟩
    · intro r hr
      rcases List.mem_cons.mp hr with rfl | hr
      · exact ⟨rfl, hadv⟩
      · obtain ⟨hlim, hr⟩ := hall r hr
        exact ⟨hlim.trans hadv.limit, hr⟩
    · intro i hi
      have happ : sweeps (j.rounds streams (as :: runs)) = (j.run as (some streams)).swept ++
          sweeps ((j.run as (some streams)).job.rounds streams runs) := by
        simp [sweeps, DedupJob.rounds]
      have hinside := hadv.inside
      rw [happ, List.length_append] at hi
      rw [happ]
      by_cases hin : i < (j.run as (some streams)).swept.length
      · -- in this run the list does not come round
        rw [List.getElem?_append_left hin, hadv.swept, List.getElem?_take_of_lt hin, List.getElem?_drop,
          Nat.mod_eq_of_lt (by omega)]
      · rw [List.getElem?_append_right (by omega), hsweeps _ (by omega), hadv.cursor, Nat.mod_add_mod]
        congr 2
        omega

/-- Consecutive runs of the dedup job go round the list of streams: every run sweeps between one stream and the limit,
and reports more work when the limit stopped it before the end of the list; the sweeps follow the cyclic order, and any
as many of them as there are streams are the list, read from where they start. -/
theorem dedup_rotation (streams : List Bytes) (j : DedupJob) (hstart : j.cursor < streams.length)
    (runs : List (List Answer)) (h : ∀ as ∈ runs, Unfailing j.limit as) :
    (∀ r ∈ j.rounds streams runs, 1 ≤ r.2.swept.length ∧ r.2.swept.length ≤ j.limit ∧
        ∃ res, r.2.res = some res ∧
          (res.more = true ↔ r.2.swept.length = j.limit ∧ r.1.cursor + r.2.swept.length < streams.length)) ∧
      (∀ i < (sweeps (j.rounds streams runs)).length,
        (sweeps (j.rounds streams runs))[i]? = streams[(j.cursor + i) % streams.length]?) ∧
      ∀ k, k + streams.length ≤ (sweeps (j.rounds streams runs)).length →
        ((sweeps (j.rounds streams runs)).drop k).take streams.length = streams.rotate (j.cursor + k) := by
  obtain ⟨hall, hsweeps⟩ := DedupJob.rounds_advance hstart h
  refine ⟨?_, hsweeps, ?_⟩
  · intro r hr
    obtain ⟨hlim, hadv⟩ := hall r hr
    rw [← hlim]
    exact ⟨hadv.pos, hadv.le_limit, hadv.more⟩
  · intro k hk
    apply List.ext_getElem?
    intro i
    by_cases hi : i < streams.length
    · rw [List.getElem?_take_of_lt hi, List.getElem?_drop, hsweeps _ (by omega), List.getElem?_rotate hi]
      congr 2
      omega
    · rw [List.getElem?_eq_none (by simp; omega), List.getElem?_eq_none (by simp; omega)]

/-- Three streams, from the second on, and three runs of two sweeps at most; the second one is out of time at once. -/
def threeRounds : List (DedupJob × DedupRan) :=
  (newDedupJob 1 2).rounds [str "a", str "b", str "c"] [[{}, {}], [{ expired := true }, {}], [{}, {}]]

theorem dedup_rotation_three :
    sweeps threeRounds = [str "b", str "c", str "a", str "b", str "c"] ∧
      ((sweeps threeRounds).drop 1).take 3 = [str "a", str "b", str "c"].rotate 2 :=
  ⟨by decide, (dedup_rotation [str "a", str "b", str "c"] (newDedupJob 1 2) (by decide)
    [[{}, {}], [{ expired := true }, {}], [{}, {}]] (by decide)).2.2 1 (by decide)⟩

end Messq.Janitor

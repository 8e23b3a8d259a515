import Messq.Effect.Settle
import Messq.Effect.Publish

/-! # The janitor's commands as runs of acts

Sweep and retire give up or release rows by the lease they loaded: the rows of one pass have different keys, so
each is still as it was loaded when its turn comes. Retention deletes only messages no delivery row names, on a
work queue only below every cursor. `applyRequest_acts` collects the background requests. -/

namespace Messq

open Lib Table Relation

variable {env : Env} {budget : DeadBudget} {d r : DeliveryRow} {ds : List DeliveryRow} {st st' st₁ st₂ : Store}
  {row : StreamRow} {res : SweepResult} {u : Unit} {batch limit n retired : ℕ} {maxDeliver q : ℤ} {stream : Bytes}

/-! ## Sweep -/

theorem DeliveryRow.sameLease_iff : r.sameLease d = true ↔
    d.key = r.key ∧ d.state = r.state ∧ d.attempts = r.attempts ∧ d.generation = r.generation := by
  simp only [DeliveryRow.sameLease, Bool.and_eq_true, beq_iff_eq, and_assoc]

/-- A lease that is still as it was loaded is the only row that matches it. -/
theorem lease_row (hr : st.deliveries.find? r.key = some r) :
    r ∈ st.deliveries ∧ ∀ d ∈ st.deliveries, r.sameLease d = true ↔ d = r := by
  refine ⟨mem_of_find? hr, fun d hd => ⟨fun h => ?_, fun h => ?_⟩⟩
  · exact eq_of_key hd (mem_of_find? hr) (DeliveryRow.sameLease_iff.mp h).1
  · exact DeliveryRow.sameLease_iff.mpr (by simp [h])

/-- Only the row of `k` changes. -/
def Only (k : Bytes × Bytes × ℤ) (st st' : Store) : Prop :=
  st'.consumers = st.consumers ∧ ∀ k', k' ≠ k → st'.deliveries.find? k' = st.deliveries.find? k'

theorem Only.refl (k : Bytes × Bytes × ℤ) (st : Store) : Only k st st := ⟨rfl, fun _ _ => rfl⟩

theorem deleteLease_sets (hd : st.deliveries.find? d.key = some d) (h : deleteLease d st = .ok (n, st')) :
    st' = { st with deliveries := st'.deliveries } ∧ st.deliveries.Sets d.key none st'.deliveries := by
  simp only [deleteLease, run_get_bind, run_set_bind, run_pure] at h
  obtain ⟨-, rfl⟩ := h
  obtain ⟨hmem, hiff⟩ := lease_row hd
  exact ⟨rfl, sets_delete hmem hiff⟩

theorem releaseLease_sets {visibleAt : ℤ} (hd : st.deliveries.find? d.key = some d)
    (h : releaseLease d visibleAt st = .ok (n, st')) :
    st' = { st with deliveries := st'.deliveries } ∧ st.deliveries.Sets d.key
      (some { d with state := .ready, visibleAt := visibleAt, lastReason := some (str "ack_wait") })
        st'.deliveries := by
  simp only [releaseLease, run_get_bind, run_set_bind, run_pure] at h
  obtain ⟨-, rfl⟩ := h
  obtain ⟨hmem, hiff⟩ := lease_row hd
  exact ⟨rfl, sets_update (f := fun d => { d with
    state := .ready, visibleAt := visibleAt, lastReason := some (str "ack_wait") }) (fun _ _ => rfl) hmem hiff⟩

/-- A lease given to the sink: it is buried and its row goes, or the budget refused it and nothing changed. -/
theorem buryLease_run {trigger : DeadTrigger} {o : Option DeadBudget} (hd : st.deliveries.find? d.key = some d)
    (hs : d.state = .inflight ∨ 1 ≤ d.attempts)
    (h : deadLetter env budget (d.deadCtx st maxDeliver trigger) st = .ok (o, st₁)) :
    o = none ∧ st₁ = st ∨ o ≠ none ∧ ∀ n st₂, deleteLease d st₁ = .ok (n, st₂) →
      Act env .delivery st st₂ ∧ Only d.key st st₂ := by
  refine (deadLetter_run h).imp_right fun ⟨hn, hb⟩ => ⟨hn, fun n st₂ h₂ => ?_⟩
  obtain ⟨hdel, hcons, -⟩ := hb.frame
  obtain ⟨hst, hsets⟩ := deleteLease_sets (by rw [hdel]; exact hd) h₂
  rw [hdel] at hsets
  rw [hst]
  exact ⟨.die st st₁ _ d _ hb hd hs rfl (.inr rfl) hsets, hcons, fun _ hk => hsets.other hk⟩

theorem timeoutEvent_about (st : Store) (d : DeliveryRow) (lp : LoadedPolicy) (dec : SweepDecision) :
    (timeoutEvent env st d lp dec).about = d.key := by
  simp only [Event.about, timeoutEvent, nullStr_getD, nullI64_getD]

theorem loadSweepPolicy_run {consumer : Bytes} {o : Option LoadedPolicy}
    (h : loadSweepPolicy st stream consumer st₁ = .ok (o, st₂)) : st₁ = st₂ ∧
    o = (st.consumers.find? (stream, consumer)).map fun c =>
      ⟨⟨toInt32 c.maxDeliver, c.backoffMs.map msDuration, c.generation⟩, c.ackWaitMs⟩ := by
  unfold loadSweepPolicy at h
  cases hc : st.consumers.find? (stream, consumer) with
  | none =>
    simp only [hc, run_pure] at h
    exact ⟨h.2, h.1.symm⟩
  | some c =>
    simp only [hc, run_bind, scanInt32_run, run_pure] at h
    obtain ⟨_, _, ⟨-, rfl, rfl⟩, rfl, rfl⟩ := h
    exact ⟨rfl, rfl⟩

theorem scanLeases_run (h : scanLeases ds st = .ok (u, st')) : st = st' := by
  induction ds with
  | nil => exact (run_pure.mp h).2
  | cons d ds ih =>
    simp only [scanLeases, run_bind, scanInt32_run] at h
    obtain ⟨_, _, ⟨-, -, rfl⟩, _, _, ⟨-, -, rfl⟩, h⟩ := h
    exact ih h

/-- The policy the sweep loads for a row. -/
def Store.sweepPolicy (st : Store) (d : DeliveryRow) : Option LoadedPolicy :=
  (st.consumers.find? (d.stream, d.consumer)).map fun c =>
    ⟨⟨toInt32 c.maxDeliver, c.backoffMs.map msDuration, c.generation⟩, c.ackWaitMs⟩

theorem loadPolicies_run {ps : List (DeliveryRow × Option LoadedPolicy)} (h : loadPolicies st ds st₁ = .ok (ps, st₂)) :
    st₁ = st₂ ∧ ps = ds.map fun d => (d, st.sweepPolicy d) := by
  induction ds generalizing ps st₁ with
  | nil =>
    obtain ⟨rfl, rfl⟩ := run_pure.mp h
    exact ⟨rfl, rfl⟩
  | cons d ds ih =>
    simp only [loadPolicies, run_bind, run_pure] at h
    obtain ⟨o, _, h₁, ps', _, h₂, rfl, rfl⟩ := h
    obtain ⟨rfl, rfl⟩ := loadSweepPolicy_run h₁
    obtain ⟨rfl, rfl⟩ := ih h₂
    exact ⟨rfl, rfl⟩

/-- What the sweep does with a lease whose deadline has passed. One that is not of its consumer's generation is passed
over. Otherwise the lapse is reported: below the bound the row waits again, at the bound it goes unless the sink's
budget refused. -/
inductive SweptRow (env : Env) (n : ℕ) (d : DeliveryRow) (budget : DeadBudget) (st : Store) : DeadBudget → Store → Prop
  | stale (h : ∀ c, st.consumers.find? (d.stream, d.consumer) = some c → d.generation ≠ c.generation) :
      SweptRow env n d budget st budget st
  | release (c : ConsumerRow) (lp : LoadedPolicy) (dec : SweepDecision) (visibleAt : ℤ) (k : ℕ) (st' : Store)
      (hc : st.consumers.find? (d.stream, d.consumer) = some c) (hg : d.generation = c.generation)
      (hb : ¬ c.AtBound d.attempts)
      (hv : visibleAt = env.nowMs + milliseconds (env.jitter n (backoffFor (c.backoffMs.map msDuration) d.attempts)))
      (h : releaseLease d visibleAt (st.logged (timeoutEvent env st d lp dec)) = .ok (k, st')) :
      SweptRow env n d budget st budget st'
  | dead (c : ConsumerRow) (lp : LoadedPolicy) (dec : SweepDecision) (trigger : DeadTrigger) (o : Option DeadBudget)
      (st₁ st' : Store) (hc : st.consumers.find? (d.stream, d.consumer) = some c) (hg : d.generation = c.generation)
      (hb : c.AtBound d.attempts)
      (h : deadLetter env budget (d.deadCtx (st.logged (timeoutEvent env st d lp dec)) (toInt32 c.maxDeliver) trigger)
        (st.logged (timeoutEvent env st d lp dec)) = .ok (o, st₁))
      (hend : o = none ∧ st₁ = st' ∨ ∃ b k, o = some b ∧ deleteLease d st₁ = .ok (k, st')) :
      SweptRow env n d budget st (o.getD budget) st'

theorem sweepOne_swept {r : SweepResult × DeadBudget} (hv : d.visibleAt ≤ env.nowMs)
    (h : sweepOne env n d (st.sweepPolicy d) res budget st = .ok (r, st')) : SweptRow env n d budget st r.2 st' := by
  unfold sweepOne Store.sweepPolicy at h
  cases hc : st.consumers.find? (d.stream, d.consumer) with
  | none =>
    simp only [hc, Option.map_none, run_pure] at h
    obtain ⟨rfl, rfl⟩ := h
    exact .stale fun c hc' => by cases hc.symm.trans hc'
  | some c =>
    simp only [hc, Option.map_some] at h
    have hcases := decideSweep_cases (r := ⟨d.attempts, d.generation, d.visibleAt, d.deliveredAt.getD 0⟩)
      (p := ⟨toInt32 c.maxDeliver, c.backoffMs.map msDuration, c.generation⟩) (j := env.jitter n) hv
    rcases hcases with ⟨hg, ha⟩ | ⟨hg, hb, trigger, ha⟩ | ⟨hg, hb, visibleAt, delay, schedule, ha⟩
    · simp only [ha, run_pure] at h
      obtain ⟨rfl, rfl⟩ := h
      exact .stale fun c' hc' => by rwa [← Option.some.inj (hc.symm.trans hc')]
    · simp only [ha, run_bind, run_get_bind, sweepDead] at h
      obtain ⟨_, st₁, h₁, o, st₂, h₂, h⟩ := h
      obtain rfl := commitEvent_run.mp h₁
      cases o with
      | none =>
        obtain ⟨rfl, rfl⟩ := run_pure.mp h
        exact .dead c _ _ trigger none _ _ hc hg hb h₂ (.inl ⟨rfl, rfl⟩)
      | some b =>
        obtain ⟨k, st₃, h₃, h⟩ := run_bind.mp h
        obtain ⟨hr, rfl⟩ : r.2 = b ∧ st₃ = st' := by
          rw [run_ite] at h
          split at h <;>
          · obtain ⟨rfl, rfl⟩ := run_pure.mp h
            exact ⟨rfl, rfl⟩
        rw [hr]
        exact .dead c _ _ trigger (some b) _ _ hc hg hb h₂ (.inr ⟨b, k, rfl, h₃⟩)
    · simp only [ha, run_bind, run_get_bind, run_pure, sweepRedeliver] at h
      obtain ⟨_, st₁, h₁, _, st₂, ⟨k, st₃, h₂, h₃⟩, rfl, rfl⟩ := h
      obtain rfl := commitEvent_run.mp h₁
      obtain rfl : st₃ = st₂ := by
        rw [run_ite] at h₃
        split at h₃ <;> exact (run_pure.mp h₃).2
      exact .release c _ _ visibleAt k _ hc hg hb (decideSweep_visibleAt ha) h₂

/-- The row changes and no other does. -/
theorem SweptRow.acts {b : DeadBudget} (h : SweptRow env n d budget st b st') (hd : st.deliveries.find? d.key = some d)
    (hs : d.state = .inflight) : Acts env .delivery st st' ∧ Only d.key st st' := by
  cases h with
  | stale => exact ⟨.refl, .refl _ _⟩
  | release c lp dec visibleAt k _ hc hg hb hv h =>
    obtain ⟨hst, hsets⟩ := releaseLease_sets (by exact hd) h
    rw [hst]
    refine ⟨.head (.lapse st (timeoutEvent env st d lp dec) rfl rfl)
      (.single (.release _ d _ _ _ hd (.inl hs) (fun _ c' hc' => ?_)
      (fun _ => ⟨_, List.mem_append_right _ (List.mem_singleton.mpr rfl), .inr rfl, timeoutEvent_about ..⟩) hsets)),
      rfl, fun _ hk => hsets.other hk⟩
    rwa [← Option.some.inj (hc.symm.trans hc')]
  | dead c lp dec trigger o st₁ _ hc hg hb h hend =>
    have hlapse : Act env .delivery st (st.logged (timeoutEvent env st d lp dec)) := .lapse st _ rfl rfl
    rcases buryLease_run (by exact hd) (.inl hs) h with ⟨rfl, rfl⟩ | ⟨hn, hbury⟩
    · obtain ⟨-, rfl⟩ | ⟨b, k, ho, -⟩ := hend
      · exact ⟨.single hlapse, .refl _ _⟩
      · cases ho
    · obtain ⟨ho, -⟩ | ⟨b, k, -, h₂⟩ := hend
      · exact absurd ho hn
      · obtain ⟨hact, honly⟩ := hbury k _ h₂
        exact ⟨.head hlapse (.single hact), honly⟩

/-- The rows of a pass one after the other, each as it was loaded when its turn comes. -/
inductive SweptAll (env : Env) : ℕ → List DeliveryRow → DeadBudget → Store → Store → Prop
  | nil (n : ℕ) (budget : DeadBudget) (st : Store) : SweptAll env n [] budget st st
  | cons {n : ℕ} {d : DeliveryRow} {ds : List DeliveryRow} {budget b : DeadBudget} {st st₁ st' : Store}
      (hd : st.deliveries.find? d.key = some d) (hs : d.state = .inflight) (h : SweptRow env n d budget st b st₁)
      (hrest : SweptAll env (n + 1) ds b st₁ st') : SweptAll env n (d :: ds) budget st st'

theorem sweepRows_swept {r : SweepResult} {st₀ : Store} (hcons : st.consumers = st₀.consumers)
    (hkeys : (ds.map DeliveryRow.key).Nodup)
    (hds : ∀ d ∈ ds, st.deliveries.find? d.key = some d ∧ d.state = .inflight ∧ d.visibleAt ≤ env.nowMs)
    (h : sweepRows env n (ds.map fun d => (d, st₀.sweepPolicy d)) res budget st = .ok (r, st')) :
    SweptAll env n ds budget st st' := by
  induction ds generalizing n res budget st with
  | nil =>
    obtain ⟨-, rfl⟩ := run_pure.mp h
    exact .nil _ _ _
  | cons d ds ih =>
    simp only [List.map_cons, sweepRows, run_bind] at h
    obtain ⟨p, st₁, h₁, h₂⟩ := h
    obtain ⟨hd, hs, hv⟩ := hds d List.mem_cons_self
    have hpol : st₀.sweepPolicy d = st.sweepPolicy d := by rw [Store.sweepPolicy, Store.sweepPolicy, hcons]
    rw [hpol] at h₁
    have hrow := sweepOne_swept hv h₁
    obtain ⟨hcons₁, honly⟩ := (hrow.acts hd hs).2
    rw [List.map_cons, List.nodup_cons] at hkeys
    refine .cons hd hs hrow (ih (hcons₁.trans hcons) hkeys.2 (fun d' hd' => ?_) h₂)
    rw [honly _ fun he => hkeys.1 (he ▸ List.mem_map_of_mem hd')]
    exact hds d' (List.mem_cons_of_mem _ hd')

theorem SweptAll.acts (h : SweptAll env n ds budget st st') : Acts env .delivery st st' := by
  induction h with
  | nil => exact .refl
  | cons hd hs h _ ih => exact (h.acts hd hs).1.trans ih

theorem mem_expired {nowMs : ℤ} (h : d ∈ st.expired nowMs limit) :
    d ∈ st.deliveries ∧ d.state = .inflight ∧ d.visibleAt ≤ nowMs := by
  have := List.mem_of_mem_take h
  rw [List.mem_insertionSort, mem_select] at this
  simpa using this

/-- Selected rows have different keys, in whatever order they come and however many are taken. -/
theorem nodup_keys_take {t : Table DeliveryRow.key} {p : DeliveryRow → Bool} {l : List DeliveryRow}
    (h : l.Perm (t.select p)) (n : ℕ) : ((l.take n).map DeliveryRow.key).Nodup := by
  have hsel : ((t.select p).map DeliveryRow.key).Nodup := t.nodup.sublist (List.filter_sublist.map _)
  exact ((h.map DeliveryRow.key).nodup_iff.mpr hsel).sublist ((List.take_sublist n l).map _)

theorem nodup_expired (st : Store) (nowMs : ℤ) (limit : ℕ) : ((st.expired nowMs limit).map DeliveryRow.key).Nodup :=
  nodup_keys_take (List.perm_insertionSort _ _) limit

/-- **Sweep.** The expired leases, in their order and with one budget. -/
theorem sweep_swept {r : SweepResult} (h : sweep env limit st = .ok (r, st')) :
    SweptAll env 0 (st.expired env.nowMs limit) (newDeadBudget env.opts.dlq) st st' := by
  simp only [sweep, run_bind, run_get_bind, run_pure] at h
  obtain ⟨_, _, h₁, ps, _, h₂, res, _, h₃, -, rfl⟩ := h
  obtain rfl := scanLeases_run h₁
  obtain ⟨rfl, rfl⟩ := loadPolicies_run h₂
  refine sweepRows_swept rfl (nodup_expired st env.nowMs limit) (fun d hd => ?_) h₃
  obtain ⟨hmem, hs, hv⟩ := mem_expired hd
  exact ⟨find?_of_mem hmem, hs, hv⟩

theorem acts_sweep (limit : ℕ) : Within (Acts env .delivery) (sweep env limit) := fun _ _ _ h => (sweep_swept h).acts

/-! ## Retire -/

theorem acts_retireRows {r : ℕ × Option DeadBudget} (hkeys : (ds.map DeliveryRow.key).Nodup)
    (hds : ∀ d ∈ ds, st.deliveries.find? d.key = some d ∧ 1 ≤ d.attempts)
    (h : retireRows env maxDeliver ds retired budget st = .ok (r, st')) : Acts env .delivery st st' := by
  induction ds generalizing retired budget st with
  | nil => exact acts_pure _ _ _ _ h
  | cons d ds ih =>
    obtain ⟨hd, hs⟩ := hds d List.mem_cons_self
    simp only [retireRows, run_bind, run_get_bind] at h
    obtain ⟨o, st₁, h₁, h⟩ := h
    rcases buryLease_run hd (.inr hs) h₁ with ⟨rfl, rfl⟩ | ⟨hn, hbury⟩
    · obtain ⟨-, rfl⟩ := run_pure.mp h
      exact .refl
    · obtain ⟨b, rfl⟩ := Option.ne_none_iff_exists'.mp hn
      simp only [run_bind] at h
      obtain ⟨n, st₂, h₂, h⟩ := h
      obtain ⟨hact, -, honly⟩ := hbury n st₂ h₂
      rw [List.map_cons, List.nodup_cons] at hkeys
      refine .head hact (ih hkeys.2 (fun d' hd' => ?_) h)
      obtain ⟨hd'', hs'⟩ := hds d' (List.mem_cons_of_mem _ hd')
      have hne : d'.key ≠ d.key := fun he => hkeys.1 (he ▸ List.mem_map_of_mem hd')
      exact ⟨(honly _ hne).trans hd'', hs'⟩

/-- The rows a retire pass loads for a bounded consumer. -/
theorem stranded_rows {c : ConsumerRow} (hc : 0 < c.maxDeliver) :
    ((st.stranded c limit).map DeliveryRow.key).Nodup ∧
      ∀ d ∈ st.stranded c limit, st.deliveries.find? d.key = some d ∧ 1 ≤ d.attempts := by
  refine ⟨?_, fun d hd => ?_⟩
  · unfold Store.stranded Store.pendingOf
    rw [Table.select, List.filter_filter]
    exact nodup_keys_take (List.perm_insertionSort _ _) limit
  · have := List.mem_of_mem_take hd
    rw [List.mem_insertionSort, List.mem_filter, Store.pendingOf, mem_select] at this
    simp only [Bool.and_eq_true, beq_iff_eq, decide_eq_true_eq] at this
    exact ⟨find?_of_mem this.1.1, by omega⟩

theorem acts_retireTargets {cs : List ConsumerRow} (hcs : ∀ c ∈ cs, 0 < c.maxDeliver) :
    Within (Acts env .delivery) (retireTargets env limit cs retired budget) := by
  induction cs generalizing retired budget with
  | nil => exact acts_pure _
  | cons c cs ih =>
    intro st r st' h
    simp only [retireTargets, run_bind, run_get_bind] at h
    obtain ⟨p, st₁, h₁, h⟩ := h
    have hrows : ((st.stranded c limit).map DeliveryRow.key).Nodup ∧ _ := stranded_rows (hcs c List.mem_cons_self)
    refine (acts_retireRows hrows.1 hrows.2 h₁).trans ?_
    obtain ⟨n, o⟩ := p
    cases o with
    | none => exact acts_pure _ _ _ _ h
    | some b => exact ih (fun c' hc' => hcs c' (List.mem_cons_of_mem _ hc')) _ _ _ h

theorem acts_retire (limit : ℕ) : Within (Acts env .delivery) (retire env limit) :=
  acts_bind acts_get fun _ => acts_retireTargets fun c hc => by simpa using (mem_select.mp hc).2

/-! ## Retention and the audit trail -/

section Plan

variable {p p' : EvictionPlan} {cs : List Candidate}

/-- A walk of a planner over its candidates. It may stop anywhere; it passes over a candidate, holds a delivery row
against it, or takes it. -/
inductive Walked : EvictionPlan → List Candidate → EvictionPlan → Prop
  | stop (p : EvictionPlan) (cs : List Candidate) : Walked p cs p
  | skip {p p' : EvictionPlan} {c : Candidate} {cs : List Candidate} (h : Walked p cs p') : Walked p (c :: cs) p'
  | block {p p' : EvictionPlan} {c : Candidate} {cs : List Candidate} (h : Walked (p.block c) cs p') :
    Walked p (c :: cs) p'
  | take {p p' : EvictionPlan} {c : Candidate} {cs : List Candidate} (h : Walked (p.take c) cs p') :
    Walked p (c :: cs) p'

theorem Walked.high (h : Walked p cs p') (hp : ∀ q ∈ p.seqs, q ≤ p.highestDeletedSeq) :
    ∀ q ∈ p'.seqs, q ≤ p'.highestDeletedSeq := by
  induction h with
  | stop => exact hp
  | skip _ ih => exact ih hp
  | block _ ih => exact ih hp
  | take _ ih =>
    refine ih fun q hq => ?_
    rcases List.mem_append.mp hq with hq | hq
    · exact (hp q hq).trans (le_max_left _ _)
    · obtain rfl := List.mem_singleton.mp hq
      exact le_max_right _ _

/-- A plan takes candidates only. -/
theorem Walked.mem (h : Walked p cs p') (hq : q ∈ p'.seqs) : q ∈ p.seqs ∨ q ∈ cs.map Candidate.seq := by
  induction h with
  | stop => exact .inl hq
  | skip _ ih => exact (ih hq).imp_right (List.mem_cons_of_mem _)
  | block _ ih => exact (ih hq).imp_right (List.mem_cons_of_mem _)
  | take _ ih =>
    rcases ih hq with h | h
    · exact (List.mem_append.mp h).imp_right fun h => by simp [List.mem_singleton.mp h]
    · exact .inr (List.mem_cons_of_mem _ h)

theorem walked_evictFrom (v : RetentionView) (batch : ℕ) (excess need : ℤ) (p : EvictionPlan) (cs : List Candidate) :
    Walked p cs (evictFrom v batch excess need p cs) := by
  induction cs generalizing excess need p with
  | nil => exact .stop _ _
  | cons c cs ih =>
    simp only [evictFrom]
    split
    · exact .skip (ih _ _ _)
    split
    · exact .block (ih _ _ _)
    split
    · exact .stop _ _
    split
    · exact .take (.stop _ _)
    · exact .take (ih _ _ _)

theorem walked_workqueueFrom (batch : ℕ) (p : EvictionPlan) (cs : List Candidate) :
    Walked p cs (workqueueFrom batch p cs) := by
  induction cs generalizing p with
  | nil => exact .stop _ _
  | cons c cs ih =>
    simp only [workqueueFrom]
    split
    · exact .block (ih _)
    split
    · exact .stop _ _
    · exact .take (ih _)

theorem planEviction_seqs (cands : List Candidate) (v : RetentionView) (batch : ℕ) :
    ∀ q ∈ (planEviction cands v batch).seqs, q ≤ (planEviction cands v batch).highestDeletedSeq := by
  unfold planEviction
  split
  · exact nofun
  · exact (walked_evictFrom _ _ _ _ _ _).high nofun

end Plan

/-- The candidates of a work queue are below every cursor. -/
theorem retentionCandidates_workqueue {window : ℕ} {cands : List Candidate}
    (h : st.retentionCandidates row window = some cands) (hw : row.retention = .workqueue) :
    ∀ c ∈ st.consumers, c.stream = row.name → ∀ q ∈ cands.map Candidate.seq, q < c.cursorSeq := by
  unfold Store.retentionCandidates at h
  rw [hw] at h
  obtain ⟨floor, hfloor, rfl⟩ := Option.map_eq_some_iff.mp h
  intro c hc hcs q hq
  simp only [List.map_map, List.mem_map, Function.comp] at hq
  obtain ⟨m, hm, rfl⟩ := hq
  have hlt : m.seq < floor := by simpa using (List.mem_filter.mp (List.mem_of_mem_take hm)).2
  exact hlt.trans_le ((List.min?_eq_some_iff.mp hfloor).2 _
    (List.mem_map_of_mem (mem_select.mpr ⟨hc, by simpa using hcs⟩)))

theorem evict_run {seqs : List ℤ} {high : ℤ} {p : ℤ × ℤ} (h₁ : guardedDelete row.name seqs st = .ok (p, st₁))
    (h₂ : (if p.1 > 0 ∧ high > 0 then updateWatermarks row.name high env.nowMs p.1 p.2 else pure ()) st₁ =
      .ok (u, st₂)) :
    st₂ = st.evicted row.name seqs high env.nowMs := by
  simp only [guardedDelete, run_get_bind, run_set_bind, run_pure] at h₁
  obtain ⟨rfl, rfl⟩ := h₁
  rw [run_ite] at h₂
  split at h₂
  · rename_i hpos
    have hpos : ((st.messages.select (st.evictable row.name seqs)).length : ℤ) > 0 ∧ high > 0 := hpos
    rw [← run_modify.mp h₂, Store.evicted]
    simp only [if_pos hpos]
    rfl
  · rename_i hneg
    have hneg : ¬ (((st.messages.select (st.evictable row.name seqs)).length : ℤ) > 0 ∧ high > 0) := hneg
    obtain ⟨-, rfl⟩ := run_pure.mp h₂
    rw [Store.evicted]
    simp only [if_neg hneg]
    rfl

theorem blockedEvent_plain {highest wouldFree : ℤ} {e : Event}
    (h : e ∈ (blockedEvent env st stream highest wouldFree).toList) : e.ts = env.nowMs ∧ e.name.plain = true := by
  rw [Option.mem_toList, blockedEvent, Option.map_eq_some_iff] at h
  obtain ⟨_, -, rfl⟩ := h
  exact ⟨rfl, rfl⟩

/-- Retention changes neither the streams nor the consumers and their deliveries. -/
structure SameSetup (st st' : Store) : Prop where
  streams : st'.streams = st.streams
  consumers : st'.consumers = st.consumers
  deliveries : st'.deliveries = st.deliveries

theorem Act.sameSetup (h : Act env .retention st st') : SameSetup st st' := by
  cases h with
  | log => exact ⟨rfl, rfl, rfl⟩
  | evict => exact ⟨rfl, rfl, rfl⟩

theorem Acts.sameSetup (h : Acts env .retention st st') : SameSetup st st' := by
  induction h with
  | refl => exact ⟨rfl, rfl, rfl⟩
  | tail _ ha ih =>
    obtain ⟨hs, hc, hd⟩ := ha.sameSetup
    exact ⟨hs.trans ih.streams, hc.trans ih.consumers, hd.trans ih.deliveries⟩

theorem acts_applyEviction {view : RetentionView} {plan : EvictionPlan} {res r : RetentionResult}
    (hr : row ∈ st.streams) (hq : ∀ q ∈ plan.seqs, q ≤ plan.highestDeletedSeq)
    (hw : row.retention = .workqueue → ∀ c ∈ st.consumers, c.stream = row.name → ∀ q ∈ plan.seqs, q < c.cursorSeq)
    (h : applyEviction env row view batch plan res st = .ok (r, st')) : Acts env .retention st st' := by
  unfold applyEviction at h
  obtain ⟨⟨del, freed⟩, st₁, h₁, h⟩ := run_bind.mp h
  obtain ⟨u, st₂, h₂, h⟩ := when_run h
  rw [evict_run h₁ h₂] at h
  refine .head (.evict st row plan.seqs plan.highestDeletedSeq hr hq hw) ?_
  refine acts_when (acts_commitEvent rfl rfl) (fun _ => ?_) _ _ _ h
  refine acts_ite (acts_bind acts_get fun st => ?_) (acts_pure _)
  exact acts_bind (acts_commitEvents fun e he => blockedEvent_plain he) fun _ => acts_pure _

theorem acts_retainStream {stats : Option StatsRow} {res r : RetentionResult} (hr : row ∈ st.streams)
    (h : retainStream env batch row stats res st = .ok (r, st')) : Acts env .retention st st' := by
  simp only [retainStream, run_get_bind] at h
  cases hc : st.retentionCandidates row (batch * 2 + maxBlameHolders) with
  | none =>
    simp only [hc] at h
    exact acts_pure _ _ _ _ h
  | some cands =>
    simp only [hc] at h
    refine acts_applyEviction hr ?_ (fun hw c hcm hcs q hq => ?_) h
    · split
      · exact planEviction_seqs _ _ _
      · exact (walked_workqueueFrom batch {} cands).high nofun
    · rw [hw] at hq
      rcases (walked_workqueueFrom batch {} cands).mem hq with hq | hq
      · cases hq
      · exact retentionCandidates_workqueue hc hw c hcm hcs q hq

theorem acts_retainStreams {ps : List (StreamRow × Option StatsRow)} {res r : RetentionResult}
    (hps : ∀ p ∈ ps, p.1 ∈ st.streams) (h : retainStreams env batch ps res st = .ok (r, st')) :
    Acts env .retention st st' := by
  induction ps generalizing res st with
  | nil => exact acts_pure _ _ _ _ h
  | cons p ps ih =>
    simp only [retainStreams, run_bind] at h
    obtain ⟨_, st₁, h₁, h₂⟩ := h
    have hone := acts_retainStream (hps p List.mem_cons_self) h₁
    refine hone.trans (ih (fun q hq => ?_) h₂)
    rw [hone.sameSetup.streams]
    exact hps q (List.mem_cons_of_mem _ hq)

theorem acts_retention (batch : ℕ) : Within (Acts env .retention) (retention env batch) := by
  intro st r st' h
  simp only [retention, run_get_bind] at h
  refine acts_retainStreams (fun p hp => ?_) h
  obtain ⟨row, hrow, rfl⟩ := List.mem_map.mp hp
  exact (List.mem_insertionSort _).mp hrow

theorem acts_trimEvents (spec : TrimSpec) (batch : ℕ) : Within (Acts env .trimming) (trimEvents env spec batch) := by
  intro st r st' h
  simp only [trimEvents, run_get_bind, run_set_bind, run_pure] at h
  obtain ⟨-, rfl⟩ := h
  exact .single (.trim st spec batch)

/-! ## Update of a stream -/

/-- The configuration an update writes. -/
def Store.tuned (st : Store) (name : Bytes) (next : StreamConfig) : Store :=
  { st with
    streams := st.streams.update (fun r => r.name == name)
      (fun r => { next.row r.createdAt with name := r.name }) fun _ _ => rfl }

/-- An update that changes something was judged: its configuration and what it would lose. -/
theorem updateStream_run {name actor : Bytes} {p : StreamPatch} {allowDataLoss : Bool} {r : UpdateResult}
    (h : updateStream env name p allowDataLoss actor st = .ok (r, st')) :
    ∃ old stats, st.streams.find? name = some old ∧ st.streamStats.find? name = some stats ∧ (p.fields = [] ∧ st' = st ∨
      p.fields ≠ [] ∧ validateStreamConfig (p.apply old.config) env.opts.limits = .ok () ∧
      validateUpdate old.config (p.apply old.config) (measureUsage st stats name (p.apply old.config) env.nowMs)
        allowDataLoss = .ok () ∧
      st' = (st.tuned name (p.apply old.config)).logged
        { ts := env.nowMs, name := .streamUpdate, stream := nullStr name, actor := nullStr actor,
          detail := .fields p.fields }) := by
  simp only [updateStream, run_get_bind] at h
  cases hs : st.streams.find? name with
  | none => simp only [hs, refuse_run] at h
  | some old =>
    simp only [hs, run_ite] at h
    split at h
    · rename_i hf
      simp only [run_bind, require_run, run_pure] at h
      obtain ⟨stats, _, ⟨hstats, rfl⟩, -, rfl⟩ := h
      exact ⟨old, stats, rfl, hstats, .inl ⟨hf, rfl⟩⟩
    · rename_i hf
      simp only [run_bind, check_run, require_run, run_set] at h
      obtain ⟨_, _, ⟨hvalid, rfl⟩, stats, _, ⟨hstats, rfl⟩, _, _, ⟨hloss, rfl⟩, _, _, rfl, _, st₁, h₁, h₂⟩ := h
      refine ⟨old, stats, rfl, hstats, .inr ⟨hf, hvalid, hloss, ?_⟩⟩
      obtain rfl := commitEvent_run.mp h₁
      -- counting what no longer matches writes nothing
      rw [run_ite] at h₂
      split at h₂
      · simp only [run_bind, run_pure, countUnmatched] at h₂
        obtain ⟨n, st₂, h₃, -, rfl⟩ := h₂
        cases hp : Subject.parseSet (p.apply old.config).subjects with
        | error e => simp only [hp, fail_run] at h₃
        | ok pats =>
          simp only [hp, run_pure] at h₃
          exact h₃.2.symm
      · exact (run_pure.mp h₂).2.symm

theorem acts_updateStream (name : Bytes) (p : StreamPatch) (allowDataLoss : Bool) (actor : Bytes) :
    Within (Acts env .upkeep) (updateStream env name p allowDataLoss actor) := by
  intro st r st' h
  obtain ⟨old, stats, -, -, ⟨-, rfl⟩ | ⟨-, -, -, rfl⟩⟩ := updateStream_run h
  · exact .refl
  · refine .head (.tune st _ fun s => ?_) (.single (.log (st.tuned name (p.apply old.config)) _ rfl rfl))
    rw [find?_update, Option.isSome_map]

/-! ## The background requests -/

/-- The requests that leave the consumers and the `meta` table alone. -/
def Request.Background : Request → Prop
  | .updateStream .. | .publish .. | .publishBatch .. | .sweepDedup _ | .settle _ | .sweep _ | .retire _
  | .retention _ | .trimEvents .. | .adminAction .. => True
  | _ => False

/-- The kind of a background request. -/
def Request.kind : Request → Kind
  | .publish .. | .publishBatch .. => .publish
  | .settle _ | .sweep _ | .retire _ => .delivery
  | .retention _ => .retention
  | .trimEvents .. => .trimming
  | _ => .upkeep

/-- **Background requests.** Each of them is a run of the acts of its kind. -/
theorem applyRequest_acts {req : Request} (h : req.Background) : Within (Acts env req.kind) (applyRequest env req) := by
  cases req with
  | updateStream name p a actor => exact acts_map _ (acts_updateStream name p a actor)
  | publish stream r => exact acts_of_lines (show _ = some (stream, [r]) from rfl)
  | publishBatch stream rs => exact acts_of_lines rfl
  | sweepDedup stream => exact acts_map _ (acts_sweepDedup stream)
  | settle items =>
    refine acts_map _ (acts_settle fun it hit => ?_)
    obtain ⟨ci, -, rfl⟩ := List.mem_map.mp hit
    exact ci.2.attempt.1
  | sweep limit => exact acts_map _ (acts_sweep _)
  | retire limit => exact acts_map _ (acts_retire _)
  | retention batch => exact acts_map _ (acts_retention _)
  | trimEvents spec batch => exact acts_map _ (acts_trimEvents spec _)
  | adminAction setting source target actor => exact acts_map _ (acts_commitEvent rfl rfl)
  | _ => cases h

end Messq

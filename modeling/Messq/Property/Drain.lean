import Messq.Property.Sweep
import Messq.Property.Settle
import Messq.Property.Pending

/-! # Draining expired leases

The sweeper examines the first expired leases in the order of the expiry index. In a state that fits a sweep commits
(`succeeds_sweep`), and where every row is of its consumer's generation it moves these leases and nothing else
(`sweep_exact`). It passes over leases that are not, without moving them: a lease of another generation stays for ever,
at the head of that order (`Store.sweptBy_stale`). Where there is none, every sweep frees at least the first lease it
finds, because the copy budget of a transaction is full when its turn comes, and nothing becomes a lease in a sweep. So
the sweeper drains the expired leases exactly if they all are of their consumer's generation (`sweeps_drain_iff`). -/

namespace Messq

open Lib Table

variable {budget : DeadBudget} {res : SweepResult} {n limit : ℕ} {nowMs : ℤ} {d x : DeliveryRow} {env : Env}
  {ds : List DeliveryRow}

/-! ## Repeated sweeps -/

/-- One application of the sweep: its transaction commits, or nothing has happened. -/
def Store.swept (st : Store) (env : Env) (limit : ℕ) : Store :=
  match sweep env limit { st with carriers := [] } with
  | .ok (_, st') => st'
  | .error _ => st

/-- One application after the other at one time; each draws its own jitter. -/
def Store.sweptBy (st : Store) (env : Env) (limit : ℕ) : List (ℕ → Jitter) → Store
  | [] => st
  | j :: js => (st.swept { env with jitter := j } limit).sweptBy env limit js

/-- No lease has a deadline before `nowMs`. -/
def Store.Drained (st : Store) (nowMs : ℤ) : Prop := ∀ d ∈ st.deliveries, d.state = .inflight → nowMs ≤ d.visibleAt

/-- After finitely many sweeps of at most `limit` leases each, no lease is overdue. -/
def Store.Drains (st : Store) (env : Env) (limit : ℕ) : Prop :=
  ∃ n, ∀ js : List (ℕ → Jitter), js.length = n → (st.sweptBy env limit js).Drained env.nowMs

theorem swept_cases (st : Store) (env : Env) (limit : ℕ) :
    (∃ r, sweep env limit { st with carriers := [] } = .ok (r, st.swept env limit)) ∨ st.swept env limit = st := by
  unfold Store.swept
  cases h : sweep env limit { st with carriers := [] } with
  | error e => exact .inr rfl
  | ok p => exact .inl ⟨p.1, rfl⟩

theorem Store.Sound.inRange {st : Store} (hs : st.Sound) : st.InRange := fun c hc => by
  have hmax := (hs.config c.key c (find?_of_mem hc)).2
  have hcap : maxDeliverCap ≤ maxInt32 := by decide
  omega

section Swept

variable {st : Store}

theorem Store.Sound.swept (hs : st.Sound) : (st.swept env limit).Sound := by
  rcases swept_cases st env limit with ⟨r, h⟩ | h
  · exact Acts.sound (acts_sweep limit _ _ _ h) (hs.uncarried [])
  · rw [h]
    exact hs

/-- **Stale leases.** A lease that is not of its consumer's generation is as it was after a sweep. -/
theorem swept_stale (hs : st.Sound) (hd : d ∈ st.deliveries) (hstale : st.current d = false) :
    d ∈ (st.swept env limit).deliveries ∧ (st.swept env limit).current d = false := by
  rcases swept_cases st env limit with ⟨r, h⟩ | h
  · have hlapse := sweep_lapsing_current (hs.uncarried []).inRange h
    have hnot : d.key ∉ ((st.expired env.nowMs limit).filter st.current).map DeliveryRow.key := fun hin => by
      obtain ⟨d', hd', hk⟩ := List.mem_map.mp hin
      obtain ⟨hexp, hcur⟩ := List.mem_filter.mp hd'
      rw [eq_of_key (mem_expired hexp).1 hd hk, hstale] at hcur
      cases hcur
    have hrow : (st.swept env limit).deliveries.find? d.key = some d := (hlapse.other hnot).trans (find?_of_mem hd)
    refine ⟨mem_of_find? hrow, ?_⟩
    rw [Store.current, hlapse.consumers]
    exact hstale
  · rw [h]
    exact ⟨hd, hstale⟩

/-- However often the sweep is applied, a stale lease stays. -/
theorem Store.sweptBy_stale (hs : st.Sound) (hd : d ∈ st.deliveries) (hstale : st.current d = false)
    (js : List (ℕ → Jitter)) : d ∈ (st.sweptBy env limit js).deliveries := by
  induction js generalizing st with
  | nil => exact hd
  | cons j js ih =>
    exact ih hs.swept (swept_stale hs hd hstale).1 (swept_stale hs hd hstale).2

theorem not_drains_of_stale (hs : st.Sound) (hd : d ∈ st.deliveries) (hstate : d.state = .inflight)
    (hdue : d.visibleAt < env.nowMs) (hstale : st.current d = false) : ¬ st.Drains env limit := by
  rintro ⟨n, hn⟩
  have hstays : d ∈ (st.sweptBy env limit (List.replicate n env.jitter)).deliveries :=
    Store.sweptBy_stale hs hd hstale _
  exact absurd (hn _ List.length_replicate d hstays hstate) (not_le.mpr hdue)

end Swept

/-! ## Sweeps that commit -/

/-- The lease is to be given up, and `m` to be copied to the dead-letter stream. -/
structure Store.Doomed (st : Store) (d : DeliveryRow) (m : MessageRow) : Prop where
  row : d ∈ st.deliveries
  lease : d.state = .inflight
  spent : st.Spent d
  policy : st.deadPolicyOf d.stream d.consumer = .dlq
  origin : st.messages.find? (d.stream, d.seq) = some m

/-- What the sweeper must find so that no sweep fails: numbers that fit the scans, and for each copy headers that fit, a
stream that is not being deleted and unused identifiers. -/
structure SweepCommits (env : Env) (st : Store) : Prop where
  scans : ∀ d ∈ st.deliveries, d.state = .inflight → IsInt32 d.attempts ∧ IsInt32 d.generation ∧
    ∀ c ∈ st.consumers.find? (d.stream, d.consumer), IsInt32 c.generation
  headers : ∀ d m, st.Doomed d m → ∀ c ∈ st.consumers.find? (d.stream, d.consumer), ∀ trigger,
    HeadersFit env (d.deadCtx st (toInt32 c.maxDeliver) trigger) m
  target : ∀ d m, st.Doomed d m → st.metaTable.find? (.reap (dlqName d.stream)) = none
  ids : IdsFresh env st

/-- So that a sweep also moves something: a copy budget for any single message. -/
structure SweepFits (env : Env) (st : Store) : Prop extends SweepCommits env st where
  affords : ∀ m ∈ st.messages, (newDeadBudget env.opts.dlq).canCopy m.size = true

section Commits

variable {st₀ st st' : Store}

theorem IdsFresh.congr (h : IdsFresh env st) (hm : st'.messages = st.messages) (hn : st'.minted = st.minted) :
    IdsFresh env st' := by
  unfold IdsFresh
  rw [hm, hn]
  exact h

/-- The sink answers when a copy finds its number free and its headers fit, whatever the budget. -/
theorem succeeds_sink {x : DeadCtx} (hids : IdsFresh env st)
    (hcopy : ∀ origin, st.deadPolicyOf x.stream x.consumer = .dlq → st.messages.find? (x.stream, x.seq) = some origin →
      HeadersFit env x origin ∧ st.messages.find? (dlqName x.stream, st.nextOf (dlqName x.stream)) = none) :
    Succeeds (deadLetter env budget x) st := by
  by_cases hfull : ∃ origin, st.deadPolicyOf x.stream x.consumer = .dlq ∧
      st.messages.find? (x.stream, x.seq) = some origin ∧ budget.canCopy origin.size = false
  · obtain ⟨origin, hp, ho, hfull⟩ := hfull
    refine ⟨none, st, run_bind.mpr ⟨st, st, rfl, ?_⟩⟩
    simp only [planDead, hp, ne_eq, not_true_eq_false, if_false, Bool.not_true, Bool.false_eq_true, ho, hfull,
      Bool.not_false, if_true]
    rfl
  · obtain ⟨b, st', h⟩ : ∃ b st', deadLetter env budget x st = .ok (some b, st') := by
      refine succeeds_deadLetter hids fun origin hp ho => ⟨?_, hcopy origin hp ho⟩
      rw [← Bool.not_eq_false]
      exact fun hno => hfull ⟨origin, hp, ho, hno⟩
    exact ⟨some b, st', h⟩

theorem succeeds_deleteLease (d : DeliveryRow) (st : Store) : Succeeds (deleteLease d) st :=
  (succeeds_get st).bind fun _ _ _ => (succeeds_set _ _).bind fun _ _ _ => succeeds_pure _ _

theorem succeeds_releaseLease (d : DeliveryRow) (visibleAt : ℤ) (st : Store) : Succeeds (releaseLease d visibleAt) st :=
  (succeeds_get st).bind fun _ _ _ => (succeeds_set _ _).bind fun _ _ _ => succeeds_pure _ _

/-- One lease, while the sweep that started at `st₀` is under way. -/
theorem succeeds_sweepOne (hs : st₀.Sound) (hf : SweepCommits env st₀) (ha : Acts env .delivery st₀ st)
    (hids : IdsFresh env st) (hd₀ : d ∈ st₀.deliveries) (hstate : d.state = .inflight) (hv : d.visibleAt ≤ env.nowMs)
    (hd : st.deliveries.find? d.key = some d) : Succeeds (sweepOne env n d (st₀.sweepPolicy d) res budget) st := by
  unfold sweepOne Store.sweepPolicy
  cases hc : st₀.consumers.find? (d.stream, d.consumer) with
  | none => exact succeeds_pure _ _
  | some c =>
    have hcases := decideSweep_cases (r := ⟨d.attempts, d.generation, d.visibleAt, d.deliveredAt.getD 0⟩)
      (p := ⟨toInt32 c.maxDeliver, c.backoffMs.map msDuration, c.generation⟩) (j := env.jitter n) hv
    simp only [Option.map_some]
    rcases hcases with ⟨-, hact⟩ | ⟨-, hb, trigger, hact⟩ | ⟨-, -, visibleAt, delay, schedule, hact⟩
    · simp only [hact]
      exact succeeds_pure _ _
    · simp only [hact]
      refine (succeeds_get st).bind fun _ _ h₁ => (succeeds_commitEvent _ _).bind fun _ st₂ h₂ => ?_
      obtain ⟨rfl, rfl⟩ := run_get.mp h₁
      obtain rfl := commitEvent_run.mp h₂
      refine (succeeds_get _).bind fun _ _ h₃ => ?_
      obtain ⟨rfl, rfl⟩ := run_get.mp h₃
      have hspent : st₀.Spent d := ⟨c, hc, by rwa [toInt32_maxDeliver hs.inRange hc] at hb⟩
      have horigin : st.messages.find? (d.stream, d.seq) = st₀.messages.find? (d.stream, d.seq) :=
        origin_kept hs ha (k := d.key) (by simp [hd])
      refine (succeeds_sink ?_ fun origin hp ho => ?_).bind fun o st₃ _ => ?_
      · exact hids.congr rfl rfl
      · have hp : st.deadPolicyOf d.stream d.consumer = .dlq := hp
        have ho : st.messages.find? (d.stream, d.seq) = some origin := ho
        rw [Store.deadPolicyOf, (Acts.moves ha).background.consumers] at hp
        rw [horigin] at ho
        have hdoomed : st₀.Doomed d origin := ⟨hd₀, hstate, hspent, hp, ho⟩
        have hfree := next_free hs (Acts.moves ha).background (hf.target d origin hdoomed)
        refine ⟨?_, hfree⟩
        have hfit := hf.headers d origin hdoomed c hc trigger
        unfold DeliveryRow.deadCtx at hfit ⊢
        rwa [← horigin] at hfit
      · cases o with
        | none => exact succeeds_pure _ _
        | some budget =>
          refine (succeeds_deleteLease d st₃).bind fun k st₄ _ => ?_
          split <;> exact succeeds_pure _ _
    · simp only [hact]
      refine (succeeds_get st).bind fun _ _ _ => (succeeds_commitEvent _ _).bind fun _ st₂ _ => ?_
      refine Succeeds.bind ?_ fun _ _ _ => succeeds_pure _ _
      refine (succeeds_releaseLease d visibleAt st₂).bind fun k st₃ _ => ?_
      dsimp only
      split <;> exact succeeds_pure _ _

theorem deleteLease_ids {k : ℕ} (hids : IdsFresh env st) (h : deleteLease d st = .ok (k, st')) : IdsFresh env st' := by
  simp only [deleteLease, run_get_bind, run_set_bind, run_pure] at h
  obtain ⟨-, rfl⟩ := h
  exact hids.congr rfl rfl

/-- Identifiers stay fresh. -/
theorem SweptRow.ids {b : DeadBudget} (h : SweptRow env n d budget st b st') (hinj : Function.Injective env.newID)
    (hids : IdsFresh env st) : IdsFresh env st' := by
  cases h with
  | stale => exact hids
  | release c lp dec visibleAt k _ hc hg hb hv h =>
    simp only [releaseLease, run_get_bind, run_set_bind, run_pure] at h
    obtain ⟨-, rfl⟩ := h
    exact hids.congr rfl rfl
  | dead c lp dec trigger o st₁ _ hc hg hb h hend =>
    have hids₁ : IdsFresh env (st.logged (timeoutEvent env st d lp dec)) := hids.congr rfl rfl
    obtain ⟨rfl, rfl⟩ | ⟨b, k, rfl, h₂⟩ := hend
    · obtain ⟨-, rfl⟩ | ⟨hn, -⟩ := deadLetter_run h
      · exact hids₁
      · exact absurd rfl hn
    · exact deleteLease_ids (deadLetter_grown h hids₁ hinj).1 h₂

/-- **Loop.** The rows of one pass, one after the other. -/
theorem succeeds_sweepRows (hs : st₀.Sound) (hf : SweepCommits env st₀) (hinj : Function.Injective env.newID)
    (ha : Acts env .delivery st₀ st) (hids : IdsFresh env st) (hkeys : (ds.map DeliveryRow.key).Nodup)
    (hds : ∀ d ∈ ds, d ∈ st₀.deliveries ∧ d.state = .inflight ∧ d.visibleAt ≤ env.nowMs ∧
      st.deliveries.find? d.key = some d) :
    Succeeds (sweepRows env n (ds.map fun d => (d, st₀.sweepPolicy d)) res budget) st := by
  induction ds generalizing n res budget st with
  | nil => exact succeeds_pure _ _
  | cons d ds ih =>
    obtain ⟨hd₀, hstate, hv, hd⟩ := hds d List.mem_cons_self
    rw [List.map_cons, List.nodup_cons] at hkeys
    refine (succeeds_sweepOne hs hf ha hids hd₀ hstate hv hd).bind fun p st₁ h₁ => ?_
    rw [show st₀.sweepPolicy d = st.sweepPolicy d by
      rw [Store.sweepPolicy, Store.sweepPolicy, (Acts.moves ha).background.consumers]] at h₁
    have hrow := sweepOne_swept hv h₁
    obtain ⟨hacts, -, honly⟩ := hrow.acts hd hstate
    refine ih (ha.trans hacts) (hrow.ids hinj hids) hkeys.2 fun d' hd' => ?_
    obtain ⟨hrow₀, hstate', hv', hrow⟩ := hds d' (List.mem_cons_of_mem _ hd')
    have hne : d'.key ≠ d.key := fun he => hkeys.1 (he ▸ List.mem_map_of_mem hd')
    exact ⟨hrow₀, hstate', hv', (honly _ hne).trans hrow⟩

theorem succeeds_scanLeases (hds : ∀ d ∈ ds, IsInt32 d.attempts ∧ IsInt32 d.generation) (st : Store) :
    Succeeds (scanLeases ds) st := by
  induction ds generalizing st with
  | nil => exact succeeds_pure _ _
  | cons d ds ih =>
    obtain ⟨hatt, hgen⟩ := hds d List.mem_cons_self
    exact (succeeds_scanInt32 hatt st).bind fun _ st₁ _ => (succeeds_scanInt32 hgen st₁).bind fun _ st₂ _ =>
      ih (fun x hx => hds x (List.mem_cons_of_mem _ hx)) st₂

theorem succeeds_loadPolicies (hds : ∀ d ∈ ds, ∀ c ∈ st₀.consumers.find? (d.stream, d.consumer), IsInt32 c.generation)
    (st : Store) : Succeeds (loadPolicies st₀ ds) st := by
  induction ds generalizing st with
  | nil => exact succeeds_pure _ _
  | cons d ds ih =>
    refine Succeeds.bind ?_ fun _ st₁ _ => (ih (fun x hx => hds x (List.mem_cons_of_mem _ hx)) st₁).bind fun _ _ _ =>
      succeeds_pure _ _
    unfold loadSweepPolicy
    cases hc : st₀.consumers.find? (d.stream, d.consumer) with
    | none => exact succeeds_pure _ _
    | some c => exact (succeeds_scanInt32 (hds d List.mem_cons_self c hc) st).bind fun _ _ _ => succeeds_pure _ _

/-- **No sweep fails** in a state that fits. -/
theorem succeeds_sweep (hs : st.Sound) (hf : SweepCommits env st) (hinj : Function.Injective env.newID) (limit : ℕ) :
    Succeeds (sweep env limit) st := by
  have hscans : ∀ d ∈ st.expired env.nowMs limit, _ := fun d hd => hf.scans d (mem_expired hd).1 (mem_expired hd).2.1
  refine (succeeds_get st).bind fun _ _ h => ?_
  obtain ⟨rfl, rfl⟩ := run_get.mp h
  refine (succeeds_scanLeases (fun d hd => ⟨(hscans d hd).1, (hscans d hd).2.1⟩) st).bind fun _ _ h => ?_
  obtain rfl := scanLeases_run h
  refine (succeeds_loadPolicies (fun d hd => (hscans d hd).2.2) st).bind fun _ _ h => ?_
  obtain ⟨rfl, rfl⟩ := loadPolicies_run h
  refine (succeeds_sweepRows hs hf hinj .refl hf.ids (nodup_expired st env.nowMs limit) fun d hd =>
      ?_).bind fun _ st₁ _ =>
    (succeeds_get st₁).bind fun _ _ _ => succeeds_pure _ _
  obtain ⟨hmem, hstate, hv⟩ := mem_expired hd
  exact ⟨hmem, hstate, hv, find?_of_mem hmem⟩

/-- **Exact sweeps.** Where every row is of its consumer's generation, a sweep commits and moves the first leases whose
deadline has come, and nothing else. -/
theorem sweep_exact (hs : st.Sound) (hgen : st.Agrees) (hf : SweepCommits env st) (hinj : Function.Injective env.newID)
    (limit : ℕ) : ∃ r st', sweep env limit st = .ok (r, st') ∧ SweptExactly env limit st st' := by
  obtain ⟨r, st', h⟩ := succeeds_sweep hs hf hinj limit
  exact ⟨r, st', h, sweep_sweptExactly hgen hs.inRange h⟩

/-- The identifiers after a whole sweep. -/
theorem SweptAll.ids (h : SweptAll env n ds budget st st') (hinj : Function.Injective env.newID)
    (hids : IdsFresh env st) : IdsFresh env st' := by
  induction h with
  | nil => exact hids
  | cons _ _ h _ ih => exact ih (h.ids hinj hids)

end Commits

/-! ## Progress -/

section Progress

variable {left left' : DeadBudget} {st st' : Store}

/-- What is a lease afterwards was the same lease before. -/
theorem Lapse.lease (h : Lapse env left d st left' st') (hx : x ∈ st'.deliveries) (hstate : x.state = .inflight) :
    x ∈ st.deliveries := by
  have hsets : ∀ {o : Option DeliveryRow} {t : Table DeliveryRow.key}, st.deliveries.Sets d.key o t → x ∈ t →
      (∀ d', o = some d' → d'.state = .ready) → x ∈ st.deliveries := fun {o t} ht hx ho => by
    have hrow := find?_of_mem hx
    rw [ht x.key] at hrow
    split at hrow
    · rw [ho x hrow] at hstate
      cases hstate
    · exact mem_of_find? hrow
  cases h with
  | release e v t _ _ _ ht => exact hsets ht hx fun d' hd' => by rw [← Option.some.inj hd']; rfl
  | bury e ctx st₁ t _ _ _ _ _ ht => exact hsets ht hx (by simp)
  | defer => exact hx

theorem Lapsing.lease (h : Lapsing env left ds st st') (hx : x ∈ st'.deliveries) (hstate : x.state = .inflight) :
    x ∈ st.deliveries := by
  induction h with
  | nil => exact hx
  | cons h _ ih => exact h.lease (ih hx) hstate

/-- Every message afterwards is as large as one before. -/
theorem Lapse.sizes (h : Lapse env left d st left' st') : ∀ m' ∈ st'.messages, ∃ m ∈ st.messages, m.size = m'.size := by
  intro m' hm'
  cases h with
  | release => exact ⟨m', hm', rfl⟩
  | defer => exact ⟨m', hm', rfl⟩
  | bury e ctx st₁ t _ _ _ _ hburied =>
    cases hburied with
    | report => exact ⟨m', hm', rfl⟩
    | copy c origin m row msgs trimmed truncated _ _ ho hm _ _ hi =>
      rcases (mem_insert hi).mp hm' with hm' | rfl
      · exact ⟨m', hm', rfl⟩
      · exact ⟨origin, mem_of_find? ho, hm.size.symm⟩

theorem Lapsing.sizes (h : Lapsing env left ds st st') : ∀ m' ∈ st'.messages, ∃ m ∈ st.messages, m.size = m'.size := by
  induction h with
  | nil => exact fun m' hm' => ⟨m', hm', rfl⟩
  | cons h _ ih =>
    intro m' hm'
    obtain ⟨m₁, hm₁, he₁⟩ := ih m' hm'
    obtain ⟨m, hm, he⟩ := h.sizes m₁ hm₁
    exact ⟨m, hm, he.trans he₁⟩

/-- The first lease of a sweep is free afterwards: the budget is full when its turn comes. -/
theorem Lapsing.first (h : Lapsing env left (d :: ds) st st') (hkeys : ((d :: ds).map DeliveryRow.key).Nodup)
    (hfit : ∀ m ∈ st.messages, left.canCopy m.size = true) (hstate : d.state = .inflight) : d ∉ st'.deliveries := by
  intro hd
  have hd := find?_of_mem hd
  cases h with
  | cons h hs =>
    rw [List.map_cons, List.nodup_cons] at hkeys
    rw [hs.other hkeys.1] at hd
    cases h with
    | release e v t _ _ _ ht =>
      have hready := congrArg DeliveryRow.state (Option.some.inj (ht.same.symm.trans hd))
      rw [hstate] at hready
      cases hready
    | bury e ctx st₁ t _ _ _ _ _ ht => exact absurd (ht.same.symm.trans hd) (by simp)
    | defer e size _ _ hsize hfull =>
      simp only [Store.copyDue, Option.mem_def] at hsize
      split_ifs at hsize
      obtain ⟨m, hm, rfl⟩ := Option.map_eq_some_iff.mp hsize
      rw [hfit m (mem_of_find? hm)] at hfull
      cases hfull

end Progress

/-! ## Draining -/

section Drain

variable {st : Store}

/-- The leases whose deadline has strictly passed. -/
def Store.overdueLeases (st : Store) (nowMs : ℤ) : List DeliveryRow :=
  st.deliveries.select fun d => d.state == .inflight && d.visibleAt < nowMs

theorem mem_overdueLeases :
    d ∈ st.overdueLeases nowMs ↔ d ∈ st.deliveries ∧ d.state = .inflight ∧ d.visibleAt < nowMs := by
  rw [Store.overdueLeases, mem_select]
  simp

/-- Where leases are overdue, the first lease of the scan is. -/
theorem expired_head (hl : 1 ≤ limit) (hne : st.overdueLeases nowMs ≠ []) :
    ∃ d rest, st.expired nowMs limit = d :: rest ∧ d ∈ st.overdueLeases nowMs := by
  obtain ⟨x, hx⟩ := List.exists_mem_of_ne_nil _ hne
  obtain ⟨hmem, hstate, hdue⟩ := mem_overdueLeases.mp hx
  have hfirst := firstExpired st nowMs limit
  generalize st.expired nowMs limit = l at hfirst
  cases l with
  | nil => exact absurd (hfirst.first x hmem hstate hdue.le (by simp)).1 (by simp; omega)
  | cons d rest =>
    obtain ⟨hd, hheld, -⟩ := hfirst.due d List.mem_cons_self
    have hle : d.visibleAt ≤ x.visibleAt := by
      by_cases hin : x ∈ d :: rest
      · rcases List.mem_cons.mp hin with rfl | hin
        · exact le_rfl
        · exact deadline_le ((List.pairwise_cons.mp hfirst.sorted).1 x hin)
      · exact deadline_le ((hfirst.first x hmem hstate hdue.le hin).2 d List.mem_cons_self)
    exact ⟨d, rest, rfl, mem_overdueLeases.mpr ⟨hd, hheld, hle.trans_lt hdue⟩⟩

/-- Every overdue lease is of its consumer's generation. -/
def Store.Timely (st : Store) (nowMs : ℤ) : Prop := ∀ d ∈ st.overdueLeases nowMs, st.current d = true

/-- A sweep in a state that fits, as a lapse of leases. -/
structure Sweeps (env : Env) (limit : ℕ) (st st' : Store) : Prop where
  acts : Acts env .delivery { st with carriers := [] } st'
  lapses : Lapsing env (newDeadBudget env.opts.dlq) ((st.expired env.nowMs limit).filter st.current)
    { st with carriers := [] } st'
  ids : IdsFresh env st'

theorem sweeps_swept (hs : st.Sound) (hf : SweepFits env st) (hinj : Function.Injective env.newID) :
    Sweeps env limit st (st.swept env limit) := by
  have hs₁ := hs.uncarried []
  have hf₁ : SweepFits env { st with carriers := [] } :=
    ⟨⟨hf.scans, fun d m h => hf.headers d m ⟨h.row, h.lease, h.spent, h.policy, h.origin⟩,
      fun d m h => hf.target d m ⟨h.row, h.lease, h.spent, h.policy, h.origin⟩, hf.ids⟩, hf.affords⟩
  obtain ⟨r, st', h⟩ := succeeds_sweep hs₁ hf₁.toSweepCommits hinj limit
  have hst : st.swept env limit = st' := by rw [Store.swept, h]
  have hswept := sweep_swept h
  rw [hst]
  exact ⟨hswept.acts, hswept.lapsing hs₁.inRange, hswept.ids hinj hf₁.ids⟩

section Step

variable {st' : Store} (h : Sweeps env limit st st')

include h

theorem Sweeps.lease (hd : d ∈ st'.deliveries) (hstate : d.state = .inflight) : d ∈ st.deliveries :=
  h.lapses.lease hd hstate

theorem Sweeps.current (d : DeliveryRow) : st'.current d = st.current d := by
  rw [Store.current, h.lapses.consumers]
  rfl

theorem Sweeps.overdue : st'.overdueLeases nowMs ⊆ st.overdueLeases nowMs := fun d hd => by
  obtain ⟨hmem, hstate, hdue⟩ := mem_overdueLeases.mp hd
  exact mem_overdueLeases.mpr ⟨h.lease hmem hstate, hstate, hdue⟩

theorem Sweeps.timely (ht : st.Timely nowMs) : st'.Timely nowMs := fun d hd => by
  rw [h.current]
  exact ht d (h.overdue hd)

variable (hs : st.Sound)

include hs

theorem Sweeps.origin (hd : d ∈ st'.deliveries) :
    st'.messages.find? (d.stream, d.seq) = st.messages.find? (d.stream, d.seq) :=
  origin_kept (hs.uncarried []) h.acts (k := d.key) (by simp [find?_of_mem hd])

theorem Sweeps.doomed {m : MessageRow} (hd : st'.Doomed d m) : st.Doomed d m := by
  have hcons := h.lapses.consumers
  refine ⟨h.lease hd.row hd.lease, hd.lease, ?_, ?_, (h.origin hs hd.row).symm.trans hd.origin⟩
  · have hspent := hd.spent
    rw [Store.Spent, hcons] at hspent
    exact hspent
  · have hpolicy := hd.policy
    rw [Store.deadPolicyOf, hcons] at hpolicy
    exact hpolicy

/-- A state that fits fits after a sweep. -/
theorem Sweeps.fits (hf : SweepFits env st) : SweepFits env st' where
  scans d hd hstate := by
    rw [h.lapses.consumers]
    exact hf.scans d (h.lease hd hstate) hstate
  affords m' hm' := by
    obtain ⟨m, hm, he⟩ := h.lapses.sizes m' hm'
    rw [← he]
    exact hf.affords m hm
  headers d m hd c hc trigger := by
    rw [h.lapses.consumers] at hc
    have hfit := hf.headers d m (h.doomed hs hd) c hc trigger
    unfold DeliveryRow.deadCtx at hfit ⊢
    rw [h.origin hs hd.row]
    exact hfit
  target d m hd := by
    rw [(Acts.moves h.acts).background.metaTable]
    exact hf.target d m (h.doomed hs hd)
  ids := h.ids

omit hs

/-- **Progress.** Where overdue leases are left and none of them is stale, a sweep leaves fewer. -/
theorem Sweeps.fewer (hf : SweepFits env st) (hl : 1 ≤ limit) (ht : st.Timely env.nowMs)
    (hne : st.overdueLeases env.nowMs ≠ []) :
    (st'.overdueLeases env.nowMs).length < (st.overdueLeases env.nowMs).length := by
  -- the first lease of the scan is overdue
  obtain ⟨d, rest, hfirst, hd⟩ := expired_head hl hne
  have hstate := (mem_overdueLeases.mp hd).2.1
  have hlapse := h.lapses
  have hkeys := (nodup_expired st env.nowMs limit).sublist (List.filter_sublist (p := st.current).map DeliveryRow.key)
  rw [hfirst, List.filter_cons_of_pos (ht d hd)] at hlapse hkeys
  have hgone : d ∉ st'.overdueLeases env.nowMs := fun hin =>
    hlapse.first hkeys hf.affords hstate (mem_overdueLeases.mp hin).1
  have hsub : d :: st'.overdueLeases env.nowMs ⊆ st.overdueLeases env.nowMs :=
    List.cons_subset.mpr ⟨hd, h.overdue⟩
  have hnodup : (d :: st'.overdueLeases env.nowMs).Nodup := List.nodup_cons.mpr ⟨hgone, st'.deliveries.nodup_select⟩
  exact (hnodup.subperm hsub).length_le

end Step

theorem drained_iff : st.Drained nowMs ↔ st.overdueLeases nowMs = [] := by
  rw [List.eq_nil_iff_forall_not_mem]
  refine ⟨fun h d hd => ?_, fun h d hd hstate => ?_⟩
  · obtain ⟨hmem, hstate, hdue⟩ := mem_overdueLeases.mp hd
    exact absurd (h d hmem hstate) (not_le.mpr hdue)
  · by_contra hdue
    exact h d (mem_overdueLeases.mpr ⟨hd, hstate, not_le.mp hdue⟩)

/-- As many sweeps as there are overdue leases are enough. -/
theorem sweptBy_drained (hl : 1 ≤ limit) (hinj : Function.Injective env.newID) (js : List (ℕ → Jitter)) (hs : st.Sound)
    (hf : SweepFits env st) (ht : st.Timely env.nowMs) (hcount : (st.overdueLeases env.nowMs).length ≤ js.length) :
    (st.sweptBy env limit js).Drained env.nowMs := by
  induction js generalizing st with
  | nil => exact drained_iff.mpr (List.length_eq_zero_iff.mp (Nat.le_zero.mp hcount))
  | cons j js ih =>
    have hf' : SweepFits { env with jitter := j } st := ⟨⟨hf.scans, hf.headers, hf.target, hf.ids⟩, hf.affords⟩
    have hstep : Sweeps { env with jitter := j } limit st (st.swept { env with jitter := j } limit) :=
      sweeps_swept hs hf' hinj
    have hnext := hstep.fits hs hf'
    refine ih hs.swept ⟨⟨hnext.scans, hnext.headers, hnext.target, hnext.ids⟩, hnext.affords⟩ (hstep.timely ht) ?_
    by_cases hne : st.overdueLeases env.nowMs = []
    · have hsub : _ ⊆ st.overdueLeases env.nowMs := hstep.overdue
      rw [hne] at hsub
      rw [List.subset_nil.mp hsub]
      exact Nat.zero_le _
    · have hless := hstep.fewer hf' hl ht hne
      rw [List.length_cons] at hcount
      exact Nat.le_of_lt_succ (hless.trans_le hcount)

theorem drains_of_timely (hs : st.Sound) (hinj : Function.Injective env.newID) (hf : SweepFits env st) (hl : 1 ≤ limit)
    (ht : st.Timely env.nowMs) : st.Drains env limit :=
  ⟨_, fun js hjs => sweptBy_drained hl hinj js hs hf ht hjs.ge⟩

/-- After a run whose purges take all rows of a consumer or none, the sweeper drains. -/
theorem drains_of_whole_purges {h : List Visit} {b : Broker} (r : Runs h b) (hp : ∀ v ∈ h, PurgesWhole v)
    (hinj : Function.Injective env.newID) (hf : SweepFits env b.store) (hl : 1 ≤ limit) : b.store.Drains env limit := by
  refine drains_of_timely r.sound hinj hf hl fun d hd => current_iff.mpr ?_
  have hrow := find?_of_mem (mem_overdueLeases.mp hd).1
  obtain ⟨c, hc⟩ := Option.ne_none_iff_exists'.mp (r.sound.owner d.key (by simp [hrow]))
  exact ⟨c, hc, fenced_row (r.fenced hp) hc hrow⟩

/-- **Draining.** In a reachable state that fits, the sweeper drains the overdue leases exactly if each of them is of
its consumer's generation. -/
theorem sweeps_drain_iff {h : List Visit} {b : Broker} (r : Runs h b) (hinj : Function.Injective env.newID)
    (hf : SweepFits env b.store) (hl : 1 ≤ limit) :
    b.store.Drains env limit ↔ ∀ d ∈ b.store.overdueLeases env.nowMs, b.store.current d = true := by
  constructor
  · intro hdrains d hd
    obtain ⟨hmem, hstate, hdue⟩ := mem_overdueLeases.mp hd
    by_contra hstale
    exact not_drains_of_stale r.sound hmem hstate hdue (Bool.not_eq_true _ ▸ hstale) hdrains
  · exact drains_of_timely r.sound hinj hf hl

/-! ## Leases that drain and one that does not -/

/-- A process with unused identifiers, after every lease of the sample runs has expired. -/
def lateEnv : Env := { Env.atMs 40000 with newID := freshEnv.newID }

/-- A message is held by a consumer that gets it once only, until 30010, and by another one, until 30011. -/
def lastChance : List (ℤ × Request) :=
  [(1, aCreate),
    (2, .createConsumer aStream { defaultConsumerConfig aConsumer with maxDeliver := 1 } .first []),
    (3, .createConsumer aStream (defaultConsumerConfig (str "d")) .first []),
    (4, aPublish),
    (10, aFetch 1), (11, .fetch aStream (str "d") 1 0)]

instance (v : ℤ) : Decidable (IsInt32 v) := inferInstanceAs (Decidable (_ ∧ _))

theorem injective_freshID : Function.Injective lateEnv.newID := fun _ _ hij =>
  Int.ofNat.inj (itoa_injective (List.cons.inj hij).2)

def deadTriggers : List DeadTrigger := [.ackWait, .nak, .term, .policyLowered]

/-- What a scan of the tables can find out of `SweepFits`, when no identifier in use starts as the new ones do. -/
def Store.Scanned (st : Store) : Prop :=
  (∀ d ∈ st.deliveries, (d.state = .inflight → IsInt32 d.attempts ∧ IsInt32 d.generation ∧
      ∀ c ∈ st.consumers.find? (d.stream, d.consumer), IsInt32 c.generation) ∧
    (∀ m ∈ st.messages.find? (d.stream, d.seq), ∀ c ∈ st.consumers.find? (d.stream, d.consumer),
      ∀ trigger ∈ deadTriggers,
      HeadersFit lateEnv (d.deadCtx st (toInt32 c.maxDeliver) trigger) m) ∧
    st.metaTable.find? (.reap (dlqName d.stream)) = none) ∧
  ∀ m ∈ st.messages, (newDeadBudget lateEnv.opts.dlq).canCopy m.size = true ∧ m.id.head? ≠ some (chr 'x')

instance (st : Store) : Decidable st.Scanned := inferInstanceAs (Decidable (_ ∧ _))

theorem Store.Scanned.fits (h : st.Scanned) : SweepFits lateEnv st := by
  have hall : ∀ trigger, trigger ∈ deadTriggers := fun trigger => by cases trigger <;> decide
  refine ⟨⟨fun d hd => (h.1 d hd).1, fun d m hd c hc trigger => ?_, fun d _ hd => (h.1 d hd.row).2.2,
    fun m hm i _ he => (h.2 m hm).2 (by rw [he]; rfl)⟩, fun m hm => (h.2 m hm).1⟩
  exact (h.1 d hd.row).2.1 m hd.origin c hc trigger (hall trigger)

theorem lastChance_scanned : (playState lastChance).store.Scanned ∧
    ∀ d ∈ (playState lastChance).store.deliveries, (playState lastChance).store.current d = true := by
  decide +kernel

/-- One of the two leases is given up, the other one released. -/
theorem sweep_exact_lastChance : ∃ r st', sweep lateEnv 2 (playState lastChance).store = .ok (r, st') ∧
    SweptExactly lateEnv 2 (playState lastChance).store st' ∧
    st'.deliveries.find? (aStream, aConsumer, 1) = none ∧
    (st'.deliveries.find? (aStream, str "d", 1)).map DeliveryRow.state = some .ready := by
  obtain ⟨hscan, hcur⟩ := lastChance_scanned
  obtain ⟨r, st', h, hexact⟩ := sweep_exact (runs_play lastChance).sound (fun d hd => current_iff.mp (hcur d hd))
    hscan.fits.toSweepCommits injective_freshID 2
  have hrows : (sweep lateEnv 2 (playState lastChance).store).toOption.map (fun p =>
      (p.2.deliveries.find? (aStream, aConsumer, 1),
        (p.2.deliveries.find? (aStream, str "d", 1)).map DeliveryRow.state)) = some (none, some .ready) := by
    decide +kernel
  rw [h] at hrows
  obtain ⟨hgone, hready⟩ := Prod.mk.inj (Option.some.inj hrows)
  exact ⟨r, st', h, hexact, hgone, hready⟩

/-- In the millisecond of its deadline a lease is taken away. -/
theorem swept_at_deadline : ¬ ∀ (env : Env) (limit : ℕ) (st st' : Store) (r : SweepResult), st.Agrees →
    sweep env limit st = .ok (r, st') →
    ∀ d ∈ st.deliveries, env.nowMs ≤ d.visibleAt → st'.deliveries.find? d.key = some d := by
  intro hall
  have hrun : (sweep { lateEnv with now := 30011 * millisecond } 2 (playState lastChance).store).toOption.map (fun p =>
      (p.2.deliveries.find? (aStream, str "d", 1)).map DeliveryRow.state) = some (some .ready) := by decide +kernel
  have hrow : ∃ d ∈ (playState lastChance).store.deliveries,
      d.key = (aStream, str "d", 1) ∧ d.state = .inflight ∧ d.visibleAt = 30011 := by decide +kernel
  obtain ⟨⟨r, st'⟩, h, hready⟩ := ok_of_map hrun
  obtain ⟨d, hd, hkey, hheld, hv⟩ := hrow
  have hkept := hall _ _ _ st' r (fun d hd => current_iff.mp (lastChance_scanned.2 d hd)) h d hd hv.ge
  rw [hkey] at hkept
  rw [hkept] at hready
  rw [Option.map_some, hheld] at hready
  cases hready

/-- Both leases are overdue, and drain one by one. -/
theorem sweeps_drain_lastChance :
    ((playState lastChance).store.overdueLeases lateEnv.nowMs).length = 2 ∧
    (playState lastChance).store.Drains lateEnv 1 := by
  obtain ⟨hscan, hcur⟩ := lastChance_scanned
  refine ⟨by decide +kernel, (sweeps_drain_iff (runs_play lastChance) injective_freshID hscan.fits le_rfl).mpr
    fun d hd => ?_⟩
  exact hcur d (mem_overdueLeases.mp hd).1

/-- The lease that a partial purge left behind is overdue, and no number of sweeps frees it. -/
theorem sweeper_starves : Runs (play partialPurge) (playState partialPurge) ∧
    SweepFits lateEnv (playState partialPurge).store ∧
    ((playState partialPurge).store.overdueLeases lateEnv.nowMs).map (fun d => (d.seq, d.generation)) = [(2, 1)] ∧
    ∀ limit, ¬ (playState partialPurge).store.Drains lateEnv limit := by
  have hleft : (playState partialPurge).store.Scanned ∧ (∃ d ∈ (playState partialPurge).store.deliveries,
    d.state = .inflight ∧ d.visibleAt < lateEnv.nowMs ∧
        (playState partialPurge).store.current d = false) ∧
      ((playState partialPurge).store.overdueLeases lateEnv.nowMs).map (fun d => (d.seq, d.generation)) = [(2, 1)] := by
    decide +kernel
  have hruns := runs_play partialPurge
  obtain ⟨hscan, ⟨d, hd, hstate, hdue, hcur⟩, hrows⟩ := hleft
  refine ⟨hruns, hscan.fits, hrows, fun limit => ?_⟩
  exact not_drains_of_stale hruns.sound hd hstate hdue hcur

end Drain

end Messq

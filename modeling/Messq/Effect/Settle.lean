import Messq.Effect.Background

/-! # Settle as a run of acts

The load phase reads one snapshot (`prepare_run`); the apply phase changes delivery rows only behind the fence.
A release is planned for the row of the snapshot: that row is found again behind the acts made since, and a row
that was waiting then is not inflight now. `acts_settle` needs tokens as clients hold them, with attempts from 1. -/

namespace Messq

open Lib Table Relation

variable {budget b : DeadBudget} {res r : ItemResult} {items : List SettleItem} {it : SettleItem} {plan : SettlePlan}
  {st st' st₀ st₁ st₂ : Store} {t : Token} {u : Unit} {n : ℕ} {reason stream : Bytes} {d : DeliveryRow}
  {extra : DeliveryRow → Bool} {f : DeliveryRow → DeliveryRow} {ps : List Prepared} {cons : SettleConsumer}

/-! ## Loading -/

def SettleConsumer.ofRow (c : ConsumerRow) : SettleConsumer := ⟨c.generation, c.cursorSeq, settleConfig c⟩

def SettleRow.ofRow (st : Store) (d : DeliveryRow) : SettleRow where
  view := ⟨d.state, d.attempts, d.visibleAt, d.deliveredAt.getD 0⟩
  generation := d.generation
  subject := d.subject
  msgId := ((st.messages.find? (d.stream, d.seq)).map MessageRow.id).getD []
  traceId := ((st.messages.find? (d.stream, d.seq)).map MessageRow.traceId).getD []

/-- The key of the delivery row a token names. -/
def Token.row (t : Token) : Bytes × Bytes × ℤ := (t.stream, t.consumer, t.seq)

/-- What the load phase finds for an item. -/
def Prepared.load (st : Store) (it : SettleItem) : Prepared :=
  .loaded it ((st.consumers.find? (it.token.stream, it.token.consumer)).map .ofRow)
    ((st.deliveries.find? it.token.row).map (.ofRow st))

theorem loadSettleConsumer_run {name : Bytes} {o : Option SettleConsumer}
    (h : loadSettleConsumer st stream name st₁ = .ok (o, st₂)) :
    o = (st.consumers.find? (stream, name)).map .ofRow ∧ st₁ = st₂ := by
  unfold loadSettleConsumer at h
  cases hc : st.consumers.find? (stream, name) with
  | none =>
    simp only [hc, run_pure] at h
    exact ⟨h.1.symm, h.2⟩
  | some c =>
    simp only [hc, run_bind, scanInt32_run, run_pure] at h
    obtain ⟨_, _, ⟨-, rfl, rfl⟩, rfl, rfl⟩ := h
    exact ⟨rfl, rfl⟩

theorem loadSettleRow_run {consumer : Bytes} {seq : ℤ} {o : Option SettleRow}
    (h : loadSettleRow st stream consumer seq st₁ = .ok (o, st₂)) :
    o = (st.deliveries.find? (stream, consumer, seq)).map (.ofRow st) ∧ st₁ = st₂ := by
  unfold loadSettleRow at h
  cases hd : st.deliveries.find? (stream, consumer, seq) with
  | none =>
    simp only [hd, run_pure] at h
    exact ⟨h.1.symm, h.2⟩
  | some d =>
    simp only [hd, run_bind, scanInt32_run, run_pure] at h
    obtain ⟨_, _, ⟨-, rfl, rfl⟩, _, _, ⟨-, rfl, rfl⟩, rfl, rfl⟩ := h
    have hk : d.key = (stream, consumer, seq) := find?_key hd
    simp only [DeliveryRow.key, Prod.mk.injEq] at hk
    obtain ⟨rfl, rfl, rfl⟩ := hk
    exact ⟨rfl, rfl⟩

/-- **The snapshot.** Every item is either the repeat of a token or is loaded from the state the batch found. -/
theorem prepare_run {seen : List Bytes} (h : prepare st seen items st₁ = .ok (ps, st₂)) :
    List.Forall₂ (fun it p => p = .repeated it ∨ p = .load st it) items ps ∧ st₁ = st₂ := by
  induction items generalizing seen ps st₁ with
  | nil =>
    obtain ⟨rfl, rfl⟩ := run_pure.mp h
    exact ⟨.nil, rfl⟩
  | cons it items ih =>
    simp only [prepare, run_ite] at h
    split at h
    · simp only [run_bind, run_pure] at h
      obtain ⟨ps', _, h, rfl, rfl⟩ := h
      obtain ⟨hps, rfl⟩ := ih h
      exact ⟨.cons (.inl rfl) hps, rfl⟩
    · simp only [run_bind, run_pure] at h
      obtain ⟨cons, _, h₁, row, _, h₂, ps', _, h, rfl, rfl⟩ := h
      obtain ⟨rfl, rfl⟩ := loadSettleConsumer_run h₁
      obtain ⟨rfl, rfl⟩ := loadSettleRow_run h₂
      obtain ⟨hps, rfl⟩ := ih h
      exact ⟨.cons (.inr rfl) hps, rfl⟩

/-! ## The fence -/

theorem Token.fences_iff :
    t.fences d = true ↔ d.key = t.row ∧ d.attempts = t.attempt ∧ d.generation = t.generation := by
  simp only [Token.fences, Token.row, Bool.and_eq_true, beq_iff_eq, and_assoc]

theorem requireOne_run : requireOne n st = .ok (u, st') ↔ n = 1 ∧ st = st' := by
  unfold requireOne
  by_cases hn : n = 1
  · simp only [hn, ne_eq, not_true_eq_false, if_false, true_and]
    exact run_pure.trans (and_iff_right rfl)
  · simp only [hn, ne_eq, not_false_eq_true, if_true, fail_run, false_and]

theorem fencedDelete_run (h : fencedDelete t st = .ok (u, st')) :
    (st.deliveries.select t.fences).length = 1 ∧ st' = { st with deliveries := st.deliveries.delete t.fences } := by
  simp only [fencedDelete, run_bind, run_get_bind, run_set, requireOne_run] at h
  obtain ⟨_, _, ⟨hn, rfl⟩, rfl⟩ := h
  exact ⟨hn, rfl⟩

theorem fencedUpdate_run {hf} (h : fencedUpdate t extra f hf st = .ok (u, st')) :
    (st.deliveries.select fun d => t.fences d && extra d).length = 1 ∧
      st' = { st with deliveries := st.deliveries.update (fun d => t.fences d && extra d) f fun d _ => hf d } := by
  simp only [fencedUpdate, run_bind, run_get_bind, run_set, requireOne_run] at h
  obtain ⟨_, _, ⟨hn, rfl⟩, rfl⟩ := h
  exact ⟨hn, rfl⟩

/-- The row a fence selects. -/
theorem fence_row {p : DeliveryRow → Bool} (h : (st.deliveries.select fun d => t.fences d && p d).length = 1) :
    ∃ d, st.deliveries.find? d.key = some d ∧ d.key = t.row ∧ d.attempts = t.attempt ∧ d.generation = t.generation ∧
      p d = true ∧ ∀ d' ∈ st.deliveries, (t.fences d' && p d') = true ↔ d' = d := by
  obtain ⟨d, hd, hiff⟩ := exists_of_select_length h
  obtain ⟨hf, hp⟩ := Bool.and_eq_true_iff.mp ((hiff d hd).mpr rfl)
  obtain ⟨hk, ha, hg⟩ := Token.fences_iff.mp hf
  exact ⟨d, find?_of_mem hd, hk, ha, hg, hp, hiff⟩

theorem fencedDelete_sets (h : fencedDelete t st = .ok (u, st')) :
    ∃ d, st.deliveries.find? d.key = some d ∧ d.key = t.row ∧ d.attempts = t.attempt ∧ d.generation = t.generation ∧
      st' = { st with deliveries := st'.deliveries } ∧ st.deliveries.Sets d.key none st'.deliveries := by
  obtain ⟨hn, rfl⟩ := fencedDelete_run h
  obtain ⟨d, hd, hk, ha, hg, -, hiff⟩ := fence_row (p := fun _ => true) (by simpa using hn)
  exact ⟨d, hd, hk, ha, hg, rfl, sets_delete (mem_of_find? hd) fun d' hd' => by simpa using hiff d' hd'⟩

theorem fencedUpdate_sets {hf} (h : fencedUpdate t extra f hf st = .ok (u, st')) :
    ∃ d, st.deliveries.find? d.key = some d ∧ d.key = t.row ∧ d.attempts = t.attempt ∧ extra d = true ∧
      st' = { st with deliveries := st'.deliveries } ∧ st.deliveries.Sets d.key (some (f d)) st'.deliveries := by
  obtain ⟨hn, rfl⟩ := fencedUpdate_run h
  obtain ⟨d, hd, hk, ha, -, hp, hiff⟩ := fence_row hn
  exact ⟨d, hd, hk, ha, hp, rfl, sets_update (fun d _ => hf d) (mem_of_find? hd) hiff⟩

/-! ## Applying a plan -/

variable {env : Env}

theorem settleEvent_about (nowMs : ℤ) (name : EventName) (t : Token) (row : SettleRow) (detail : Detail) :
    (settleEvent nowMs name t row detail).about = t.row := by
  simp only [Event.about, settleEvent, nullStr_getD, nullI64_getD, Token.row]

/-- What `applyDead` tells the sink. -/
def SettleItem.deadCtx (it : SettleItem) (cons : SettleConsumer) (row : SettleRow) (plan : SettlePlan)
    (reason : Bytes) :
    DeadCtx where
  stream := it.token.stream
  consumer := it.token.consumer
  subject := row.subject
  seq := it.token.seq
  msgId := row.msgId
  traceId := row.traceId
  attempts := it.token.attempt
  generation := it.token.generation
  maxDeliver := cons.cfg.maxDeliver
  cause := plan.cause
  trigger := if plan.cause = .terminated then .term else .nak
  lastReason := reason

/-- What the mutation of a plan did: the fenced statement and its report; on the dead path the sink comes between
them. -/
inductive Acted (env : Env) (budget : DeadBudget) (it : SettleItem) (cons : SettleConsumer) (row : SettleRow)
    (plan : SettlePlan) (reason : Bytes) (st : Store) : DeadBudget → Store → Prop
  | noop (ha : plan.action = .noop) : Acted env budget it cons row plan reason st budget st
  | ack {u : Unit} {st₁ : Store} (detail : Detail) (ha : plan.action = .ack) (h : fencedDelete it.token st =
      .ok (u, st₁)) :
    Acted env budget it cons row plan reason st budget (st₁.logged (settleEvent env.nowMs .msgAck it.token row detail))
  | extend {u : Unit} {st₁ : Store} (detail : Detail) (ha : plan.action = .extend)
    (h : fencedUpdate it.token (fun d => d.state == .inflight) (fun d => { d with visibleAt := plan.newVisibleAt })
      (fun _ => rfl) st = .ok (u, st₁)) :
    Acted env budget it cons row plan reason st budget (st₁.logged
      (settleEvent env.nowMs .msgExtend it.token row detail))
  | release {u : Unit} {st₁ st' : Store} (detail : Detail) (ha : plan.action = .release)
    (h : fencedUpdate it.token (fun _ => true)
      (fun d => { d with state := .ready, visibleAt := plan.newVisibleAt, lastReason := some reason })
      (fun _ => rfl) st = .ok (u, st₁))
    (hst : st' = st₁.logged (settleEvent env.nowMs .msgNak it.token row detail) ∨ row.view.state = .ready ∧ st' = st₁) :
    Acted env budget it cons row plan reason st budget st'
  | dead {u : Unit} {b : DeadBudget} {st₂ st' : Store} (name : EventName) (detail : Detail) (ha : plan.action = .dead)
    (hn : name = .msgTerm ∨ name = .msgNak)
    (hsink : deadLetter env budget (it.deadCtx cons row plan reason)
      (st.logged (settleEvent env.nowMs name it.token row detail)) = .ok (some b, st₂))
    (h : fencedDelete it.token st₂ = .ok (u, st')) : Acted env budget it cons row plan reason st b st'

theorem applyAction_acted {row : SettleRow}
    (h : applyAction env budget it cons row plan reason res st = .ok ((r, b), st')) :
    r.status = res.status ∧ Acted env budget it cons row plan reason st b st' := by
  unfold applyAction at h
  cases ha : plan.action with
  | noop =>
    simp only [ha, run_pure] at h
    obtain ⟨hr, rfl⟩ := h
    cases hr
    exact ⟨rfl, .noop ha⟩
  | ack =>
    simp only [ha, applyAck, run_bind, run_pure, commitEvent_run] at h
    obtain ⟨_, _, ⟨_, st₁, h₁, _, _, rfl, rfl, rfl⟩, hr, rfl⟩ := h
    cases hr
    exact ⟨rfl, .ack _ ha h₁⟩
  | extend =>
    simp only [ha, applyExtend, run_bind, run_pure, commitEvent_run] at h
    obtain ⟨_, _, ⟨_, st₁, h₁, _, _, rfl, rfl, rfl⟩, hr, rfl⟩ := h
    cases hr
    exact ⟨rfl, .extend _ ha h₁⟩
  | release =>
    simp only [ha, applyRelease, run_bind, run_pure] at h
    obtain ⟨_, _, ⟨_, st₁, h₁, h₂⟩, hr, rfl⟩ := h
    cases hr
    rw [run_ite] at h₂
    split at h₂
    · simp only [run_bind, run_pure, commitEvent_run] at h₂
      obtain ⟨_, _, rfl, rfl, rfl⟩ := h₂
      exact ⟨rfl, .release _ ha h₁ (.inl rfl)⟩
    · rename_i hquiet
      obtain ⟨rfl, rfl⟩ := run_pure.mp h₂
      simp only [not_or, not_not] at hquiet
      exact ⟨rfl, .release (.reason []) ha h₁ (.inr ⟨hquiet.1, rfl⟩)⟩
  | dead =>
    simp only [ha, applyDead, run_bind, run_pure, require_run, commitEvent_run] at h
    obtain ⟨_, _, rfl, o, st₂, h₂, _, _, ⟨rfl, rfl⟩, _, st₃, h₃, hr, rfl⟩ := h
    cases hr
    refine ⟨rfl, .dead _ _ ha ?_ h₂ h₃⟩
    split
    · exact .inl rfl
    · exact .inr rfl

/-- A rejection writes at most one event, of two kinds, and its repeat limiter. -/
def Turned (env : Env) (t : Token) (st st' : Store) : Prop :=
  st' = st ∨ ∃ name reason res u, (name = .msgAckDup ∨ name = .msgAckStale) ∧
    rejectionEvent env t name reason res st = .ok (u, st')

/-- What the reason of an item is cut to. -/
def SettleItem.cut (env : Env) (it : SettleItem) : Bytes := truncateUTF8 (trimSpace it.reason) env.opts.maxReasonBytes

/-- **One item.** It is turned away, and then its plan, if there is one, prescribes nothing; or its token named the
generation of the consumer and the attempt of the row, and the mutation of its plan was carried out. -/
inductive Answered (env : Env) (n : ℕ) (budget : DeadBudget) (it : SettleItem) (cons : Option SettleConsumer)
    (row : Option SettleRow) (st : Store) : ItemResult → DeadBudget → Store → Prop
  | rejected {r : ItemResult} {st' : Store} (hr : r.status ≠ .ok)
    (hnoop : ∀ c plan, cons = some c → planSettle (settleRequest env n it c row) env.now = .ok plan →
      plan.action = .noop)
    (h : Turned env it.token st st') : Answered env n budget it cons row st r budget st'
  | granted {c : SettleConsumer} {d : SettleRow} {plan : SettlePlan} {r : ItemResult} {b : DeadBudget} {st' : Store}
    (hc : cons = some c) (hd : row = some d) (hplan : planSettle (settleRequest env n it c row) env.now = .ok plan)
    (hgen : it.token.generation = c.generation) (hatt : it.token.attempt = d.view.attempts)
    (hgrant : plan.Grants (settleRequest env n it c row) d.view) (hr : r.status = .ok)
    (h : Acted env budget it c d plan (it.cut env) st b st') : Answered env n budget it cons row st r b st'

theorem applyOne_answered {cons : Option SettleConsumer} {row : Option SettleRow}
    (h : applyOne env n budget it cons row st = .ok ((r, b), st')) : Answered env n budget it cons row st r b st' := by
  unfold applyOne at h
  cases cons with
  | none =>
    obtain ⟨hr, rfl⟩ := run_pure.mp h
    cases hr
    exact .rejected (by simp) (by simp) (.inl rfl)
  | some c =>
    dsimp only at h
    cases hplan : planSettle (settleRequest env n it c row) env.now with
    | error e =>
      simp only [hplan, run_pure] at h
      obtain ⟨hr, rfl⟩ := h
      cases hr
      refine .rejected (by simp) (fun c' plan hc' hp => ?_) (.inl rfl)
      cases hc'
      cases hplan.symm.trans hp
    | ok plan =>
      simp only [hplan] at h
      rcases planSettle_cases hplan with ⟨hstatus, haction⟩ | ⟨view, hview, hgen, hatt, hgrant⟩
      · have hnoop : ∀ c' plan', some c = some c' →
            planSettle (settleRequest env n it c' row) env.now = .ok plan' → plan'.action = .noop := by
          intro c' plan' hc' hplan'
          cases hc'
          cases hplan.symm.trans hplan'
          exact haction
        unfold applyPlan at h
        cases hs : plan.status with
        | ok => exact absurd hs hstatus
        | unknown =>
          simp only [hs, run_pure] at h
          obtain ⟨hr, rfl⟩ := h
          cases hr
          exact .rejected (by simp) hnoop (.inl rfl)
        | stale | staleAck | wrongGeneration =>
          simp only [hs, run_bind, run_pure] at h
          obtain ⟨_, _, h, hr, rfl⟩ := h
          cases hr
          exact .rejected (by simp) hnoop (.inr ⟨_, _, _, _, by simp, h⟩)
      · obtain ⟨d, rfl, rfl⟩ := Option.map_eq_some_iff.mp hview
        simp only [applyPlan, hgrant.status] at h
        obtain ⟨hr, hacted⟩ := applyAction_acted h
        exact .granted rfl rfl hplan hgen hatt hgrant hr hacted

/-! ## As acts -/

theorem acts_rejectionEvent {name : EventName} {reason : RejectReason} (hn : name.plain = true) :
    Within (Acts env .delivery) (rejectionEvent env t name reason res) := by
  refine acts_bind (fun st o st' h => ?_) fun o => ?_
  · simp only [rejectionDue, run_get_bind] at h
    rw [run_ite] at h
    split at h <;>
    · simp only [run_set_bind, run_pure] at h
      obtain ⟨-, rfl⟩ := h
      exact .single (.limit st _)
  · cases o with
    | none => exact acts_pure _
    | some suppressed => exact acts_commitEvent rfl hn

theorem Turned.acts (h : Turned env t st st') : Acts env .delivery st st' := by
  rcases h with rfl | ⟨name, reason, res, u, rfl | rfl, h⟩
  · exact .refl
  · exact acts_rejectionEvent rfl _ _ _ h
  · exact acts_rejectionEvent rfl _ _ _ h

/-- A released row was claimed; if it is held, it was held in the snapshot and is not at the bound. -/
theorem Acted.acts {row : SettleRow} (hatt : 1 ≤ it.token.attempt) (hb : plan.action = .release →
      ∀ d ∈ st.deliveries, d.key = it.token.row → d.state = .inflight →
      row.view.state = .inflight ∧ ∀ c, st.consumers.find? (d.stream, d.consumer) = some c → ¬ c.AtBound d.attempts)
    (h : Acted env budget it cons row plan reason st b st') : Acts env .delivery st st' := by
  cases h with
  | noop => exact .refl
  | ack detail ha h =>
    obtain ⟨d, hd, hk, hatt', -, hst, hsets⟩ := fencedDelete_sets h
    rw [hst]
    exact .single (.ack st d _ _ hd (by omega) rfl rfl ((settleEvent_about ..).trans hk.symm) hsets)
  | extend detail ha h =>
    obtain ⟨d, hd, -, -, hs, hst, hsets⟩ := fencedUpdate_sets h
    rw [hst]
    exact .tail (.single (.extend st d _ _ hd (beq_iff_eq.mp hs) hsets)) (.log _ _ rfl rfl)
  | @release _ st₁ _ detail ha h hend =>
    obtain ⟨d, hd, hk, hatt', -, hst, hsets⟩ := fencedUpdate_sets h
    have hheld := hb ha d (mem_of_find? hd) hk
    have hclaimed : d.state = .inflight ∨ 1 ≤ d.attempts := .inr (by omega)
    rcases hend with rfl | ⟨hready, rfl⟩
    · -- the event first: the row is released under its report
      rw [hst]
      refine .tail (.single (.log st (settleEvent env.nowMs .msgNak it.token row detail) rfl rfl))
        (.release _ d _ _ _ hd hclaimed (fun hi => (hheld hi).2) (fun _ => ?_) hsets)
      exact ⟨_, List.mem_append_right _ (List.mem_singleton.mpr rfl), .inl rfl, (settleEvent_about ..).trans hk.symm⟩
    · rw [hst]
      refine .single (.release st d _ _ _ hd hclaimed (fun hi => (hheld hi).2) (fun hi => absurd (hheld hi).1 ?_) hsets)
      rw [hready]
      exact nofun
  | @dead _ _ st₂ _ name detail ha hn hsink h =>
    have hname : name.plain = true := by rcases hn with rfl | rfl <;> rfl
    refine .head (.log st (settleEvent env.nowMs name it.token row detail) rfl hname) ?_
    rcases deadLetter_run hsink with ⟨hnone, -⟩ | ⟨-, hburied⟩
    · cases hnone
    obtain ⟨hdel, -⟩ := hburied.frame
    obtain ⟨d, hd, hk, hatt', hg, hst, hsets⟩ := fencedDelete_sets h
    rw [hdel] at hd hsets
    rw [hst]
    exact .single (.die _ st₂ _ d _ hburied hd (.inr (by omega)) hk.symm (.inl hg.symm) hsets)

/-! ## One item and the batch -/

/-- The row of the snapshot behind the moves made since: it has the same attempts, and it was held if it is held. -/
theorem Background.loaded (h : Background st₀ st) {k : Bytes × Bytes × ℤ} (hd : d ∈ st.deliveries) (hk : d.key = k)
    (hs : d.state = .inflight) :
    ∃ d₀, st₀.deliveries.find? k = some d₀ ∧ d₀.state = .inflight ∧ d.attempts = d₀.attempts := by
  obtain ⟨d₀, hd₀, ht⟩ := h.kept k d (hk ▸ find?_of_mem hd)
  refine ⟨d₀, hd₀, ?_, ht.attempts⟩
  cases hs₀ : d₀.state with
  | inflight => rfl
  | ready => rw [ht.ready hs₀] at hs; cases hs

theorem Answered.acts (hatt : 1 ≤ it.token.attempt) (hm : Moves st₀ st)
    (h : Answered env n budget it ((st₀.consumers.find? (it.token.stream, it.token.consumer)).map .ofRow)
      ((st₀.deliveries.find? it.token.row).map (.ofRow st₀)) st r b st') :
    Acts env .delivery st st' := by
  cases h with
  | rejected _ _ h => exact h.acts
  | granted hcons hrow _ _ _ hgrant _ h =>
    obtain ⟨c, hc, rfl⟩ := Option.map_eq_some_iff.mp hcons
    obtain ⟨d₀, hd₀, rfl⟩ := Option.map_eq_some_iff.mp hrow
    refine h.acts hatt fun ha d hd hk hi => ?_
    obtain ⟨d₁, hd₁, hs₁, hatt₁⟩ := hm.background.loaded hd hk hi
    obtain rfl : d₀ = d₁ := Option.some.inj (hd₀.symm.trans hd₁)
    refine ⟨hs₁, fun c' hc' => ?_⟩
    have hkey : (d.stream, d.consumer) = (it.token.stream, it.token.consumer) := by
      simp only [DeliveryRow.key, Token.row, Prod.mk.injEq] at hk ⊢
      exact ⟨hk.1, hk.2.1⟩
    rw [hm.background.consumers, hkey, hc] at hc'
    cases hc'
    rw [hatt₁]
    exact hgrant.release ha hs₁

theorem acts_settleItems {rs : List ItemResult} (hatt : ∀ it ∈ items, 1 ≤ it.token.attempt) (hm : Moves st₀ st)
    (hp : List.Forall₂ (fun it p => p = .repeated it ∨ p = .load st₀ it) items ps)
    (h : settleItems env n budget ps st = .ok (rs, st')) : Acts env .delivery st st' := by
  induction hp generalizing n budget rs st with
  | nil => exact acts_pure _ _ _ _ h
  | @cons it p items ps hp hps ih =>
    have hatt' : ∀ it ∈ items, 1 ≤ it.token.attempt := fun it' h' => hatt it' (List.mem_cons_of_mem _ h')
    rcases hp with rfl | rfl
    · simp only [settleItems, run_bind, run_pure] at h
      obtain ⟨_, _, h, -, rfl⟩ := h
      exact ih hatt' hm h
    · simp only [settleItems, Prepared.load, run_bind, run_pure] at h
      obtain ⟨r, st₁, h₁, _, _, h₂, -, rfl⟩ := h
      have hone : Acts env .delivery st st₁ := (applyOne_answered h₁).acts (hatt it List.mem_cons_self) hm
      exact hone.trans (ih hatt' (hm.trans hone.moves) h₂)

theorem acts_settle (hatt : ∀ it ∈ items, 1 ≤ it.token.attempt) : Within (Acts env .delivery) (settle env items) := by
  intro st r st' h
  simp only [settle, run_bind, run_get_bind, run_pure] at h
  obtain ⟨ps, _, h₁, rs, _, h₂, -, rfl⟩ := h
  obtain ⟨hps, rfl⟩ := prepare_run h₁
  exact acts_settleItems hatt .refl hps h₂

end Messq

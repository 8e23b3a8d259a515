import Messq.Property.Dead

/-! # Timeouts are transitions

The sweep reports a lapsed lease before it releases the row or gives it to the dead-letter sink, and the sink may refuse
the copy: then the report is committed, the row stays held, and the next sweep reports it again
(`refused_death_lapses_again`). As long as the budget covers the copies that a sweep has to make, each report of a
timeout is a row that stops being held in the same command, and no lease of a generation is reported twice
(`timeouts_once`). -/

namespace Messq

open Lib Table Relation

variable {budget : DeadBudget} {d : DeliveryRow} {e : Event} {res : ItemResult} {ds : List DeliveryRow}
  {it : SettleItem} {plan : SettlePlan} {st st' : Store} {r : SweepResult} {limit n retired : ℕ} {b : Broker}
  {c : ConsumerRow} {s : Step} {t : Token}

/-- The timeouts among the events. -/
def timeouts (es : List Event) : List Event := es.filter fun e => e.name == .msgTimeout

theorem timeouts_append (es es' : List Event) : timeouts (es ++ es') = timeouts es ++ timeouts es' :=
  List.filter_append ..

theorem timeouts_eq_nil {es : List Event} (h : ∀ e ∈ es, e.name ≠ .msgTimeout) : timeouts es = [] :=
  List.filter_eq_nil_iff.mpr fun e he hn => h e he (beq_iff_eq.mp hn)

/-- The timeouts a visit wrote to the audit trail. -/
def Visit.timeouts (v : Visit) : List Event := Messq.timeouts ((Visit.written v).map EventRow.event)

/-! ## Only a sweep reports timeouts -/

section Untimed

variable {env : Env}

/-- The event is no timeout. -/
def Event.Untimed (e : Event) : Prop := e.name ≠ .msgTimeout

theorem untimed_deadLetter {d : DeadCtx} : Within (Journals Event.Untimed) (deadLetter env budget d) := by
  intro st o st' h
  rcases deadLetter_run h with ⟨-, rfl⟩ | ⟨-, hb⟩
  · exact .refl _
  · exact hb.journals (fun _ _ => nofun) fun _ _ => nofun

theorem untimed_rejectionEvent {name : EventName} {reason : RejectReason} (hn : name ≠ .msgTimeout) :
    Within (Journals Event.Untimed) (rejectionEvent env t name reason res) := by
  refine journals_bind (journals_get fun st => ?_) fun o => ?_
  · dsimp only
    split <;> exact .set_bind Journals.trans (journals_quiet rfl rfl) (journals_pure _ _)
  · cases o with
    | none => exact journals_pure _
    | some suppressed => exact journals_commitEvent hn

theorem Acted.untimed {cons : SettleConsumer} {row : SettleRow} {reason : Bytes} {b : DeadBudget}
    (h : Acted env budget it cons row plan reason st b st') : Journals Event.Untimed st st' := by
  have hlog : ∀ {st₁ : Store} {name : EventName} {detail : Detail}, st₁.events = st.events →
    st₁.carriers = st.carriers →
      name ≠ .msgTimeout → Journals Event.Untimed st (st₁.logged (settleEvent env.nowMs name it.token row detail)) :=
    fun he hc hn => (journals_quiet he hc).trans _ _ _ (journals_logged hn)
  cases h with
  | noop => exact .refl st
  | ack _ _ h =>
    obtain ⟨-, rfl⟩ := fencedDelete_run h
    exact hlog rfl rfl (by simp)
  | extend _ _ h =>
    obtain ⟨-, rfl⟩ := fencedUpdate_run h
    exact hlog rfl rfl (by simp)
  | release _ _ h hend =>
    obtain ⟨-, rfl⟩ := fencedUpdate_run h
    rcases hend with rfl | ⟨-, rfl⟩
    · exact hlog rfl rfl (by simp)
    · exact journals_quiet rfl rfl
  | dead name _ _ hn hsink h =>
    obtain ⟨-, rfl⟩ := fencedDelete_run h
    have hname : name ≠ .msgTimeout := by rcases hn with rfl | rfl <;> simp
    exact ((hlog rfl rfl hname).trans _ _ _ (untimed_deadLetter _ _ _ hsink)).trans _ _ _ (journals_quiet rfl rfl)

theorem untimed_settleItems {ps : List Prepared} : Within (Journals Event.Untimed) (settleItems env n budget ps) := by
  induction ps generalizing n budget with
  | nil => exact journals_pure _
  | cons p ps ih =>
    cases p with
    | repeated it => exact journals_bind ih fun _ => journals_pure _
    | loaded it cons row =>
      refine journals_bind (fun st p st' h => ?_) fun _ => journals_bind ih fun _ => journals_pure _
      cases applyOne_answered h with
      | rejected _ _ h =>
        rcases h with rfl | ⟨_, _, _, _, hn, h⟩
        · exact .refl _
        · exact untimed_rejectionEvent (by rcases hn with rfl | rfl <;> simp) _ _ _ h
      | granted _ _ _ _ _ _ _ h => exact h.untimed

theorem untimed_settle {items : List SettleItem} : Within (Journals Event.Untimed) (settle env items) := by
  refine journals_get fun st => ?_
  refine journals_bind (journals_of_reads fun _ _ _ h => (prepare_run h).2) (fun ps => ?_) st
  exact journals_bind untimed_settleItems fun _ => journals_pure _

theorem untimed_retireRows {maxDeliver : ℤ} :
    Within (Journals Event.Untimed) (retireRows env maxDeliver ds retired budget) := by
  induction ds generalizing retired budget with
  | nil => exact journals_pure _
  | cons d ds ih =>
    refine journals_get fun st => ?_
    refine journals_bind untimed_deadLetter (fun o => ?_) st
    cases o with
    | none => exact journals_pure _
    | some b =>
      refine journals_bind (journals_get fun st => ?_) fun _ => ih
      exact .set_bind Journals.trans (journals_quiet rfl rfl) (journals_pure _ _)

theorem untimed_retireTargets {cs : List ConsumerRow} :
    Within (Journals Event.Untimed) (retireTargets env limit cs retired budget) := by
  induction cs generalizing retired budget with
  | nil => exact journals_pure _
  | cons c cs ih =>
    refine journals_get fun st => ?_
    refine journals_bind untimed_retireRows (fun p => ?_) st
    obtain ⟨n, o⟩ := p
    cases o with
    | none => exact journals_pure _
    | some b => exact ih

theorem untimed_retire : Within (Journals Event.Untimed) (retire env limit) :=
  journals_get fun st => untimed_retireTargets st

/-- **Requests.** A request that is no sweep reports no timeout. -/
theorem timeouts_of_not_sweep (hs : ∀ limit, s.req ≠ .sweep limit) : Visit.timeouts (visit Broker.exec b s) = [] := by
  have hjournal : ∀ {reply st}, Committed b s reply st → Journals Event.Untimed { b.store with carriers := [] } st →
      Visit.timeouts (visit Broker.exec b s) = [] := by
    rintro reply st hcom ⟨es, hl, hp⟩
    have hes : (visit Broker.exec b s).post.store.events = journal (visit Broker.exec b s).pre.store.events es := by
      show (b.exec s).1.store.events = _
      rw [hcom.post]
      exact hl.events
    rw [Visit.timeouts, (written_of_journal hes).2.1]
    exact timeouts_eq_nil hp
  by_cases hk : s.req.kind = .delivery
  · rcases exec_cases b s with ⟨reply, st, hcom⟩ | ⟨hst, -⟩
    · have hrun := hcom.run
      cases hreq : s.req with
      | settle items => rw [hreq] at hrun; exact hjournal hcom (journals_map _ untimed_settle _ _ _ hrun)
      | retire limit => rw [hreq] at hrun; exact hjournal hcom (journals_map _ untimed_retire _ _ _ hrun)
      | sweep limit => exact absurd hreq (hs limit)
      | _ => rw [hreq] at hk; cases hk
    · rw [Visit.timeouts, List.eq_nil_iff_forall_not_mem.mpr (not_written hst)]
      rfl
  · by_cases htrim : s.req.kind = .trimming
    · rw [Visit.timeouts, written_trim htrim]
      rfl
    · obtain ⟨es, hes, -, hp⟩ := exec_journal (b := b) htrim
      rw [Visit.timeouts, (written_of_journal (v := visit Broker.exec b s) hes).2.1]
      exact timeouts_eq_nil fun e he => ((hp e he).2.2 hk).2

end Untimed

/-! ## One lease -/

/-- The budget takes the copies one after the other. -/
def DeadBudget.covers : DeadBudget → List ℤ → Bool
  | _, [] => true
  | b, size :: sizes => b.canCopy size && (b.take size).covers sizes

/-- The size of the copy the sink makes of a delivery, when it makes one. -/
def Store.copyDue (st : Store) (stream consumer : Bytes) (seq : ℤ) : Option ℤ :=
  if st.deadPolicyOf stream consumer = .dlq then (st.messages.find? (stream, seq)).map MessageRow.size else none

/-- The size of the copy a lapsed lease asks for: it is of its consumer's generation and at the bound. -/
def Store.dyingCopy (st : Store) (d : DeliveryRow) : Option ℤ :=
  (st.consumers.find? (d.stream, d.consumer)).bind fun c =>
    if d.generation = c.generation ∧ 0 < toInt32 c.maxDeliver ∧ toInt32 c.maxDeliver ≤ d.attempts then
      st.copyDue d.stream d.consumer d.seq
    else none

/-- The budget after a copy, when there is one to make. -/
def DeadBudget.after (b : DeadBudget) (size : Option ℤ) : DeadBudget := (size.map b.take).getD b

/-- The event reports the lapse of a lease of its consumer's generation, and the row is not held afterwards. -/
structure Transition (st : Store) (e : Event) (st' : Store) : Prop where
  lapsed : ∃ d c, st.deliveries.find? e.about = some d ∧ d.state = .inflight ∧ e.attempt.getD 0 = d.attempts ∧
    st.consumers.find? (d.stream, d.consumer) = some c ∧ c.generation = d.generation
  left : ∀ d', st'.deliveries.find? e.about = some d' → d'.state = .ready

section Sweep

variable {env : Env}

theorem deadLetter_covered {d : DeadCtx} {o : Option DeadBudget}
    (hfit : ∀ size ∈ st.copyDue d.stream d.consumer d.seq, budget.canCopy size = true)
    (h : deadLetter env budget d st = .ok (o, st')) :
    o = some (budget.after (st.copyDue d.stream d.consumer d.seq)) := by
  simp only [deadLetter, run_get_bind] at h
  by_cases hp : st.deadPolicyOf d.stream d.consumer = .dlq
  · simp only [planDead, hp, ne_eq, not_true_eq_false, if_false, Bool.not_true, Bool.false_eq_true] at h
    cases ho : st.messages.find? (d.stream, d.seq) with
    | none =>
      simp only [ho, run_bind, run_pure] at h
      obtain ⟨_, _, -, rfl, -⟩ := h
      simp [Store.copyDue, hp, ho, DeadBudget.after]
    | some origin =>
      have hfit := hfit origin.size (by simp [Store.copyDue, hp, ho])
      simp only [ho, hfit, Bool.not_true, Bool.false_eq_true, if_false, run_bind, run_pure] at h
      obtain ⟨_, _, -, rfl, -⟩ := h
      simp [Store.copyDue, hp, ho, DeadBudget.after]
  · simp only [planDead, hp, ne_eq, not_false_eq_true, if_true, Bool.not_false, run_bind, run_pure] at h
    obtain ⟨_, _, -, rfl, -⟩ := h
    simp [Store.copyDue, hp, DeadBudget.after]

theorem dyingCopy_cases (hc : st.consumers.find? (d.stream, d.consumer) = some c) :
    (d.generation = c.generation → c.AtBound d.attempts → st.dyingCopy d = st.copyDue d.stream d.consumer d.seq) ∧
      (¬ (d.generation = c.generation ∧ c.AtBound d.attempts) → st.dyingCopy d = none) := by
  rw [Store.dyingCopy, hc, Option.bind_some]
  exact ⟨fun hg hb => if_pos ⟨hg, hb⟩, fun h => if_neg h⟩

/-- The report comes first; when nothing that follows is a timeout and the row is not held, it is a transition. -/
theorem reported_transition {lp : LoadedPolicy} {dec : SweepDecision} (hd : st.deliveries.find? d.key = some d)
    (hs : d.state = .inflight) (hc : st.consumers.find? (d.stream, d.consumer) = some c)
    (hg : d.generation = c.generation) (hj : Journals Event.Untimed (st.logged (timeoutEvent env st d lp dec)) st')
    (hleft : ∀ d', st'.deliveries.find? d.key = some d' → d'.state = .ready) :
    ∃ es, Logs st es st' ∧ (timeouts es = [] ∨ ∃ e, timeouts es = [e] ∧ e.about = d.key ∧ Transition st e st') := by
  obtain ⟨es, hl, hes⟩ := hj
  have habout : (timeoutEvent env st d lp dec).about = d.key := timeoutEvent_about ..
  refine ⟨_, (logs_logged st _).trans hl, .inr ⟨timeoutEvent env st d lp dec, ?_, habout,
    ⟨d, c, ?_, hs, nullI64_getD _, hc, hg.symm⟩, ?_⟩⟩
  · rw [timeouts_append, timeouts_eq_nil hes]
    rfl
  · rw [habout]; exact hd
  · rw [habout]; exact hleft

/-- One lease: when the budget covers the copy it asks for, its timeout is a transition. -/
theorem SweptRow.lapses {b : DeadBudget} (h : SweptRow env n d budget st b st')
    (hd : st.deliveries.find? d.key = some d)
    (hs : d.state = .inflight) (hfit : ∀ size ∈ st.dyingCopy d, budget.canCopy size = true) :
    b = budget.after (st.dyingCopy d) ∧ ∃ es, Logs st es st' ∧
      (timeouts es = [] ∨ ∃ e, timeouts es = [e] ∧ e.about = d.key ∧ Transition st e st') := by
  cases h with
  | stale h =>
    have hnone : st.dyingCopy d = none := by
      cases hc : st.consumers.find? (d.stream, d.consumer) with
      | none => rw [Store.dyingCopy, hc, Option.bind_none]
      | some c => exact (dyingCopy_cases hc).2 fun hg => h c hc hg.1
    rw [hnone]
    exact ⟨rfl, [], logs_nil rfl rfl, .inl rfl⟩
  | release c lp dec visibleAt k _ hc hg hb hv h =>
    obtain ⟨hst, hsets⟩ := releaseLease_sets (by exact hd) h
    rw [(dyingCopy_cases hc).2 fun h => hb h.2]
    refine ⟨rfl, reported_transition hd hs hc hg (journals_quiet (by rw [hst]) (by rw [hst])) fun d' hd' => ?_⟩
    rw [hsets.same] at hd'
    cases hd'
    rfl
  | dead c lp dec trigger o st₁ _ hc hg hb h hend =>
    rw [(dyingCopy_cases hc).1 hg hb] at hfit ⊢
    have hrow : st₁.deliveries = st.deliveries := by
      rcases deadLetter_run h with ⟨-, rfl⟩ | ⟨-, hb⟩
      · rfl
      · exact hb.frame.1
    have hsink := untimed_deadLetter _ _ _ h
    obtain rfl := deadLetter_covered (by exact hfit) h
    obtain ⟨ho, -⟩ | ⟨b, k, -, h₂⟩ := hend
    · cases ho
    obtain ⟨hst, hsets⟩ := deleteLease_sets (by rw [hrow]; exact hd) h₂
    refine ⟨rfl, reported_transition hd hs hc hg
      (hsink.trans _ _ _ (journals_quiet (by rw [hst]) (by rw [hst]))) fun d' hd' => ?_⟩
    rw [hsets.same] at hd'
    cases hd'

/-! ## A whole sweep -/

/-- A delivery row finds the message it found before the command. -/
theorem origin_kept (hs : st.Sound) (h : Acts env .delivery st st') {k : Bytes × Bytes × ℤ}
    (hrow : st'.deliveries.find? k ≠ none) : st'.messages.find? (k.1, k.2.2) = st.messages.find? (k.1, k.2.2) := by
  obtain ⟨es, -, hb⟩ := Acts.burials hs h
  cases ho : st'.messages.find? (k.1, k.2.2) with
  | some origin => exact (origin_before hs (Acts.moves h).background hb hrow ho).symm
  | none =>
    by_cases hc : (k.1, k.2.2) ∈ es.filterMap Event.copy
    · obtain ⟨e, he, hcopy⟩ := List.mem_filterMap.mp hc
      exact (hb.interred e he _ hcopy).fresh.symm
    · rw [← hb.rest _ hc]
      exact ho.symm

theorem dyingCopy_kept (hs : st.Sound) (h : Acts env .delivery st st') (hd : st'.deliveries.find? d.key = some d) :
    st'.dyingCopy d = st.dyingCopy d := by
  have horigin : st'.messages.find? (d.stream, d.seq) = st.messages.find? (d.stream, d.seq) :=
    origin_kept hs h (k := d.key) (by simp [hd])
  unfold Store.dyingCopy Store.copyDue Store.deadPolicyOf
  rw [(Acts.moves h).background.consumers, horigin]

theorem covers_cons (h : budget.covers ((d :: ds).filterMap st.dyingCopy) = true) :
    (∀ size ∈ st.dyingCopy d, budget.canCopy size = true) ∧
      (budget.after (st.dyingCopy d)).covers (ds.filterMap st.dyingCopy) = true := by
  cases hc : st.dyingCopy d with
  | none =>
    rw [List.filterMap_cons_none hc] at h
    exact ⟨by simp, h⟩
  | some size =>
    rw [List.filterMap_cons_some hc, DeadBudget.covers, Bool.and_eq_true] at h
    exact ⟨by simpa using h.1, h.2⟩

/-- Each timeout is a transition, and they are about different rows. -/
structure Lapses (st : Store) (es : List Event) (st' : Store) : Prop where
  each : ∀ e ∈ timeouts es, Transition st e st'
  apart : ((timeouts es).map Event.about).Nodup

/-- A row that waits again keeps waiting while the sweep goes on. -/
theorem Transition.tail {st₁ : Store} (h : Transition st e st₁) (ha : Acts env .delivery st₁ st') :
    Transition st e st' := by
  refine ⟨h.lapsed, fun d' hd' => ?_⟩
  obtain ⟨d, hd, ht⟩ := (Acts.moves ha).background.kept _ d' hd'
  exact ht.ready (h.left d hd)

/-- **Loop.** The sweep goes through leases of different rows, each as it was loaded. -/
theorem SweptAll.lapses {st₀ : Store} (h : SweptAll env n ds budget st st') (hs₀ : st₀.Sound)
    (hacts : Acts env .delivery st₀ st) (hkeys : (ds.map DeliveryRow.key).Nodup)
    (hfit : budget.covers (ds.filterMap st₀.dyingCopy) = true) :
    ∃ es, Logs st es st' ∧ Lapses st es st' ∧ ∀ e ∈ timeouts es, e.about ∈ ds.map DeliveryRow.key := by
  induction h with
  | nil => exact ⟨[], logs_nil rfl rfl, ⟨by simp [timeouts], by simp [timeouts]⟩, by simp [timeouts]⟩
  | @cons n d ds budget b st st₁ st' hd hs hrow hrest ih =>
    obtain ⟨hnow, hlater⟩ := covers_cons hfit
    rw [← dyingCopy_kept hs₀ hacts hd] at hnow hlater
    obtain ⟨hact₁, hcons₁, honly⟩ := hrow.acts hd hs
    obtain ⟨rfl, es, hl, hone⟩ := hrow.lapses hd hs hnow
    rw [List.map_cons, List.nodup_cons] at hkeys
    obtain ⟨es', hl', hlap, hin⟩ := ih (hacts.trans hact₁) hkeys.2 hlater
    -- the rows still to come are as they were
    have hback : ∀ e ∈ timeouts es', Transition st e st' := fun e he => by
      obtain ⟨⟨d', c, hd', hs', ha, hc, hg⟩, hleft⟩ := hlap.each e he
      rw [honly _ fun h => hkeys.1 (h ▸ hin e he)] at hd'
      rw [hcons₁] at hc
      exact ⟨⟨d', c, hd', hs', ha, hc, hg⟩, hleft⟩
    refine ⟨es ++ es', hl.trans hl', ?_⟩
    rcases hone with hnil | ⟨e, he, habout, htrans⟩
    · refine ⟨⟨?_, ?_⟩, ?_⟩ <;> rw [timeouts_append, hnil, List.nil_append]
      · exact hback
      · exact hlap.apart
      · exact fun e he => List.mem_cons_of_mem _ (hin e he)
    · refine ⟨⟨?_, ?_⟩, ?_⟩ <;> rw [timeouts_append, he, List.singleton_append]
      · exact List.forall_mem_cons.mpr ⟨htrans.tail hrest.acts, hback⟩
      · rw [List.map_cons, List.nodup_cons]
        refine ⟨fun hmem => ?_, hlap.apart⟩
        obtain ⟨e', he', heq⟩ := List.mem_map.mp hmem
        exact hkeys.1 (habout ▸ heq ▸ hin e' he')
      · exact List.forall_mem_cons.mpr ⟨by simp [habout], fun e he => List.mem_cons_of_mem _ (hin e he)⟩

theorem sweep_lapses (hs : st.Sound)
    (hfit : (newDeadBudget env.opts.dlq).covers ((st.expired env.nowMs limit).filterMap st.dyingCopy) = true)
    (h : sweep env limit st = .ok (r, st')) : ∃ es, Logs st es st' ∧ Lapses st es st' := by
  obtain ⟨es, hl, hlap, -⟩ := (sweep_swept h).lapses hs .refl (nodup_expired st env.nowMs limit) hfit
  exact ⟨es, hl, hlap⟩

end Sweep

/-! ## Visits -/

/-- The copies a visit has to make of the leases it finds at the bound. -/
def Visit.dying (v : Visit) : List ℤ :=
  match v.act.req with
  | .sweep limit => (v.pre.store.expired v.act.env.nowMs (limitOr limit v.act.env.opts.maxSweepBatch)).filterMap
      v.pre.store.dyingCopy
  | _ => []

/-- The budget of a commit covers them. -/
def Covered (v : Visit) : Prop := (newDeadBudget v.act.env.opts.dlq).covers (Visit.dying v) = true

instance (v : Visit) : Decidable (Covered v) := inferInstanceAs (Decidable (_ = true))

section Visits

/-- **Visit.** The timeouts a visit reports are transitions of different rows. -/
theorem visit_lapses (hs : b.store.Sound) (hv : Covered (visit Broker.exec b s)) :
    (∀ e ∈ Visit.timeouts (visit Broker.exec b s), Transition b.store e (b.exec s).1.store) ∧
      ((Visit.timeouts (visit Broker.exec b s)).map Event.about).Nodup := by
  by_cases hsweep : ∃ limit, s.req = .sweep limit
  · obtain ⟨limit, hreq⟩ := hsweep
    rcases exec_cases b s with ⟨reply, st, hcom⟩ | ⟨hst, -⟩
    · have hrun := hcom.run
      rw [hreq] at hrun
      obtain ⟨r, hrun, -⟩ := run_map.mp hrun
      have hfit : (newDeadBudget s.env.opts.dlq).covers ((b.store.expired s.env.nowMs
          (limitOr limit s.env.opts.maxSweepBatch)).filterMap b.store.dyingCopy) = true := by
        have hv : (newDeadBudget s.env.opts.dlq).covers (Visit.dying (visit Broker.exec b s)) = true := hv
        rwa [Visit.dying, show (visit Broker.exec b s).act.req = _ from hreq] at hv
      obtain ⟨es, hl, hlap⟩ := sweep_lapses (hs.uncarried []) hfit hrun
      have hpost : (b.exec s).1.store = { st with carriers := [] } := by rw [hcom.post]
      have hes : (visit Broker.exec b s).post.store.events = journal (visit Broker.exec b s).pre.store.events es := by
        show (b.exec s).1.store.events = _
        rw [hpost]
        exact hl.events
      rw [Visit.timeouts, (written_of_journal hes).2.1, hpost]
      exact ⟨fun e he => ⟨(hlap.each e he).lapsed, (hlap.each e he).left⟩, hlap.apart⟩
    · rw [Visit.timeouts, List.eq_nil_iff_forall_not_mem.mpr (not_written hst)]
      exact ⟨fun e he => absurd he List.not_mem_nil, List.nodup_nil⟩
  · rw [timeouts_of_not_sweep fun limit h => hsweep ⟨limit, h⟩]
    exact ⟨fun e he => absurd he List.not_mem_nil, List.nodup_nil⟩

end Visits

/-! ## Runs -/

/-- The lease whose lapse the event reports: what the event says, and the generation of the row it is about. -/
def Visit.lapse (v : Visit) (e : Event) : Token where
  stream := e.stream.getD []
  consumer := e.consumer.getD []
  seq := e.seq.getD 0
  attempt := e.attempt.getD 0
  generation := ((v.pre.store.deliveries.find? e.about).map DeliveryRow.generation).getD 0

def Visit.lapses (v : Visit) : List Token := (Visit.timeouts v).map (Visit.lapse v)

/-- The lapses of a run. -/
def lapses (h : List Visit) : List Token := h.flatMap Visit.lapses

/-- When a consumer comes into being, no message whose lease lapsed under its name is still stored. -/
def LapsedFresh (past : List Visit) (v : Visit) : Prop :=
  ∀ k ∈ Visit.born v, ∀ t ∈ lapses past, (t.stream, t.consumer) = k → v.pre.store.messages.find? (k.1, t.seq) = none

instance (past : List Visit) (v : Visit) : Decidable (LapsedFresh past v) := by unfold LapsedFresh; infer_instance

/-- The lease is over: its token is spent, and its row is held only for a later attempt. -/
structure Over (b : Broker) (t : Token) : Prop where
  barred : Barred b t
  held : ∀ d c, b.store.deliveries.find? t.row = some d → d.state = .inflight →
    b.store.consumers.find? (t.stream, t.consumer) = some c → c.generation = t.generation → t.attempt < d.attempts

section Steps

/-- **Step.** A lease that is over stays over. -/
theorem Over.step {past : List Visit} (ho : Over b t) (hs : b.store.Sound) (hback : (b.exec s).1.store.Backed)
    (hf : SeedsFresh (visit Broker.exec b s)) (hc : LapsedFresh past (visit Broker.exec b s)) (ht : t ∈ lapses past) :
    Over (b.exec s).1 t := by
  have hnew : (t.stream, t.consumer) ∈ Visit.born (visit Broker.exec b s) →
      b.store.messages.find? (t.stream, t.seq) = none := fun hk => hc _ hk t ht rfl
  have hbar := closed_step (k := (t.stream, t.consumer)) (P := fun l => l.Spent t.seq t.attempt t.generation)
    (fun hstep hl => hstep.spent hl) hs hf ho.barred.below hnew ho.barred.spent
  refine ⟨⟨hbar.1, hbar.2⟩, fun d' c' hd' hi hc' hg => ?_⟩
  have hl' := view_of_find? (b := (b.exec s).1) hc'
  obtain ⟨hcs, hcn⟩ := pair_of_find? hc'
  have hslot : ((b.exec s).1.store.ledger c').slot t.seq = some d'.slot :=
    slot_eq_some.mpr ⟨d', by rw [hcs, hcn]; exact hd', rfl⟩
  cases hl : b.view (t.stream, t.consumer) with
  | none => exact absurd (((view_born hs hl hl').1 t.seq).symm.trans hslot) nofun
  | some l =>
    have hstep := view_step hs hl hl'
    have hspent : l.Spent t.seq t.attempt t.generation := by
      rcases ho.barred.spent with hn | h
      · -- a message that is gone does not come back, and the row afterwards has its message
        rcases (closed_step (k := (t.stream, t.consumer)) (P := fun _ => False) (fun _ _ h => h) hs hf
          ho.barred.below hnew
          (.inl hn)).2 with hn' | hno
        · obtain ⟨m, hm, -⟩ := hback _ d' hd'
          exact absurd (hn'.symm.trans hm) nofun
        · exact (hno _ hl').elim
      · exact h l hl
    have hepoch : l.epoch ≤ t.generation := hstep.epoch.trans hg.le
    rcases hspent with hlt | ⟨heq, hbehind, hatt⟩
    · exact absurd hlt (not_lt.mpr hepoch)
    obtain ⟨u, hu, -⟩ := hstep.old hbehind.1 hslot
    obtain ⟨c, hc, rfl⟩ := view_eq_some.mp hl
    have hle := hatt u hu
    obtain ⟨d, hd, rfl⟩ := slot_eq_some.mp hu
    obtain ⟨hcs, hcn⟩ := pair_of_find? hc
    rw [hcs, hcn] at hd
    have hrow := visit_row (k := t.row) hs hd'
    rw [show b.store.deliveries.find? t.row = some d from hd] at hrow
    cases hrow with
    | kept ha _ _ hw =>
      cases hst : d.state with
      | ready => exact absurd ((hw hst).symm.trans hi) nofun
      | inflight => rw [ha]; exact ho.held d c hd hst hc heq.symm
    | claimed _ ha =>
      have hle : t.attempt ≤ d.attempts := hle
      simp only [Option.map_some, Option.getD_some] at ha
      omega

theorem lapse_of_row {v : Visit} (hd : v.pre.store.deliveries.find? e.about = some d)
    (ha : e.attempt.getD 0 = d.attempts) :
    Visit.lapse v e = ⟨d.stream, d.consumer, d.seq, d.attempts, d.generation⟩ := by
  have hkey : d.key = e.about := find?_key hd
  simp only [DeliveryRow.key, Event.about, Prod.mk.injEq] at hkey
  simp only [Visit.lapse, hd, Option.map_some, Option.getD_some, ha, ← hkey.1, ← hkey.2.1, ← hkey.2.2]

/-- A lease that lapses is over. -/
theorem over_of_timeout (hs : b.store.Sound) (hord : ∀ k l, b.view k = some l → l.Ordered)
    (hf : SeedsFresh (visit Broker.exec b s)) (htrans : Transition b.store e (b.exec s).1.store) :
    Over (b.exec s).1 (Visit.lapse (visit Broker.exec b s) e) := by
  obtain ⟨⟨d, c, hd, hst, ha, hc, hg⟩, hleft⟩ := htrans
  have hkey : d.key = e.about := find?_key hd
  rw [lapse_of_row hd ha]
  rw [← hkey] at hd hleft
  obtain ⟨hcs, hcn⟩ := pair_of_find? hc
  have hslot : (b.store.ledger c).slot d.seq = some d.slot := slot_eq_some.mpr ⟨d, by rw [hcs, hcn]; exact hd, rfl⟩
  have hl := view_of_find? (b := b) hc
  have h0 : d.slot.attempts ≠ 0 := fun h0 => by
    obtain ⟨hready, -⟩ := (hs.ledger _ c hc).fresh d.seq d.slot hslot h0
    rw [DeliveryRow.slot, hst] at hready
    cases hready
  have hspent : (b.store.ledger c).Spent d.seq d.attempts d.generation := by
    refine .inr ⟨hg.symm, (hord _ _ hl).behind hslot h0, fun u hu => ?_⟩
    rw [hslot] at hu
    cases hu
    exact le_rfl
  have hbar := closed_step (s := s) (k := (d.stream, d.consumer)) (P := fun l => l.Spent d.seq d.attempts d.generation)
    (fun hstep hl => hstep.spent hl) hs hf (upcoming_of_slot hs hl hslot)
    (fun hk => absurd (List.mem_filter.mp hk).2 (by simp [visit, hc]))
    (.inr fun l hl' => by rwa [← Option.some.inj (hl.symm.trans hl')])
  refine ⟨⟨hbar.1, hbar.2⟩, fun d' c' hd' hi => ?_⟩
  rw [hleft d' hd'] at hi
  cases hi

/-- What is over does not lapse. -/
theorem Over.not_again (ho : Over b (Visit.lapse (visit Broker.exec b s) e)) (htrans : Transition b.store e st') :
    False := by
  obtain ⟨⟨d, c, hd, hst, ha, hc, hg⟩, -⟩ := htrans
  rw [lapse_of_row hd ha] at ho
  rw [← show d.key = e.about from find?_key hd] at hd
  exact lt_irrefl _ (ho.held d c hd hst hc hg)

end Steps

/-- **Timeouts.** In a run whose budgets cover the copies the sweeps have to make, every timeout reports a row that
stops being held in the same command, and those of one command are about different rows. If moreover no chunk is stray,
no dead-letter stream is re-seeded and no consumer is created over a message whose lease lapsed under its name, no lease
is reported twice. -/
theorem timeouts_once {h : List Visit} {b : Broker} (r : Runs h b) (hfit : ∀ v ∈ h, Covered v) :
    (∀ v ∈ h, (∀ e ∈ Visit.timeouts v, Transition v.pre.store e v.post.store) ∧
      ((Visit.timeouts v).map Event.about).Nodup) ∧
    ((∀ v ∈ h, ReapsMarked v) → (∀ v ∈ h, SeedsFresh v) → Upheld LapsedFresh h → (lapses h).Nodup) := by
  refine ⟨fun v hv => ?_, fun hm hf hc => ?_⟩
  · obtain ⟨h₁, h₂, -, r₁, hvis, -⟩ := r.at_mem hv
    have r₁ : Runs h₁ v.pre := r₁
    have hcov := hfit v hv
    rw [hvis] at hcov ⊢
    exact visit_lapses r₁.sound hcov
  refine (r.invariant_along
    (C := fun past v => Covered v ∧ ReapsMarked v ∧ SeedsFresh v ∧ LapsedFresh past v)
    (I := fun h b => (∀ t ∈ lapses h, Over b t) ∧ (lapses h).Nodup)
    (fun h₁ v h₂ hh => ⟨hfit v (by simp [hh]), hm v (by simp [hh]), hf v (by simp [hh]), hc h₁ v h₂ hh⟩)
    ⟨nofun, List.nodup_nil⟩ ?_).2
  rintro h b s r hup ⟨iho, ihn⟩ ⟨hv₁, hv₂, hv₃, hv₄⟩
  have r : Runs h b := r
  have hmarked : ∀ v ∈ h, ReapsMarked v := fun v hv => by
    obtain ⟨p, q, hpq⟩ := List.append_of_mem hv
    exact (hup p v q hpq).2.1
  have r' : Runs (h ++ [visit Broker.exec b s]) (b.exec s).1 := r.step s
  have hback : (b.exec s).1.store.Backed := r'.backed fun v hv =>
    (List.mem_append.mp hv).elim (hmarked v) fun hv => by rwa [List.mem_singleton.mp hv]
  obtain ⟨hall, hapart⟩ := visit_lapses r.sound hv₁
  have hsplit : lapses (h ++ [visit Broker.exec b s]) = lapses h ++ Visit.lapses (visit Broker.exec b s) := by
    rw [lapses, List.flatMap_append, List.flatMap_singleton, lapses]
  rw [hsplit]
  refine ⟨fun t ht => ?_, List.nodup_append.mpr ⟨ihn, ?_, ?_⟩⟩
  · rcases List.mem_append.mp ht with ht | ht
    · exact (iho t ht).step r.sound hback hv₃ hv₄ ht
    · obtain ⟨e, he, rfl⟩ := List.mem_map.mp ht
      exact over_of_timeout r.sound (fun k l hl => r.ordered hmarked hl) hv₃ (hall e he)
  · refine List.Nodup.of_map Token.row ?_
    rw [Visit.lapses, List.map_map]
    exact hapart
  · rintro t ht _ ht' rfl
    obtain ⟨e, he, rfl⟩ := List.mem_map.mp ht'
    exact (iho _ ht).not_again (hall e he)

/-- A lease lapses below the bound and again at it; after a seek the message is claimed in the next generation. -/
def lapsedLife : List (ℤ × Request) :=
  boundedSetup 2 ++ [(10, aFetch 1), (40000, .sweep 0),
    (80000, aFetch 1), (120000, .sweep 0), (120001, .seek aStream aConsumer .first false []),
    (120002, aFetch 1), (160000, .sweep 0)]

theorem timeouts_once_lapsedLife :
    lapses (play lapsedLife) = [⟨aStream, aConsumer, 1, 1, 1⟩, ⟨aStream, aConsumer, 1, 2, 1⟩,
      ⟨aStream, aConsumer, 1, 1, 2⟩] ∧
    (∀ v ∈ play lapsedLife, ∀ e ∈ Visit.timeouts v, Transition v.pre.store e v.post.store) ∧
    (lapses (play lapsedLife)).Nodup := by
  have hlife : (∀ v ∈ play lapsedLife, Covered v ∧ ReapsMarked v ∧ SeedsFresh v) ∧
    Upheld LapsedFresh (play lapsedLife) ∧
      lapses (play lapsedLife) = [⟨aStream, aConsumer, 1, 1, 1⟩, ⟨aStream, aConsumer, 1, 2, 1⟩,
        ⟨aStream, aConsumer, 1, 1, 2⟩] := by
    decide +kernel
  obtain ⟨hvisits, hfresh, hlapses⟩ := hlife
  obtain ⟨htrans, honce⟩ := timeouts_once (runs_play lapsedLife) fun v hv => (hvisits v hv).1
  exact ⟨hlapses, fun v hv => (htrans v hv).1,
    honce (fun v hv => (hvisits v hv).2.1) (fun v hv => (hvisits v hv).2.2) hfresh⟩

/-! ## A death the budget refuses -/

/-- A broker that copies one message a commit into the dead-letter stream. -/
def Env.frugal (ms : ℤ) : Env :=
  let env := Env.atMs ms
  { env with opts := { env.opts with dlq := { env.opts.dlq with maxCopiesPerCommit := 1 } } }

def refusedRequests : List (ℤ × Request) :=
  boundedSetup 1 ++ [(4, aPublish),
    (10, aFetch 2), (40000, .sweep 0), (40001, .sweep 0)]

/-- Two leases at the bound lapse, and a sweep has the budget for one copy. -/
def refusedLife : List Step := refusedRequests.map fun r => ⟨.frugal r.1, r.2⟩

theorem refused_death_lapses_again : Runs (trace Broker.exec {} refusedLife) (run Broker.exec {} refusedLife) ∧
    lapses (trace Broker.exec {} refusedLife) = [⟨aStream, aConsumer, 1, 1, 1⟩,
      ⟨aStream, aConsumer, 2, 1, 1⟩, ⟨aStream, aConsumer, 2, 1, 1⟩] ∧
    ∃ v ∈ trace Broker.exec {} refusedLife, ∃ e ∈ Visit.timeouts v,
      (v.post.store.deliveries.find? e.about).map DeliveryRow.state = some .inflight :=
  ⟨history_trace _ _, by decide +kernel⟩

end Messq

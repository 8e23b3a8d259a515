import Messq.Property.Fence
import Messq.Property.Sweep
import Messq.Property.Terms

/-! # The backoff schedule

The wait after the `n`-th failure is the `n`-th entry of the consumer's schedule, the last one repeating.

- a lookup in nanoseconds is the lookup of the stored milliseconds (`backoffFor_map`);
- the sweeper releases a lapsed lease by the stored schedule (`swept_visibleAt`), a nak by the default schedule
  followed by the stored one (`settled_visibleAt`), since the loader of a settle starts from the defaults and appends;
- so the two agree in the first five failures exactly when the stored entry is the default one, and later exactly when
  it is the one five failures before (`backoffAt_append`, `one_backoff_schedule_iff`). -/

namespace Messq

open Lib Table

variable {budget b : DeadBudget} {l : List ℤ} {it : SettleItem} {st st' st₀ : Store} {r : SweepResult} {n : ℕ}
  {reason : Bytes} {c : ConsumerRow} {h : List Visit} {cons : SettleConsumer} {plan : SettlePlan} {row : SettleRow}

/-- `backoff_ms[min(n, length) - 1]`. -/
def backoffAt (l : List ℤ) (n : ℤ) : ℤ := l.getD (min n l.length - 1).toNat 0

/-- The default schedule in milliseconds. -/
def defaultBackoffMs : List ℤ := [1000, 5000, 30000, 120000, 600000]

theorem defaultConsumerBackoff_eq : defaultConsumerBackoff = defaultBackoffMs.map msDuration := by decide

theorem backoffAt_mem (hl : l ≠ []) (n : ℤ) : backoffAt l n ∈ l := by
  have hlen : 0 < l.length := List.length_pos_iff.mpr hl
  have hi : (min n l.length - 1).toNat < l.length := by omega
  rw [backoffAt, List.getD_eq_getElem _ _ hi]
  exact List.getElem_mem hi

/-- A lookup in a schedule that follows another: the first one answers as far as it goes, the second one from there. -/
theorem backoffAt_append {l' : List ℤ} {n : ℤ} (hl' : l' ≠ []) (hn : 1 ≤ n) :
    backoffAt (l ++ l') n = if n ≤ l.length then backoffAt l n else backoffAt l' (n - l.length) := by
  have hlen' : 0 < l'.length := List.length_pos_iff.mpr hl'
  unfold backoffAt
  rw [List.length_append]
  split
  · have hi : (min n l.length - 1).toNat < l.length := by omega
    rw [← List.getD_append l l' 0 _ hi]
    congr 2
    omega
  · have hi : l.length ≤ (min n (l.length + l'.length : ℕ) - 1).toNat := by omega
    rw [List.getD_append_right _ _ _ _ hi]
    congr 1
    omega

/-- The lookup in nanoseconds is the lookup in milliseconds. -/
theorem backoffFor_map {n : ℤ} (hl : l ≠ []) (hn : 1 ≤ n) :
    backoffFor (l.map msDuration) n = msDuration (backoffAt l n) := by
  have hlen : 0 < l.length := List.length_pos_iff.mpr hl
  have hi : (min n l.length - 1).toNat < l.length := by omega
  have hindex : (if n - 1 < 0 then 0 else if n - 1 ≥ (l.length : ℤ) then (l.length : ℤ) - 1 else n - 1 : ℤ).toNat =
      (min n l.length - 1).toNat := by
    split_ifs <;> omega
  rw [backoffFor, if_neg (by simpa using hl)]
  simp only [List.length_map, hindex]
  rw [backoffAt, List.getD_eq_getElem _ _ (by simpa using hi), List.getD_eq_getElem _ _ hi, List.getElem_map]

/-- What validation leaves of a schedule: it is not empty, and its entries fit into a `time.Duration`. -/
structure Scheduled (l : List ℤ) : Prop where
  ne_nil : l ≠ []
  int64 : ∀ ms ∈ l, IsInt64 (ms * millisecond)

theorem Runs.scheduled {b : Broker} (r : Runs h b) {k : Bytes × Bytes} (hc : b.store.consumers.find? k = some c) :
    Scheduled c.backoffMs := by
  refine r.terms (L := fun _ => True) (P := fun t => Scheduled t.backoffMs) (fun l cfg _ hcfg => ?_)
    (fun _ _ => trivial) k c hc
  refine ⟨fun hnil => ?_, hcfg.canonical.backoff⟩
  have hlen := hcfg.backoff.1
  rw [List.map_eq_nil_iff.mp hnil] at hlen
  exact absurd hlen (by decide)

/-- `max_deliver` is what its type can hold. -/
theorem Runs.inRange {b : Broker} (r : Runs h b) : b.store.InRange := by
  intro c hc
  have hrange : 0 ≤ c.maxDeliver ∧ c.maxDeliver ≤ maxDeliverCap :=
    r.terms (L := fun _ => True) (P := fun t => 0 ≤ t.maxDeliver ∧ t.maxDeliver ≤ maxDeliverCap)
      (fun l cfg _ hcfg => hcfg.maxDeliver) (fun _ _ => trivial) _ c (find?_of_mem hc)
  exact ⟨hrange.1, hrange.2.trans (by decide)⟩

theorem Scheduled.default_append (h : Scheduled l) : Scheduled (defaultBackoffMs ++ l) := by
  refine ⟨by simp [defaultBackoffMs], fun ms hms => ?_⟩
  rcases List.mem_append.mp hms with hms | hms
  · exact (show ∀ ms ∈ defaultBackoffMs, IsInt64 (ms * millisecond) by decide) ms hms
  · exact h.int64 ms hms

/-- The stored schedule, looked up by the sweeper. -/
theorem Scheduled.backoffFor (h : Scheduled l) {n : ℤ} (hn : 1 ≤ n) :
    Messq.backoffFor (l.map msDuration) n = backoffAt l n * millisecond := by
  rw [backoffFor_map h.ne_nil hn, msDuration_eq (h.int64 _ (backoffAt_mem h.ne_nil n))]

theorem milliseconds_mul (ms : ℤ) : milliseconds (ms * millisecond) = ms := Int.mul_tdiv_cancel _ (by decide)

theorem unixMilli_add_mul (now ms : ℤ) : unixMilli (now + ms * millisecond) = unixMilli now + ms :=
  Int.add_mul_ediv_right _ _ (by decide)

/-! ## The sweeper -/

section Release

variable {env : Env} {d : DeliveryRow}

/-- The time a swept lease may be tried again. -/
theorem swept_visibleAt {limit : ℕ} (hs : Scheduled c.backoffMs)
    (hc : st.consumers.find? (d.stream, d.consumer) = some c) (hmax : st.InRange)
    (hgen : d.generation = c.generation) (hatt : 1 ≤ d.attempts) (hb : ¬ st.Spent d) (hj : ∀ n x, env.jitter n x = x)
    (hd : d ∈ st.expired env.nowMs limit) (h : sweep env limit st = .ok (r, st')) :
    (st'.deliveries.find? d.key).map DeliveryRow.visibleAt = some (env.nowMs + backoffAt c.backoffMs d.attempts) := by
  have hkeys : (((st.expired env.nowMs limit).filter st.current).map DeliveryRow.key).Nodup :=
    (nodup_expired st env.nowMs limit).sublist (List.filter_sublist.map _)
  have hmem : d ∈ (st.expired env.nowMs limit).filter st.current :=
    List.mem_filter.mpr ⟨hd, current_iff.mpr ⟨c, hc, hgen⟩⟩
  obtain ⟨v, ⟨c', n, hc', hv⟩, hfind⟩ := (sweep_lapsing_current hmax h).released hkeys hmem hb
  obtain rfl : c = c' := Option.some.inj (hc.symm.trans hc')
  rw [hj, hs.backoffFor hatt, milliseconds_mul] at hv
  rw [hfind, hv]
  rfl

/-! ## The nak -/

/-- The plan of a nak of a held lease, without an explicit delay. -/
theorem planNak_release (hs : Scheduled c.backoffMs) (hatt : 1 ≤ d.attempts) (hheld : d.state = .inflight)
    (hb : ¬ c.AtBound d.attempts) (st : Store) (i : ℕ) (hdelay : it.delay = none) (hj : ∀ n x, env.jitter n x = x) :
    planNak (settleRequest env i it (.ofRow c) (some (.ofRow st d))) (SettleRow.ofRow st d).view env.now =
      .ok { status := .ok, action := .release,
            newVisibleAt := env.nowMs + backoffAt (defaultBackoffMs ++ c.backoffMs) d.attempts } := by
  have hbackoff : Messq.backoffFor (settleConfig c).backoff d.attempts =
      backoffAt (defaultBackoffMs ++ c.backoffMs) d.attempts * millisecond := by
    rw [settleConfig, defaultConsumerBackoff_eq, ← List.map_append, hs.default_append.backoffFor hatt]
  have hdead : ¬ ((settleConfig c).maxDeliver > 0 ∧ d.attempts ≥ (settleConfig c).maxDeliver) := hb
  rw [Env.nowMs, ← unixMilli_add_mul]
  simp only [planNak, releaseDelay, settleRequest, SettleConsumer.ofRow, SettleRow.ofRow, hdelay, hj,
    hbackoff, hdead, hheld,
    decide_false, Bool.false_eq_true, and_false, if_false, reduceCtorEq, false_and]
  rfl

/-- The token of a delivery. -/
def DeliveryRow.token (d : DeliveryRow) : Token := ⟨d.stream, d.consumer, d.seq, d.attempts, d.generation⟩

theorem Acted.visibleAt (ha : plan.action = .release) (h : Acted env budget it cons row plan reason st b st') :
    (st'.deliveries.find? it.token.row).map DeliveryRow.visibleAt = some plan.newVisibleAt := by
  cases h with
  | release _ _ h hend =>
    obtain ⟨d, -, hk, -, -, -, hsets⟩ := fencedUpdate_sets h
    have hfound := congrArg (Option.map DeliveryRow.visibleAt) (hk ▸ hsets.same)
    rcases hend with rfl | ⟨-, rfl⟩ <;> exact hfound
  | noop hno | ack _ hno | extend _ hno | dead _ _ hno => cases ha.symm.trans hno

theorem Acted.gone (ha : plan.action = .dead) (h : Acted env budget it cons row plan reason st b st') :
    st'.deliveries.find? it.token.row = none := by
  cases h with
  | dead _ _ _ _ _ h =>
    obtain ⟨d, -, hk, -, -, -, hsets⟩ := fencedDelete_sets h
    exact hk ▸ hsets.same
  | noop hno | ack _ hno | extend _ hno | release _ hno => cases ha.symm.trans hno

/-- The time a lease that was given back may be tried again: the item is loaded from the snapshot `st₀` of its batch,
and its row is as it was loaded when its turn comes. -/
theorem settled_visibleAt {res : ItemResult} (hs : Scheduled c.backoffMs)
    (hc : st₀.consumers.find? (d.stream, d.consumer) = some c) (hgen : d.generation = c.generation)
    (hd : st₀.deliveries.find? d.key = some d) (hheld : d.state = .inflight) (hatt : 1 ≤ d.attempts)
    (hb : ¬ c.AtBound d.attempts) (hj : ∀ n x, env.jitter n x = x) (hverb : it.verb = .nak) (hdelay : it.delay = none)
    (htok : it.token = d.token) (h : settleStep env n budget (.load st₀ it) st = .ok ((res, b), st')) :
    (st'.deliveries.find? d.key).map DeliveryRow.visibleAt =
      some (env.nowMs + backoffAt (defaultBackoffMs ++ c.backoffMs) d.attempts) := by
  have hrow : it.token.row = d.key := by rw [htok]; rfl
  have hplan : planSettle (settleRequest env n it (.ofRow c) (some (.ofRow st₀ d))) env.now =
      .ok { status := .ok, action := .release,
            newVisibleAt := env.nowMs + backoffAt (defaultBackoffMs ++ c.backoffMs) d.attempts } := by
    rw [← planNak_release hs hatt hheld hb st₀ n hdelay hj]
    simp only [planSettle, settleRequest, SettleConsumer.ofRow, SettleRow.ofRow, htok, DeliveryRow.token,
      hgen, hverb, ne_eq,
      not_true_eq_false, if_false, Option.map_some]
  have hcons : st₀.consumers.find? (it.token.stream, it.token.consumer) = some c := by rw [htok]; exact hc
  cases applyOne_answered h with
  | rejected _ hnoop => cases hnoop (.ofRow c) _ (by rw [hcons]; rfl) (by rw [hrow, hd]; exact hplan)
  | granted hc' _ hplan' _ _ _ _ hacted =>
    rw [hcons] at hc'
    cases hc'
    rw [hrow, hd] at hplan'
    cases hplan.symm.trans hplan'
    rw [← hrow]
    exact hacted.visibleAt rfl

end Release

/-! ## One schedule -/

/-- With jitter disabled a nak and a timeout at the same time schedule a row by the consumer's stored backoff when its
entry is the default one (the first five failures) or the one of five failures before (from the sixth on), and only
then. -/
theorem one_backoff_schedule_iff {h : List Visit} {b : Broker} (r : Runs h b) {env : Env} {c : ConsumerRow}
    {d : DeliveryRow}
    (hc : b.store.consumers.find? (d.stream, d.consumer) = some c) (hd : b.store.deliveries.find? d.key = some d)
    (hgen : d.generation = c.generation) (hheld : d.state = .inflight) (hatt : 1 ≤ d.attempts) (hb : ¬ b.store.Spent d)
    (hj : ∀ n x, env.jitter n x = x)
    {it : SettleItem} (hverb : it.verb = .nak) (hdelay : it.delay = none) (htok : it.token = d.token)
    {n : ℕ} {budget : DeadBudget} {st stn : Store} {ans : ItemResult × DeadBudget}
    (hnak : settleStep env n budget (.load b.store it) st = .ok (ans, stn))
    {limit : ℕ} {res : SweepResult} {sts : Store} (hexp : d ∈ b.store.expired env.nowMs limit)
    (hsweep : sweep env limit b.store = .ok (res, sts)) :
    ((stn.deliveries.find? d.key).map DeliveryRow.visibleAt = some (env.nowMs + backoffAt c.backoffMs d.attempts) ∧
      (sts.deliveries.find? d.key).map DeliveryRow.visibleAt = some (env.nowMs + backoffAt c.backoffMs d.attempts)) ↔
    if d.attempts ≤ 5 then backoffAt c.backoffMs d.attempts = backoffAt defaultBackoffMs d.attempts
    else backoffAt c.backoffMs d.attempts = backoffAt c.backoffMs (d.attempts - 5) := by
  have hs := r.scheduled hc
  have hmax : toInt32 c.maxDeliver = c.maxDeliver := toInt32_maxDeliver r.inRange hc
  have hbound : ¬ c.AtBound d.attempts := fun hbound => hb ⟨c, hc, by rwa [ConsumerRow.AtBound, hmax] at hbound⟩
  rw [settled_visibleAt hs hc hgen hd hheld hatt hbound hj hverb hdelay htok hnak,
    swept_visibleAt hs hc r.inRange hgen hatt hb hj hexp hsweep]
  rw [backoffAt_append hs.ne_nil hatt, show (defaultBackoffMs.length : ℤ) = 5 from rfl]
  simp only [Option.some.injEq, and_true]
  split <;> omega

/-- A lease of a consumer with the default schedule. -/
def defaultSchedule : List (ℤ × Request) := aSetup 1 ++ [(10, aFetch 1)]

/-- The nak of that lease. -/
def aNak : SettleItem := (anItem .nak 1 1 1).1

/-- With the default schedule the first failure is treated alike. -/
theorem one_backoff_schedule_default : ∃ ans stn res sts,
    settleStep (.atMs 40000) 0 (newDeadBudget defaultOptions.dlq) (.load (playState defaultSchedule).store aNak)
      (playState defaultSchedule).store = .ok (ans, stn) ∧
    sweep (.atMs 40000) 10 (playState defaultSchedule).store = .ok (res, sts) ∧
    (stn.deliveries.find? (aStream, aConsumer, 1)).map DeliveryRow.visibleAt =
      some (40000 + backoffAt defaultBackoffMs 1) ∧
    (sts.deliveries.find? (aStream, aConsumer, 1)).map DeliveryRow.visibleAt =
      some (40000 + backoffAt defaultBackoffMs 1) := by
  have hcon : ((playState defaultSchedule).store.consumers.find? (aStream, aConsumer)).map (fun c =>
      (c.generation, c.maxDeliver, c.backoffMs)) = some (1, 5, defaultBackoffMs) := by decide +kernel
  have hrow : ((playState defaultSchedule).store.deliveries.find? (aStream, aConsumer, 1)).map (fun d =>
      (d.token, d.state)) = some (aNak.token, .inflight) := by decide +kernel
  obtain ⟨c, hc, hcon⟩ := Option.map_eq_some_iff.mp hcon
  obtain ⟨d, hd, hrow⟩ := Option.map_eq_some_iff.mp hrow
  obtain ⟨hg, hm, hback⟩ : c.generation = 1 ∧ c.maxDeliver = 5 ∧ c.backoffMs = defaultBackoffMs := by simpa using hcon
  obtain ⟨htok, hheld⟩ := Prod.mk.inj hrow
  have hkey : d.key = (aStream, aConsumer, 1) := find?_key hd
  have hatt : d.attempts = 1 := congrArg Token.attempt htok
  have hgen : d.generation = 1 := congrArg Token.generation htok
  have hcd : (playState defaultSchedule).store.consumers.find? (d.stream, d.consumer) = some c := by
    rw [← hc, show d.stream = aStream from congrArg Token.stream htok,
      show d.consumer = aConsumer from congrArg Token.consumer htok]
  have hsettled : (settleStep (.atMs 40000) 0 (newDeadBudget defaultOptions.dlq)
      (.load (playState defaultSchedule).store aNak) (playState defaultSchedule).store).toOption.map
        (fun _ => ()) = some () := by decide +kernel
  have hswept : (sweep (.atMs 40000) 10 (playState defaultSchedule).store).toOption.map (fun _ => ()) = some () := by
    decide +kernel
  obtain ⟨⟨ans, stn⟩, hnak, -⟩ := ok_of_map hsettled
  obtain ⟨⟨res, sts⟩, hsweep, -⟩ := ok_of_map hswept
  have hexp : (aStream, aConsumer, 1) ∈
      ((playState defaultSchedule).store.expired 40000 10).map DeliveryRow.key := by decide +kernel
  obtain ⟨d', hd', hkey'⟩ := List.mem_map.mp hexp
  obtain rfl : d' = d := eq_of_key (mem_expired hd').1 (mem_of_find? hd) (hkey'.trans hkey.symm)
  have hiff := @one_backoff_schedule_iff _ _ (runs_play defaultSchedule) (.atMs 40000) _ _ hcd (by rw [hkey, hd])
    (hgen.trans hg.symm) hheld hatt.ge (fun ⟨c', hc', _, hle⟩ => by
      obtain rfl : c = c' := Option.some.inj (hcd.symm.trans hc')
      omega) (fun _ _ => rfl) _ rfl rfl htok.symm _ _ _ _ _ hnak _ _ _ hd' hsweep
  rw [hback, hatt, hkey] at hiff
  obtain ⟨hn, hs⟩ := hiff.mpr (by decide)
  exact ⟨ans, stn, res, sts, hnak, hsweep, hn, hs⟩

/-- A lease of a consumer whose schedule is a tenth of a second. -/
def shortSchedule : List (ℤ × Request) :=
  [(1, aCreate),
   (2, .createConsumer aStream { defaultConsumerConfig aConsumer with backoff := [100 * millisecond] } .first []),
   (3, aPublish), (10, aFetch 1)]

/-- The sweeper waits a tenth of a second, as configured, and a nak a whole one, as the defaults have it. -/
theorem nak_waits_by_default : Runs (play shortSchedule) (playState shortSchedule) ∧
    ((playState shortSchedule).store.consumers.find? (aStream, aConsumer)).map ConsumerRow.backoffMs = some [100] ∧
    ((playState shortSchedule).store.deliveries.find? (aStream, aConsumer, 1)).map DeliveryRow.attempts = some 1 ∧
    (sweep (.atMs 40000) 10 (playState shortSchedule).store).toOption.map (fun p =>
      (p.2.deliveries.find? (aStream, aConsumer, 1)).map DeliveryRow.visibleAt) =
        some (some (40000 + backoffAt [100] 1)) ∧
    (settle (.atMs 40000) [aNak] (playState shortSchedule).store).toOption.map (fun p =>
      (p.2.deliveries.find? (aStream, aConsumer, 1)).map DeliveryRow.visibleAt) = some (some (40000 + 1000)) ∧
    backoffAt [100] 1 = 100 :=
  ⟨runs_play _, by decide +kernel⟩

end Messq

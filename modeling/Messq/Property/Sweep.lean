import Messq.Property.Timeout

/-! # What a sweep does

`Lapse` says what becomes of one lease whose deadline has passed: below the bound it waits again, at the bound it is
given up when the copy budget allows, and its timeout is reported in either case. `Lapsing` is that for a list of
leases, one after the other with the budget they share.

- a sweep is a `Lapsing` of the leases it selects that are of their consumer's generation (`sweep_lapsing_current`),
  which fixes every delivery row afterwards (`Lapsing.released`, `Lapsing.other`) and the timeouts it reports
  (`Lapsing.timeouts`);
- the leases it selects are the first ones in the order of the expiry index (`firstExpired`), and it does nothing to any
  other row (`sweep_sweptExactly`). -/

namespace Messq

open Lib Table

variable {budget : DeadBudget} {r : SweepResult × DeadBudget} {limit n : ℕ} {c : ConsumerRow} {env : Env}

/-! ## Selection -/

/-- The columns of the expiry index. -/
def DeliveryRow.expiry (d : DeliveryRow) : ℤ × Bytes × Bytes × ℤ := (d.visibleAt, d.stream, d.consumer, d.seq)

/-- Their order. -/
def ExpiryLE : ℤ × Bytes × Bytes × ℤ → ℤ × Bytes × Bytes × ℤ → Prop :=
  Prod.Lex (· < ·) (Prod.Lex (· < ·) (Prod.Lex (· < ·) (· ≤ ·)))

theorem DeliveryRow.expiresBefore_iff {a b : DeliveryRow} : a.expiresBefore b = true ↔ ExpiryLE a.expiry b.expiry := by
  simp only [DeliveryRow.expiresBefore, DeliveryRow.expiry, ExpiryLE, Prod.lex_def, decide_eq_true_eq]

theorem pairwise_expiry (l : List DeliveryRow) :
    (l.insertionSort fun a b => a.expiresBefore b).Pairwise fun a b => ExpiryLE a.expiry b.expiry := by
  have : Std.Total fun a b : DeliveryRow => a.expiresBefore b = true := by
    refine ⟨fun a b => ?_⟩
    simp only [DeliveryRow.expiresBefore_iff]
    exact Std.Total.total (r := Prod.Lex (· < ·) (Prod.Lex (· < ·) (Prod.Lex (· < ·) (· ≤ ·)))) a.expiry b.expiry
  have : IsTrans DeliveryRow fun a b => a.expiresBefore b = true := by
    refine ⟨fun a b c => ?_⟩
    simp only [DeliveryRow.expiresBefore_iff]
    exact IsTrans.trans (r := Prod.Lex (· < ·) (Prod.Lex (· < ·) (Prod.Lex (· < ·) (· ≤ ·)))) a.expiry b.expiry c.expiry
  exact (List.pairwise_insertionSort _ l).imp DeliveryRow.expiresBefore_iff.mp

/-- An earlier place in the order is an earlier deadline. -/
theorem deadline_le {a b : DeliveryRow} (h : ExpiryLE a.expiry b.expiry) : a.visibleAt ≤ b.visibleAt := by
  rcases Prod.lex_def.mp h with hlt | ⟨heq, -⟩
  · exact hlt.le
  · exact heq.le

/-- `l` holds the first `limit` leases whose deadline has come, in the order of the expiry index. -/
structure Store.FirstExpired (st : Store) (nowMs : ℤ) (limit : ℕ) (l : List DeliveryRow) : Prop where
  sorted : l.Pairwise fun a b => ExpiryLE a.expiry b.expiry
  nodup : (l.map DeliveryRow.key).Nodup
  length_le : l.length ≤ limit
  due : ∀ d ∈ l, d ∈ st.deliveries ∧ d.state = .inflight ∧ d.visibleAt ≤ nowMs
  /-- What is left out comes after them, and there are as many as may be. -/
  first : ∀ d ∈ st.deliveries, d.state = .inflight → d.visibleAt ≤ nowMs → d ∉ l →
    l.length = limit ∧ ∀ d' ∈ l, ExpiryLE d'.expiry d.expiry

theorem firstExpired (st : Store) (nowMs : ℤ) (limit : ℕ) : st.FirstExpired nowMs limit (st.expired nowMs limit) := by
  have hsorted := pairwise_expiry (st.deliveries.select fun d => d.state == .inflight && d.visibleAt ≤ nowMs)
  refine ⟨hsorted.sublist (List.take_sublist _ _), nodup_expired st nowMs limit, List.length_take_le _ _,
    fun d hd => mem_expired hd, fun d hd hstate hv hout => ?_⟩
  have hsel : d ∈ st.deliveries.select fun d => d.state == .inflight && d.visibleAt ≤ nowMs :=
    mem_select.mpr ⟨hd, by simp [hstate, hv]⟩
  have hd := (List.mem_insertionSort fun a b => a.expiresBefore b).mpr hsel
  rw [← List.take_append_drop limit (List.insertionSort _ _)] at hsorted hd
  have hlate := (List.mem_append.mp hd).resolve_left hout
  refine ⟨?_, fun d' hd' => (List.pairwise_append.mp hsorted).2.2 d' hd' d hlate⟩
  have hlen := List.length_pos_of_mem hlate
  rw [List.length_drop] at hlen
  rw [Store.expired, List.length_take]
  omega

/-! ## One lease -/

/-- The row is at the bound of its consumer. -/
def Store.Spent (st : Store) (d : DeliveryRow) : Prop :=
  ∃ c, st.consumers.find? (d.stream, d.consumer) = some c ∧ 0 < c.maxDeliver ∧ c.maxDeliver ≤ d.attempts

/-- A time at which the row may be tried again: the jittered backoff of its consumer from now. -/
def Store.RetryAt (st : Store) (env : Env) (d : DeliveryRow) (visibleAt : ℤ) : Prop :=
  ∃ c n, st.consumers.find? (d.stream, d.consumer) = some c ∧
    visibleAt = env.nowMs + milliseconds (env.jitter n (backoffFor (c.backoffMs.map msDuration) d.attempts))

/-- The row of a lease that has lapsed. -/
def DeliveryRow.lapsed (d : DeliveryRow) (visibleAt : ℤ) : DeliveryRow :=
  { d with state := .ready, visibleAt := visibleAt, lastReason := some (str "ack_wait") }

/-- What becomes of one lease, and what is left of the copy budget; `e` reports the timeout. -/
inductive Lapse (env : Env) (left : DeadBudget) (d : DeliveryRow) (st : Store) : DeadBudget → Store → Prop
  /-- Below the bound the row waits again, with its attempts. -/
  | release (e : Event) (visibleAt : ℤ) (t : Table DeliveryRow.key) (he : e.name = .msgTimeout ∧ e.about = d.key)
      (hb : ¬ st.Spent d) (hv : st.RetryAt env d visibleAt)
      (ht : st.deliveries.Sets d.key (some (d.lapsed visibleAt)) t) :
      Lapse env left d st left { st.logged e with deliveries := t }
  /-- At the bound it is given up: the sink takes it, and its row goes. -/
  | bury (e : Event) (ctx : DeadCtx) (st₁ : Store) (t : Table DeliveryRow.key) (he : e.name = .msgTimeout ∧
      e.about = d.key)
      (hb : st.Spent d) (hfit : ∀ size ∈ st.copyDue d.stream d.consumer d.seq, left.canCopy size = true)
      (hk : ctx.key = d.key) (hburied : Buried env ctx (st.logged e) st₁) (ht : st.deliveries.Sets d.key none t) :
      Lapse env left d st (left.after (st.copyDue d.stream d.consumer d.seq)) { st₁ with deliveries := t }
  /-- A copy the budget does not allow is put off. -/
  | defer (e : Event) (size : ℤ) (he : e.name = .msgTimeout ∧ e.about = d.key) (hb : st.Spent d)
      (hsize : size ∈ st.copyDue d.stream d.consumer d.seq) (hfull : left.canCopy size = false) :
      Lapse env left d st left (st.logged e)

/-- The leases one after the other. -/
inductive Lapsing (env : Env) : DeadBudget → List DeliveryRow → Store → Store → Prop
  | nil (left : DeadBudget) (st : Store) : Lapsing env left [] st st
  | cons {left left' : DeadBudget} {d : DeliveryRow} {ds : List DeliveryRow} {st st₁ st' : Store}
      (h : Lapse env left d st left' st₁) (hs : Lapsing env left' ds st₁ st') : Lapsing env left (d :: ds) st st'

section Lapse

variable {left left' : DeadBudget} {d : DeliveryRow} {ds : List DeliveryRow} {st st₁ st' : Store}

theorem Lapse.only (h : Lapse env left d st left' st₁) : Only d.key st st₁ := by
  cases h with
  | release e v t _ _ _ ht => exact ⟨rfl, fun _ hk => ht.other hk⟩
  | bury e ctx st₁ t _ _ _ _ hburied ht => exact ⟨hburied.frame.2.1, fun _ hk => ht.other hk⟩
  | defer e => exact .refl _ _

/-- Below the bound the row waits again. -/
theorem Lapse.released (h : Lapse env left d st left' st₁) (hb : ¬ st.Spent d) :
    ∃ v, st.RetryAt env d v ∧ st₁.deliveries.find? d.key = some (d.lapsed v) := by
  cases h with
  | release e v t _ _ hv ht => exact ⟨v, hv, ht.same⟩
  | bury e ctx st₁ t _ hb' => exact absurd hb' hb
  | defer e size _ hb' => exact absurd hb' hb

/-- At the bound it is gone, or as it was. -/
theorem Lapse.spent (h : Lapse env left d st left' st₁) (hrow : st.deliveries.find? d.key = some d) (hb : st.Spent d) :
    st₁.deliveries.find? d.key = none ∨ st₁.deliveries.find? d.key = some d := by
  cases h with
  | release e v t _ hb' => exact absurd hb hb'
  | bury e ctx st₁ t _ _ _ _ _ ht => exact .inl ht.same
  | defer e => exact .inr hrow

/-- Its timeout is the only one reported. -/
theorem Lapse.timeouts (h : Lapse env left d st left' st₁) :
    ∃ es, Logs st es st₁ ∧ (Messq.timeouts es).map Event.about = [d.key] := by
  cases h with
  | release e v t he => exact ⟨[e], ⟨rfl, [e], rfl, fun _ h => h⟩, by simp [Messq.timeouts, he]⟩
  | bury e ctx st₁ t he _ _ _ hburied =>
    obtain ⟨es, hl, hes⟩ := hburied.journals (P := Event.Untimed) (fun _ _ => by simp [Event.Untimed, deadEvent])
      (fun _ _ => by simp [Event.Untimed, dlqCreateEvent])
    refine ⟨[e] ++ es, (logs_logged st e).trans ⟨hl.events, hl.carriers⟩, ?_⟩
    rw [timeouts_append, timeouts_eq_nil hes]
    simp [Messq.timeouts, he]
  | defer e size he => exact ⟨[e], logs_logged st e, by simp [Messq.timeouts, he]⟩

theorem Lapsing.other (h : Lapsing env left ds st st') {k : Bytes × Bytes × ℤ} (hk : k ∉ ds.map DeliveryRow.key) :
    st'.deliveries.find? k = st.deliveries.find? k := by
  induction h with
  | nil => rfl
  | cons h _ ih =>
    rw [List.map_cons, List.mem_cons, not_or] at hk
    exact (ih hk.2).trans (h.only.2 k hk.1)

theorem Lapsing.consumers (h : Lapsing env left ds st st') : st'.consumers = st.consumers := by
  induction h with
  | nil => rfl
  | cons h _ ih => exact ih.trans h.only.1

/-- Every lease below the bound waits again. -/
theorem Lapsing.released (h : Lapsing env left ds st st') (hkeys : (ds.map DeliveryRow.key).Nodup) (hd : d ∈ ds)
    (hb : ¬ st.Spent d) : ∃ v, st.RetryAt env d v ∧ st'.deliveries.find? d.key = some (d.lapsed v) := by
  induction h with
  | nil => cases hd
  | cons h hs ih =>
    rw [List.map_cons, List.nodup_cons] at hkeys
    rcases List.mem_cons.mp hd with rfl | hd
    · obtain ⟨v, hv, hrow⟩ := h.released hb
      exact ⟨v, hv, (hs.other hkeys.1).trans hrow⟩
    · have hcons := h.only.1
      simp only [Store.Spent, Store.RetryAt, hcons] at ih hb ⊢
      exact ih hkeys.2 hd hb

/-- Every lease at the bound is gone, or as it was. -/
theorem Lapsing.spent (h : Lapsing env left ds st st') (hkeys : (ds.map DeliveryRow.key).Nodup) (hd : d ∈ ds)
    (hrow : st.deliveries.find? d.key = some d) (hb : st.Spent d) :
    st'.deliveries.find? d.key = none ∨ st'.deliveries.find? d.key = some d := by
  induction h with
  | nil => cases hd
  | @cons _ _ d₁ _ _ _ _ h hs ih =>
    rw [List.map_cons, List.nodup_cons] at hkeys
    rcases List.mem_cons.mp hd with rfl | hd
    · rw [hs.other hkeys.1]
      exact h.spent hrow hb
    · have hne : d.key ≠ d₁.key := fun he => hkeys.1 (he ▸ List.mem_map_of_mem hd)
      have hcons := h.only.1
      refine ih hkeys.2 hd ((h.only.2 _ hne).trans hrow) ?_
      rwa [Store.Spent, hcons]

/-- The timeouts are those of the leases, in their order. -/
theorem Lapsing.timeouts (h : Lapsing env left ds st st') :
    ∃ es, Logs st es st' ∧ (Messq.timeouts es).map Event.about = ds.map DeliveryRow.key := by
  induction h with
  | nil left st => exact ⟨[], logs_nil rfl rfl, rfl⟩
  | cons h _ ih =>
    obtain ⟨es, hl, hes⟩ := h.timeouts
    obtain ⟨es', hl', hes'⟩ := ih
    exact ⟨es ++ es', hl.trans hl', by rw [timeouts_append, List.map_append, hes, hes']; rfl⟩

end Lapse

/-! ## The sweep -/

section Sweep

/-- The sink refuses a delivery exactly when the budget does not allow its copy. -/
theorem deadLetter_answer {d : DeadCtx} {st st' : Store} {o : Option DeadBudget}
    (h : deadLetter env budget d st = .ok (o, st')) :
    (∃ size ∈ st.copyDue d.stream d.consumer d.seq, budget.canCopy size = false) ∧ o = none ∨
    (∀ size ∈ st.copyDue d.stream d.consumer d.seq, budget.canCopy size = true) ∧
      o = some (budget.after (st.copyDue d.stream d.consumer d.seq)) := by
  by_cases hfit : ∀ size ∈ st.copyDue d.stream d.consumer d.seq, budget.canCopy size = true
  · exact .inr ⟨hfit, deadLetter_covered hfit h⟩
  · push Not at hfit
    obtain ⟨size, hsize, hfull⟩ := hfit
    rw [ne_eq, Bool.not_eq_true] at hfull
    refine .inl ⟨⟨size, hsize, hfull⟩, ?_⟩
    simp only [Store.copyDue, Option.mem_def] at hsize
    split_ifs at hsize with hp
    obtain ⟨origin, ho, rfl⟩ := Option.map_eq_some_iff.mp hsize
    simp only [deadLetter, run_get_bind] at h
    simp only [planDead, hp, ne_eq, not_true_eq_false, if_false, Bool.not_true, Bool.false_eq_true, ho, hfull,
      Bool.not_false, if_true, run_pure] at h
    exact h.1.symm

/-- The row has a consumer, and carries its generation. -/
def Store.current (st : Store) (d : DeliveryRow) : Bool :=
  (st.consumers.find? (d.stream, d.consumer)).any fun c => d.generation == c.generation

theorem current_iff {st : Store} {d : DeliveryRow} : st.current d = true ↔
    ∃ c, st.consumers.find? (d.stream, d.consumer) = some c ∧ d.generation = c.generation := by
  rw [Store.current, Option.any_eq_true]
  simp only [beq_iff_eq]

/-- Every delivery row has a consumer, and carries its generation. -/
def Store.Agrees (st : Store) : Prop :=
  ∀ d ∈ st.deliveries, ∃ c, st.consumers.find? (d.stream, d.consumer) = some c ∧ d.generation = c.generation

/-- `max_deliver` is what validation admits: not negative, and within its type. -/
def Store.InRange (st : Store) : Prop := ∀ c ∈ st.consumers, 0 ≤ c.maxDeliver ∧ c.maxDeliver ≤ maxInt32

theorem toInt32_maxDeliver {st : Store} (hmax : st.InRange) {k : Bytes × Bytes} (hc : st.consumers.find? k = some c) :
    toInt32 c.maxDeliver = c.maxDeliver := by
  obtain ⟨h0, hi⟩ := hmax c (mem_of_find? hc)
  rcases h0.eq_or_lt with h0 | h0
  · rw [← h0]; rfl
  · exact toInt32_eq h0 hi

theorem spent_iff {st : Store} {d : DeliveryRow} (hmax : st.InRange)
    (hc : st.consumers.find? (d.stream, d.consumer) = some c) : st.Spent d ↔ c.AtBound d.attempts := by
  rw [ConsumerRow.AtBound, toInt32_maxDeliver hmax hc]
  exact ⟨fun ⟨c', hc', hb⟩ => by rwa [Option.some.inj (hc.symm.trans hc')], fun hb => ⟨c, hc, hb⟩⟩

/-- One lease of its consumer's generation. -/
theorem SweptRow.lapse {d : DeliveryRow} {st st' : Store} {b : DeadBudget} (h : SweptRow env n d budget st b st')
    (hd : st.deliveries.find? d.key = some d) (hmax : st.InRange) (hcur : st.current d = true) :
    Lapse env budget d st b st' := by
  cases h with
  | stale h =>
    obtain ⟨c, hc, hg⟩ := current_iff.mp hcur
    exact absurd hg (h c hc)
  | release c lp dec visibleAt k _ hc hg hb hv h =>
    obtain ⟨hst, hsets⟩ := releaseLease_sets (by exact hd) h
    rw [hst]
    exact .release _ visibleAt _ ⟨rfl, timeoutEvent_about ..⟩ (fun hs => hb ((spent_iff hmax hc).mp hs))
      ⟨c, n, hc, hv⟩ hsets
  | dead c lp dec trigger o st₁ _ hc hg hb h hend =>
    have hspent := (spent_iff hmax hc).mpr hb
    have he : (timeoutEvent env st d lp dec).name = .msgTimeout ∧ (timeoutEvent env st d lp dec).about = d.key :=
      ⟨rfl, timeoutEvent_about ..⟩
    rcases deadLetter_answer h with ⟨⟨size, hsize, hfull⟩, rfl⟩ | ⟨hfit, rfl⟩
    · obtain ⟨-, rfl⟩ | ⟨hn, -⟩ := deadLetter_run h
      · obtain ⟨-, rfl⟩ | ⟨b, k, ho, -⟩ := hend
        · exact .defer _ size he hspent hsize hfull
        · cases ho
      · exact absurd rfl hn
    · obtain ⟨hn, -⟩ | ⟨-, hburied⟩ := deadLetter_run h
      · cases hn
      · obtain ⟨ho, -⟩ | ⟨b, k, -, h₂⟩ := hend
        · cases ho
        · have hrows : st₁.deliveries = st.deliveries := hburied.frame.1
          obtain ⟨hst, hsets⟩ := deleteLease_sets (by rw [hrows]; exact hd) h₂
          rw [hst]
          exact .bury _ _ st₁ _ he hspent hfit rfl hburied (hrows ▸ hsets)

/-- **Loop.** Those that are not of their consumer's generation are passed over. -/
theorem SweptAll.lapsing {ds : List DeliveryRow} {st st' : Store} (h : SweptAll env n ds budget st st')
    (hmax : st.InRange) : Lapsing env budget (ds.filter st.current) st st' := by
  induction h with
  | nil => exact .nil _ _
  | @cons n d ds budget b st st₁ st' hd hs h hrest ih =>
    have hcons := (h.acts hd hs).2.1
    rw [Store.InRange, hcons, show st₁.current = st.current from funext fun d => by
      rw [Store.current, hcons]; rfl] at ih
    by_cases hcur : st.current d = true
    · rw [List.filter_cons_of_pos hcur]
      exact .cons (h.lapse hd hmax hcur) (ih hmax)
    · rw [List.filter_cons_of_neg hcur]
      cases h with
      | stale => exact ih hmax
      | release c _ _ _ _ _ hc hg => exact absurd (current_iff.mpr ⟨c, hc, hg⟩) hcur
      | dead c _ _ _ _ _ _ hc hg => exact absurd (current_iff.mpr ⟨c, hc, hg⟩) hcur

/-- A sweep is a lapse of the leases it selects that are of their consumer's generation. -/
theorem sweep_lapsing_current {st st' : Store} {r : SweepResult} (hmax : st.InRange)
    (h : sweep env limit st = .ok (r, st')) :
    Lapsing env (newDeadBudget env.opts.dlq) ((st.expired env.nowMs limit).filter st.current) st st' :=
  (sweep_swept h).lapsing hmax

theorem sweep_lapsing {st st' : Store} {r : SweepResult} (hgen : st.Agrees) (hmax : st.InRange)
    (h : sweep env limit st = .ok (r, st')) :
    Lapsing env (newDeadBudget env.opts.dlq) (st.expired env.nowMs limit) st st' := by
  have hall : (st.expired env.nowMs limit).filter st.current = st.expired env.nowMs limit :=
    List.filter_eq_self.mpr fun d hd => current_iff.mpr (hgen d (mem_expired hd).1)
  have hlapse := sweep_lapsing_current hmax h
  rwa [hall] at hlapse

/-! ## Exactness -/

/-- What a sweep does: the first `limit` leases whose deadline has come lapse, and nothing else happens to any row. -/
structure SweptExactly (env : Env) (limit : ℕ) (st st' : Store) : Prop where
  first : st.FirstExpired env.nowMs limit (st.expired env.nowMs limit)
  /-- One after the other they wait again or are given up, as far as the copy budget goes. -/
  lapses : Lapsing env (newDeadBudget env.opts.dlq) (st.expired env.nowMs limit) st st'
  /-- Below the bound a row is ready afterwards, with the attempts it had. -/
  released : ∀ d ∈ st.expired env.nowMs limit, ¬ st.Spent d →
    ∃ d', st'.deliveries.find? d.key = some d' ∧ d'.state = .ready ∧ d'.attempts = d.attempts
  /-- At the bound it is gone, or put off and as it was. -/
  buried : ∀ d ∈ st.expired env.nowMs limit, st.Spent d →
    st'.deliveries.find? d.key = none ∨ st'.deliveries.find? d.key = some d
  /-- Every other row is as it was. -/
  others : ∀ k, k ∉ (st.expired env.nowMs limit).map DeliveryRow.key → st'.deliveries.find? k = st.deliveries.find? k
  /-- The timeouts reported are theirs, in their order. -/
  reported : ∀ es, Logs st es st' → (timeouts es).map Event.about = (st.expired env.nowMs limit).map DeliveryRow.key

theorem sweep_sweptExactly {st st' : Store} {r : SweepResult} (hgen : st.Agrees) (hmax : st.InRange)
    (h : sweep env limit st = .ok (r, st')) : SweptExactly env limit st st' := by
  have hlapse := sweep_lapsing hgen hmax h
  have hkeys := nodup_expired st env.nowMs limit
  refine ⟨firstExpired _ _ _, hlapse, fun d hd hb => ?_, fun d hd hb => ?_, fun k hk => hlapse.other hk,
    fun es hl => ?_⟩
  · obtain ⟨v, -, hfind⟩ := hlapse.released hkeys hd hb
    exact ⟨_, hfind, rfl, rfl⟩
  · exact hlapse.spent hkeys hd (find?_of_mem (mem_expired hd).1) hb
  · obtain ⟨es', hl', hes'⟩ := hlapse.timeouts
    rw [hl.unique hl', hes']

end Sweep

end Messq

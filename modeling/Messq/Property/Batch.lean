import Messq.Property.Dead
import Messq.Property.Honest

/-! # A batch is the sequence of its items

A settle batch decides every item on a snapshot taken up front and pays all its dead-letter copies from one budget. When
the items name different rows, no item touches what another was decided on (`load_eq`), and when the copies are within
the budget, it does not matter which command pays (`settleStep_swap`). So the batch and the sequence of one-item
commands run to the same end, or neither does; then the batch has done nothing, and the commands before the failing one
all they do (`settle_iff_settleEach`). -/

namespace Messq

open Lib Table Relation

variable {stream : Bytes} {b b₁ b₂ : DeadBudget} {r : ItemResult} {items : List SettleItem} {it : SettleItem} {n : ℕ}

/-! ## One item at a time -/

/-- The environment from the `n`-th item on: the same clock and supplies, the jitter of the items that are left. -/
def Env.onward (env : Env) (n : ℕ) : Env := { env with jitter := fun m => env.jitter (n + m) }

/-- The items as commands of one item each, in order; the `n`-th item has the `n`-th jitter. -/
def settleEach (env : Env) : ℕ → List SettleItem → Tx (List ItemResult)
  | _, [] => return []
  | n, it :: its => do
    let r ← settle (env.onward n) [it]
    return r.results ++ (← settleEach env (n + 1) its)

/-- Where the sequence stops, the commands before the failing one have run. -/
theorem settleEach_stops {env : Env} {st : Store} (h : ∀ p, settleEach env n items st ≠ .ok p) :
    ∃ before it after rs st₁ e, items = before ++ it :: after ∧
      settleEach env n before st = .ok (rs, st₁) ∧ settle (env.onward (n + before.length)) [it] st₁ = .error e := by
  induction items generalizing n st with
  | nil => exact absurd rfl (h ([], st))
  | cons it items ih =>
    cases hit : settle (env.onward n) [it] st with
    | error e => exact ⟨[], it, items, [], st, e, rfl, rfl, hit⟩
    | ok p =>
      obtain ⟨r, st₁⟩ := p
      have hrest : ∀ q, settleEach env (n + 1) items st₁ ≠ .ok q := fun q hq =>
        h (r.results ++ q.1, q.2) (run_bind.mpr ⟨r, st₁, hit, run_bind.mpr ⟨q.1, q.2, hq, rfl⟩⟩)
      obtain ⟨before, x, after, rs, st₂, e, rfl, hbefore, hx⟩ := ih hrest
      rw [add_right_comm] at hx
      exact ⟨it :: before, x, after, r.results ++ rs, st₂, e, rfl,
        run_bind.mpr ⟨r, st₁, hit, run_bind.mpr ⟨rs, st₂, hbefore, rfl⟩⟩, hx⟩

theorem settleStep_onward (env : Env) (n : ℕ) (budget : DeadBudget) (p : Prepared) :
    settleStep (env.onward n) 0 budget p = settleStep env n budget p := by
  cases p <;> rfl

/-! ## Loading -/

/-- The numbers the load phase reads for an item fit its scans. -/
def Store.Scans (st : Store) (it : SettleItem) : Prop :=
  (∀ c, st.consumers.find? (it.token.stream, it.token.consumer) = some c →
    -2147483648 ≤ c.generation ∧ c.generation ≤ maxInt32) ∧
  ∀ d, st.deliveries.find? it.token.row = some d →
    (-2147483648 ≤ d.attempts ∧ d.attempts ≤ maxInt32) ∧ -2147483648 ≤ d.generation ∧ d.generation ≤ maxInt32

section Load

variable {st₀ st st₁ st₂ : Store}

theorem loadSettleConsumer_iff {name : Bytes} {o : Option SettleConsumer} :
    loadSettleConsumer st stream name st₁ = .ok (o, st₂) ↔
      (∀ c, st.consumers.find? (stream, name) = some c → -2147483648 ≤ c.generation ∧ c.generation ≤ maxInt32) ∧
        o = (st.consumers.find? (stream, name)).map .ofRow ∧ st₁ = st₂ := by
  unfold loadSettleConsumer
  cases hc : st.consumers.find? (stream, name) with
  | none =>
    refine run_pure.trans ⟨fun ⟨ho, hst⟩ => ⟨fun _ h => (nomatch h), ho.symm, hst⟩, fun ⟨_, ho, hst⟩ => ⟨ho.symm, hst⟩⟩
  | some c =>
    simp only [run_bind, scanInt32_run, run_pure, Option.some.injEq, forall_eq', Option.map_some]
    constructor
    · rintro ⟨_, _, ⟨hfit, rfl, rfl⟩, rfl, rfl⟩
      exact ⟨hfit, rfl, rfl⟩
    · rintro ⟨hfit, rfl, rfl⟩
      exact ⟨_, _, ⟨hfit, rfl, rfl⟩, rfl, rfl⟩

theorem loadSettleRow_iff {consumer : Bytes} {seq : ℤ} {o : Option SettleRow} :
    loadSettleRow st stream consumer seq st₁ = .ok (o, st₂) ↔
      (∀ d, st.deliveries.find? (stream, consumer, seq) = some d →
        (-2147483648 ≤ d.attempts ∧ d.attempts ≤ maxInt32) ∧ -2147483648 ≤ d.generation ∧ d.generation ≤ maxInt32) ∧
        o = (st.deliveries.find? (stream, consumer, seq)).map (.ofRow st) ∧ st₁ = st₂ := by
  constructor
  · intro h
    refine ⟨fun d hd => ?_, loadSettleRow_run h⟩
    simp only [loadSettleRow, hd, run_bind, scanInt32_run] at h
    obtain ⟨_, _, ⟨hatt, -⟩, _, _, ⟨hgen, -⟩, -⟩ := h
    exact ⟨hatt, hgen⟩
  · rintro ⟨hfit, ho, rfl⟩
    have hrun : ∃ o', loadSettleRow st stream consumer seq st₁ = .ok (o', st₁) := by
      unfold loadSettleRow
      cases hd : st.deliveries.find? (stream, consumer, seq) with
      | none => exact ⟨none, rfl⟩
      | some d =>
        obtain ⟨hatt, hgen⟩ := hfit d hd
        exact ⟨_, run_bind.mpr ⟨_, _, scanInt32_run.mpr ⟨hatt, rfl, rfl⟩,
          run_bind.mpr ⟨_, _, scanInt32_run.mpr ⟨hgen, rfl, rfl⟩, rfl⟩⟩⟩
    obtain ⟨o', hrun⟩ := hrun
    rw [hrun, (loadSettleRow_run hrun).1, ho]

/-- The load phase of items whose tokens are met for the first time. -/
theorem prepare_iff {seen : List Bytes} {ps : List Prepared} (hnew : ∀ it ∈ items, it.token.string ∉ seen)
    (hdiff : (items.map fun it => it.token.string).Nodup) :
    prepare st seen items st₁ = .ok (ps, st₂) ↔
      (∀ it ∈ items, st.Scans it) ∧ ps = items.map (.load st) ∧ st₁ = st₂ := by
  induction items generalizing seen ps st₁ st₂ with
  | nil =>
    refine run_pure.trans ⟨fun ⟨hp, hst⟩ => ⟨fun _ h => (nomatch h), hp.symm, hst⟩, fun ⟨_, hp, hst⟩ => ⟨hp.symm, hst⟩⟩
  | cons it items ih =>
    obtain ⟨hfirst, hdiff⟩ := List.nodup_cons.mp hdiff
    have hnew' : ∀ x ∈ items, x.token.string ∉ it.token.string :: seen := fun x hx => by
      rw [List.mem_cons, not_or]
      exact ⟨fun he => hfirst (List.mem_map.mpr ⟨x, hx, he⟩), hnew x (List.mem_cons_of_mem _ hx)⟩
    simp only [prepare, if_neg (hnew it List.mem_cons_self), run_bind, run_pure, loadSettleConsumer_iff,
      loadSettleRow_iff, ih hnew' hdiff, List.forall_mem_cons, List.map_cons]
    constructor
    · rintro ⟨_, _, ⟨hc, rfl, rfl⟩, _, _, ⟨hd, rfl, rfl⟩, _, _, ⟨hrest, rfl, rfl⟩, rfl, rfl⟩
      exact ⟨⟨⟨hc, hd⟩, hrest⟩, rfl, rfl⟩
    · rintro ⟨⟨⟨hc, hd⟩, hrest⟩, rfl, rfl⟩
      exact ⟨_, _, ⟨hc, rfl, rfl⟩, _, _, ⟨hd, rfl, rfl⟩, _, _, ⟨hrest, rfl, rfl⟩, rfl, rfl⟩

/-- A command of one item. -/
theorem settle_single {env : Env} {r : SettleResult} {st' : Store} : settle env [it] st = .ok (r, st') ↔
    st.Scans it ∧ ∃ res b, settleStep env 0 (newDeadBudget env.opts.dlq) (.load st it) st = .ok ((res, b), st') ∧
      r = tally [res] := by
  have hprep : ∀ ps, prepare st [] [it] st = .ok (ps, st) ↔ st.Scans it ∧ ps = [.load st it] := fun ps => by
    refine (prepare_iff (fun _ _ => List.not_mem_nil) ?_).trans ?_
    · exact List.nodup_singleton _
    · simp
  simp only [settle_run, hprep]
  constructor
  · rintro ⟨_, rs, ⟨hs, rfl⟩, h, rfl⟩
    obtain ⟨res, b, _, _, hstep, hnil, rfl⟩ := settleItems_cons.mp h
    obtain ⟨rfl, rfl⟩ := run_pure.mp hnil
    exact ⟨hs, res, b, hstep, rfl⟩
  · rintro ⟨hs, res, b, hstep, rfl⟩
    exact ⟨_, [res], ⟨hs, rfl⟩, settleItems_cons.mpr ⟨res, b, _, [], hstep, rfl, rfl⟩, rfl⟩

end Load

/-! ## The copies -/

/-- The copy an item asks for; a nak with a delay out of range gives nothing up. -/
def Store.copyOf (st : Store) (it : SettleItem) : Option MessageRow :=
  if it.verb = .nak ∧ it.delay.any (fun x => decide (x < 0 ∨ maxNakDelay < x)) = true then none else st.copied it

section Copies

variable {env : Env} {st₀ st st' : Store}

/-- A death that runs under one budget runs under every budget that has the copy left. -/
theorem deadLetter_swap {d : DeadCtx} (h : deadLetter env b₁ d st = .ok (some b, st'))
    (hcan : ∀ m, st.deadPolicyOf d.stream d.consumer = .dlq → st.messages.find? (d.stream, d.seq) = some m →
      b₂.canCopy m.size = true) :
    ∃ b', deadLetter env b₂ d st = .ok (some b', st') ∧ (b' = b₂ ∨ ∃ m, st.deadPolicyOf d.stream d.consumer = .dlq ∧
      st.messages.find? (d.stream, d.seq) = some m ∧ b' = b₂.take m.size) := by
  simp only [deadLetter, run_bind, run_get] at h ⊢
  obtain ⟨_, _, ⟨rfl, rfl⟩, h⟩ := h
  rw [run_ite] at h
  split at h
  · rename_i hplan
    simp only [run_bind, commitEvent_run, run_pure] at h
    obtain ⟨_, _, rfl, -, rfl⟩ := h
    refine ⟨b₂, ⟨st, st, ⟨rfl, rfl⟩, ?_⟩, .inl rfl⟩
    rw [if_pos hplan]
    exact run_bind.mpr ⟨(), _, commitEvent_run.mpr rfl, rfl⟩
  rename_i hplan
  obtain ⟨hp, -⟩ := planDead_copy (by simpa using hplan)
  cases horig : st.messages.find? (d.stream, d.seq) with
  | none =>
    simp only [horig, run_bind, commitEvent_run, run_pure] at h
    obtain ⟨_, _, rfl, -, rfl⟩ := h
    refine ⟨b₂, ⟨st, st, ⟨rfl, rfl⟩, ?_⟩, .inl rfl⟩
    rw [if_neg hplan]
    simp only [horig]
    exact run_bind.mpr ⟨(), _, commitEvent_run.mpr rfl, rfl⟩
  | some origin =>
    simp only [horig, run_ite] at h
    split at h
    · obtain ⟨hb, -⟩ := run_pure.mp h
      cases hb
    · simp only [run_bind, run_pure] at h
      obtain ⟨u, _, h, -, rfl⟩ := h
      refine ⟨b₂.take origin.size, ⟨st, st, ⟨rfl, rfl⟩, ?_⟩, .inr ⟨origin, hp, rfl, rfl⟩⟩
      rw [if_neg hplan]
      simp only [horig, hcan origin hp horig, Bool.not_true, Bool.false_eq_true, if_false]
      exact run_bind.mpr ⟨u, _, h, rfl⟩

/-- An item whose plan gives nothing up does not look at the budget. -/
theorem applyOne_quiet {cons : Option SettleConsumer} {row : Option SettleRow}
    (hq : ∀ c plan, cons = some c → planSettle (settleRequest env n it c row) env.now = .ok plan →
      plan.action ≠ .dead) :
    ∃ x : Tx ItemResult, ∀ budget, applyOne env n budget it cons row = (do let r ← x; return (r, budget)) := by
  have hreject : ∀ (y : Tx Unit) (res : ItemResult), ∃ x : Tx ItemResult, ∀ budget : DeadBudget,
      (do y; return (res, budget) : Tx (ItemResult × DeadBudget)) = (do let r ← x; return (r, budget)) := fun y res =>
    ⟨do y; return res, fun _ => by rw [bind_assoc]; rfl⟩
  cases cons with
  | none => exact ⟨pure _, fun _ => rfl⟩
  | some c =>
    cases hplan : planSettle (settleRequest env n it c row) env.now with
    | error e =>
      simp only [applyOne, hplan]
      exact ⟨pure _, fun _ => rfl⟩
    | ok plan =>
      have hnot := hq c plan rfl hplan
      simp only [applyOne, hplan, applyPlan]
      cases hs : plan.status with
      | ok =>
        cases row with
        | none => exact ⟨pure _, fun _ => rfl⟩
        | some row =>
          simp only [applyAction]
          cases hact : plan.action with
          | dead => exact absurd hact hnot
          | noop => exact ⟨pure _, fun _ => rfl⟩
          | ack => exact ⟨_, fun _ => rfl⟩
          | release => exact ⟨_, fun _ => rfl⟩
          | extend => exact ⟨_, fun _ => rfl⟩
      | unknown => exact ⟨pure _, fun _ => rfl⟩
      | _ => exact hreject _ _

/-- The item gives a delivery up whose message is copied. -/
theorem copyOf_of_dead {c : ConsumerRow} {d : DeliveryRow} {plan : SettlePlan} {m : MessageRow} (hs : st₀.Sound)
    (hc : st₀.consumers.find? (it.token.stream, it.token.consumer) = some c)
    (hd : st₀.deliveries.find? it.token.row = some d)
    (hplan : planSettle (settleRequest env n it (.ofRow c) (some (.ofRow st₀ d))) env.now = .ok plan)
    (hdead : plan.action = .dead) (hp : st₀.deadPolicyOf it.token.stream it.token.consumer = .dlq)
    (hm : st₀.messages.find? (it.token.stream, it.token.seq) = some m) : st₀.copyOf it = some m := by
  rcases planSettle_cases hplan with ⟨-, hnoop⟩ | ⟨view, hview, hgen, hatt, hgrant⟩
  · rw [hdead] at hnoop
    cases hnoop
  obtain rfl : (SettleRow.ofRow st₀ d).view = view := Option.some.inj hview
  have hcopies := copies_of_dying hs (.refl st₀) (fun _ _ _ h => .inl h) hc hd hgen hatt (hgrant.dead hdead).2 hp hm
  have hends := (planSettle_ends rfl hatt).mp ⟨plan, hplan, .inr hdead⟩
  rw [Store.copyOf, if_neg, hcopies.copied]
  rintro ⟨hv, hany⟩
  cases hx : it.delay with
  | none =>
    rw [hx] at hany
    cases hany
  | some x =>
    rw [hx] at hany
    have hout : x < 0 ∨ maxNakDelay < x := of_decide_eq_true hany
    have hin := hends.2.2 hv x hx
    omega

end Copies

/-! ## What other items leave alone -/

section Frame

variable {env : Env} {st₀ st st' : Store}

/-- The message of a delivery row stays while a batch runs. -/
theorem message_kept (hs : st₀.Sound) (ha : Acts env .delivery st₀ st) {k : Bytes × Bytes × ℤ}
    (hrow : st.deliveries.find? k ≠ none) : st.messages.find? (k.1, k.2.2) = st₀.messages.find? (k.1, k.2.2) := by
  obtain ⟨es, -, hb⟩ := Acts.burials hs ha
  refine Option.ext fun m => ⟨origin_before hs (Acts.moves ha).background hb hrow, fun hm => ?_⟩
  rw [hb.rest]
  · exact hm
  · intro hc
    obtain ⟨e, he, hcopy⟩ := List.mem_filterMap.mp hc
    exact absurd ((hb.interred e he _ hcopy).fresh.symm.trans hm) nofun

/-- **The snapshot.** An item whose row was left alone is loaded now as it was loaded up front. -/
theorem load_eq (hs : st₀.Sound) (ha : Acts env .delivery st₀ st)
    (hrow : st.deliveries.find? it.token.row = st₀.deliveries.find? it.token.row) :
    Prepared.load st it = Prepared.load st₀ it := by
  have hcons := (Acts.moves ha).background.consumers
  rw [Prepared.load, Prepared.load, hcons, hrow]
  cases hd : st₀.deliveries.find? it.token.row with
  | none => rfl
  | some d =>
    have hk : d.key = it.token.row := find?_key hd
    have hm := message_kept hs ha (k := d.key) (by rw [hk, hrow, hd]; simp)
    have hm : st.messages.find? (d.stream, d.seq) = st₀.messages.find? (d.stream, d.seq) := hm
    simp only [Option.map_some, SettleRow.ofRow, hm]

theorem scans_iff (ha : Acts env .delivery st₀ st)
    (hrow : st.deliveries.find? it.token.row = st₀.deliveries.find? it.token.row) : st.Scans it ↔ st₀.Scans it := by
  rw [Store.Scans, Store.Scans, (Acts.moves ha).background.consumers, hrow]

/-- **The budget.** An item runs alike under every budget that has its copy left, and pays for that copy or for none. -/
theorem settleStep_swap (hs : st₀.Sound) (ha : Acts env .delivery st₀ st)
    (hrow : st.deliveries.find? it.token.row = st₀.deliveries.find? it.token.row)
    (hcan : ∀ m, st₀.copyOf it = some m → b₂.canCopy m.size = true)
    (h : settleStep env n b₁ (.load st₀ it) st = .ok ((r, b), st')) :
    ∃ b', settleStep env n b₂ (.load st₀ it) st = .ok ((r, b'), st') ∧
      (b' = b₂ ∨ ∃ m, st₀.copyOf it = some m ∧ b' = b₂.take m.size) := by
  by_cases hdying : ∃ c d plan, st₀.consumers.find? (it.token.stream, it.token.consumer) = some c ∧
      st₀.deliveries.find? it.token.row = some d ∧
      planSettle (settleRequest env n it (.ofRow c) (some (.ofRow st₀ d))) env.now = .ok plan ∧ plan.action = .dead
  · obtain ⟨c, d, plan, hc, hd, hplan, hdead⟩ := hdying
    have hgrant : plan.Grants (settleRequest env n it (.ofRow c) (some (.ofRow st₀ d)))
        (SettleRow.ofRow st₀ d).view := by
      rcases planSettle_cases hplan with ⟨-, hnoop⟩ | ⟨view, hview, -, -, hgrant⟩
      · rw [hdead] at hnoop
        cases hnoop
      · obtain rfl : (SettleRow.ofRow st₀ d).view = view := Option.some.inj hview
        exact hgrant
    -- what the sink finds is what the batch found
    have hcopy : ∀ m, st.deadPolicyOf it.token.stream it.token.consumer = .dlq →
        st.messages.find? (it.token.stream, it.token.seq) = some m → st₀.copyOf it = some m := fun m hp hm => by
      have hmsg := message_kept hs ha (k := it.token.row) (by rw [hrow, hd]; simp)
      rw [Store.deadPolicyOf, (Acts.moves ha).background.consumers] at hp
      exact copyOf_of_dead hs hc hd hplan hdead hp (hmsg.symm.trans hm)
    obtain ⟨res, hrun⟩ := applyOne_dead hplan hgrant hdead
    simp only [settleStep, Prepared.load, hc, hd, Option.map_some, hrun, run_bind, commitEvent_run, require_run,
      run_pure] at h ⊢
    obtain ⟨_, _, rfl, o, st₂, h₂, _, _, ⟨rfl, rfl⟩, _, st₃, h₃, hr, rfl⟩ := h
    cases hr
    obtain ⟨b', h₂', hpaid⟩ := deadLetter_swap h₂ fun m hp hm => hcan m (hcopy m hp hm)
    refine ⟨b', ⟨(), _, rfl, some b', st₂, h₂', b', st₂, ⟨rfl, rfl⟩, (), st₃, h₃, rfl, rfl⟩, ?_⟩
    rcases hpaid with hb | ⟨m, hp, hm, hb⟩
    · exact .inl hb
    · exact .inr ⟨m, hcopy m hp hm, hb⟩
  · have hquiet : ∀ cons plan, (st₀.consumers.find? (it.token.stream, it.token.consumer)).map .ofRow = some cons →
        planSettle (settleRequest env n it cons ((st₀.deliveries.find? it.token.row).map (.ofRow st₀)))
          env.now = .ok plan →
        plan.action ≠ .dead := fun cons plan hcons hplan hdead => by
      obtain ⟨c, hc, rfl⟩ := Option.map_eq_some_iff.mp hcons
      cases hd : st₀.deliveries.find? it.token.row with
      | none =>
        rw [hd] at hplan
        rcases planSettle_cases hplan with ⟨-, hnoop⟩ | ⟨view, hview, -⟩
        · rw [hdead] at hnoop
          cases hnoop
        · cases hview
      | some d =>
        rw [hd] at hplan
        exact hdying ⟨c, d, plan, hc, hd, hplan, hdead⟩
    obtain ⟨x, hx⟩ := applyOne_quiet hquiet
    simp only [settleStep, Prepared.load, hx, run_bind, run_pure] at h ⊢
    obtain ⟨_, _, h, hr, rfl⟩ := h
    cases hr
    exact ⟨b₂, ⟨r, _, h, rfl, rfl⟩, .inl rfl⟩

end Frame

/-! ## The batch -/

section Batch

variable {env : Env} {budget : DeadBudget} {st₀ st st' : Store}

/-- What one item of a batch leaves to the items that are left: their rows, and a budget for their copies. -/
theorem settleStep_next (hs : st₀.Sound) (hatt : 1 ≤ it.token.attempt) (hdiff : ∀ x ∈ items, x.token.row ≠ it.token.row)
    (ha : Acts env .delivery st₀ st)
    (hrows : ∀ x ∈ it :: items, st.deliveries.find? x.token.row = st₀.deliveries.find? x.token.row)
    (hb : budget.Affords ((it :: items).filterMap st₀.copyOf))
    (h : settleStep env n budget (.load st₀ it) st = .ok ((r, b), st')) :
    Acts env .delivery st₀ st' ∧ (∀ x ∈ items, st'.deliveries.find? x.token.row = st₀.deliveries.find? x.token.row) ∧
      b.Affords (items.filterMap st₀.copyOf) := by
  have hone : Acts env .delivery st st' := by
    have hitems : settleItems env n budget [.load st₀ it] st = .ok ([r], st') :=
      settleItems_cons.mpr ⟨r, b, st', [], h, rfl, rfl⟩
    have hall : ∀ x ∈ [it], 1 ≤ x.token.attempt := by simpa using hatt
    exact acts_settleItems hall (Acts.moves ha) (.cons (.inr rfl) .nil) hitems
  refine ⟨ha.trans hone, fun x hx => ?_, hb.next ?_⟩
  · rw [← hrows x (List.mem_cons_of_mem _ hx)]
    rcases settleStep_cases (.inr rfl) h with ⟨-, hd, -⟩ | ⟨-, -, htouch⟩
    · rw [hd]
    · by_contra hne
      obtain ⟨d, hd, hf⟩ := htouch.fenced _ hne
      have hk : d.key = x.token.row := find?_key hd
      exact hdiff x hx (hk.symm.trans (Token.fences_iff.mp hf).1)
  · have hcan : ∀ m, st₀.copyOf it = some m → budget.canCopy m.size = true := fun m hm => by
      rw [List.filterMap_cons_some hm] at hb
      exact hb.canCopy
    obtain ⟨b', h', hpaid⟩ := settleStep_swap hs ha (hrows it List.mem_cons_self) hcan h
    obtain rfl : b = b' := by
      have he := Except.ok.inj (h.symm.trans h')
      exact (Prod.mk.inj (Prod.mk.inj he).1).2
    exact hpaid

/-- The apply phase of a batch is the sequence of commands of one item. -/
theorem settleItems_iff_settleEach {rs : List ItemResult} (hs : st₀.Sound) (hatt : ∀ it ∈ items, 1 ≤ it.token.attempt)
    (hdiff : (items.map fun it => it.token.row).Nodup) (ha : Acts env .delivery st₀ st)
    (hrows : ∀ it ∈ items, st.deliveries.find? it.token.row = st₀.deliveries.find? it.token.row)
    (hb : budget.Affords (items.filterMap st₀.copyOf))
    (hfresh : (newDeadBudget env.opts.dlq).Affords (items.filterMap st₀.copyOf)) :
    ((∀ it ∈ items, st₀.Scans it) ∧ settleItems env n budget (items.map (.load st₀)) st = .ok (rs, st')) ↔
      settleEach env n items st = .ok (rs, st') := by
  induction items generalizing n budget st rs with
  | nil => simp [settleItems, settleEach]
  | cons it items ih =>
    obtain ⟨hfirst, hdiff⟩ := List.nodup_cons.mp hdiff
    have hother : ∀ x ∈ items, x.token.row ≠ it.token.row := fun x hx he => hfirst (List.mem_map.mpr ⟨x, hx, he⟩)
    have hrow := hrows it List.mem_cons_self
    have hatt' : ∀ x ∈ items, 1 ≤ x.token.attempt := fun x hx => hatt x (List.mem_cons_of_mem _ hx)
    have hcan : ∀ {b : DeadBudget}, b.Affords ((it :: items).filterMap st₀.copyOf) →
        ∀ m, st₀.copyOf it = some m → b.canCopy m.size = true := fun h m hm => by
      rw [List.filterMap_cons_some hm] at h
      exact h.canCopy
    have hfresh' : (newDeadBudget env.opts.dlq).Affords (items.filterMap st₀.copyOf) := hfresh.next (.inl rfl)
    -- the item as a command of its own
    have hsingle : ∀ r st₁, settle (env.onward n) [it] st = .ok (r, st₁) ↔ st₀.Scans it ∧ ∃ res b,
        settleStep env n (newDeadBudget env.opts.dlq) (.load st₀ it) st = .ok ((res, b), st₁) ∧ r = tally [res] := by
      intro r st₁
      rw [settle_single, scans_iff ha hrow, load_eq hs ha hrow, settleStep_onward]
      rfl
    simp only [settleEach, run_bind, run_pure, hsingle, List.map_cons, settleItems_cons, List.forall_mem_cons]
    constructor
    · rintro ⟨⟨hscan, hscans⟩, r, b, st₁, rs', hstep, hrest, rfl⟩
      obtain ⟨ha', hrows', hb'⟩ := settleStep_next hs (hatt it List.mem_cons_self) hother ha hrows hb hstep
      obtain ⟨b', hstep', -⟩ := settleStep_swap hs ha hrow (hcan hfresh) hstep
      exact ⟨tally [r], st₁, ⟨hscan, r, b', hstep', rfl⟩, rs', st',
        (ih hatt' hdiff ha' hrows' hb' hfresh').mp ⟨hscans, hrest⟩, rfl, rfl⟩
    · rintro ⟨_, st₁, ⟨hscan, r, b', hstep', rfl⟩, rs', _, hrest, rfl, rfl⟩
      obtain ⟨b, hstep, -⟩ := settleStep_swap hs ha hrow (hcan hb) hstep'
      obtain ⟨ha', hrows', hb'⟩ := settleStep_next hs (hatt it List.mem_cons_self) hother ha hrows hb hstep
      obtain ⟨hscans, hrest⟩ := (ih hatt' hdiff ha' hrows' hb' hfresh').mpr hrest
      exact ⟨⟨hscan, hscans⟩, r, b, st₁, rs', hstep, hrest, rfl⟩

end Batch

/-- Different rows are named by different token texts. -/
theorem strings_nodup {items : List ClientItem} (h : (items.map fun it => it.val.token.row).Nodup) :
    ((items.map Subtype.val).map fun it => it.token.string).Nodup := by
  rw [List.map_map]
  rw [List.Nodup, List.pairwise_map] at h ⊢
  refine h.imp fun {x y} hne he => hne ?_
  have hx := x.property
  have hy := y.property
  rw [Token.string_inj (Subject.validateName_no_slash hx.stream) (Subject.validateName_no_slash hx.consumer)
    (Subject.validateName_no_slash hy.stream) (Subject.validateName_no_slash hy.consumer) he]

/-- Between requests no event is carried. -/
theorem Runs.uncarried {h : List Visit} {b : Broker} (r : Runs h b) : { b.store with carriers := [] } = b.store := by
  refine r.invariant (C := fun _ _ => True) (I := fun _ b => { b.store with carriers := [] } = b.store)
    (fun _ _ _ _ => trivial) rfl fun _ b s ih _ => ?_
  rcases exec_cases b s with ⟨reply, st, hcom⟩ | ⟨hst, -⟩
  · rw [hcom.post]
  · rwa [hst]

/-- **Batches.** In every reachable state, at every time: a batch whose items name different rows and whose dead-letter
copies are within the budget of one command is answered exactly if its items are, one command after the other with the
same clock, jitter and identifiers; and then the answers and the whole store are the same. A batch that fails answers
nothing and leaves the store, while the commands of its items succeed up to one that fails. -/
theorem settle_iff_settleEach {h : List Visit} {b : Broker} (r : Runs h b) (env : Env) (items : List ClientItem)
    (hdiff : (items.map fun it => it.val.token.row).Nodup)
    (hcopies : (((items.map Subtype.val).filterMap b.store.copyOf).length : ℤ) ≤ env.opts.dlq.maxCopiesPerCommit)
    (hbytes : (copyBytes ((items.map Subtype.val).filterMap b.store.copyOf) : ℤ) ≤ env.opts.dlq.maxBytesPerCommit) :
    (∀ res st', settle env (items.map Subtype.val) b.store = .ok (res, st') ↔
      ∃ rs, settleEach env 0 (items.map Subtype.val) b.store = .ok (rs, st') ∧ res = tally rs) ∧
    ∀ e, settle env (items.map Subtype.val) b.store = .error e →
      ((b.exec ⟨env, .settle items⟩).1.store = b.store ∧ ∀ reply es, (b.exec ⟨env, .settle items⟩).2 ≠ .ok reply es) ∧
      ∃ before it after rs st₁ e', items.map Subtype.val = before ++ it :: after ∧
        settleEach env 0 before b.store = .ok (rs, st₁) ∧ settle (env.onward before.length) [it] st₁ = .error e' := by
  have hbudget : (newDeadBudget env.opts.dlq).Affords ((items.map Subtype.val).filterMap b.store.copyOf) :=
    ⟨hcopies, hbytes⟩
  have hatt : ∀ it ∈ items.map Subtype.val, 1 ≤ it.token.attempt := fun it hit => by
    obtain ⟨x, -, rfl⟩ := List.mem_map.mp hit
    exact x.property.attempt.1
  have hiff : ∀ res st', settle env (items.map Subtype.val) b.store = .ok (res, st') ↔
      ∃ rs, settleEach env 0 (items.map Subtype.val) b.store = .ok (rs, st') ∧ res = tally rs := fun res st' => by
    have heach : ∀ rs, _ ↔ settleEach env 0 (items.map Subtype.val) b.store = .ok (rs, st') := fun rs =>
      settleItems_iff_settleEach r.sound hatt (by rwa [List.map_map]) .refl (fun _ _ => rfl) hbudget hbudget
    simp only [settle_run, prepare_iff (fun _ _ => List.not_mem_nil) (strings_nodup hdiff), ← heach]
    constructor
    · rintro ⟨_, rs, ⟨hscans, rfl, -⟩, hitems, rfl⟩
      exact ⟨rs, ⟨hscans, hitems⟩, rfl⟩
    · rintro ⟨rs, ⟨hscans, hitems⟩, rfl⟩
      exact ⟨_, rs, ⟨hscans, rfl, trivial⟩, hitems, rfl⟩
  refine ⟨hiff, fun e he => ⟨?_, ?_⟩⟩
  · rcases exec_cases b ⟨env, .settle items⟩ with ⟨reply, st, hcom⟩ | ⟨hst, -, -, hno⟩
    · obtain ⟨res, hrun, -⟩ := run_map.mp hcom.run
      rw [r.uncarried] at hrun
      cases he.symm.trans hrun
    · exact ⟨hst, hno⟩
  · have hstops : ∀ p, settleEach env 0 (items.map Subtype.val) b.store ≠ .ok p := fun p hseq => by
      cases he.symm.trans ((hiff _ _).mpr ⟨p.1, hseq, rfl⟩)
    obtain ⟨before, it, after, rs, st₁, e', hitems, hbefore, hit⟩ := settleEach_stops hstops
    exact ⟨before, it, after, rs, st₁, e', hitems, hbefore, by rwa [Nat.zero_add] at hit⟩

/-- An ack, a nak and a term of three held rows, and an ack of a row that does not exist yet. -/
def fourItems : List ClientItem :=
  [anItem .ack 1 1 1, anItem .nak 2 1 1, anItem .term 3 1 1,
    anItem .ack 9 1 1]

def fetchedThree : List (ℤ × Request) := aSetup 3 ++ [(10, aFetch 10)]

theorem settle_iff_settleEach_fourItems : ∃ rs st',
    settleEach (.atMs 20) 0 (fourItems.map Subtype.val) (playState fetchedThree).store = .ok (rs, st') ∧
    rs.map ItemResult.status = [.ok, .ok, .ok, .unknown] ∧
    st'.messages.find? (dlqName aStream, 1) ≠ none ∧
    settle (.atMs 20) (fourItems.map Subtype.val) (playState fetchedThree).store = .ok (tally rs, st') := by
  have hrun : (settleEach (.atMs 20) 0 (fourItems.map Subtype.val)
      (playState fetchedThree).store).toOption.map (fun p =>
      (p.1.map ItemResult.status, (p.2.messages.find? (dlqName aStream, 1)).isSome)) =
      some ([.ok, .ok, .ok, .unknown], true) := by decide +kernel
  obtain ⟨⟨rs, st'⟩, h, hp⟩ := ok_of_map hrun
  obtain ⟨hs, hm⟩ := Prod.mk.inj hp
  refine ⟨rs, st', h, hs, Option.isSome_iff_ne_none.mp hm, ?_⟩
  exact (settle_iff_settleEach (runs_play fetchedThree) _ fourItems (by decide) (by decide +kernel)
    (by decide +kernel)).1
    _ _ |>.mpr ⟨rs, h, rfl⟩

/-! ## A batch with a failing item -/

/-- After the partial purge message 3 is published and delivered under the new generation; row 2 keeps the old one. -/
def splitGenerations : List (ℤ × Request) :=
  partialPurge ++ [(12, aPublish),
    (13, aFetch 10)]

/-- The ack of row 3, which its fence accepts, and the ack of row 2, which the fence does not. -/
def halfFaulty : List ClientItem := [anItem .ack 3 1 2, staleRowAck]

/-- The rows are different and nothing is copied, yet the batch is not the sequence: the failing item takes the ack
before it along, which as a command of its own is answered and deletes its row. -/
theorem failing_item_aborts_batch :
    Runs (play splitGenerations) (playState splitGenerations) ∧
    (halfFaulty.map fun it => it.val.token.row).Nodup ∧
    (halfFaulty.map Subtype.val).filterMap (playState splitGenerations).store.copyOf = [] ∧
    (faultOf (settle (.atMs 14) (halfFaulty.map Subtype.val) (playState splitGenerations).store)).isSome = true ∧
    ((playState (splitGenerations ++ [(14, .settle halfFaulty)])).store.deliveries.find?
      (aStream, aConsumer, 3)).isSome = true ∧
    (settle (.atMs 14) ((halfFaulty.take 1).map Subtype.val) (playState splitGenerations).store).toOption.map (fun p =>
      (p.1.results.map ItemResult.status, (p.2.deliveries.find? (aStream, aConsumer, 3)).isSome)) =
      some ([.ok], false) :=
  ⟨runs_play _, by decide, by decide +kernel⟩

end Messq

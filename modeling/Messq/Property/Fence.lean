import Messq.Run

/-! # What a settle batch may touch

Each item of a batch is decided against the snapshot loaded up front and applied behind the fence of its own
statement. `applyOne_cases` says what one item does, and `settle_touches_fenced` what a batch does, from any state and
for any tokens: it changes only rows named by items it answers `ok`, whose tokens carried the attempt of the row and
the generation of the row and of its consumer. -/

namespace Messq

open Lib Table

variable {b budget : DeadBudget} {env : Env} {r res : ItemResult} {rs : List ItemResult} {ps : List Prepared}
  {items : List SettleItem} {it : SettleItem} {st st' st₀ st₁ : Store} {t : Token} {u : Unit} {n : ℕ} {p : Prepared}

/-! ## One item -/

/-- What an item may do to the delivery rows: rows behind the fence of its token leave or are rewritten in place. -/
structure Touches (t : Token) (st st' : Store) : Prop where
  consumers : st'.consumers = st.consumers
  kept : ∀ k d', st'.deliveries.find? k = some d' →
    ∃ d, st.deliveries.find? k = some d ∧ d'.attempts = d.attempts ∧ d'.generation = d.generation
  fenced : ∀ k, st'.deliveries.find? k ≠ st.deliveries.find? k → ∃ d, st.deliveries.find? k = some d ∧ t.fences d = true

theorem Touches.of_rows (h : Touches t st₁ st') (hc : st₁.consumers = st.consumers)
    (hd : st₁.deliveries = st.deliveries) : Touches t st st' :=
  ⟨h.consumers.trans hc, hd ▸ h.kept, hd ▸ h.fenced⟩

theorem touches_fencedDelete (h : fencedDelete t st = .ok (u, st')) : Touches t st st' := by
  obtain ⟨-, rfl⟩ := fencedDelete_run h
  refine ⟨rfl, fun k d' hd' => ?_, fun k hk => ?_⟩
  · rw [find?_delete] at hd'
    cases hd : st.deliveries.find? k with
    | none => rw [hd] at hd'; cases hd'
    | some d =>
      rw [hd] at hd'
      obtain rfl : d = d' := by
        simp only [Option.filter_some] at hd'
        split at hd' <;> simp_all
      exact ⟨d, rfl, rfl, rfl⟩
  · rw [find?_delete] at hk
    cases hd : st.deliveries.find? k with
    | none => simp [hd] at hk
    | some d =>
      refine ⟨d, rfl, Classical.byContradiction fun hf => hk ?_⟩
      simp [hd, hf]

theorem touches_fencedUpdate {extra : DeliveryRow → Bool} {f : DeliveryRow → DeliveryRow} {hf}
    (h : fencedUpdate t extra f hf st = .ok (u, st'))
    (ha : ∀ d, (f d).attempts = d.attempts ∧ (f d).generation = d.generation) : Touches t st st' := by
  obtain ⟨-, rfl⟩ := fencedUpdate_run h
  have hfind := find?_update st.deliveries (fun d => t.fences d && extra d) f (fun d _ => hf d)
  refine ⟨rfl, fun k d' hd' => ?_, fun k hk => ?_⟩
  · rw [hfind] at hd'
    obtain ⟨d, hd, rfl⟩ := Option.map_eq_some_iff.mp hd'
    refine ⟨d, hd, ?_⟩
    split
    · exact ha d
    · exact ⟨rfl, rfl⟩
  · rw [hfind] at hk
    cases hd : st.deliveries.find? k with
    | none => simp [hd] at hk
    | some d =>
      refine ⟨d, rfl, Classical.byContradiction fun hf => hk ?_⟩
      simp [hd, hf]

/-- A rejection writes events and its repeat limiter, nothing else. -/
theorem rejectionEvent_run {name : EventName} {reason : RejectReason}
    (h : rejectionEvent env t name reason res st = .ok (u, st')) :
    ∃ events carriers limiter, st' = { st with events := events, carriers := carriers, limiter := limiter } := by
  simp only [rejectionEvent, run_bind] at h
  obtain ⟨o, st₁, h₁, h₂⟩ := h
  have hdue : ∃ limiter, st₁ = { st with limiter := limiter } := by
    simp only [rejectionDue, run_get_bind] at h₁
    rw [run_ite] at h₁
    split at h₁ <;>
    · simp only [run_set_bind, run_pure] at h₁
      obtain ⟨-, rfl⟩ := h₁
      exact ⟨_, rfl⟩
  obtain ⟨limiter, rfl⟩ := hdue
  cases o with
  | none =>
    obtain ⟨-, rfl⟩ := run_pure.mp h₂
    exact ⟨_, _, limiter, rfl⟩
  | some suppressed =>
    obtain rfl := commitEvent_run.mp h₂
    exact ⟨_, _, limiter, rfl⟩

theorem Turned.frame (h : Turned env t st st') :
    st'.deliveries = st.deliveries ∧ st'.messages = st.messages ∧ st'.consumers = st.consumers := by
  rcases h with rfl | ⟨name, reason, res, u, -, h⟩
  · exact ⟨rfl, rfl, rfl⟩
  · obtain ⟨_, _, _, rfl⟩ := rejectionEvent_run h
    exact ⟨rfl, rfl, rfl⟩

theorem Acted.touches {cons : SettleConsumer} {row : SettleRow} {plan : SettlePlan} {reason : Bytes}
    (ha : plan.action ≠ .noop) (h : Acted env budget it cons row plan reason st b st') : Touches it.token st st' := by
  cases h with
  | noop hno => exact absurd hno ha
  | ack _ _ h =>
    have ht := touches_fencedDelete h
    exact ⟨ht.consumers, ht.kept, ht.fenced⟩
  | extend _ _ h =>
    have ht := touches_fencedUpdate h fun _ => ⟨rfl, rfl⟩
    exact ⟨ht.consumers, ht.kept, ht.fenced⟩
  | release _ _ h hend =>
    have ht := touches_fencedUpdate h fun _ => ⟨rfl, rfl⟩
    rcases hend with rfl | ⟨-, rfl⟩
    · exact ⟨ht.consumers, ht.kept, ht.fenced⟩
    · exact ht
  | dead _ _ _ _ hsink h =>
    obtain ⟨hd, hc⟩ := deadLetter_frame hsink
    exact (touches_fencedDelete h).of_rows hc hd

/-- **One item.** An item that is not answered `ok` leaves the tables alone; one that is changes rows behind the
fence of its token, which names the consumer's generation. -/
theorem applyOne_cases {cons : Option SettleConsumer} {row : Option SettleRow}
    (h : applyOne env n budget it cons row st = .ok ((r, b), st')) :
    (r.status ≠ .ok ∧ st'.deliveries = st.deliveries ∧ st'.messages = st.messages ∧ st'.consumers = st.consumers) ∨
    (r.status = .ok ∧ (∃ c, cons = some c ∧ c.generation = it.token.generation) ∧ Touches it.token st st') := by
  cases applyOne_answered h with
  | rejected hr _ h => exact .inl ⟨hr, h.frame⟩
  | granted hc _ _ hgen _ hgrant hr h => exact .inr ⟨hr, ⟨_, hc, hgen.symm⟩, h.touches hgrant.action⟩

/-! ## The batch -/

/-- One step of the apply phase. -/
def settleStep (env : Env) (n : ℕ) (budget : DeadBudget) : Prepared → Tx (ItemResult × DeadBudget)
  | .repeated it => return (⟨it.token, .stale, 0, 0, 0, 0, 0, false, false, 0, none⟩, budget)
  | .loaded it cons row => applyOne env n budget it cons row

theorem settleItems_cons : settleItems env n budget (p :: ps) st = .ok (rs, st') ↔
      ∃ r budget' st₁ rs', settleStep env n budget p st = .ok ((r, budget'), st₁) ∧
        settleItems env (n + 1) budget' ps st₁ = .ok (rs', st') ∧ rs = r :: rs' := by
  cases p with
  | repeated it =>
    simp only [settleItems, settleStep, run_bind, run_pure]
    constructor
    · rintro ⟨rs', _, h, rfl, rfl⟩
      exact ⟨_, budget, st, rs', ⟨rfl, rfl⟩, h, rfl⟩
    · rintro ⟨r, budget', st₁, rs', ⟨hr, rfl⟩, h, rfl⟩
      cases hr
      exact ⟨rs', _, h, rfl, rfl⟩
  | loaded it cons row =>
    simp only [settleItems, settleStep, run_bind, run_pure]
    constructor
    · rintro ⟨⟨r, budget'⟩, st₁, h₁, rs', _, h, rfl, rfl⟩
      exact ⟨r, budget', st₁, rs', h₁, h, rfl⟩
    · rintro ⟨r, budget', st₁, rs', h₁, h, rfl⟩
      exact ⟨(r, budget'), st₁, h₁, rs', _, h, rfl, rfl⟩

/-- What the step of a loaded or repeated item does. -/
theorem settleStep_cases (hp : p = .repeated it ∨ p = .load st₀ it)
    (h : settleStep env n budget p st = .ok ((r, b), st')) :
    (r.status ≠ .ok ∧ st'.deliveries = st.deliveries ∧ st'.messages = st.messages ∧ st'.consumers = st.consumers) ∨
    (r.status = .ok ∧ (∃ c, st₀.consumers.find? (it.token.stream, it.token.consumer) = some c ∧
      c.generation = it.token.generation) ∧ Touches it.token st st') := by
  rcases hp with rfl | rfl
  · obtain ⟨hr, rfl⟩ := run_pure.mp h
    cases hr
    exact .inl ⟨by simp, rfl, rfl, rfl⟩
  · refine (applyOne_cases h).imp_right fun ⟨hs, ⟨c, hc, hgen⟩, ht⟩ => ⟨hs, ?_, ht⟩
    obtain ⟨c', hc', rfl⟩ := Option.map_eq_some_iff.mp hc
    exact ⟨c', hc', hgen⟩

/-- An item of the batch whose `ok` answer accounts for a change of row `k`. -/
structure Accounts (items : List SettleItem) (rs : List ItemResult) (st₀ st : Store) (k : Bytes × Bytes × ℤ)
    (it : SettleItem) (r : ItemResult) (d : DeliveryRow) (c : ConsumerRow) : Prop where
  mem : (it, r) ∈ items.zip rs
  ok : r.status = .ok
  row : it.token.row = k
  before : st.deliveries.find? k = some d
  consumer : st₀.consumers.find? (k.1, k.2.1) = some c
  attempt : it.token.attempt = d.attempts
  generation : it.token.generation = d.generation
  current : it.token.generation = c.generation

theorem settleItems_accounts (hp : List.Forall₂ (fun it p => p = .repeated it ∨ p = .load st₀ it) items ps)
    (h : settleItems env n budget ps st = .ok (rs, st')) :
    rs.length = items.length ∧ ∀ k, st'.deliveries.find? k ≠ st.deliveries.find? k →
      ∃ it r d c, Accounts items rs st₀ st k it r d c := by
  induction hp generalizing n budget rs st with
  | nil =>
    obtain ⟨rfl, rfl⟩ := run_pure.mp h
    exact ⟨rfl, fun k hk => absurd rfl hk⟩
  | @cons it p items ps hp hps ih =>
    obtain ⟨r, budget', st₁, rs', hone, hrest, rfl⟩ := settleItems_cons.mp h
    obtain ⟨hlen, hacc⟩ := ih hrest
    refine ⟨by simp [hlen], fun k hk => ?_⟩
    have hsplit := settleStep_cases hp hone
    by_cases hfirst : st₁.deliveries.find? k = st.deliveries.find? k
    · -- the row was still as it was when the rest of the batch changed it
      rw [← hfirst] at hk
      obtain ⟨it', r', d, c, ha⟩ := hacc k hk
      exact ⟨it', r', d, c, ⟨List.mem_cons_of_mem _ ha.mem, ha.ok, ha.row, hfirst ▸ ha.before, ha.consumer, ha.attempt,
        ha.generation, ha.current⟩⟩
    · rcases hsplit with ⟨-, hd, -⟩ | ⟨hok, ⟨c, hc, hgen⟩, ht⟩
      · exact absurd (by rw [hd]) hfirst
      · obtain ⟨d, hd, hf⟩ := ht.fenced k hfirst
        obtain ⟨hkey, hatt, hg⟩ := Token.fences_iff.mp hf
        have hrow : it.token.row = k := hkey.symm.trans (find?_key hd)
        exact ⟨it, r, d, c, ⟨List.mem_cons_self, hok, hrow, hd, hrow ▸ hc, hatt.symm, hg.symm, hgen.symm⟩⟩

/-- The batch up to an item runs as it does within the whole. -/
theorem settleItems_append {ps' : List Prepared} (h : settleItems env n budget (ps ++ ps') st = .ok (rs, st')) :
    ∃ rs₁ rs₂ budget' st₁, rs = rs₁ ++ rs₂ ∧ rs₁.length = ps.length ∧ settleItems env n budget ps st = .ok (rs₁, st₁) ∧
      settleItems env (n + ps.length) budget' ps' st₁ = .ok (rs₂, st') := by
  induction ps generalizing n budget rs st with
  | nil => exact ⟨[], rs, budget, st, rfl, rfl, rfl, h⟩
  | cons p ps ih =>
    obtain ⟨r, b, st₁, rs', hone, hrest, rfl⟩ := settleItems_cons.mp h
    obtain ⟨rs₁, rs₂, budget', st₂, rfl, hlen, h₁, h₂⟩ := ih hrest
    refine ⟨r :: rs₁, rs₂, budget', st₂, rfl, by simp [hlen],
      settleItems_cons.mpr ⟨r, b, st₁, rs₁, hone, h₁, rfl⟩, ?_⟩
    rw [List.length_cons, ← Nat.add_assoc, Nat.add_right_comm]
    exact h₂

theorem prepare_append {seen : List Bytes} {xs ys : List SettleItem} {st₂ : Store}
    (h : prepare st seen (xs ++ ys) st₁ = .ok (ps, st₂)) :
    ∃ ps₁ ps₂, ps = ps₁ ++ ps₂ ∧ ps₁.length = xs.length ∧ prepare st seen xs st₁ = .ok (ps₁, st₂) := by
  induction xs generalizing seen ps st₁ with
  | nil =>
    obtain ⟨-, rfl⟩ := prepare_run h
    exact ⟨[], ps, rfl, rfl, rfl⟩
  | cons it xs ih =>
    by_cases hs : it.token.string ∈ seen
    · simp only [List.cons_append, prepare, if_pos hs, run_bind, run_pure] at h ⊢
      obtain ⟨ps', _, h, rfl, rfl⟩ := h
      obtain ⟨ps₁, ps₂, rfl, hlen, h⟩ := ih h
      exact ⟨_ :: ps₁, ps₂, rfl, by simp [hlen], ps₁, _, h, rfl, rfl⟩
    · simp only [List.cons_append, prepare, if_neg hs, run_bind, run_pure] at h ⊢
      obtain ⟨cons, s₁, h₁, row, s₂, h₂, ps', _, h, rfl, rfl⟩ := h
      obtain ⟨ps₁, ps₂, rfl, hlen, h⟩ := ih h
      exact ⟨_ :: ps₁, ps₂, rfl, by simp [hlen], cons, s₁, h₁, row, s₂, h₂, ps₁, _, h, rfl, rfl⟩

/-- The answer of a batch with its counters. -/
def tally (rs : List ItemResult) : SettleResult :=
  let ok := (rs.filter fun r => r.status == .ok || r.status == .stale).length
  ⟨rs, ok, rs.length - ok⟩

theorem settle_run {r : SettleResult} :
    settle env items st = .ok (r, st') ↔ ∃ ps rs, prepare st [] items st = .ok (ps, st) ∧
      settleItems env 0 (newDeadBudget env.opts.dlq) ps st = .ok (rs, st') ∧ r = tally rs := by
  simp only [settle, run_bind, run_get, run_pure]
  constructor
  · rintro ⟨_, _, ⟨rfl, rfl⟩, ps, _, h₁, rs, _, h₂, rfl, rfl⟩
    obtain ⟨-, rfl⟩ := prepare_run h₁
    exact ⟨ps, rs, h₁, h₂, rfl⟩
  · rintro ⟨ps, rs, h₁, h₂, rfl⟩
    exact ⟨_, _, ⟨rfl, rfl⟩, ps, st, h₁, rs, st', h₂, rfl, rfl⟩

/-- A batch answers every item, and every row it changes is accounted for by one of them. -/
theorem settle_accounts {r : SettleResult} (h : settle env items st = .ok (r, st')) : r.results.length = items.length ∧
      ∀ k, st'.deliveries.find? k ≠ st.deliveries.find? k → ∃ it res d c,
        Accounts items r.results st st k it res d c := by
  obtain ⟨ps, rs, hprep, hitems, rfl⟩ := settle_run.mp h
  exact settleItems_accounts (prepare_run hprep).1 hitems

/-- The batch before an item and the batch up to it, against the item's answer. -/
structure ItemFrame (env : Env) (st : Store) (before : List SettleItem) (it : SettleItem) (rs : List ItemResult)
    (r : ItemResult) (r₁ : SettleResult) (st₁ : Store) (r₂ : SettleResult) (st₂ : Store) : Prop where
  without : settle env before st = .ok (r₁, st₁) ∧ r₁.results = rs
  upTo : settle env (before ++ [it]) st = .ok (r₂, st₂) ∧ r₂.results = rs ++ [r]
  still : r.status ≠ .ok →
    st₂.deliveries = st₁.deliveries ∧ st₂.messages = st₁.messages ∧ st₂.consumers = st₁.consumers

theorem settle_itemFrame {before after : List SettleItem} {r : SettleResult}
    (h : settle env (before ++ it :: after) st = .ok (r, st')) {rs' : List ItemResult}
    (hr : r.results = rs ++ res :: rs') (hlen : rs.length = before.length) :
    ∃ r₁ st₁ r₂ st₂, ItemFrame env st before it rs res r₁ st₁ r₂ st₂ := by
  obtain ⟨ps, rs₀, hprep, hitems, rfl⟩ := settle_run.mp h
  rw [← List.singleton_append, ← List.append_assoc] at hprep
  obtain ⟨ps₂, ps₃, rfl, hlen₂, hprep₂⟩ := prepare_append hprep
  obtain ⟨ps₁, ps₁', rfl, hlen₁, hprep₁⟩ := prepare_append hprep₂
  obtain ⟨p, rfl⟩ : ∃ p, ps₁' = [p] := by
    rw [List.length_append, List.length_append, hlen₁] at hlen₂
    exact List.length_eq_one_iff.mp (Nat.add_left_cancel hlen₂)
  obtain ⟨rs₂, rs₃, -, st₂, hrs, hl₂, h₂, -⟩ := settleItems_append hitems
  obtain ⟨rs₁, rs₁', b, st₁, rfl, hl₁, h₁, hone⟩ := settleItems_append h₂
  obtain ⟨r₁, b', st₁', _, hstep, hnil, rfl⟩ := settleItems_cons.mp hone
  obtain ⟨rfl, rfl⟩ := run_pure.mp hnil
  -- the results of the prefix are the ones given
  obtain ⟨rfl, hcons⟩ := List.append_inj (hr.symm.trans (hrs.trans (List.append_assoc _ _ _))) (by omega)
  obtain rfl : res = r₁ := (List.cons.inj hcons).1
  have hcase : p = .repeated it ∨ p = .load st it := by
    obtain ⟨hall, -⟩ := prepare_run hprep₂
    have hlast := List.forall₂_drop_append _ _ _ hall
    rw [hlen₁, List.drop_left] at hlast
    exact (List.forall₂_cons.mp hlast).1
  refine ⟨tally rs, st₁, tally (rs ++ [res]), st₁', ⟨settle_run.mpr ⟨ps₁, rs, hprep₁, h₁, rfl⟩, rfl⟩,
    ⟨settle_run.mpr ⟨ps₁ ++ [p], _, hprep₂, h₂, rfl⟩, rfl⟩, fun hs => ?_⟩
  rcases settleStep_cases hcase hstep with ⟨-, hstill⟩ | ⟨hok, -⟩
  · exact hstill
  · exact absurd hok hs

/-- **The fence.** From any state and for any tokens, a batch changes only rows that an `ok` item names with the row's
attempt and the generation of row and consumer; every other item leaves the tables as it found them. -/
theorem settle_touches_fenced {env : Env} {items : List SettleItem} {r : SettleResult} {st st' : Store}
    (h : settle env items st = .ok (r, st')) :
    r.results.length = items.length ∧
    (∀ k, st'.deliveries.find? k ≠ st.deliveries.find? k → ∃ it res d c, Accounts items r.results st st k it res d c) ∧
    ∀ before it after rs res rs', items = before ++ it :: after → r.results = rs ++ res :: rs' →
      rs.length = before.length → ∃ r₁ st₁ r₂ st₂, ItemFrame env st before it rs res r₁ st₁ r₂ st₂ := by
  refine ⟨(settle_accounts h).1, (settle_accounts h).2, ?_⟩
  rintro before it after rs res rs' rfl hr hl
  exact settle_itemFrame h hr hl

/-- A consumer with rows 1 and 2 inflight. -/
def fetchedTwo : Store := (playState (aSetup 2 ++ [(10, aFetch 10)])).store

/-- An ack of row 1 and a term of row 2 under a generation that does not exist. -/
def mixedBatch : List SettleItem :=
  [{ token := ⟨aStream, aConsumer, 1, 1, 1⟩, verb := .ack },
   { token := ⟨aStream, aConsumer, 2, 1, 7⟩, verb := .term }]

theorem settle_touches_fenced_mixedBatch : ∃ r st',
    settle (.atMs 20) mixedBatch fetchedTwo = .ok (r, st') ∧
    r.results.map ItemResult.status = [.ok, .wrongGeneration] ∧
    st'.deliveries.find? (aStream, aConsumer, 1) = none ∧
    ∃ it res d c, Accounts mixedBatch r.results fetchedTwo fetchedTwo (aStream, aConsumer, 1) it res d c := by
  have hrun : (settle (.atMs 20) mixedBatch fetchedTwo).toOption.map (fun p =>
      (p.1.results.map ItemResult.status, (p.2.deliveries.find? (aStream, aConsumer, 1)).isNone)) =
      some ([.ok, .wrongGeneration], true) := by decide +kernel
  have hrow : (fetchedTwo.deliveries.find? (aStream, aConsumer, 1)).isSome = true := by decide +kernel
  obtain ⟨p, h, hp⟩ := ok_of_map hrun
  obtain ⟨hs, hn⟩ := Prod.mk.inj hp
  rw [Option.isNone_iff_eq_none] at hn
  refine ⟨p.1, p.2, h, hs, hn, (settle_touches_fenced h).2.1 _ ?_⟩
  rw [hn]
  exact fun hnone => by rw [← hnone] at hrow; cases hrow

end Messq

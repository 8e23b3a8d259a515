import Messq.Property.Settle

/-! # Honest acks

An ack that is answered `ok` or `stale` tells its client that the delivery is over. For the first use of a token that is
so: an `ok` ack deletes the row behind its fence, and a `stale` one found no row. A later use of the same token is
answered `stale` from the text of the batch, whatever became of the row. What became of it is decided by the first use
(`settleItems_holds`), so the answers of a batch are honest exactly if every repeated ack of a live row follows a first
use that ends it (`acks_honest`). -/

namespace Messq

open Lib Table

variable {row : RowView} {req : SettleRequest} {u : Unit} {now : ℤ} {b budget : DeadBudget} {env : Env} {r : ItemResult}
  {it : SettleItem} {t : Token} {n : ℕ}

/-! ## What ends a delivery -/

/-- The planner ends the delivery: an ack or a death under the consumer's generation; a nak with a delay in range. -/
def SettleRequest.Ends (req : SettleRequest) (row : RowView) : Prop :=
  req.token.generation = req.generation ∧ (req.verb = .ack ∨ req.GivesUp row) ∧
    (req.verb = .nak → ∀ x, req.nakDelay = some x → 0 ≤ x ∧ x ≤ maxNakDelay)

theorem releaseDelay_isOk (c : ConsumerConfig) (attempt : ℤ) {explicit : Option ℤ} (j : Jitter) :
    (∃ d, releaseDelay c attempt explicit j = .ok d) ↔ ∀ x, explicit = some x → 0 ≤ x ∧ x ≤ maxNakDelay := by
  unfold releaseDelay
  cases explicit with
  | none => simp
  | some d =>
    simp only [Option.some.injEq, forall_eq']
    split
    · rename_i hd
      exact ⟨fun ⟨_, h⟩ => (nomatch h), fun h => by omega⟩
    · rename_i hd
      exact ⟨fun _ => by omega, fun _ => ⟨d, rfl⟩⟩

theorem planNak_ends :
    (∃ plan, planNak req row now = .ok plan ∧ (plan.action = .ack ∨ plan.action = .dead)) ↔
      (row.state = .inflight ∧ 0 < req.config.maxDeliver ∧ req.config.maxDeliver ≤ row.attempts) ∧
        ∀ x, req.nakDelay = some x → 0 ≤ x ∧ x ≤ maxNakDelay := by
  rw [← releaseDelay_isOk req.config row.attempts req.jitter]
  constructor
  · rintro ⟨plan, h, ha⟩
    simp only [planNak, bind_eq_ok] at h
    obtain ⟨d, hd, h⟩ := h
    refine ⟨?_, d, hd⟩
    split at h
    · rename_i hb
      exact ⟨hb.1, by simpa using hb.2⟩
    · cases h
      rcases ha with ha | ha <;> cases ha
  · rintro ⟨⟨hs, hb⟩, d, hd⟩
    refine ⟨{ status := .ok, action := .dead, dead := true, cause := .maxDeliver }, ?_, .inr rfl⟩
    simp only [planNak, bind_eq_ok]
    exact ⟨d, hd, if_pos ⟨hs, by simpa using hb⟩⟩

/-- The planner deletes the row of a current attempt exactly if the item ends the delivery. -/
theorem planSettle_ends (hrow : req.row = some row) (hatt : req.token.attempt = row.attempts) :
    (∃ plan, planSettle req now = .ok plan ∧ (plan.action = .ack ∨ plan.action = .dead)) ↔ req.Ends row := by
  unfold planSettle SettleRequest.Ends SettleRequest.GivesUp
  by_cases hgen : req.token.generation = req.generation
  · simp only [hgen, ne_eq, not_true_eq_false, if_false, hrow, hatt, true_and]
    cases hv : req.verb with
    | ack => simp [planAck]
    | nak => simpa using planNak_ends
    | term => simp [planTerm]
    | extend =>
      simp only [reduceCtorEq, false_and, or_self, false_imp_iff, and_true, iff_false]
      rintro ⟨plan, h, ha⟩
      simp only [planExtend] at h
      split at h
      · cases h
        rcases ha with ha | ha <;> cases ha
      · rw [guard_eq_ok] at h
        cases h.2
        rcases ha with ha | ha <;> cases ha
  · simp only [hgen, ne_eq, not_false_eq_true, if_true, false_and, iff_false]
    rintro ⟨plan, h, ha⟩
    cases h
    rcases ha with ha | ha <;> cases ha

/-- The token fences a delivery row. -/
def Store.Holds (st : Store) (t : Token) : Prop := ∃ d, st.deliveries.find? t.row = some d ∧ t.fences d = true

/-- The item ends the delivery it names: it carries the consumer's generation and is an ack, a term, or a nak of a held
lease at its bound with a delay in range. -/
def Store.Finishes (st : Store) (it : SettleItem) : Prop :=
  ∃ c d, st.consumers.find? (it.token.stream, it.token.consumer) = some c ∧ st.deliveries.find? it.token.row = some d ∧
    it.token.generation = c.generation ∧
    (it.verb = .ack ∨ it.verb = .term ∨ it.verb = .nak ∧ d.state = .inflight ∧ c.AtBound d.attempts) ∧
    (it.verb = .nak → ∀ x, it.delay = some x → 0 ≤ x ∧ x ≤ maxNakDelay)

theorem finishes_iff {st : Store} {c : ConsumerRow} {d : DeliveryRow} (env : Env) (n : ℕ)
    (hc : st.consumers.find? (it.token.stream, it.token.consumer) = some c)
    (hd : st.deliveries.find? it.token.row = some d) : st.Finishes it ↔
      (settleRequest env n it (.ofRow c) (some (.ofRow st d))).Ends (SettleRow.ofRow st d).view := by
  constructor
  · rintro ⟨c', d', hc', hd', h⟩
    obtain rfl : c = c' := Option.some.inj (hc.symm.trans hc')
    obtain rfl : d = d' := Option.some.inj (hd.symm.trans hd')
    exact h
  · exact fun h => ⟨c, d, hc, hd, h⟩

/-! ## One item -/

section Item

variable {st₀ st st' : Store}

theorem holds_congr (h : st'.deliveries = st.deliveries) :
    st'.Holds t ↔ st.Holds t := by rw [Store.Holds, Store.Holds, h]

theorem not_holds_fencedDelete (h : fencedDelete t st = .ok (u, st')) : ¬ st'.Holds t := by
  obtain ⟨-, rfl⟩ := fencedDelete_run h
  rintro ⟨d, hd, hf⟩
  rw [find?_delete] at hd
  have hd := (Option.filter_eq_some_iff.mp hd).2
  rw [hf] at hd
  cases hd

theorem holds_fencedUpdate {extra : DeliveryRow → Bool} {f : DeliveryRow → DeliveryRow} {hf}
    (h : fencedUpdate t extra f hf st = .ok (u, st'))
    (ha : ∀ d, (f d).attempts = d.attempts ∧ (f d).generation = d.generation) (hst : st.Holds t) : st'.Holds t := by
  obtain ⟨-, rfl⟩ := fencedUpdate_run h
  obtain ⟨d, hd, hfence⟩ := hst
  have hkept : t.fences (f d) = true := by
    rw [Token.fences_iff] at hfence ⊢
    rwa [hf d, (ha d).1, (ha d).2]
  refine ⟨if (t.fences d && extra d) = true then f d else d, by rw [find?_update, hd]; rfl, ?_⟩
  split
  · exact hkept
  · exact hfence

/-- An action leaves a row behind the fence unless it ends the delivery. -/
theorem Acted.holds {cons : SettleConsumer} {row : SettleRow} {plan : SettlePlan} {reason : Bytes}
    (hst : st.Holds it.token) (h : Acted env budget it cons row plan reason st b st') :
    st'.Holds it.token ↔ ¬ (plan.action = .ack ∨ plan.action = .dead) := by
  cases h with
  | noop ha => exact iff_of_true hst (by simp [ha])
  | ack _ ha h =>
    have hno := not_holds_fencedDelete h
    exact iff_of_false hno (by simp [ha])
  | extend _ ha h =>
    have hst₁ := holds_fencedUpdate h (fun _ => ⟨rfl, rfl⟩) hst
    exact iff_of_true hst₁ (by simp [ha])
  | release _ ha h hend =>
    have hst₁ := holds_fencedUpdate h (fun _ => ⟨rfl, rfl⟩) hst
    rcases hend with rfl | ⟨-, rfl⟩ <;> exact iff_of_true hst₁ (by simp [ha])
  | dead _ _ ha _ _ h => exact iff_of_false (not_holds_fencedDelete h) (by simp [ha])

theorem Touches.holds_back {u : Token} (h : Touches u st st') : st'.Holds t → st.Holds t := fun ⟨d', hd', hf'⟩ => by
  obtain ⟨d, hd, ha, hg⟩ := h.kept _ d' hd'
  rw [Token.fences_iff, ha, hg] at hf'
  exact ⟨d, hd, Token.fences_iff.mpr ⟨find?_key hd, hf'.2⟩⟩

/-- An item that does not use the token leaves its row alone. -/
theorem settleStep_other {p : Prepared} (hp : p = .repeated it ∨ p = .load st₀ it) (hne : it.token ≠ t)
    (h : settleStep env n budget p st = .ok ((r, b), st')) : st'.Holds t ↔ st.Holds t := by
  rcases settleStep_cases hp h with ⟨-, hd, -⟩ | ⟨-, -, htouch⟩
  · exact holds_congr hd
  · refine ⟨htouch.holds_back, fun ⟨d, hd, hf⟩ => ⟨d, ?_, hf⟩⟩
    by_contra hdiff
    obtain ⟨d₁, hd₁, hu⟩ := htouch.fenced t.row fun he => hdiff (he.trans hd)
    obtain rfl : d = d₁ := Option.some.inj (hd.symm.trans hd₁)
    exact hne (fences_inj hu hf)

/-- **One item.** The first use of a token decides what becomes of the row it fences. -/
theorem settleStep_holds (hback : st.Holds it.token → st₀.Holds it.token)
    (h : settleStep env n budget (.load st₀ it) st = .ok ((r, b), st')) :
    st'.Holds it.token ↔ st.Holds it.token ∧ ¬ st₀.Finishes it := by
  by_cases hst : st.Holds it.token
  · obtain ⟨d, hd, hf⟩ := hback hst
    simp only [hst, true_and]
    have hends := fun c (hc : st₀.consumers.find? (it.token.stream, it.token.consumer) = some c) =>
      (finishes_iff env n hc hd).trans (@planSettle_ends _ _ env.now rfl (Token.fences_iff.mp hf).2.1.symm).symm
    cases applyOne_answered h with
    | rejected _ hnoop hturned =>
      refine iff_of_true ((holds_congr hturned.frame.1).mpr hst) fun hfin => ?_
      obtain ⟨c, _, hc, -⟩ := id hfin
      obtain ⟨plan, hplan, ha⟩ := (hends c hc).mp hfin
      rw [hnoop (.ofRow c) plan (by rw [hc]; rfl) (by rw [hd]; exact hplan)] at ha
      rcases ha with ha | ha <;> cases ha
    | granted hcons hrow hplan _ _ _ _ hacted =>
      obtain ⟨c, hc, rfl⟩ := Option.map_eq_some_iff.mp hcons
      rw [hd] at hplan
      have hplan : planSettle (settleRequest env n it (.ofRow c) (some (.ofRow st₀ d))) env.now = .ok _ := hplan
      rw [hacted.holds hst, hends c hc, hplan]
      simp
  · refine iff_of_false (fun hst' => hst ?_) fun h => hst h.1
    rcases settleStep_cases (.inr rfl) h with ⟨-, hd, -⟩ | ⟨-, -, htouch⟩
    · exact (holds_congr hd).mp hst'
    · exact htouch.holds_back hst'

end Item

/-! ## The batch -/

section Batch

variable {st₀ : Store} {items : List SettleItem} {seen : List Bytes} {ps : List Prepared} {st st₁ st₂ st' : Store}
  {rs : List ItemResult}

/-- The load phase, item by item. -/
theorem prepare_cons (h : prepare st₀ seen (it :: items) st₁ = .ok (ps, st₂)) :
    (it.token.string ∈ seen ∧ ∃ ps', ps = .repeated it :: ps' ∧ prepare st₀ seen items st₁ = .ok (ps', st₂)) ∨
    (it.token.string ∉ seen ∧ ∃ ps', ps = .load st₀ it :: ps' ∧
      prepare st₀ (it.token.string :: seen) items st₁ = .ok (ps', st₂)) := by
  simp only [prepare, run_ite] at h
  split at h
  · rename_i hseen
    simp only [run_bind, run_pure] at h
    obtain ⟨ps', _, h, rfl, rfl⟩ := h
    exact .inl ⟨hseen, ps', rfl, h⟩
  · rename_i hseen
    simp only [run_bind, run_pure] at h
    obtain ⟨cons, _, h₁, row, _, h₂, ps', _, h, rfl, rfl⟩ := h
    obtain ⟨rfl, rfl⟩ := loadSettleConsumer_run h₁
    obtain ⟨rfl, rfl⟩ := loadSettleRow_run h₂
    exact .inr ⟨hseen, ps', rfl, h⟩

/-- **The batch.** A row behind the fence of a token is still there after the batch unless the first use of the token
ends the delivery. -/
theorem settleItems_holds (hprep : prepare st₀ seen items st₁ = .ok (ps, st₂)) (hback : st.Holds t → st₀.Holds t)
    (h : settleItems env n budget ps st = .ok (rs, st')) :
    st'.Holds t ↔ st.Holds t ∧ ∀ u ∈ firstUses seen items, u.token = t → ¬ st₀.Finishes u := by
  induction items generalizing seen ps n budget st rs st₁ with
  | nil =>
    obtain ⟨rfl, -⟩ := run_pure.mp hprep
    obtain ⟨-, rfl⟩ := run_pure.mp h
    simp [firstUses]
  | cons it items ih =>
    rcases prepare_cons hprep with ⟨hseen, ps', rfl, hload⟩ | ⟨hseen, ps', rfl, hload⟩
    · obtain ⟨r, b, _, rs', hstep, hrest, rfl⟩ := settleItems_cons.mp h
      obtain ⟨hr, rfl⟩ := run_pure.mp hstep
      rw [firstUses, if_pos hseen]
      exact ih hload hback hrest
    · obtain ⟨r, b, sta, rs', hstep, hrest, rfl⟩ := settleItems_cons.mp h
      rw [firstUses, if_neg hseen]
      simp only [List.forall_mem_cons]
      by_cases ht : it.token = t
      · -- the token is met here, and not again
        subst ht
        have hone := settleStep_holds hback hstep
        have hlater : ∀ u ∈ firstUses (it.token.string :: seen) items, u.token = it.token → ¬ st₀.Finishes u :=
          fun u hu he => absurd (he ▸ List.mem_cons_self) (mem_firstUses hu).2
        rw [ih hload (fun hst => hback (hone.mp hst).1) hrest, hone]
        exact ⟨fun ⟨⟨hst, hf⟩, hl⟩ => ⟨hst, fun _ => hf, hl⟩, fun ⟨hst, hf, hl⟩ => ⟨⟨hst, hf rfl⟩, hl⟩⟩
      · have hone := settleStep_other (.inr rfl) ht hstep
        rw [ih hload (fun hst => hback (hone.mp hst)) hrest, hone]
        exact ⟨fun ⟨hst, hl⟩ => ⟨hst, fun he => absurd he ht, hl⟩, fun ⟨hst, _, hl⟩ => ⟨hst, hl⟩⟩

/-- The answer at a position: the text for a token met before, the item's own step otherwise. -/
theorem settleItems_answer {before after : List SettleItem} {rs₁ rs₂ : List ItemResult}
    (hprep : prepare st₀ seen (before ++ it :: after) st₁ = .ok (ps, st₂))
    (h : settleItems env n budget ps st = .ok (rs₁ ++ r :: rs₂, st')) (hlen : rs₁.length = before.length) :
    (it.token.string ∈ seen ++ before.map (fun u => u.token.string) → r.status = .stale) ∧
    (it.token.string ∉ seen ++ before.map (fun u => u.token.string) → it ∈ firstUses seen (before ++ it :: after) ∧
      ∃ m budget' b sta stb, settleStep env m budget' (.load st₀ it) sta = .ok ((r, b), stb)) := by
  induction before generalizing seen ps n budget st rs₁ st₁ with
  | nil =>
    obtain rfl := List.length_eq_zero_iff.mp hlen
    simp only [List.nil_append, List.map_nil, List.append_nil] at *
    rcases prepare_cons hprep with ⟨hseen, ps', rfl, hload⟩ | ⟨hseen, ps', rfl, hload⟩
    · obtain ⟨r', b, _, rs', hstep, hrest, he⟩ := settleItems_cons.mp h
      obtain ⟨hr, rfl⟩ := run_pure.mp hstep
      cases hr
      obtain ⟨rfl, -⟩ := List.cons.inj he
      exact ⟨fun _ => rfl, fun hn => absurd hseen hn⟩
    · obtain ⟨r', b, sta, rs', hstep, hrest, he⟩ := settleItems_cons.mp h
      obtain ⟨rfl, -⟩ := List.cons.inj he
      refine ⟨fun hs => absurd hs hseen, fun _ => ⟨?_, n, budget, b, st, sta, hstep⟩⟩
      rw [firstUses, if_neg hseen]
      exact List.mem_cons_self
  | cons x before ih =>
    obtain ⟨y, rs₁, rfl⟩ : ∃ y ys, rs₁ = y :: ys := List.exists_cons_of_length_pos (by simp [hlen])
    have hlen : rs₁.length = before.length := by simpa using hlen
    rcases prepare_cons hprep with ⟨hseen, ps', rfl, hload⟩ | ⟨hseen, ps', rfl, hload⟩
    · obtain ⟨r', b, sta, rs', hstep, hrest, he⟩ := settleItems_cons.mp h
      obtain ⟨-, rfl⟩ := List.cons.inj he
      have hx := ih hload hrest hlen
      rw [List.cons_append, firstUses, if_pos hseen]
      refine ⟨fun hs => hx.1 ?_, fun hn => hx.2 fun hs => hn ?_⟩
      · simp only [List.map_cons, List.mem_append, List.mem_cons] at hs ⊢
        rcases hs with hs | hs | hs
        · exact .inl hs
        · exact .inl (hs ▸ hseen)
        · exact .inr hs
      · simp only [List.map_cons, List.mem_append, List.mem_cons] at hs ⊢
        exact hs.imp_right .inr
    · obtain ⟨r', b, sta, rs', hstep, hrest, he⟩ := settleItems_cons.mp h
      obtain ⟨-, rfl⟩ := List.cons.inj he
      have hx := ih hload hrest hlen
      rw [List.cons_append, firstUses, if_neg hseen]
      have hperm : ∀ a : Bytes, a ∈ (x.token.string :: seen) ++ before.map (fun u => u.token.string) ↔
          a ∈ seen ++ (x :: before).map (fun u => u.token.string) := fun a => by
        simp only [List.map_cons, List.mem_append, List.mem_cons]
        tauto
      rw [hperm] at hx
      exact ⟨hx.1, fun hn => ⟨List.mem_cons_of_mem _ (hx.2 hn).1, (hx.2 hn).2⟩⟩

end Batch

/-- A first ack that does not end the delivery of a live row is not answered with success. -/
theorem settleStep_refuses {st₀ st st' : Store} (hv : it.verb = .ack) (hst : st₀.Holds it.token)
    (hf : ¬ st₀.Finishes it) (h : settleStep env n budget (.load st₀ it) st = .ok ((r, b), st')) :
    ¬ (r.status = .ok ∨ r.status = .stale) := by
  obtain ⟨d, hd, hfence⟩ := hst
  cases hc : st₀.consumers.find? (it.token.stream, it.token.consumer) with
  | none =>
    simp only [settleStep, Prepared.load, applyOne, hc, Option.map_none, run_pure] at h
    obtain ⟨hr, rfl⟩ := h
    cases hr
    simp
  | some c =>
    have hgen : it.token.generation ≠ c.generation := fun he => hf ⟨c, d, hc, hd, he, .inl hv, by simp [hv]⟩
    have hplan : planSettle (settleRequest env n it (.ofRow c) (some (.ofRow st₀ d))) env.now =
        .ok { status := .wrongGeneration, reason := .generation } := if_pos hgen
    simp only [settleStep, Prepared.load, applyOne, hc, hd, Option.map_some, hplan, applyPlan, run_bind, run_pure] at h
    obtain ⟨_, _, -, hr, rfl⟩ := h
    cases hr
    simp

/-- **Honest acks.** From any state: that no ack of a batch is answered `ok` or `stale` while a row with the attempt and
generation of its token stays, means that every ack of a live row whose token an earlier item used comes after a
first use that ends the delivery. -/
theorem acks_honest {env : Env} {items : List SettleItem} {r : SettleResult} {st st' : Store}
    (h : settle env items st = .ok (r, st')) :
    (∀ before it after rs res rs', items = before ++ it :: after → r.results = rs ++ res :: rs' →
      rs.length = before.length → it.verb = .ack → res.status = .ok ∨ res.status = .stale →
      ∀ d, st'.deliveries.find? it.token.row = some d →
        ¬ (d.attempts = it.token.attempt ∧ d.generation = it.token.generation)) ↔
    ∀ before it after, items = before ++ it :: after → it.verb = .ack →
      it.token.string ∈ before.map (fun u => u.token.string) → st.Holds it.token →
      ∃ u ∈ firstUses [] items, u.token = it.token ∧ st.Finishes u := by
  obtain ⟨ps, rs₀, hprep, hitems, rfl⟩ := settle_run.mp h
  have hholds : ∀ t, st'.Holds t ↔ st.Holds t ∧ ∀ u ∈ firstUses [] items, u.token = t → ¬ st.Finishes u := fun t =>
    settleItems_holds hprep id hitems
  have hrow : ∀ t : Token, st'.Holds t ↔ ∃ d, st'.deliveries.find? t.row = some d ∧
      d.attempts = t.attempt ∧ d.generation = t.generation := fun t => by
    refine exists_congr fun d => and_congr_right fun hd => ?_
    rw [Token.fences_iff]
    exact and_iff_right (find?_key hd)
  have hlen : rs₀.length = items.length := (settle_accounts h).1
  constructor
  · rintro hhonest before it after rfl hv hrep hst
    by_contra hno
    have hst' : st'.Holds it.token := (hholds _).mpr ⟨hst, fun u hu he hf => hno ⟨u, hu, he, hf⟩⟩
    obtain ⟨d, hd, hatt⟩ := (hrow _).mp hst'
    -- the answer at this position
    obtain ⟨rs, res, rs', rfl, hl⟩ : ∃ rs res rs', rs₀ = rs ++ res :: rs' ∧ rs.length = before.length := by
      have hlt : before.length < rs₀.length := by rw [hlen]; simp
      exact ⟨rs₀.take before.length, rs₀[before.length], rs₀.drop (before.length + 1),
        by rw [← List.drop_eq_getElem_cons hlt, List.take_append_drop], List.length_take_of_le hlt.le⟩
    exact hhonest before it after rs res rs' rfl rfl hl hv
      (.inr ((settleItems_answer hprep hitems hl).1 hrep)) d hd hatt
  · rintro hcond before it after rs res rs' rfl hrs hl hv hok d hd hatt
    have hrs : rs₀ = rs ++ res :: rs' := hrs
    subst hrs
    obtain ⟨hst, hnone⟩ := (hholds it.token).mp ((hrow _).mpr ⟨d, hd, hatt⟩)
    by_cases hrep : it.token.string ∈ before.map (fun u => u.token.string)
    · obtain ⟨u, hu, he, hf⟩ := hcond before it after rfl hv hrep hst
      exact hnone u hu he hf
    · obtain ⟨hfirst, m, budget', b, sta, stb, hstep⟩ := (settleItems_answer hprep hitems hl).2 hrep
      exact settleStep_refuses hv hst (hnone it hfirst rfl) hstep hok

/-- Row 1 is given back and acknowledged with one token. -/
def nakThenAck : List SettleItem :=
  [{ token := ⟨aStream, aConsumer, 1, 1, 1⟩, verb := .nak },
   { token := ⟨aStream, aConsumer, 1, 1, 1⟩, verb := .ack }]

/-- The life after which the consumer holds rows 1 and 2. -/
def fetchedLife : List (ℤ × Request) := aSetup 2 ++ [(10, aFetch 10)]

theorem repeated_ack_answered_stale : Runs (play fetchedLife) (playState fetchedLife) ∧
    (settle (.atMs 20) nakThenAck (playState fetchedLife).store).toOption.map (fun p =>
      (p.1.results.map ItemResult.status, (p.2.deliveries.find? (aStream, aConsumer, 1)).map fun d =>
        (d.attempts, d.generation))) = some ([.ok, .stale], some (1, 1)) :=
  ⟨runs_play _, by decide +kernel⟩

/-- Row 1 is acknowledged twice. -/
def ackTwice : List SettleItem :=
  [{ token := ⟨aStream, aConsumer, 1, 1, 1⟩, verb := .ack },
   { token := ⟨aStream, aConsumer, 1, 1, 1⟩, verb := .ack }]

theorem acks_honest_ackTwice : ∃ r st', settle (.atMs 20) ackTwice fetchedTwo = .ok (r, st') ∧
    r.results.map ItemResult.status = [.ok, .stale] ∧
    ((∀ before it after rs res rs', ackTwice = before ++ it :: after → r.results = rs ++ res :: rs' →
      rs.length = before.length → it.verb = .ack → res.status = .ok ∨ res.status = .stale →
      ∀ d, st'.deliveries.find? it.token.row = some d →
        ¬ (d.attempts = it.token.attempt ∧ d.generation = it.token.generation)) ↔
    ∀ before it after, ackTwice = before ++ it :: after → it.verb = .ack →
      it.token.string ∈ before.map (fun u => u.token.string) → fetchedTwo.Holds it.token →
      ∃ u ∈ firstUses [] ackTwice, u.token = it.token ∧ fetchedTwo.Finishes u) := by
  have hrun : (settle (.atMs 20) ackTwice fetchedTwo).toOption.map (fun p => p.1.results.map ItemResult.status) =
      some [.ok, .stale] := by decide +kernel
  obtain ⟨p, h, hs⟩ := ok_of_map hrun
  exact ⟨p.1, p.2, h, hs, acks_honest h⟩

end Messq

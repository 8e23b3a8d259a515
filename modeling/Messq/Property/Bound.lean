import Messq.Property.Order

/-! # The bound on deliveries

`max_deliver` is enforced where a delivery fails, not where it is handed out. A restart releases an inflight row that
has used up its deliveries, and a fetch that comes before the retire pass hands it out once more
(`restart_exceeds_bound`). As long as no fetch finds such a row, no row and no message exceeds the bound
(`deliveries_bounded`). -/

namespace Messq

open Lib Table

variable {b : Broker} {k : Bytes × Bytes} {c : ConsumerRow} {n : ℤ}

def Request.restarts : Request → Bool
  | .restart _ => true
  | _ => false

/-- A restart releases a delivery of `k` that was handed out `n` times. -/
def Visit.releasesLast (v : Visit) (k : Bytes × Bytes) (n : ℤ) : Prop :=
  v.act.req.restarts = true ∧ ∃ d ∈ v.pre.store.deliveries, (d.stream, d.consumer) = k ∧ d.state = .inflight ∧
    n ≤ d.attempts

instance (v : Visit) (k : Bytes × Bytes) (n : ℤ) : Decidable (Visit.releasesLast v k n) :=
  inferInstanceAs (Decidable (_ ∧ _))

/-- A fetch finds a delivery of `k` that is due and was handed out `n` times. -/
def Visit.offersLast (v : Visit) (k : Bytes × Bytes) (n : ℤ) : Prop :=
  match v.act.req with
  | .fetch s c _ _ => (s, c) = k ∧ ∃ d ∈ v.pre.store.deliveries,
      (d.stream, d.consumer) = k ∧ d.state = .ready ∧ d.visibleAt ≤ v.act.env.nowMs ∧ n ≤ d.attempts
  | _ => False

/-- The hand-outs of `q` by the consumer `k` at generation `g` since the consumer was created. -/
def handOuts (k : Bytes × Bytes) (q g : ℤ) (h : List Visit) : ℕ :=
  h.foldl (fun n v =>
    if (v.post.store.consumers.find? k).isNone then 0
    else if (v.pre.store.consumers.find? k).map ConsumerRow.generation = some g then
      n + ((Visit.claimed v k).map Claimed.seq).count q
    else n) 0

theorem handOuts_concat (k : Bytes × Bytes) (q g : ℤ) (h : List Visit) (v : Visit) : handOuts k q g (h ++ [v]) =
    if (v.post.store.consumers.find? k).isNone then 0
    else if (v.pre.store.consumers.find? k).map ConsumerRow.generation = some g then
      handOuts k q g h + ((Visit.claimed v k).map Claimed.seq).count q
    else handOuts k q g h := by
  simp [handOuts]

/-- One fetch hands a position out once. -/
theorem claimed_nodup (b : Broker) (s : Step) (k : Bytes × Bytes) :
    ((Visit.claimed (visit Broker.exec b s) k).map Claimed.seq).Nodup := by
  by_cases hnil : (Visit.claimed (visit Broker.exec b s) k).map Claimed.seq = []
  · rw [hnil]
    exact List.nodup_nil
  obtain ⟨q, hq⟩ := List.exists_mem_of_ne_nil _ hnil
  obtain ⟨-, -, c, r, st, -, -, hclaimed, -, hf⟩ := fetched_of_claimed hq
  obtain ⟨head, st₁, -, -, -, hclaim, -⟩ := hf.admitted
  rw [hclaimed]
  exact hclaim.nodup

/-- A delivery row as a slot of its consumer. -/
theorem slot_of_mem (hc : b.store.consumers.find? k = some c) {d : DeliveryRow} (hd : d ∈ b.store.deliveries)
    (hk : (d.stream, d.consumer) = k) : (b.store.ledger c).slot d.seq = some d.slot := by
  obtain ⟨hstream, hname⟩ := pair_of_find? (s := k.1) (n := k.2) hc
  refine slot_eq_some.mpr ⟨d, ?_, rfl⟩
  rw [hstream, hname, ← hk]
  exact find?_of_mem hd

/-- A slot of a consumer as a delivery row. -/
theorem row_of_slot (hc : b.store.consumers.find? k = some c) {q : ℤ} {t : Slot}
    (ht : (b.store.ledger c).slot q = some t) : ∃ d ∈ b.store.deliveries, (d.stream, d.consumer) = k ∧ d.slot = t := by
  obtain ⟨d, hd, rfl⟩ := slot_eq_some.mp ht
  have hkey := find?_key hd
  simp only [DeliveryRow.key, Prod.mk.injEq] at hkey
  refine ⟨d, mem_of_find? hd, ?_, rfl⟩
  obtain ⟨hstream, hname⟩ := pair_of_find? (s := k.1) (n := k.2) hc
  rw [hkey.1, hkey.2.1, hstream, hname]

/-- What the bound keeps along the life of a consumer. -/
structure Broker.Capped (b : Broker) (k : Bytes × Bytes) (n : ℤ) (h : List Visit) : Prop where
  absent : b.view k = none → ∀ q g, handOuts k q g h = 0
  config : ∀ c, b.store.consumers.find? k = some c → c.maxDeliver = n
  within : ∀ l, b.view k = some l → l.Within n
  spare : ∀ l, b.view k = some l → (∀ v ∈ h, ¬ Visit.releasesLast v k n) → l.Spare n
  handed : ∀ l, b.view k = some l → ∀ q g, l.Handed n q g (handOuts k q g h)

theorem limit_eq (hs : b.store.Sound) (hn : 0 < n) (hc : b.store.consumers.find? k = some c) (hd : c.maxDeliver = n) :
    (b.store.ledger c).limit = n := by
  obtain ⟨-, -, hcap⟩ := hs.config k c hc
  show toInt32 c.maxDeliver = n
  rw [hd] at hcap ⊢
  unfold maxDeliverCap at hcap
  exact toInt32_eq (by omega) (by unfold maxInt32; omega)

/-- The visits before and the visit itself allow the bound to hold. -/
def Retired (k : Bytes × Bytes) (n : ℤ) (past : List Visit) (v : Visit) : Prop :=
  Visit.offersLast v k n → ∀ w ∈ past, ¬ Visit.releasesLast w k n

/-- What a permitted fetch may hand out has a delivery left. -/
theorem Broker.Capped.spareAt {s : Step} {h : List Visit} (hcap : b.Capped k n h)
    (hret : Retired k n h (visit Broker.exec b s)) (hc : b.store.consumers.find? k = some c) {now : ℤ} {S : ℤ → Prop}
    (ha : Visit.action (visit Broker.exec b s) k = .fetch now S) : (b.store.ledger c).SpareAt n now := by
  obtain ⟨batch, maxBytes, r, es, hreq, -, rfl, -⟩ := action_fetch ha
  by_cases hoff : Visit.offersLast (visit Broker.exec b s) k n
  · exact (hcap.spare _ (view_of_find? hc) (hret hoff)).at _
  · intro q t ht hready hdue
    obtain ⟨d, hd, hk, rfl⟩ := row_of_slot hc ht
    refine not_le.mp fun hle => hoff ?_
    unfold Visit.offersLast
    rw [hreq]
    exact ⟨rfl, d, hd, hk, ready_slot.mp hready, hdue, hle⟩

/-- **Step.** -/
theorem Broker.Capped.step {s : Step} {h : List Visit} (hn : 0 < n) (hs : b.store.Sound) (hcap : b.Capped k n h)
    (hret : Retired k n h (visit Broker.exec b s))
    (hcfg : ∀ c, (b.exec s).1.store.consumers.find? k = some c → c.maxDeliver = n)
    (hord : ∀ l, (b.exec s).1.view k = some l → l.Ordered) :
    (b.exec s).1.Capped k n (h ++ [visit Broker.exec b s]) := by
  have hborn : ∀ {l'}, b.view k = none → (b.exec s).1.view k = some l' → ∀ q, l'.slot q = none :=
    fun hv hl' => (view_born hs hv hl').1
  have hwithin : ∀ l', (b.exec s).1.view k = some l' → l'.Within n := by
    intro l' hl'
    cases hv : b.store.consumers.find? k with
    | none =>
      intro q t ht
      rw [hborn (view_eq_none.mpr hv) hl' q] at ht
      cases ht
    | some c =>
      exact (view_step hs (view_of_find? hv) hl').within hn (hcap.within _ (view_of_find? hv)) fun now S ha =>
        hcap.spareAt hret hv ha
  refine ⟨fun hnone q g => ?_, hcfg, hwithin, fun l' hl' hno => ?_, fun l' hl' q g => ?_⟩
  · have hgone : (b.exec s).1.store.consumers.find? k = none := view_eq_none.mp hnone
    rw [handOuts_concat, if_pos (by simp [visit, hgone])]
  · cases hv : b.store.consumers.find? k with
    | none =>
      intro q t ht
      rw [hborn (view_eq_none.mpr hv) hl' q] at ht
      cases ht
    | some c =>
      have hstep := view_step hs (view_of_find? hv) hl'
      have hspare := hcap.spare _ (view_of_find? hv) fun w hw => hno w (List.mem_append_left _ hw)
      by_cases ha : Visit.action (visit Broker.exec b s) k = .reclaim
      · rw [ha] at hstep
        refine hstep.spare_reclaim hspare fun q t ht hready => not_le.mp fun hle => ?_
        obtain ⟨unclean, hreq⟩ := action_reclaim ha
        obtain ⟨d, hd, hk, rfl⟩ := row_of_slot hv ht
        exact hno _ (List.mem_append_right _ (List.mem_singleton.mpr rfl))
          ⟨by rw [hreq]; rfl, d, hd, hk, not_ready_slot.mp hready, hle⟩
      · exact hstep.spare hn (limit_eq hs hn hv (hcap.config c hv)) hspare ha
  · obtain ⟨c', hc', rfl⟩ := view_eq_some.mp hl'
    have hsound' := view_sound (exec_sound hs s) hl'
    rw [handOuts_concat, if_neg (by simp [visit, hc'])]
    cases hv : b.store.consumers.find? k with
    | none =>
      rw [if_neg (by simp [visit, hv]), hcap.absent (view_eq_none.mpr hv)]
      exact Ledger.handed_zero hn.le hsound'
    | some c =>
      have hl := view_of_find? hv
      have hstep := view_step hs hl hl'
      have hh := hcap.handed _ hl q g
      split
      · rename_i hg
        obtain rfl : c.generation = g := by simpa [visit, hv] using hg
        by_cases hq : q ∈ (Visit.claimed (visit Broker.exec b s) k).map Claimed.seq
        · rw [List.count_eq_one_of_mem (claimed_nodup b s k) hq]
          rw [action_of_claimed hq] at hstep
          exact hstep.handed_claim (view_sound hs hl) (hord _ hl') (hwithin _ hl') hq hh
        · rw [List.count_eq_zero_of_not_mem hq]
          exact hstep.handed_same (view_sound hs hl) hh
      · exact hstep.handed_same (view_sound hs hl) hh

/-- **The bound.** Since a consumer was created with `max_deliver = n`, no row of it has more than `n` attempts and no
message was handed out more than `n` times at one generation, in a run without stray chunks in which no fetch finds a
delivery that a restart released after its last attempt. -/
theorem deliveries_bounded {h₁ h₂ : List Visit} {b₀ b : Broker} (r₁ : Runs h₁ b₀) (r₂ : History Broker.exec b₀ h₂ b)
    (hm : ∀ v ∈ h₁ ++ h₂, ReapsMarked v) {k : Bytes × Bytes} (hnew : b₀.store.consumers.find? k = none)
    {n : ℤ} (hn : 0 < n)
    (hcfg : ∀ v ∈ h₂, ∀ c ∈ v.post.store.consumers.find? k, c.maxDeliver = n) (hret : Upheld (Retired k n) h₂) :
    (∀ d ∈ b.store.deliveries, (d.stream, d.consumer) = k → d.attempts ≤ n) ∧ ∀ q g, (handOuts k q g h₂ : ℤ) ≤ n := by
  have hcap : b.Capped k n h₂ := by
    refine r₂.invariant_along
      (C := fun past v => Retired k n past v ∧ ReapsMarked v ∧
        ∀ c ∈ v.post.store.consumers.find? k, c.maxDeliver = n)
      (I := fun h b => b.Capped k n h) (fun p v t ht => ⟨hret p v t ht, ?_, ?_⟩) ?_ ?_
    · exact hm v (by simp [ht])
    · exact hcfg v (by simp [ht])
    · have hv := view_eq_none.mpr hnew
      exact ⟨fun _ _ _ => rfl, fun c hc => absurd (hnew.symm.trans hc) nofun,
        fun l hl => absurd (hv.symm.trans hl) nofun, fun l hl => absurd (hv.symm.trans hl) nofun,
        fun l hl => absurd (hv.symm.trans hl) nofun⟩
    · rintro h b s r hc ih ⟨hv, hmark, hpost⟩
      have hrun : Runs (h₁ ++ h) b := r₁.trans r
      refine ih.step hn hrun.sound hv hpost fun l hl => ?_
      refine Runs.ordered (h := h₁ ++ h ++ [visit Broker.exec b s]) (hrun.step s) (fun w hw => ?_) hl
      rw [List.append_assoc, List.mem_append, List.mem_append, List.mem_singleton] at hw
      rcases hw with hw | hw | rfl
      · exact hm w (List.mem_append_left _ hw)
      · obtain ⟨p, t, ht⟩ := List.append_of_mem hw
        exact (hc p w t ht).2.1
      · exact hmark
  have hsound : b.store.Sound := Runs.sound (r₁.trans r₂)
  refine ⟨fun d hd hk => ?_, fun q g => ?_⟩
  · obtain ⟨c, hc⟩ := Option.ne_none_iff_exists'.mp (hsound.owner d.key (by simp [find?_of_mem hd]))
    have hc : b.store.consumers.find? k = some c := hk ▸ hc
    exact hcap.within _ (view_of_find? hc) d.seq _ (slot_of_mem hc hd hk)
  · cases hv : b.view k with
    | none =>
      rw [hcap.absent hv]
      exact hn.le
    | some l => exact (hcap.handed l hv q g).le

/-! ## A restart after the last attempt -/

/-- The sample stream and consumer, where a message may be delivered `n` times, with one message. -/
def boundedSetup (n : ℤ) : List (ℤ × Request) :=
  [(1, aCreate),
   (2, .createConsumer aStream { defaultConsumerConfig aConsumer with maxDeliver := n } .first []),
   (3, aPublish)]

/-- The only delivery is inflight when the process restarts; the next fetch comes before a retire pass. -/
def restartAtBound : List (ℤ × Request) :=
  boundedSetup 1 ++ [(10, aFetch 1), (11, .restart none),
    (6000, aFetch 1)]

theorem restart_exceeds_bound :
    Runs (play restartAtBound) (playState restartAtBound) ∧
    (∀ v ∈ play restartAtBound, ∀ c ∈ v.post.store.consumers.find? (aStream, aConsumer), c.maxDeliver = 1) ∧
    ((playState restartAtBound).store.deliveries.find? (aStream, aConsumer, 1)).map DeliveryRow.attempts =
      some 2 ∧
    handOuts (aStream, aConsumer) 1 1 (play restartAtBound) = 2 :=
  ⟨runs_play _, by decide +kernel⟩

/-- A restart after the first of two attempts. -/
def restartBelowBound : List (ℤ × Request) :=
  boundedSetup 2 ++ [(10, aFetch 1), (11, .restart none),
    (6000, aFetch 1)]

theorem deliveries_bounded_restart :
    handOuts (aStream, aConsumer) 1 1 (play restartBelowBound) = 2 ∧
    (∀ d ∈ (playState restartBelowBound).store.deliveries, (d.stream, d.consumer) = (aStream, aConsumer) →
      d.attempts ≤ 2) ∧ ∀ q g, (handOuts (aStream, aConsumer) q g (play restartBelowBound) : ℤ) ≤ 2 := by
  have hno : ∀ v ∈ play restartBelowBound, ¬ Visit.releasesLast v (aStream, aConsumer) 2 := by decide +kernel
  exact ⟨by decide +kernel, deliveries_bounded .start (runs_play restartBelowBound) (by decide +kernel) rfl (by decide)
    (by decide +kernel) fun p v t ht _ w hw => hno w (by rw [ht]; exact List.mem_append_left _ hw)⟩

end Messq

import Messq.Property.Fetch
import Messq.Property.Terms

/-! # The reason a fetch gives

A fetch that claims nothing says why, and when it is worth trying again. `consumerStats` answers the same question for
the consumer's description. The two agree, and the time is right, when no row waits for a later time and the pending set
is empty or full, and only then (`hold_truthful_iff`): `fetchHold` has no answer for rows that are in flight or wait,
and `nextVisibleAt` finds no row. -/

namespace Messq

open Lib Table

/-! ## Two classifications -/

/-- They are given the number of all pending rows and the number of those with a stored message, none of them
claimable. -/
theorem fetchHold_eq_blockedBy_iff {all stored cursor next bound : ℤ} (hb : 1 ≤ bound) (h0 : 0 ≤ stored)
    (hle : stored ≤ all) :
    fetchHold false all cursor next bound = consumerBlockedBy false stored 0 cursor next bound ↔
    all = 0 ∨ bound ≤ stored := by
  simp only [fetchHold, consumerBlockedBy, Bool.false_eq_true, if_false, and_true]
  split_ifs
  all_goals first
    | exact iff_of_true rfl (by omega)
    | exact iff_of_false (by decide) (by omega)

/-! ## A fetch that claims nothing -/

section Nothing

variable {env : Env} {stream consumer : Bytes} {batch : ℕ} {maxBytes : ℤ} {res : FetchResult} {c : ConsumerRow}
  {st st₁ st₂ st' : Store}

/-- A claim of nothing finds nothing to claim. -/
theorem claimReady_nil {nowMs ackWaitMs : ℤ} (hbatch : 1 ≤ batch)
    (h : claimReady stream consumer nowMs ackWaitMs batch maxBytes st = .ok ([], st')) :
    (∀ q, ¬ st.Claimable stream consumer nowMs q) ∧ ∀ k, st'.deliveries.find? k = st.deliveries.find? k := by
  have hchosen := (claimReady_spec h).1
  refine ⟨fun q hq => ?_, fun k => ?_⟩
  · have hmem := mem_claimCandidates.mpr hq
    cases hcand : st.claimCandidates stream consumer nowMs with
    | nil => rw [hcand] at hmem; cases hmem
    | cons x xs =>
      obtain ⟨n, rfl⟩ : ∃ n, batch = n + 1 := ⟨batch - 1, by omega⟩
      rw [hcand, List.take_succ_cons, chooseClaims] at hchosen
      cases hchosen
  · rw [(claimReady_run h).2.2.deliveries, if_neg]
    simp

/-- The top-up of such a fetch admitted no row: a new row is visible at once. -/
theorem admitted_nothing {head : SeqRow} {p : ℤ × ℤ} (hs : st.Sound) (hnow : 0 ≤ env.nowMs)
    (hc : st.consumers.find? c.key = some c) (hhead : st.streamSeq.find? c.stream = some head)
    (h : fetchAdmit env c head.next st = .ok (p, st₁)) (hnone : ∀ q, ¬ st₁.Claimable c.stream c.name env.nowMs q) (k) :
    st₁.deliveries.find? k = st.deliveries.find? k := by
  obtain ⟨hconf, htop⟩ := fetchAdmit_run hc h
  obtain ⟨head', hhead', -, hbound⟩ := hs.bounded (k := c.key) (by simp [hc])
  obtain rfl : head = head' := Option.some.inj (hhead.symm.trans hhead')
  obtain ⟨s, n, q⟩ := k
  by_cases hk : (s, n) = c.key
  · obtain ⟨rfl, rfl⟩ := Prod.mk.inj hk
    refine Option.ext fun d => ⟨fun hd => ?_, (htop hbound).kept _ d⟩
    rcases (htop hbound).fresh q d hd with hd | ⟨-, -, m, hm, rfl⟩
    · exact hd
    · exact absurd ⟨⟨_, hd, rfl, hnow⟩, by rw [hconf.messages, hm]; exact Option.some_ne_none m⟩ (hnone q)
  · exact hconf.deliveries _ hk

/-- The rows of the consumer that have their message. -/
def Store.backedOf (st : Store) (stream consumer : Bytes) : List DeliveryRow :=
  (st.pendingOf stream consumer).filter fun d => (st.messages.find? (stream, d.seq)).isSome

/-- What such a fetch says of itself. -/
structure Unclaimed (env : Env) (c : ConsumerRow) (res : FetchResult) (st st' : Store) (head : SeqRow) : Prop where
  rows : ∀ k, st'.deliveries.find? k = st.deliveries.find? k
  messages : st'.messages = st.messages
  consumer : st'.consumers.find? (c.stream, c.name) = some { c with cursorSeq := res.cursorSeq }
  counter : st'.streamSeq.find? c.stream = some head
  hold : res.hold = fetchHold false (st'.pendingOf c.stream c.name).length res.cursorSeq head.next c.maxAckPending
  next : res.nextVisibleMs = 0
  none : ∀ q, ¬ st'.Claimable c.stream c.name env.nowMs q

theorem fetch_unclaimed (hs : st.Sound) (hnow : 0 ≤ env.nowMs) (hbatch : 1 ≤ batch)
    (hc : st.consumers.find? (c.stream, c.name) = some c) (hp : c.paused = false)
    (h : fetch env c.stream c.name batch maxBytes st = .ok (res, st')) (hnil : res.claimed = []) :
    ∃ head, Unclaimed env c res st st' head := by
  obtain ⟨c', hc', -, -, -, hnext, hcases⟩ := fetch_cases h
  obtain rfl : c = c' := Option.some.inj (hc.symm.trans hc')
  obtain ⟨hp', -⟩ | ⟨-, head, conflicts, st₁, st₂, u, hhead, h₁, h₂, h₃, hhold⟩ := hcases
  · rw [hp] at hp'
    cases hp'
  rw [hnil] at h₂ h₃ hhold
  obtain ⟨hnone, hrows⟩ := claimReady_nil hbatch h₂
  have hadm := admitted_nothing hs hnow hc hhead h₁ hnone
  obtain ⟨hconf₁, htop⟩ := fetchAdmit_run hc h₁
  obtain ⟨hconf₂, hcons₂, -⟩ := claimReady_run h₂
  obtain ⟨-, rfl⟩ := run_pure.mp h₃
  obtain ⟨head', hhead', -, hbound⟩ := hs.bounded (k := c.key) (by simp [ConsumerRow.key, hc])
  obtain rfl : head = head' := Option.some.inj (hhead.symm.trans hhead')
  refine ⟨head, fun k => (hrows k).trans (hadm k), hconf₂.messages.trans hconf₁.messages, ?_, ?_, ?_,
    hnext, fun q hq => ?_⟩
  · rw [hcons₂]
    exact (htop hbound).row
  · rw [hconf₂.seq, hconf₁.seq, hhead]
  · have hshort : decide (([] : List Claimed).length = batch) = false :=
      decide_eq_false (by rw [List.length_nil]; omega)
    rw [hhold, hshort]
  · rw [Store.Claimable, hrows, hconf₂.messages] at hq
    exact hnone q hq

/-- The reason is the one the description of the consumer gives afterwards, and the time is the earliest at which one of
its waiting rows becomes visible. -/
structure HoldTruthful (nowMs : ℤ) (stream consumer : Bytes) (res : FetchResult) (st' : Store) : Prop where
  reason : ∀ c, st'.consumers.find? (stream, consumer) = some c → res.hold = (st'.consumerStats c nowMs).blockedBy
  wake : (∃ d ∈ st'.pendingOf stream consumer, d.state = .ready) →
    (∀ d ∈ st'.pendingOf stream consumer, d.state = .ready → nowMs < d.visibleAt) →
    (((st'.pendingOf stream consumer).filter fun d => d.state == .ready).map DeliveryRow.visibleAt).min? =
      some res.nextVisibleMs

/-- No rows are pending, or as many with their message as are allowed, and no row waits, unless another is visible. -/
def Store.Explained (st : Store) (c : ConsumerRow) (nowMs : ℤ) : Prop :=
  (st.pendingOf c.stream c.name = [] ∨ c.maxAckPending ≤ (st.backedOf c.stream c.name).length) ∧
  ((∀ d ∈ st.pendingOf c.stream c.name, d.state ≠ .ready) ∨
    ∃ d ∈ st.pendingOf c.stream c.name, d.state = .ready ∧ d.visibleAt ≤ nowMs)

theorem Unclaimed.pending {head : SeqRow} (h : Unclaimed env c res st st' head) :
    (st'.pendingOf c.stream c.name).Perm (st.pendingOf c.stream c.name) := (perm_of_find? h.rows).filter _

/-- None of the rows the description counts is ready now. -/
theorem Unclaimed.blockedBy {head : SeqRow} (h : Unclaimed env c res st st' head) (hp : c.paused = false) :
    (st'.consumerStats { c with cursorSeq := res.cursorSeq } env.nowMs).blockedBy =
      consumerBlockedBy false (st'.backedOf c.stream c.name).length 0 res.cursorSeq head.next c.maxAckPending := by
  have hready : ((st'.backedOf c.stream c.name).filter fun d => d.state == .ready && d.visibleAt ≤ env.nowMs) = [] := by
    refine List.filter_eq_nil_iff.mpr fun d hd hr => ?_
    obtain ⟨hd, hm⟩ := List.mem_filter.mp hd
    obtain ⟨hmem, hstream, hname⟩ := mem_pendingOf.mp hd
    simp only [Bool.and_eq_true, beq_iff_eq, decide_eq_true_eq] at hr
    refine h.none d.seq ⟨⟨d, ?_, hr⟩, Option.isSome_iff_ne_none.mp hm⟩
    rw [← hstream, ← hname]
    exact find?_of_mem hmem
  simp only [Store.consumerStats, hp, h.counter, Option.map_some, Option.getD_some]
  rw [← Store.backedOf, hready]
  rfl

end Nothing

/-- The reason and the time a fetch gives are right when the state it finds is `Explained`, and only then. -/
theorem hold_truthful_iff {h : List Visit} {b : Broker} (r : Runs h b) {env : Env} {c : ConsumerRow} {batch : ℕ}
    {maxBytes : ℤ} {res : FetchResult} {st' : Store} (hc : b.store.consumers.find? (c.stream, c.name) = some c)
    (hp : c.paused = false) (hbatch : 1 ≤ batch) (hnow : 0 ≤ env.nowMs)
    (hf : fetch env c.stream c.name batch maxBytes b.store = .ok (res, st')) (hnil : res.claimed = []) :
    HoldTruthful env.nowMs c.stream c.name res st' ↔ b.store.Explained c env.nowMs := by
  obtain ⟨head, hun⟩ := fetch_unclaimed r.sound hnow hbatch hc hp hf hnil
  have hpend := hun.pending
  have hback : (st'.backedOf c.stream c.name).length = (b.store.backedOf c.stream c.name).length := by
    rw [Store.backedOf, Store.backedOf, hun.messages]
    exact (hpend.filter _).length_eq
  have hmax : 1 ≤ c.maxAckPending := r.terms (L := fun _ => True) (P := fun t => 1 ≤ t.maxAckPending)
    (fun l cfg _ hcfg => hcfg.maxAckPending.1) (fun _ _ => trivial) _ c hc
  -- the two parts are judged separately
  have hreason : (∀ c', st'.consumers.find? (c.stream, c.name) = some c' →
      res.hold = (st'.consumerStats c' env.nowMs).blockedBy) ↔
      (b.store.pendingOf c.stream c.name = [] ∨ c.maxAckPending ≤ (b.store.backedOf c.stream c.name).length) := by
    rw [hun.consumer]
    simp only [Option.some.injEq, forall_eq']
    have hle : ((st'.backedOf c.stream c.name).length : ℤ) ≤ (st'.pendingOf c.stream c.name).length :=
      Int.ofNat_le.mpr (List.length_filter_le _ _)
    rw [hun.hold, hun.blockedBy hp, fetchHold_eq_blockedBy_iff hmax (Int.natCast_nonneg _) hle, hback,
      Int.natCast_eq_zero, hpend.length_eq, List.length_eq_zero_iff]
  have hwake : ((∃ d ∈ st'.pendingOf c.stream c.name, d.state = .ready) →
      (∀ d ∈ st'.pendingOf c.stream c.name, d.state = .ready → env.nowMs < d.visibleAt) →
      (((st'.pendingOf c.stream c.name).filter fun d => d.state == .ready).map DeliveryRow.visibleAt).min? =
        some res.nextVisibleMs) ↔
      ((∀ d ∈ b.store.pendingOf c.stream c.name, d.state ≠ .ready) ∨
        ∃ d ∈ b.store.pendingOf c.stream c.name, d.state = .ready ∧ d.visibleAt ≤ env.nowMs) := by
    rw [hun.next]
    simp only [hpend.mem_iff]
    constructor
    · intro hw
      by_contra hno
      push Not at hno
      obtain ⟨hsome, hlater⟩ := hno
      -- the time would be 0, and no later than now
      obtain ⟨d, hd, hzero⟩ := List.mem_map.mp (List.min?_mem (hw hsome hlater))
      obtain ⟨hd, hready⟩ := List.mem_filter.mp hd
      have := hlater d (hpend.mem_iff.mp hd) (beq_iff_eq.mp hready)
      omega
    · rintro (hnone | ⟨d, hd, hready, hv⟩) hsome hlater
      · obtain ⟨d, hd, hready⟩ := hsome
        exact absurd hready (hnone d hd)
      · have := hlater d hd hready
        omega
  exact ⟨fun ht => ⟨hreason.mp ht.reason, hwake.mp ht.wake⟩, fun he => ⟨hreason.mpr he.1, hwake.mpr he.2⟩⟩

/-- A consumer that may hold two messages holds two of three. -/
def fullPending : List (ℤ × Request) :=
  [(1, aCreate), (2, .createConsumer aStream { defaultConsumerConfig aConsumer with maxAckPending := 2 } .first []),
   (3, aPublish), (4, aPublish), (5, aPublish), (10, aFetch 2)]

theorem hold_truthful_fullPending : ∃ (c : ConsumerRow) (res : FetchResult) (st' : Store),
    fetch (.atMs 20) c.stream c.name 1 0 (playState fullPending).store = .ok (res, st') ∧ res.hold = .flowControl ∧
      HoldTruthful (Env.atMs 20).nowMs c.stream c.name res st' := by
  have hcon : ((playState fullPending).store.consumers.find? (aStream, aConsumer)).map (fun c =>
      (c.paused, c.maxAckPending)) = some (false, 2) := by decide +kernel
  have hrun : (fetch (.atMs 20) aStream aConsumer 1 0 (playState fullPending).store).toOption.map
      (fun p => (p.1.claimed, p.1.hold)) = some ([], .flowControl) := by decide +kernel
  have hfull : ((playState fullPending).store.backedOf aStream aConsumer).length = 2 := by decide +kernel
  have hheld : ∀ d ∈ (playState fullPending).store.pendingOf aStream aConsumer, d.state ≠ .ready := by decide +kernel
  obtain ⟨c, hc, hcon⟩ := Option.map_eq_some_iff.mp hcon
  obtain ⟨hp, hmax⟩ := Prod.mk.inj hcon
  obtain ⟨⟨res, st'⟩, hf, hres⟩ := ok_of_map hrun
  obtain ⟨hnil, hhold⟩ := Prod.mk.inj hres
  obtain ⟨hs, hn⟩ := pair_of_find? hc
  rw [← hs, ← hn] at hc hf hfull hheld
  refine ⟨c, res, st', hf, hhold, (hold_truthful_iff (runs_play fullPending) hc hp le_rfl (by decide) hf hnil).mpr ?_⟩
  exact ⟨.inr (by rw [hfull, hmax]; rfl), .inl hheld⟩

/-- A message given back with a delay of a second. -/
def delayedNak : List (ℤ × Request) :=
  aSetup 1 ++ [(10, aFetch 1), (20, .settle [anItem .nak 1 1 1])]

/-- The next fetch gives no reason and no time, although the only row waits for its backoff until 1020. -/
theorem hold_not_truthful : Runs (play delayedNak) (playState delayedNak) ∧
    ((playState delayedNak).store.deliveries.find? (aStream, aConsumer, 1)).map (fun d => (d.state, d.visibleAt)) =
      some (.ready, 1020) ∧
    (fetch (.atMs 30) aStream aConsumer 1 0 (playState delayedNak).store).toOption.map (fun p =>
      (p.1.claimed, p.1.hold, p.1.nextVisibleMs)) = some ([], .none, 0) ∧
    (fetch (.atMs 30) aStream aConsumer 1 0 (playState delayedNak).store).toOption.map (fun p =>
      (p.2.consumers.find? (aStream, aConsumer)).map fun c => (p.2.consumerStats c (Env.atMs 30).nowMs).blockedBy) =
        some (some .backoff) :=
  ⟨runs_play _, by decide +kernel⟩

end Messq

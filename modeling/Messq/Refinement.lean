import Messq.Effect.Request
import Messq.Lib.Ledger

/-! # Each consumer is a delivery ledger

`Store.ledger` reads the ledger of one consumer off the tables: its cursor, its generation as the epoch, its delivery
rows as slots, and as wanted positions the stored messages its filters match. `Request.action` names what a
request looks like to the consumer, and `effect_step` is the refinement: every committed request that leaves the
consumer in place is a step of its ledger under that name. -/

namespace Messq

open Lib Table Relation

variable {pair k : Bytes × Bytes} {cfg : ConsumerConfig} {d : DeliveryRow} {st₁ : Store} {row : StreamRow}
  {cursor q : ℤ} {done hit : ℤ → Prop} {n s : Bytes} {c c' : ConsumerRow} {env : Env}

/-! ## The abstraction -/

def DeliveryRow.slot (d : DeliveryRow) : Slot := ⟨d.attempts, d.generation, d.state == .ready, d.visibleAt⟩

def Store.ledger (st : Store) (c : ConsumerRow) : Ledger where
  cursor := c.cursorSeq
  head := st.headOf c.stream
  epoch := c.generation
  limit := toInt32 c.maxDeliver
  slot q := (st.deliveries.find? (c.stream, c.name, q)).map DeliveryRow.slot
  wanted q := ∃ m, st.messages.find? (c.stream, q) = some m ∧ c.wants m.subject = true

/-- What the tables keep in every run. -/
structure Store.Sound (st : Store) : Prop where
  next : ∀ s r, st.streamSeq.find? s = some r → 1 ≤ r.next
  hwm : ∀ s row, st.metaTable.find? (.seqHwm s) = some row → ∃ n, row = ⟨.seqHwm s, .int n⟩ ∧ 0 ≤ n
  stats : ∀ s, st.streamStats.find? s ≠ none → st.streamSeq.find? s ≠ none
  /-- A consumer lives on a stream whose messages are not being deleted. -/
  home : ∀ k, st.consumers.find? k ≠ none → st.streamSeq.find? k.1 ≠ none ∧ st.metaTable.find? (.reap k.1) = none
  owner : ∀ k, st.deliveries.find? k ≠ none → st.consumers.find? (k.1, k.2.1) ≠ none
  stored : ∀ s q, st.metaTable.find? (.reap s) = none → st.messages.find? (s, q) ≠ none →
    ∃ r, st.streamSeq.find? s = some r ∧ 1 ≤ q ∧ q < r.next
  config : ∀ k c, st.consumers.find? k = some c → 1 ≤ c.generation ∧ 0 ≤ c.maxDeliver ∧ c.maxDeliver ≤ maxDeliverCap
  ledger : ∀ k c, st.consumers.find? k = some c → (st.ledger c).Sound

theorem headOf_eq {st : Store} {r : SeqRow} (h : st.streamSeq.find? s = some r) : st.headOf s = r.next := by
  rw [Store.headOf, h]; rfl

/-- The stored messages of a consumer's stream lie below its head. -/
theorem Store.Sound.bounded {st : Store} (hs : st.Sound) (hk : st.consumers.find? k ≠ none) :
    ∃ head, st.streamSeq.find? k.1 = some head ∧ st.headOf k.1 = head.next ∧ st.Bounded k.1 head.next := by
  obtain ⟨hseq, hreap⟩ := hs.home k hk
  obtain ⟨head, hhead⟩ := Option.ne_none_iff_exists'.mp hseq
  refine ⟨head, hhead, headOf_eq hhead, hs.next _ _ hhead, fun q m hm => ?_⟩
  obtain ⟨r, hr, h1, hlt⟩ := hs.stored k.1 q hreap (by simp [hm])
  rw [hhead] at hr
  cases hr
  exact ⟨h1, hlt⟩

/-- The key of a consumer's row. -/
theorem pair_of_find? {st : Store} (h : st.consumers.find? (s, n) = some c) :
    c.stream = s ∧ c.name = n := Prod.mk.inj (show c.key = (s, n) from find?_key h)

/-- A ledger depends only on the consumer's row, its delivery rows and its stream. -/
theorem ledger_congr {st st' : Store} (hc : c'.stream = c.stream ∧ c'.name = c.name ∧ c'.cursorSeq = c.cursorSeq ∧
      c'.generation = c.generation ∧
      c'.maxDeliver = c.maxDeliver ∧ c'.filters = c.filters)
    (hd : ∀ q, st'.deliveries.find? (c.stream, c.name, q) = st.deliveries.find? (c.stream, c.name, q))
    (hm : ∀ q, st'.messages.find? (c.stream, q) = st.messages.find? (c.stream, q))
    (hs : st'.streamSeq.find? c.stream = st.streamSeq.find? c.stream) : st'.ledger c' = st.ledger c := by
  obtain ⟨h₁, h₂, h₃, h₄, h₅, h₆⟩ := hc
  unfold Store.ledger Store.headOf ConsumerRow.wants
  rw [h₁, h₂, h₃, h₄, h₅, h₆, hs]
  simp only [hd, hm]

/-! ## Steps -/

section Steps

variable {st st' : Store}

theorem slot_eq_some {t : Slot} :
    (st.ledger c).slot q = some t ↔ ∃ d, st.deliveries.find? (c.stream, c.name, q) = some d ∧ d.slot = t :=
  Option.map_eq_some_iff

theorem slot_eq_none : (st.ledger c).slot q = none ↔ st.deliveries.find? (c.stream, c.name, q) = none :=
  Option.map_eq_none_iff

theorem ready_slot : d.slot.ready = true ↔ d.state = .ready := beq_iff_eq

theorem not_ready_slot : d.slot.ready = false ↔ d.state = .inflight := by
  rw [← Bool.not_eq_true, ready_slot]
  cases d.state <;> simp

/-- The reasons a background command gives for a delivery that ended. -/
def endsIn (es : List Event) (k : Bytes × Bytes) (q : ℤ) : Prop := ∃ e ∈ es, e.Ends (k.1, k.2, q)

theorem Background.quiet (h : Background st st') (hk : st.streamSeq.find? c.stream ≠ none) :
    (st.ledger c).Quiet (endsIn st'.carriers c.key) (st'.ledger c) where
  cursor := rfl
  epoch := rfl
  limit := rfl
  head := by
    obtain ⟨r, hr⟩ := Option.ne_none_iff_exists'.mp hk
    obtain ⟨r', hr', hle⟩ := h.seq _ r hr
    show st.headOf c.stream ≤ st'.headOf c.stream
    rw [headOf_eq hr, headOf_eq hr']
    exact hle
  kept q t' ht' := by
    obtain ⟨d', hd', rfl⟩ := slot_eq_some.mp ht'
    obtain ⟨d, hd, ht⟩ := h.kept _ d' hd'
    refine ⟨d.slot, slot_eq_some.mpr ⟨d, hd, rfl⟩, ht.attempts, ht.generation, fun h0 hr => ?_⟩
    rw [ht.fresh h0 (ready_slot.mp hr)]
  dropped q hq hn := h.dropped _ (fun h0 => hq (slot_eq_none.mpr h0)) (slot_eq_none.mp hn)
  wanted q hw := by
    obtain ⟨m', hm', hw⟩ := hw
    rcases h.stored _ q m' hm' with ⟨m, hm, hsub⟩ | ha
    · exact .inl ⟨m, hm, hsub ▸ hw⟩
    · obtain ⟨r, hr⟩ := Option.ne_none_iff_exists'.mp hk
      refine .inr ?_
      show st.headOf c.stream ≤ q
      rw [headOf_eq hr]
      exact ha.above r hr

theorem Background.bounded (h : Background st st') (hc : st.consumers.find? c.key = some c) :
    (st.ledger c).Bounded (st'.ledger c) := by
  intro q t t' ht ht' hr hr'
  obtain ⟨d, hd, rfl⟩ := slot_eq_some.mp ht
  obtain ⟨d', hd', rfl⟩ := slot_eq_some.mp ht'
  obtain ⟨d₀, hd₀, htouch⟩ := h.kept _ d' hd'
  obtain rfl : d = d₀ := Option.some.inj (hd.symm.trans hd₀)
  have hkey : (d.stream, d.consumer) = c.key := by
    have := find?_key hd
    simp only [DeliveryRow.key, Prod.mk.injEq] at this ⊢
    exact ⟨this.1, this.2.1⟩
  exact htouch.bounded (not_ready_slot.mp hr) (ready_slot.mp hr') c (hkey ▸ hc)

/-- Messages leave, and nothing else happens to the consumer. -/
theorem quiet_of_messages (hd : st'.deliveries = st.deliveries) (hs : st'.streamSeq = st.streamSeq)
    (hm : ∀ k m, st'.messages.find? k = some m → st.messages.find? k = some m) :
    Ledger.Step (st.ledger c) (.quiet done) (st'.ledger c) := by
  have hslot : (st'.ledger c).slot = (st.ledger c).slot := by simp only [Store.ledger, hd]
  refine .quiet ⟨rfl, rfl, rfl, ?_, fun q t ht => ⟨t, hslot ▸ ht, rfl, rfl, fun _ _ => rfl⟩, fun q h hn => ?_,
    fun q hw => ?_⟩ fun q t t' ht ht' hr hr' => ?_
  · simp only [Store.ledger, Store.headOf, hs]
    exact le_rfl
  · rw [hslot] at hn
    exact absurd hn h
  · obtain ⟨m, hm', hw⟩ := hw
    exact .inl ⟨m, hm _ m hm', hw⟩
  · rw [hslot, ht] at ht'
    cases ht'
    rw [hr] at hr'
    cases hr'

theorem Restarted.step (h : Restarted env st st') : Ledger.Step (st.ledger c) .reclaim (st'.ledger c) := by
  have hslot : ∀ q, (st'.ledger c).slot q = ((st.deliveries.find? (c.stream, c.name, q)).map fun d =>
      if d.state == .inflight then d.reclaim env.nowMs (milliseconds env.opts.reclaimJitter) (env.random d.key)
      else d).map DeliveryRow.slot := fun q => congrArg (Option.map DeliveryRow.slot)
        (h.deliveries (c.stream, c.name, q))
  refine .reclaim ⟨rfl, rfl, rfl, ?_, fun q t' ht' => ?_, fun q hq hn => ?_, fun q hw => .inl ?_⟩
  · simp only [Store.ledger, Store.headOf, h.seq]
    exact le_rfl
  · rw [hslot q, Option.map_eq_some_iff] at ht'
    obtain ⟨d', hd', rfl⟩ := ht'
    obtain ⟨d, hd, rfl⟩ := Option.map_eq_some_iff.mp hd'
    refine ⟨d.slot, slot_eq_some.mpr ⟨d, hd, rfl⟩, ?_⟩
    split
    · rename_i hi
      exact ⟨rfl, rfl, fun _ hr => by rw [ready_slot.mp hr] at hi; cases hi⟩
    · exact ⟨rfl, rfl, fun _ _ => rfl⟩
  · rw [hslot q] at hn
    exact hq (slot_eq_none.mpr (by simpa using hn))
  · obtain ⟨m', hm', hw⟩ := hw
    obtain ⟨m, hm, hsub⟩ := h.messages _ m' hm'
    exact ⟨m, hm, hsub.subject ▸ hw⟩

/-- The ledger of the consumer between the two halves of a fetch or an update. -/
def Store.ledgerAt (st : Store) (c : ConsumerRow) (cursor : ℤ) (rows : Table DeliveryRow.key) : Ledger :=
  { st.ledger c with cursor := cursor, slot := fun q => (rows.find? (c.stream, c.name, q)).map DeliveryRow.slot }

theorem ToppedUp.topUp {next : ℤ} (h : ToppedUp st c next cursor st₁) (hn : st.headOf c.stream = next)
    (hc : c.cursorSeq ≤ next) : Ledger.TopUp (st.ledger c) (st.ledgerAt c cursor st₁.deliveries) where
  cursor := h.le
  cursor_le := (h.head hc).trans_eq hn.symm
  head := rfl
  epoch := rfl
  limit := rfl
  wanted := rfl
  kept q t ht := by
    obtain ⟨d, hd, rfl⟩ := slot_eq_some.mp ht
    exact Option.map_eq_some_iff.mpr ⟨d, h.kept _ d hd, rfl⟩
  fresh q t ht := by
    obtain ⟨d, hd, rfl⟩ := Option.map_eq_some_iff.mp ht
    rcases h.fresh q d hd with hd | ⟨h₁, h₂, m, -, rfl⟩
    · exact .inl (slot_eq_some.mpr ⟨d, hd, rfl⟩)
    · exact .inr ⟨h₁, h₂, rfl⟩
  covered q h₁ h₂ hw := by
    obtain ⟨m, hm, hw⟩ := hw
    intro hn
    exact h.covered q m h₁ h₂ hm hw (Option.map_eq_none_iff.mp hn)

theorem Claims.claim {wait : ℤ} {claimed : List Claimed} (h : Claims st₁ c.stream c.name env.nowMs wait claimed st')
    (hs : st'.streamSeq = st.streamSeq) (hm : st'.messages = st.messages) :
    Ledger.Claim (st.ledgerAt c cursor st₁.deliveries) env.nowMs (· ∈ claimed.map Claimed.seq)
      (st'.ledger { c with cursorSeq := cursor }) where
  cursor := rfl
  head := by simp only [Store.ledgerAt, Store.ledger, Store.headOf, hs]
  epoch := rfl
  limit := rfl
  wanted := by simp only [Store.ledgerAt, Store.ledger, hm]; rfl
  taken q hq := by
    obtain ⟨⟨d, hd, hr, hv⟩, -⟩ := h.chosen.claimable q hq
    refine ⟨d.slot, env.nowMs + wait, Option.map_eq_some_iff.mpr ⟨d, hd, rfl⟩, ready_slot.mpr hr, hv, ?_⟩
    refine slot_eq_some.mpr ⟨d.claim env.nowMs wait, ?_, rfl⟩
    rw [h.deliveries, if_pos ⟨rfl, rfl, hq⟩, hd]
    rfl
  kept q hq := by
    show (st'.deliveries.find? (c.stream, c.name, q)).map DeliveryRow.slot = _
    rw [h.deliveries, if_neg fun hk => hq hk.2.2]
    rfl

/-- A fetch admits and then claims. -/
theorem Fetched.step {r : FetchResult} (h : Fetched st env c r st') (hs : st.Sound)
    (hc : st.consumers.find? c.key = some c) (hconf : Confined st c.key st') :
    st'.consumers.find? c.key = some { c with cursorSeq := r.cursorSeq } ∧
      Ledger.Step (st.ledger c) (.fetch env.nowMs (· ∈ r.claimed.map Claimed.seq))
        (st'.ledger { c with cursorSeq := r.cursorSeq }) := by
  obtain ⟨head, st₁, hhead, -, htop, hclaim, hcons⟩ := h.admitted
  obtain ⟨head', hhead', hnext, hb⟩ := hs.bounded (k := c.key) (by simp [hc])
  obtain rfl : head = head' := Option.some.inj (hhead.symm.trans hhead')
  have hle : c.cursorSeq ≤ head.next := hnext ▸ (hs.ledger _ c hc).cursor_le
  have htop := htop hb
  exact ⟨hcons ▸ htop.row, .fetch (htop.topUp hnext hle) (hclaim.claim hconf.seq hconf.messages)⟩

theorem Shrunk.shrink {low : ℤ} (h : Shrunk st c.stream c.name low st₁) (hs : (st.ledger c).Sound) :
    Ledger.Shrink (st.ledger c) low (st.ledgerAt c low st₁.deliveries) where
  cursor := rfl
  head := rfl
  epoch := rfl
  limit := rfl
  wanted := rfl
  target := by
    obtain ⟨d, hd, h0⟩ := h.target
    exact ⟨d.slot, slot_eq_some.mpr ⟨d, hd, rfl⟩, h0⟩
  kept q t ht := by
    obtain ⟨d, hd, rfl⟩ := Option.map_eq_some_iff.mp ht
    obtain ⟨hd, hlow⟩ := h.kept q d hd
    have hslot := slot_eq_some.mpr ⟨d, hd, rfl⟩
    exact ⟨hslot, fun h0 => hlow h0 (ready_slot.mp (hs.fresh q _ hslot h0).1)⟩
  dropped q t ht hn := by
    obtain ⟨d, hd, rfl⟩ := slot_eq_some.mp ht
    exact h.dropped q d hd (Option.map_eq_none_iff.mp hn)

theorem retune_withConfig (cursor : ℤ) {rows : Table DeliveryRow.key}
    (hd : ∀ q, st'.deliveries.find? (c.stream, c.name, q) = rows.find? (c.stream, c.name, q))
    (hs : st'.streamSeq = st.streamSeq) :
    Ledger.Retune (st.ledgerAt c cursor rows) (st'.ledger ({ c with cursorSeq := cursor }.withConfig cfg)) where
  cursor := rfl
  head := by simp only [Store.ledgerAt, Store.ledger, Store.headOf, hs]; rfl
  epoch := rfl
  slot := funext fun q => congrArg (Option.map DeliveryRow.slot) (hd q)

/-- An update shrinks, when it has to, and then changes the configuration. -/
theorem ConsumerUpdated.step (h : ConsumerUpdated st c.stream c.name cfg st') (hs : (st.ledger c).Sound)
    (hc : st.consumers.find? c.key = some c) (hseq : st'.streamSeq = st.streamSeq) :
    ∃ cursor, st'.consumers.find? c.key = some ({ c with cursorSeq := cursor }.withConfig cfg) ∧
      Ledger.Step (st.ledger c) .patch (st'.ledger ({ c with cursorSeq := cursor }.withConfig cfg)) := by
  obtain ⟨st₁, hst₁, hrow, hd⟩ := h
  have hc : st.consumers.find? (c.stream, c.name) = some c := hc
  rcases hst₁ with rfl | ⟨low, hlow⟩
  · rw [hc] at hrow
    exact ⟨c.cursorSeq, hrow, .patch (.inl rfl) (retune_withConfig c.cursorSeq hd hseq)⟩
  · rw [hlow.row, hc] at hrow
    exact ⟨low, hrow, .patch (.inr ⟨low, hlow.shrink hs⟩) (retune_withConfig low hd hseq)⟩

theorem ConsumerReplaced.step (h : ConsumerReplaced st c.stream cfg st') (hn : cfg.name = c.name)
    (hc : st.consumers.find? c.key = some c) (hseq : st'.streamSeq = st.streamSeq) :
    st'.consumers.find? c.key = some (c.withConfig cfg) ∧
      Ledger.Step (st.ledger c) .patch (st'.ledger (c.withConfig cfg)) := by
  have hrow := h.row
  rw [hn, show st.consumers.find? (c.stream, c.name) = some c from hc] at hrow
  exact ⟨hrow, .patch (.inl rfl) (retune_withConfig c.cursorSeq (fun q => by rw [h.deliveries]) hseq)⟩

theorem Sought.step (h : Sought st s n st') (hs : st.Sound) (hconf : Confined st (s, n) st')
    (hc : st.consumers.find? (s, n) = some c) (hc' : st'.consumers.find? (s, n) = some c') :
    Ledger.Step (st.ledger c) .seek (st'.ledger c') := by
  obtain ⟨c₀, head, dest, cursor, hc₀, hres, hrow⟩ := h.row
  obtain rfl : c = c₀ := Option.some.inj (hc.symm.trans hc₀)
  obtain rfl : c' = _ := Option.some.inj (hc'.symm.trans hrow)
  obtain ⟨rfl, rfl⟩ := pair_of_find? hc
  obtain ⟨head', hhead', hnext, hb⟩ := hs.bounded (k := (c.stream, c.name)) (by simp [hc])
  obtain rfl : head = head' := Option.some.inj (hres.head.symm.trans hhead')
  obtain ⟨hlo, hhi⟩ := hres.range hb
  refine .seek ⟨hb.floor.1.trans hlo, ?_, rfl, fun q => slot_eq_none.mpr (h.deliveries q)⟩
  show cursor ≤ st'.headOf c.stream
  rw [Store.headOf, hconf.seq]
  exact hhi.trans_eq hnext.symm

theorem Purged.step (h : Purged st s hit st') (hc : st.consumers.find? (s, n) = some c)
    (hc' : st'.consumers.find? (s, n) = some c') : Ledger.Step (st.ledger c) .purge (st'.ledger c') := by
  obtain ⟨cursor, gen, hrow, hle, hhead, hgen⟩ := h.row n c hc
  obtain rfl : c' = _ := Option.some.inj (hc'.symm.trans hrow)
  obtain ⟨rfl, rfl⟩ := pair_of_find? hc
  have hh : st'.headOf c.stream = st.headOf c.stream := by rw [Store.headOf, h.seq]; rfl
  refine .purge ⟨hle, fun hc => (hhead hc).trans_eq hh.symm, hh, ?_, rfl, fun q t ht => ?_⟩
  · exact hgen.elim (fun hg => .inr hg.1) fun hg => .inl hg.1
  · obtain ⟨d, hd, rfl⟩ := slot_eq_some.mp ht
    exact slot_eq_some.mpr ⟨d, ((h.deliveries _ d).mp hd).1, rfl⟩

/-! ## Frames -/

/-- A command confined to another consumer. -/
theorem Confined.ledger (h : Confined st pair st') (hk : c.key ≠ pair) : st'.ledger c = st.ledger c :=
  ledger_congr ⟨rfl, rfl, rfl, rfl, rfl, rfl⟩ (fun _ => h.deliveries _ hk) (fun _ => by rw [h.messages])
    (by rw [h.seq])

/-- A purge of another stream. -/
theorem Purged.ledger (h : Purged st s hit st') (hk : c.stream ≠ s) : st'.ledger c = st.ledger c := by
  refine ledger_congr ⟨rfl, rfl, rfl, rfl, rfl, rfl⟩ (fun q => Option.ext fun d => ?_) (fun q => Option.ext fun m => ?_)
    (by rw [h.seq])
  · rw [h.deliveries]
    simp [hk]
  · rw [h.messages]
    simp [hk]

theorem StreamCreated.ledger (h : StreamCreated st row st') (hk : c.stream ≠ row.name) :
    st'.ledger c = st.ledger c := by
  obtain ⟨next, -, hseq⟩ := h.seq
  exact ledger_congr ⟨rfl, rfl, rfl, rfl, rfl, rfl⟩ (fun _ => by rw [h.deliveries]) (fun _ => by rw [h.messages])
    (by rw [hseq, if_neg hk])

/-- A name without a counter and without a marker has no messages. -/
theorem StreamCreated.vacant (h : StreamCreated st row st') (hs : st.Sound) (q : ℤ) :
    st.messages.find? (row.name, q) = none := by
  by_contra hq
  obtain ⟨r, hr, -⟩ := hs.stored row.name q h.unmarked hq
  rw [h.fresh] at hr
  cases hr

theorem StreamDeleted.ledger (h : StreamDeleted st s st') (hk : c.stream ≠ s) : st'.ledger c = st.ledger c :=
  ledger_congr ⟨rfl, rfl, rfl, rfl, rfl, rfl⟩ (fun _ => by rw [h.deliveries, if_neg hk]) (fun _ => by rw [h.messages])
    (by rw [h.seq, if_neg hk])

end Steps

/-! ## Refinement -/

/-- What a committed request looks like to the consumer `k`. -/
def Request.action (env : Env) (req : Request) (reply : Reply) (es : List Event) (k : Bytes × Bytes) : Ledger.Action :=
  match req, reply with
  | .fetch s n _ _, .fetched r =>
    if (s, n) = k then .fetch env.nowMs (· ∈ r.claimed.map Claimed.seq) else .quiet (endsIn es k)
  | .seek s n _ false _, _ => if (s, n) = k then .seek else .quiet (endsIn es k)
  | .purge s _ false _, _ => if s = k.1 then .purge else .quiet (endsIn es k)
  | .createConsumer s cfg _ _, _ => if (s, cfg.name) = k then .patch else .quiet (endsIn es k)
  | .updateConsumer s n _ _, _ => if (s, n) = k then .patch else .quiet (endsIn es k)
  | .restart _, _ => .reclaim
  | _, _ => .quiet (endsIn es k)

theorem purge_refl (l : Ledger) : Ledger.Step l .purge l :=
  .purge ⟨le_rfl, id, rfl, .inl rfl, rfl, fun _ _ h => h⟩

theorem patch_refl (l : Ledger) : Ledger.Step l .patch l := .patch (.inl rfl) ⟨rfl, rfl, rfl, rfl⟩

theorem fetch_refl {l : Ledger} (h : l.cursor ≤ l.head) (now : ℤ) : Ledger.Step l (.fetch now (· ∈ ([] : List ℤ))) l :=
  .fetch ⟨le_rfl, h, rfl, rfl, rfl, rfl, fun _ _ h => h, fun _ _ h => .inl h, fun _ h h' => absurd h (not_le.mpr h')⟩
    ⟨rfl, rfl, rfl, rfl, rfl, fun _ h => by simp at h, fun _ _ => rfl⟩

section Refinement

variable {reply : Reply} {st st' : Store}

/-- A command confined to one consumer is quiet for the others. -/
theorem Confined.quiet (h : Confined st pair st') (hk : pair ≠ k) (hc : st.consumers.find? k = some c)
    (hc' : st'.consumers.find? k = some c') : Ledger.Step (st.ledger c) (.quiet done) (st'.ledger c') := by
  obtain rfl : c' = c := by
    rw [h.consumers k (Ne.symm hk), hc] at hc'
    exact (Option.some.inj hc').symm
  rw [h.ledger (by rw [show c'.key = k from find?_key hc]; exact Ne.symm hk)]
  exact .refl _ _

/-- **Refinement.** A committed request that leaves a consumer in place is a step of its ledger. -/
theorem effect_step {req : Request} (hs : st.Sound) (he : Effect env st req reply st')
    (hc : st.consumers.find? k = some c) (hc' : st'.consumers.find? k = some c') :
    Ledger.Step (st.ledger c) (req.action env reply st'.carriers k) (st'.ledger c') := by
  have hkey : c.key = k := find?_key hc
  have hhome := hs.home k (by simp [hc])
  -- the store did not change, so neither did the row
  have hsame : ∀ {a}, Ledger.Step (st.ledger c) a (st.ledger c) → st' = st →
      Ledger.Step (st.ledger c) a (st'.ledger c') := by
    rintro a h rfl
    obtain rfl : c = c' := Option.some.inj (hc.symm.trans hc')
    exact h
  -- a run of background moves
  have hmoves : Moves st st' → Ledger.Step (st.ledger c) (.quiet (endsIn st'.carriers k)) (st'.ledger c') := by
    intro hm
    have hb := hm.background
    obtain rfl : c = c' := Option.some.inj (hc.symm.trans (hb.consumers ▸ hc'))
    exact .quiet (hkey ▸ hb.quiet (by rw [← hkey] at hhome; exact hhome.1)) (hb.bounded (hkey.symm ▸ hc))
  -- a chunk of a deletion
  have hreaped : ∀ {name}, Reaped st name st' →
      Ledger.Step (st.ledger c) (.quiet (endsIn st'.carriers k)) (st'.ledger c') := by
    intro name hr
    obtain rfl : c = c' := Option.some.inj (hc.symm.trans (hr.consumers ▸ hc'))
    exact quiet_of_messages hr.deliveries hr.seq hr.messages
  cases req with
  | createStream cfg actor =>
    rcases he with he | he
    · exact hsame (.refl _ _) he
    · obtain rfl : c = c' := Option.some.inj (hc.symm.trans (he.consumers ▸ hc'))
      have hfresh := he.fresh
      rw [he.ledger fun hn => hhome.1 (by rw [← hkey]; rw [← hn] at hfresh; exact hfresh)]
      exact .refl _ _
  | deleteStream name confirm actor =>
    have he : StreamDeleted st name st' := he
    rw [he.consumers] at hc'
    split at hc'
    · cases hc'
    · rename_i hn
      obtain rfl : c = c' := Option.some.inj (hc.symm.trans hc')
      rw [he.ledger (by rw [← hkey] at hn; exact hn)]
      exact .refl _ _
  | reapChunk name => exact hreaped he
  | reapResume =>
    rcases he with he | ⟨name, -, he⟩
    · exact hsame (.refl _ _) he
    · exact hreaped he
  | createConsumer stream cfg start actor =>
    obtain ⟨hconf, he⟩ := he
    simp only [Request.action]
    split
    · rename_i hk
      rcases he with he | he | he
      · exact hsame (patch_refl _) he
      · have := he.fresh
        rw [hk, hc] at this
        cases this
      · obtain ⟨rfl, hn⟩ := Prod.mk.inj (hk.trans hkey.symm)
        obtain ⟨hrow, hstep⟩ := he.step hn (hkey.symm ▸ hc) hconf.seq
        obtain rfl : c' = _ := Option.some.inj (hc'.symm.trans (hkey ▸ hrow))
        exact hstep
    · rename_i hk
      exact hconf.quiet hk hc hc'
  | updateConsumer stream name p actor =>
    obtain ⟨hconf, he⟩ := he
    simp only [Request.action]
    split
    · rename_i hk
      rcases he with he | ⟨c₀, hc₀, -, he⟩
      · exact hsame (patch_refl _) he
      · obtain ⟨rfl, rfl⟩ := Prod.mk.inj (hk.trans hkey.symm)
        obtain ⟨cursor, hrow, hstep⟩ := he.step (hs.ledger _ c hc) (hkey.symm ▸ hc) hconf.seq
        obtain rfl : c' = _ := Option.some.inj (hc'.symm.trans (hkey ▸ hrow))
        exact hstep
    · rename_i hk
      exact hconf.quiet hk hc hc'
  | deleteConsumer stream name actor =>
    obtain ⟨hconf, hnone, -⟩ := he
    refine hconf.quiet (fun hk => ?_) hc hc'
    rw [hk, hc'] at hnone
    cases hnone
  | setPaused stream name paused actor =>
    obtain ⟨hconf, hd, hrow⟩ := he
    by_cases hk : (stream, name) = k
    · have hrow : c' = c ∨ c' = { c with paused := paused } := by
        rw [hk, hc, hc'] at hrow
        simpa using hrow
      have hl : st'.ledger c' = st.ledger c := by
        rcases hrow with rfl | rfl <;>
        exact ledger_congr ⟨rfl, rfl, rfl, rfl, rfl, rfl⟩ (fun _ => by rw [hd]) (fun _ => by rw [hconf.messages])
          (by rw [hconf.seq])
      rw [hl]
      exact .refl _ _
    · exact hconf.quiet hk hc hc'
  | fetch stream consumer batch maxBytes =>
    obtain ⟨r, c₀, rfl, hc₀, -, -, -, hconf, he⟩ := he
    simp only [Request.action]
    split
    · rename_i hk
      obtain rfl : c = c₀ := Option.some.inj (hc.symm.trans (hk ▸ hc₀))
      rcases he with ⟨hr, he⟩ | he
      · rw [hr]
        exact hsame (fetch_refl (hs.ledger _ c hc).cursor_le _) he
      · obtain ⟨hrow, hstep⟩ := he.step hs (hkey.symm ▸ hc) (by rw [hkey, ← hk]; exact hconf)
        obtain rfl : c' = _ := Option.some.inj (hc'.symm.trans (hkey ▸ hrow))
        exact hstep
    · rename_i hk
      exact hconf.quiet hk hc hc'
  | seek stream consumer dest dryRun actor =>
    obtain ⟨hconf, ⟨rfl, he⟩ | ⟨rfl, he⟩⟩ := he
    · exact hsame (.refl _ _) he
    · simp only [Request.action]
      split
      · rename_i hk
        obtain rfl := hk
        exact he.step hs hconf hc hc'
      · rename_i hk
        exact hconf.quiet hk hc hc'
  | purge stream spec dryRun actor =>
    obtain ⟨s, n⟩ := k
    rcases he with he | ⟨rfl, he⟩
    · cases dryRun with
      | true => exact hsame (.refl _ _) he
      | false =>
        simp only [Request.action]
        split
        · exact hsame (purge_refl _) he
        · exact hsame (.refl _ _) he
    · simp only [Request.action]
      split
      · rename_i hk
        obtain rfl := hk
        exact he.step hc hc'
      · rename_i hk
        rw [he.elsewhere _ (Ne.symm hk), hc] at hc'
        cases hc'
        rw [he.ledger (by rw [(pair_of_find? hc).1]; exact Ne.symm hk)]
        exact .refl _ _
  | restart unclean =>
    have he : Restarted env st st' := he
    obtain rfl : c = c' := Option.some.inj (hc.symm.trans (he.consumers ▸ hc'))
    exact he.step
  | updateStream | publish | publishBatch | sweepDedup | settle | sweep | retire | retention | trimEvents
  | adminAction =>
    exact hmoves he

end Refinement

end Messq

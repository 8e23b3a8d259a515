import Messq.Backed
import Messq.Property.Fence

/-! # The frontier of a consumer

A fetch hands out a prefix, in sequence order, of what is ready, so what was handed out stays behind what was not
(`Runs.ordered`). From that follow the frontier of a consumer (`cursor_frontier`) and that a settled delivery never
comes back (`settled_stays_settled`). Both rest on every delivery having its message: a reap chunk that outlives its
marker takes the message of a waiting row, the next fetch passes the row over, and the order is lost
(`stray_chunk_reorders`, `stray_chunk_redelivers`). -/

namespace Messq

open Lib

variable {b : Broker} {k : Bytes × Bytes} {c c' : ConsumerRow} {l : Ledger} {h : List Visit} {s : Step} {v : Visit}
  {q : ℤ} {env : Env} {items : List ClientItem} {st st' : Store}

/-! ## A fetch keeps the order -/

/-- A fetch leaves no waiting row below a row it hands out for the first time. -/
theorem Fetched.prompt {r : FetchResult} (h : Fetched st env c r st') (hs : st.Sound) (hb : st.Backed)
    (hc : st.consumers.find? c.key = some c) :
    Ledger.Prompt (· ∈ r.claimed.map Claimed.seq) (st'.ledger { c with cursorSeq := r.cursorSeq }) := by
  obtain ⟨head, st₁, hhead, hmsgs, htop, hclaim, -⟩ := h.admitted
  obtain ⟨head', hhead', hnext, hbound⟩ := hs.bounded (k := c.key) (by simp [hc])
  obtain rfl : head = head' := Option.some.inj (hhead.symm.trans hhead')
  have hle : c.cursorSeq ≤ head.next := hnext ▸ (hs.ledger _ c hc).cursor_le
  have htop := htop hbound
  have hmid := (htop.topUp hnext hle).sound (hs.ledger _ c hc)
  have hslot : ∀ {p d}, st₁.deliveries.find? (c.stream, c.name, p) = some d →
      (st.ledgerAt c r.cursorSeq st₁.deliveries).slot p = some d.slot :=
    fun hd => Option.map_eq_some_iff.mpr ⟨_, hd, rfl⟩
  intro q u p t hq hu hu1 ht ht0
  -- the row just handed out was waiting and due, so the clock is not before the epoch
  obtain ⟨⟨d, hd, -, hdue⟩, -⟩ := hclaim.chosen.claimable q hq
  have hnow : 0 ≤ env.nowMs := by
    obtain ⟨d', hd', rfl⟩ := slot_eq_some.mp hu
    have hd' : st'.deliveries.find? (c.stream, c.name, q) = some d' := hd'
    rw [hclaim.deliveries, if_pos ⟨rfl, rfl, hq⟩, hd] at hd'
    cases hd'
    have hd0 : d.slot.attempts = 0 := by
      have : d.attempts + 1 = 1 := hu1
      show d.attempts = 0
      omega
    have hzero := (hmid.fresh q _ (hslot hd) hd0).2.1
    have hzero : d.visibleAt = 0 := hzero
    omega
  obtain ⟨e, he, rfl⟩ := slot_eq_some.mp ht
  have he : st'.deliveries.find? (c.stream, c.name, p) = some e := he
  have hp : p ∉ r.claimed.map Claimed.seq := by
    intro hp
    rw [hclaim.deliveries, if_pos ⟨rfl, rfl, hp⟩] at he
    obtain ⟨e₁, he₁, rfl⟩ := Option.map_eq_some_iff.mp he
    have h0 := hmid.attempts p _ (hslot he₁)
    have h0 : 0 ≤ e₁.attempts := h0
    have h1 : e₁.attempts + 1 = 0 := ht0
    omega
  rw [hclaim.deliveries, if_neg fun hk => hp hk.2.2] at he
  obtain ⟨hready, hzero, -⟩ := hmid.fresh p _ (hslot he) ht0
  obtain ⟨m, hm, -⟩ := htop.backs hb he
  have hclaimable : st₁.Claimable c.stream c.name env.nowMs p := by
    refine ⟨⟨e, he, ready_slot.mp hready, ?_⟩, by rw [hmsgs, hm]; simp⟩
    have hzero : e.visibleAt = 0 := hzero
    omega
  have hqp := hclaim.chosen.first q hq p hclaimable hp
  have hne : q ≠ p := fun heq => hp (heq ▸ hq)
  omega

theorem view_prompt {l' : Ledger} (hs : b.store.Sound) (hb : b.store.Backed) (hl : b.view k = some l)
    (hl' : (b.exec s).1.view k = some l') {now : ℤ} {S : ℤ → Prop}
    (ha : Visit.action (visit Broker.exec b s) k = .fetch now S) : Ledger.Prompt S l' := by
  obtain ⟨stream, name⟩ := k
  obtain ⟨batch, maxBytes, r, es, hreq, hout, -, rfl⟩ := action_fetch ha
  obtain ⟨c', hc', rfl⟩ := view_eq_some.mp hl'
  rcases exec_cases b s with ⟨reply, st, hcom⟩ | ⟨-, -, -, hno⟩
  · have hrep : reply = .fetched r := by
      have := hcom.out.symm.trans hout
      injection this
    have hclaimed : Visit.claimed (visit Broker.exec b s) (stream, name) = r.claimed := by
      simp only [Visit.claimed, hreq, hout, if_pos]
    have he := hcom.effect
    rw [show s.req = _ from hreq] at he
    obtain ⟨r', c, hr', hc, -, -, -, hconf, he⟩ := he
    obtain rfl : r = r' := by rw [hrep] at hr'; injection hr'
    rw [hcom.post] at hc' ⊢
    rw [hclaimed]
    rcases he with ⟨hnil, -⟩ | he
    · intro q u p t hq
      rw [hnil] at hq
      cases hq
    · obtain ⟨rfl, rfl⟩ : c.stream = stream ∧ c.name = name := pair_of_find? hc
      have hs' := hs.uncarried []
      have hrow := (he.step hs' hc hconf).1
      obtain rfl : c' = _ := Option.some.inj (Eq.trans (Eq.symm hc') hrow)
      have hprompt := he.prompt hs' hb hc
      exact hprompt
  · exact absurd hout (hno _ _)

/-- **Order.** In every state of a run without stray chunks, what a consumer handed out is behind what waits. -/
theorem Runs.ordered (r : Runs h b) (hm : ∀ v ∈ h, ReapsMarked v) (hl : b.view k = some l) : l.Ordered := by
  refine r.invariant_along (C := fun _ => ReapsMarked) (I := fun _ b => ∀ l, b.view k = some l → l.Ordered)
    (upheld_of_forall hm) ?_ ?_ l hl
  · intro l hl
    cases hl
  · intro h b s r hc ih _ l' hl'
    have r : Runs h b := r
    have hb := r.backed hc.forall
    cases hv : b.view k with
    | none => exact Ledger.ordered_of_empty (view_born r.sound hv hl').1
    | some l =>
      exact (view_step r.sound hv hl').ordered (view_sound r.sound hv) (ih l hv) fun now S ha =>
        view_prompt r.sound hb hv hl' ha

/-! ## What was claimed since the last reset -/

/-- The visit sought the consumer `k`. -/
def Visit.seeks (v : Visit) (k : Bytes × Bytes) : Bool :=
  match v.act.req, v.out with
  | .seek s n _ false _, .ok _ _ => (s, n) == k
  | _, _ => false

/-- The visit sought the consumer `k`, or left none of that name. -/
def Visit.resets (v : Visit) (k : Bytes × Bytes) : Bool :=
  Visit.seeks v k || (v.post.store.consumers.find? k).isNone

/-- Everything the consumer `k` claimed since its creation or its last seek. -/
def claimedSince (k : Bytes × Bytes) (h : List Visit) : List ℤ :=
  h.foldl (fun S v => if Visit.resets v k then [] else S ++ (Visit.claimed v k).map Claimed.seq) []

theorem claimedSince_concat (k : Bytes × Bytes) (h : List Visit) (v : Visit) : claimedSince k (h ++ [v]) =
    if Visit.resets v k then [] else claimedSince k h ++ (Visit.claimed v k).map Claimed.seq := by
  simp [claimedSince]

theorem seeks_of_action (h : Visit.action v k = .seek) : Visit.seeks v k = true := by
  obtain ⟨dest, actor, hreq⟩ := action_seek h
  unfold Visit.action at h
  split at h
  · rename_i reply es hout
    simp [Visit.seeks, hreq, hout]
  · cases h

theorem resets_eq_false : Visit.resets v k = false ↔
    Visit.seeks v k = false ∧ ∃ c, v.post.store.consumers.find? k = some c := by
  simp only [Visit.resets, Bool.or_eq_false_iff, Option.isNone_eq_false_iff, Option.isSome_iff_exists]

/-- A claim is a fetch in the eyes of its consumer. -/
theorem action_of_claimed (h : q ∈ (Visit.claimed v k).map Claimed.seq) :
    Visit.action v k = .fetch v.act.env.nowMs (· ∈ (Visit.claimed v k).map Claimed.seq) := by
  unfold Visit.claimed at h ⊢
  split at h
  · rename_i s n batch maxBytes r es hreq hout
    split at h
    · rename_i hk
      simp only [Visit.action, hout, Request.action, hreq, if_pos hk]
    · cases h
  · cases h

/-- A visit that claims for `k` is a committed fetch of it. -/
theorem fetched_of_claimed (h : q ∈ (Visit.claimed (visit Broker.exec b s) k).map Claimed.seq) :
    ∃ batch maxBytes c r st, s.req = .fetch k.1 k.2 batch maxBytes ∧ b.store.consumers.find? k = some c ∧
      Visit.claimed (visit Broker.exec b s) k = r.claimed ∧ Committed b s (.fetched r) st ∧
      Fetched { b.store with carriers := [] } s.env c r st := by
  obtain ⟨batch, maxBytes, r, es, hreq, hout, -⟩ := action_fetch (action_of_claimed h)
  have hclaimed : Visit.claimed (visit Broker.exec b s) k = r.claimed := by
    simp only [Visit.claimed, hreq, hout, if_pos]
  rcases exec_cases b s with ⟨reply, st, hcom⟩ | ⟨-, -, -, hno⟩
  · obtain rfl : reply = .fetched r := by
      have := hcom.out.symm.trans hout
      injection this
    have he := hcom.effect
    rw [show s.req = _ from hreq] at he
    obtain ⟨r', c, hr', hc, -, -, -, -, hf⟩ := he
    cases hr'
    refine ⟨batch, maxBytes, c, r, st, hreq, hc, hclaimed, hcom, hf.resolve_left fun hnil => ?_⟩
    rw [hclaimed, hnil.1] at h
    cases h
  · exact absurd hout (hno _ _)

/-- Only a consumer that exists claims. -/
theorem view_of_claimed (h : q ∈ (Visit.claimed (visit Broker.exec b s) k).map Claimed.seq) :
    ∃ l, b.view k = some l := by
  obtain ⟨-, -, c, -, -, -, hc, -⟩ := fetched_of_claimed h
  exact ⟨_, view_of_find? hc⟩

/-- **Frontier.** Everything claimed since the last reset is behind the cursor and behind what waits. -/
theorem Runs.frontier (r : Runs h b) (hm : ∀ v ∈ h, ReapsMarked v) (hl : b.view k = some l) :
    ∀ q ∈ claimedSince k h, l.Behind q := by
  refine (r.invariant_along (C := fun _ => ReapsMarked)
    (I := fun h b => (b.view k = none → claimedSince k h = []) ∧
      ∀ l, b.view k = some l → ∀ q ∈ claimedSince k h, l.Behind q)
    (upheld_of_forall hm) ⟨fun _ => rfl, fun l hl => nomatch hl⟩ ?_).2 l hl
  rintro h b s r hc ⟨ihn, ih⟩ hv
  have r : Runs h b := r
  have r' : Runs (h ++ [visit Broker.exec b s]) (b.exec s).1 := r.step s
  refine ⟨fun hn => ?_, fun l' hl' q hq => ?_⟩
  · have hnone : (b.exec s).1.store.consumers.find? k = none := view_eq_none.mp hn
    rw [claimedSince_concat, if_pos]
    simp [Visit.resets, visit, hnone]
  · rw [claimedSince_concat] at hq
    split at hq
    · cases hq
    rename_i hr
    rw [Bool.not_eq_true, resets_eq_false] at hr
    have hord : l'.Ordered := r'.ordered (fun w hw => by
      rcases List.mem_append.mp hw with hw | hw
      · exact hc.forall w hw
      · rw [List.mem_singleton.mp hw]; exact hv) hl'
    rcases List.mem_append.mp hq with hq | hq
    · cases hpre : b.view k with
      | none =>
        rw [ihn hpre] at hq
        cases hq
      | some l =>
        refine (view_step r.sound hpre hl').behind (view_sound r.sound hpre) (fun ha => ?_) (ih l hpre q hq)
        rw [seeks_of_action ha] at hr
        cases hr.1
    · obtain ⟨l, hpre⟩ := view_of_claimed hq
      have hstep := view_step r.sound hpre hl'
      rw [action_of_claimed hq] at hstep
      exact hstep.claimed_behind (view_sound r.sound hpre) hord hq

/-! ## The cursor -/

/-- An update that does not lower `max_ack_pending` leaves the cursor where it is. -/
theorem updateConsumer_cursor {stream name : Bytes} {p : ConsumerPatch} {actor : Bytes} {r : ConsumerRow}
    (h : updateConsumer env stream name p actor st = .ok (r, st')) (hc : st.consumers.find? (stream, name) = some c)
    (hsh : p.shrinkTo c = none) (hc' : st'.consumers.find? (stream, name) = some c') : c'.cursorSeq = c.cursorSeq := by
  obtain ⟨c₀, hc₀, ⟨-, rfl⟩ | ⟨-, -, st₁, detail, hst₁, h₁⟩⟩ := updateConsumer_cases h
  · rw [hc] at hc'
    cases hc'
    rfl
  · obtain rfl : c = c₀ := Option.some.inj (hc.symm.trans hc₀)
    obtain rfl : st₁ = st := by rwa [ShrunkFor, hsh] at hst₁
    obtain rfl := commitEvent_run.mp h₁
    rw [find?_update_pair (·.withConfig (p.apply c.config)) fun _ _ => rfl, hc] at hc'
    cases hc'
    rfl

/-- **The cursor.** A committed request other than a seek moves the cursor back only by a shrink. -/
theorem cursor_step (hs : b.store.Sound) (hc : b.store.consumers.find? k = some c)
    (hc' : (b.exec s).1.store.consumers.find? k = some c') :
    c.cursorSeq ≤ c'.cursorSeq ∨ Visit.seeks (visit Broker.exec b s) k = true ∨
      ∃ p actor bound, s.req = .updateConsumer k.1 k.2 p actor ∧ p.shrinkTo c = some bound := by
  have hstep := view_step hs (view_of_find? hc) (view_of_find? hc')
  by_cases hk : Visit.action (visit Broker.exec b s) k = .seek
  · exact .inr (.inl (seeks_of_action hk))
  by_cases hp : Visit.action (visit Broker.exec b s) k = .patch
  · rcases exec_cases b s with ⟨reply, st, hcom⟩ | ⟨hst, -⟩
    · rw [hcom.post] at hc'
      obtain ⟨stream, name⟩ := k
      rcases action_patch hp with ⟨cfg, start, actor, hreq, hname⟩ | ⟨p, actor, hreq⟩
      · -- a create of an existing consumer rewrites its configuration only
        obtain rfl : cfg.name = name := hname
        have he := hcom.effect
        rw [show s.req = _ from hreq] at he
        obtain ⟨-, rfl | he | he⟩ := he
        · obtain rfl : c = c' := Option.some.inj (hc.symm.trans hc')
          exact .inl le_rfl
        · exact absurd (he.fresh.symm.trans hc) nofun
        · have hrow := he.row
          rw [show ({ b.store with carriers := [] } : Store).consumers.find? _ = some c from hc] at hrow
          obtain rfl : c' = _ := Option.some.inj (Eq.trans (Eq.symm hc') hrow)
          exact .inl le_rfl
      · cases hsh : p.shrinkTo c with
        | some bound => exact .inr (.inr ⟨p, actor, bound, hreq, hsh⟩)
        | none =>
          have hrun := hcom.run
          rw [show s.req = _ from hreq] at hrun
          obtain ⟨row, hrun, -⟩ := run_map.mp hrun
          exact .inl (updateConsumer_cursor hrun hc hsh hc').ge
    · rw [hst, hc] at hc'
      cases hc'
      exact .inl le_rfl
  · exact .inl (hstep.cursor hk hp)

/-- **Cursor frontier.** In every state of a run without stray chunks, the rows of a consumer lie below its cursor, its
waiting rows lie above everything it claimed since its creation or its last seek, and the cursor lies within the log;
along the run the cursor moves back only by a seek or by a shrink, and a shrink stays above everything claimed. -/
theorem cursor_frontier {h : List Visit} {b : Broker} (r : Runs h b) (hm : ∀ v ∈ h, ReapsMarked v) {k : Bytes × Bytes}
    {c : ConsumerRow} (hc : b.store.consumers.find? k = some c) :
    (∀ d ∈ b.store.deliveries, (d.stream, d.consumer) = k →
      d.seq < c.cursorSeq ∧ (d.attempts = 0 → ∀ q ∈ claimedSince k h, q < d.seq)) ∧
    (∀ q ∈ claimedSince k h, q < c.cursorSeq) ∧
    (∃ row, b.store.streamSeq.find? k.1 = some row ∧ 1 ≤ c.cursorSeq ∧ c.cursorSeq ≤ row.next) ∧
    ∀ h₁ v h₂ c₀ c₁, h = h₁ ++ v :: h₂ → v.pre.store.consumers.find? k = some c₀ →
      v.post.store.consumers.find? k = some c₁ →
      c₀.cursorSeq ≤ c₁.cursorSeq ∨ Visit.seeks v k = true ∨
        (∃ p actor bound, v.act.req = .updateConsumer k.1 k.2 p actor ∧ p.shrinkTo c₀ = some bound) ∧
        ∀ q ∈ claimedSince k h₁, q < c₁.cursorSeq := by
  obtain ⟨hstream, hname⟩ := pair_of_find? (s := k.1) (n := k.2) hc
  have hview := view_of_find? hc
  have hord := r.ordered hm hview
  refine ⟨fun d hd hk => ?_, fun q hq => (r.frontier hm hview q hq).1, ?_, ?_⟩
  · have hslot : (b.store.ledger c).slot d.seq = some d.slot := by
      refine slot_eq_some.mpr ⟨d, ?_, rfl⟩
      rw [hstream, hname, ← hk]
      exact Table.find?_of_mem hd
    exact ⟨hord.below d.seq _ hslot, fun h0 q hq => (r.frontier hm hview q hq).2 d.seq _ hslot h0⟩
  · obtain ⟨row, hrow, hhead, -⟩ := r.sound.bounded (k := k) (by simp [hc])
    have hl := r.sound.ledger k c hc
    have hle : c.cursorSeq ≤ b.store.headOf c.stream := hl.cursor_le
    rw [hstream, hhead] at hle
    exact ⟨row, hrow, hl.cursor_pos, hle⟩
  · rintro h₁ v h₂ c₀ c₁ rfl hc₀ hc₁
    obtain ⟨r₁, hvis, -⟩ := r.at_visit
    have r₁ : Runs h₁ v.pre := r₁
    have hpost : Runs (h₁ ++ [v]) v.post := by
      rw [hvis]
      exact r₁.step v.act
    have hc₁' : (v.pre.exec v.act).1.store.consumers.find? k = some c₁ := by
      rw [hvis] at hc₁
      exact hc₁
    rcases cursor_step r₁.sound hc₀ hc₁' with hle | hseek | ⟨p, actor, bound, hreq, hsh⟩
    · exact .inl hle
    · exact .inr (.inl (by rw [hvis]; exact hseek))
    · refine .inr (.inr ⟨⟨p, actor, bound, hreq, hsh⟩, fun q hq => ?_⟩)
      have hfront := hpost.frontier (fun w hw => hm w (by simp at hw ⊢; tauto)) (view_of_find? hc₁) q
      refine (hfront ?_).1
      have hreset : Visit.resets v k = false := resets_eq_false.mpr ⟨by simp [Visit.seeks, hreq], c₁, hc₁⟩
      rw [claimedSince_concat, hreset]
      exact List.mem_append_left _ hq

/-! ## A stray chunk -/

/-- A deletion whose marker a resume has cleared goes on after the stream was created again: its chunk takes the
messages of the waiting rows 1 and 2. The next fetch passes row 2 over and claims 3. -/
def strayChunk : List (ℤ × Request) :=
  [(1, aCreate), (2, .deleteStream aStream aStream []), (3, .reapResume),
   (4, aCreate),
   (5, aSubscribe),
   (6, aPublish),
   (7, aPublish),
   (8, aFetch 1), (9, .reapChunk aStream),
   (10, aPublish), (11, aFetch 10)]

/-- Row 2 still waits although 3 was claimed. -/
theorem stray_chunk_reorders :
    Runs (play strayChunk) (playState strayChunk) ∧
    ((playState strayChunk).store.deliveries.find? (aStream, aConsumer, 2)).map DeliveryRow.attempts = some 0 ∧
    claimedSince (aStream, aConsumer) (play strayChunk) = [1, 3] :=
  ⟨runs_play _, by decide +kernel⟩

/-- A run in which a shrink moves the cursor back. -/
def shrinkLife : List (ℤ × Request) :=
  aSetup 3 ++ [(10, aFetch 1), (11, .restart none),
    (12, .updateConsumer aStream aConsumer { maxAckPending := some 1 } [])]

theorem cursor_frontier_shrinkLife : ∃ c,
    (playState shrinkLife).store.consumers.find? (aStream, aConsumer) = some c ∧ c.cursorSeq = 2 ∧
    ∀ q ∈ claimedSince (aStream, aConsumer) (play shrinkLife), q < c.cursorSeq := by
  have hc : ((playState shrinkLife).store.consumers.find? (aStream, aConsumer)).map ConsumerRow.cursorSeq =
      some 2 := by decide +kernel
  obtain ⟨c, hfind, hcursor⟩ := Option.map_eq_some_iff.mp hc
  exact ⟨c, hfind, hcursor, (cursor_frontier (runs_play shrinkLife) (by decide +kernel) hfind).2.1⟩

/-! ## Settled deliveries -/

/-- A settle deletes only rows that were claimed. -/
theorem settled_attempts (hreq : s.req = .settle items) {k : Bytes × Bytes × ℤ} {d : DeliveryRow}
    (hd : b.store.deliveries.find? k = some d) (hn : (b.exec s).1.store.deliveries.find? k = none) :
    1 ≤ d.attempts := by
  rcases exec_cases b s with ⟨reply, st, hcom⟩ | ⟨hst, -⟩
  · rw [hcom.post] at hn
    have hrun := hcom.run
    rw [hreq] at hrun
    obtain ⟨res, hrun, -⟩ := run_map.mp hrun
    obtain ⟨it, rs, d', c, hacc⟩ := (settle_accounts hrun).2 k fun he => by
      have heq := he.symm.trans hn
      rw [show ({ b.store with carriers := [] } : Store).deliveries.find? k = some d from hd] at heq
      cases heq
    obtain rfl : d' = d := Option.some.inj (hacc.before.symm.trans hd)
    obtain ⟨x, -, hx⟩ := List.mem_map.mp (List.of_mem_zip hacc.mem).1
    rw [← hacc.attempt, ← hx]
    exact x.2.attempt.1
  · rw [hst, hd] at hn
    cases hn

/-- A position that is gone stays gone, and is not claimed, as long as the consumer is not reset. -/
theorem gone_along {b₀ : Broker} (r : History Broker.exec b₀ h b) (hs : b₀.store.Sound) {l₀ : Ledger}
    (hl₀ : b₀.view k = some l₀) (hg : l₀.Gone q) (hr : ∀ v ∈ h, Visit.resets v k = false) :
    ∀ v ∈ h, q ∉ (Visit.claimed v k).map Claimed.seq := by
  refine (r.invariant (C := fun _ v => Visit.resets v k = false)
    (I := fun h b => b.store.Sound ∧ (∃ l, b.view k = some l ∧ l.Gone q) ∧
      ∀ v ∈ h, q ∉ (Visit.claimed v k).map Claimed.seq)
    (upheld_of_forall hr) ⟨hs, ⟨l₀, hl₀, hg⟩, fun v hv => nomatch hv⟩ ?_).2.2
  rintro h b s ⟨hs, ⟨l, hl, hg⟩, ih⟩ hv
  obtain ⟨hseek, c', hc'⟩ := resets_eq_false.mp hv
  have hstep := view_step hs hl (view_of_find? hc')
  refine ⟨exec_sound hs s, ⟨_, view_of_find? hc', hstep.gone (view_sound hs hl) (fun ha => ?_) hg⟩, fun v hmem hq => ?_⟩
  · rw [seeks_of_action ha] at hseek
    cases hseek
  · rcases List.mem_append.mp hmem with hmem | hmem
    · exact ih v hmem hq
    · obtain rfl := List.mem_singleton.mp hmem
      rw [action_of_claimed hq] at hstep
      exact hstep.not_claimed hg hq

/-- A settle that deletes a row leaves its consumer, and the position is gone. -/
theorem gone_of_settled (r : Runs h b) (hm : ∀ w ∈ h, ReapsMarked w) (hreq : s.req = .settle items)
    (hpre : b.store.deliveries.find? (k.1, k.2, q) ≠ none)
    (hpost : (b.exec s).1.store.deliveries.find? (k.1, k.2, q) = none) :
    ∃ c, b.store.consumers.find? k = some c ∧ (b.exec s).1.store.consumers.find? k = some c ∧
      ((b.exec s).1.store.ledger c).Gone q := by
  obtain ⟨d, hd⟩ := Option.ne_none_iff_exists'.mp hpre
  obtain ⟨c, hc⟩ := Option.ne_none_iff_exists'.mp (r.sound.owner _ hpre)
  have hc : b.store.consumers.find? k = some c := hc
  obtain ⟨hstream, hname⟩ := pair_of_find? (s := k.1) (n := k.2) hc
  -- a settle leaves the consumers alone
  have hcons : (b.exec s).1.store.consumers.find? k = some c := by
    rcases exec_cases b s with ⟨reply, st, hcom⟩ | ⟨hst, -⟩
    · have he := hcom.effect
      rw [hreq] at he
      rw [hcom.post]
      exact (congrArg (·.find? k) (Moves.background he).consumers).trans hc
    · rw [hst]
      exact hc
  have hstep := view_step r.sound (view_of_find? hc) (view_of_find? hcons)
  have hslot : (b.store.ledger c).slot q = some d.slot := by
    refine slot_eq_some.mpr ⟨d, ?_, rfl⟩
    rw [hstream, hname]
    exact hd
  have hatt := settled_attempts hreq hd hpost
  have hbehind : (b.store.ledger c).Behind q := by
    refine (r.ordered hm (view_of_find? hc)).behind hslot ?_
    show d.attempts ≠ 0
    omega
  have hseek : Visit.action (visit Broker.exec b s) k ≠ .seek := by
    intro ha
    obtain ⟨dest, actor, hs⟩ := action_seek ha
    rw [show s.req = _ from hs] at hreq
    cases hreq
  refine ⟨c, hc, hcons, hstep.behind (r.sound.ledger k c hc) hseek hbehind, slot_eq_none.mpr ?_⟩
  rw [hstream, hname]
  exact hpost

/-- **Settled stays settled.** In a run without stray chunks, once a settle has deleted a delivery row, no later fetch
claims that position for the consumer until the consumer is sought or deleted. -/
theorem settled_stays_settled {h₁ h₂ : List Visit} {v : Visit} {b : Broker} (r : Runs (h₁ ++ v :: h₂) b)
    (hm : ∀ w ∈ h₁ ++ v :: h₂, ReapsMarked w) {items : List ClientItem} (hreq : v.act.req = .settle items)
    {k : Bytes × Bytes} {q : ℤ} (hpre : v.pre.store.deliveries.find? (k.1, k.2, q) ≠ none)
    (hpost : v.post.store.deliveries.find? (k.1, k.2, q) = none) (hr : ∀ w ∈ h₂, Visit.resets w k = false) :
    ∀ w ∈ h₂, q ∉ (Visit.claimed w k).map Claimed.seq := by
  obtain ⟨r₁, hvis, r₂⟩ := r.at_visit
  have r₁ : Runs h₁ v.pre := r₁
  have hexec : v.post = (v.pre.exec v.act).1 := by rw [hvis]; rfl
  rw [hexec] at hpost r₂
  obtain ⟨c, -, hcons, hgone⟩ := gone_of_settled r₁ (fun w hw => hm w (by simp [hw])) hreq hpre hpost
  exact gone_along r₂ (exec_sound r₁.sound v.act) (view_of_find? hcons) hgone hr

/-- After the stray chunk, 3 is acknowledged, a shrink moves the cursor back to the row passed over, and the next fetch
finds 3 again. -/
def strayRedelivery : List (ℤ × Request) :=
  strayChunk ++ [(12, .settle [anItem .ack 3 1 1]),
    (13, .updateConsumer aStream aConsumer { maxAckPending := some 1 } []),
    (14, .settle [anItem .ack 1 1 1]), (15, aFetch 10)]

/-- The row of 3 is deleted by the settle at 12 and claimed again by the fetch at 15. -/
theorem stray_chunk_redelivers :
    Runs (play strayRedelivery) (playState strayRedelivery) ∧
    (play strayRedelivery).map (fun v => ((v.post.store.deliveries.find? (aStream, aConsumer, 3)).isSome,
      (Visit.claimed v (aStream, aConsumer)).map Claimed.seq)) =
      [(false, []), (false, []), (false, []), (false, []), (false, []), (false, []), (false, []), (false, [1]),
       (false, []), (false, []), (true, [3]), (false, []), (false, []), (false, []), (true, [3])] ∧
    ((play strayRedelivery).drop 5).all (fun v => !Visit.resets v (aStream, aConsumer)) = true :=
  ⟨runs_play _, by decide +kernel⟩

/-- Three rows; 1 is acknowledged, then the window shrinks and grows again. -/
def settledLife : List (ℤ × Request) :=
  aSetup 3 ++ [(10, aFetch 1)]

def settledRest : List (ℤ × Request) :=
  [(12, .updateConsumer aStream aConsumer { maxAckPending := some 1 } []), (13, .restart none),
   (14, aFetch 10)]

/-- The settle of 1 in the middle of such a run. -/
def settledVisit : Visit :=
  visit Broker.exec (playState settledLife) ⟨.atMs 11, .settle [anItem .ack 1 1 1]⟩

def settledTail : List Visit := trace Broker.exec settledVisit.post (settledRest.map fun r => ⟨.atMs r.1, r.2⟩)

theorem settled_stays_settled_life :
    settledTail.map (fun v => (Visit.claimed v (aStream, aConsumer)).map Claimed.seq) = [[], [], [2]] ∧
    ∀ w ∈ settledTail, 1 ∉ (Visit.claimed w (aStream, aConsumer)).map Claimed.seq := by
  have hrun : Runs (play settledLife ++ settledVisit :: settledTail)
      (run Broker.exec settledVisit.post (settledRest.map fun r => ⟨.atMs r.1, r.2⟩)) := by
    rw [← List.singleton_append, ← List.append_assoc]
    exact ((runs_play settledLife).step _).trans (history_trace _ _)
  exact ⟨by decide +kernel, settled_stays_settled hrun (by decide +kernel) rfl (by decide +kernel) (by decide +kernel)
    (by decide +kernel)⟩

end Messq

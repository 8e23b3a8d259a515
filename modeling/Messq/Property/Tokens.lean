import Messq.Property.Generation
import Messq.Property.Bound
import Messq.Property.Sequence

/-! # Ack tokens are not minted twice

A token names a delivery by stream, consumer, sequence number, attempt and generation. While its consumer lives, a
hand-out that happened is spent (`Ledger.Spent`); when its message is gone, its number does not come back. What breaks
this is a consumer that is deleted and created again over messages it has claimed before: it starts again at
generation 1 (`recreated_consumer_reuses`). As long as no consumer is created over such messages, no token of the
history repeats (`tokens_unique`). -/

namespace Messq

open Lib Table

variable {b : Broker} {k : Bytes × Bytes} {s : Step} {t : Token} {q : ℤ}

/-- The tokens a run minted. -/
def mintedTokens (h : List Visit) : List Token := h.flatMap Visit.tokens

/-- Everything the name `k` ever claimed. -/
def claimedEver (k : Bytes × Bytes) (h : List Visit) : List ℤ := h.flatMap fun v => (Visit.claimed v k).map Claimed.seq

/-- The consumers that come into being. -/
def Visit.born (v : Visit) : List (Bytes × Bytes) :=
  (v.post.store.consumers.rows.map ConsumerRow.key).filter fun k => (v.pre.store.consumers.find? k).isNone

/-- When a consumer comes into being, no message that its name claimed before is still stored. -/
def CreatedFresh (past : List Visit) (v : Visit) : Prop :=
  ∀ k ∈ Visit.born v, ∀ q ∈ claimedEver k past, v.pre.store.messages.find? (k.1, q) = none

instance (past : List Visit) (v : Visit) : Decidable (CreatedFresh past v) := by unfold CreatedFresh; infer_instance

theorem mem_born {l' : Ledger} (hl : b.view k = none) (hl' : (b.exec s).1.view k = some l') :
    k ∈ Visit.born (visit Broker.exec b s) := by
  obtain ⟨c, hc, -⟩ := view_eq_some.mp hl'
  refine List.mem_filter.mpr ⟨?_, Option.isNone_iff_eq_none.mpr (view_eq_none.mp hl)⟩
  exact List.mem_map.mpr ⟨c, mem_of_find? hc, find?_key hc⟩

/-- A claimed message is stored. -/
theorem stored_of_claimed (h : q ∈ (Visit.claimed (visit Broker.exec b s) k).map Claimed.seq) :
    b.store.messages.find? (k.1, q) ≠ none := by
  obtain ⟨-, -, c, r, st, -, hc, hclaimed, -, hf⟩ := fetched_of_claimed h
  obtain ⟨head, st₁, -, hmsgs, -, hclaim, -⟩ := hf.admitted
  obtain ⟨hcs, -⟩ := pair_of_find? (s := k.1) (n := k.2) hc
  have hm := (hclaim.chosen.claimable q (hclaimed ▸ h)).2
  rw [hmsgs, hcs] at hm
  exact hm

/-! ## Spent tokens -/

/-- The token is not minted again: its message is gone for good, or its consumer has moved past it. -/
structure Barred (b : Broker) (t : Token) : Prop where
  below : t.seq < b.store.upcoming t.stream
  spent : b.store.messages.find? (t.stream, t.seq) = none ∨
    ∀ l, b.view (t.stream, t.consumer) = some l → l.Spent t.seq t.attempt t.generation

/-- A pending position is below the next number of the stream. -/
theorem upcoming_of_slot {l : Ledger} {t : Slot} (hs : b.store.Sound) (hl : b.view k = some l)
    (ht : l.slot q = some t) :
    q < b.store.upcoming k.1 := by
  have hlt := ((view_sound hs hl).range q t ht).2
  obtain ⟨c, hc, rfl⟩ := view_eq_some.mp hl
  obtain ⟨row, hrow⟩ := Option.ne_none_iff_exists'.mp (hs.home k (by simp [hc])).1
  obtain ⟨hcs, -⟩ := pair_of_find? (s := k.1) (n := k.2) hc
  rw [upcoming_of_seq hrow]
  simpa [Store.ledger, Store.headOf, hcs, hrow] using hlt

/-- A minted token in the terms of its consumer's ledger. -/
theorem Minted.ledger (hs : b.store.Sound) (hg : ∀ c ∈ b.store.consumers, c.generation ≤ maxInt32)
    (ht : Minted (visit Broker.exec b s) t) :
    ∃ l l' u, b.view (t.stream, t.consumer) = some l ∧ (b.exec s).1.view (t.stream, t.consumer) = some l' ∧
      Ledger.Step l (Visit.action (visit Broker.exec b s) (t.stream, t.consumer)) l' ∧
      t.seq ∈ (Visit.claimed (visit Broker.exec b s) (t.stream, t.consumer)).map Claimed.seq ∧
      l'.slot t.seq = some u ∧ u.attempts = t.attempt ∧ l.epoch = t.generation ∧ l'.epoch = t.generation := by
  obtain ⟨c, hc, hgen⟩ := ht.consumer
  obtain ⟨x, hx, hxs, -⟩ := ht.claimed
  obtain ⟨d, hd, hatt⟩ := ht.row
  have hq : t.seq ∈ (Visit.claimed (visit Broker.exec b s) (t.stream, t.consumer)).map Claimed.seq :=
    hxs ▸ List.mem_map_of_mem hx
  have hs' : (b.exec s).1.store.Sound := exec_sound hs s
  have hd : (b.exec s).1.store.deliveries.find? t.row = some d := hd
  obtain ⟨c', hc'⟩ := Option.ne_none_iff_exists'.mp (hs'.owner t.row (by simp [hd]))
  have hc' : (b.exec s).1.store.consumers.find? (t.stream, t.consumer) = some c' := hc'
  have hcgen : t.generation = c.generation := by
    rw [hgen, toInt32_eq (hs.config _ c hc).1 (hg c (mem_of_find? hc))]
  obtain ⟨hcs, hcn⟩ := pair_of_find? hc'
  refine ⟨_, _, d.slot, view_of_find? hc, view_of_find? hc', view_step hs (view_of_find? hc) (view_of_find? hc'), hq,
    slot_eq_some.mpr ⟨d, ?_, rfl⟩, hatt, hcgen.symm, ?_⟩
  · rw [hcs, hcn]; exact hd
  · exact (minted_generation hs ht hc hc').trans hcgen.symm

/-- A consumer that comes into being was created. -/
theorem created_of_view {l' : Ledger} (hs : b.store.Sound) (hl : b.view k = none)
    (hl' : (b.exec s).1.view k = some l') :
    ∃ cfg start actor, s.req = .createConsumer k.1 cfg start actor ∧ k.2 = cfg.name := by
  rw [view_eq_none] at hl
  obtain ⟨c', hc', -⟩ := view_eq_some.mp hl'
  rcases exec_cases b s with ⟨reply, st, hcom⟩ | ⟨hst, -⟩
  · rw [hcom.post] at hc'
    obtain ⟨cfg, start, actor, hreq, hk, -⟩ :=
      effect_inserted (hs.uncarried []) hcom.effect hl fun hn => absurd (hn.symm.trans hc') nofun
    exact ⟨cfg, start, actor, hreq, hk⟩
  · rw [hst, hl] at hc'
    cases hc'

/-- What the steps of a ledger keep lasts until the message is gone for good, as long as no consumer is created over
it. -/
theorem closed_step {P : Ledger → Prop} (hP : ∀ {l a l'}, Ledger.Step l a l' → l.Sound → P l → P l')
    (hs : b.store.Sound) (hf : SeedsFresh (visit Broker.exec b s)) (hq : q < b.store.upcoming k.1)
    (hnew : k ∈ Visit.born (visit Broker.exec b s) → b.store.messages.find? (k.1, q) = none)
    (h : b.store.messages.find? (k.1, q) = none ∨ ∀ l, b.view k = some l → P l) :
    q < (b.exec s).1.store.upcoming k.1 ∧
      ((b.exec s).1.store.messages.find? (k.1, q) = none ∨ ∀ l, (b.exec s).1.view k = some l → P l) := by
  obtain ⟨hdraw, hstored⟩ := exec_drawn hs hf
  -- a number below the counter is not stored again
  have hgone : b.store.messages.find? (k.1, q) = none → (b.exec s).1.store.messages.find? (k.1, q) =
      none := fun hn => by
    by_contra hne
    rcases hstored _ _ hne with h | h
    · exact h hn
    · exact absurd hq (not_lt.mpr h)
  refine ⟨hq.trans_le (hdraw _).le, ?_⟩
  rcases h with hn | hspent
  · exact .inl (hgone hn)
  cases hl : b.view k with
  | some l => exact .inr fun l' hl' => hP (view_step hs hl hl') (view_sound hs hl) (hspent l hl)
  | none =>
    cases hl' : (b.exec s).1.view k with
    | none => exact .inr nofun
    | some l' => exact .inl (hgone (hnew (mem_born hl hl')))

/-- **Step.** A spent token stays spent. -/
theorem Barred.step {past : List Visit} (hb : Barred b t) (hs : b.store.Sound) (hf : SeedsFresh (visit Broker.exec b s))
    (hc : CreatedFresh past (visit Broker.exec b s)) (ht : t.seq ∈ claimedEver (t.stream, t.consumer) past) :
    Barred (b.exec s).1 t := by
  have h := closed_step (k := (t.stream, t.consumer)) (P := fun l => l.Spent t.seq t.attempt t.generation)
    (fun hstep hl => hstep.spent hl) hs hf hb.below (fun hk => hc _ hk _ ht) hb.spent
  exact ⟨h.1, h.2⟩

/-- What has just been minted is spent. -/
theorem Minted.barred (hs : b.store.Sound) (hg : ∀ c ∈ b.store.consumers, c.generation ≤ maxInt32)
    (hord : ∀ k l, (b.exec s).1.view k = some l → l.Ordered) (ht : Minted (visit Broker.exec b s) t) :
    Barred (b.exec s).1 t := by
  obtain ⟨l, l', u, hl, hl', hstep, hq, hu, hatt, -, hgen⟩ := ht.ledger hs hg
  rw [action_of_claimed hq] at hstep
  have hs' : (b.exec s).1.store.Sound := exec_sound hs s
  refine ⟨upcoming_of_slot hs' hl' hu, .inr fun l₂ hl₂ => ?_⟩
  obtain rfl : l' = l₂ := Option.some.inj (hl'.symm.trans hl₂)
  rw [← hatt, ← hgen]
  exact hstep.claimed_spent (view_sound hs hl) (hord _ _ hl') hq hu

/-- A spent token is not minted. -/
theorem Barred.not_minted (hb : Barred b t) (hs : b.store.Sound) (hg : ∀ c ∈ b.store.consumers, c.generation ≤ maxInt32)
    (ht : Minted (visit Broker.exec b s) t) : False := by
  obtain ⟨l, l', u, hl, hl', hstep, hq, hu, hatt, hgen, -⟩ := ht.ledger hs hg
  rw [action_of_claimed hq] at hstep
  rcases hb.spent with hn | hspent
  · exact stored_of_claimed hq hn
  · exact (hspent l hl).fresh hstep hq hu ⟨hatt.symm, hgen.symm⟩

/-! ## Runs -/

theorem mem_claimedEver {h : List Visit} (r : Runs h b) (ht : t ∈ mintedTokens h) :
    t.seq ∈ claimedEver (t.stream, t.consumer) h := by
  obtain ⟨v, hv, ht⟩ := List.mem_flatMap.mp ht
  obtain ⟨h₁, h₂, -, -, hvis, -⟩ := r.at_mem hv
  have hm : Minted v t := by
    rw [hvis] at ht ⊢
    exact tokens_minted ht
  obtain ⟨x, hx, hxs, -⟩ := hm.claimed
  exact List.mem_flatMap.mpr ⟨v, hv, hxs ▸ List.mem_map_of_mem hx⟩

/-- One fetch mints different tokens. -/
theorem tokens_nodup (b : Broker) (s : Step) : (Visit.tokens (visit Broker.exec b s)).Nodup := by
  by_cases hnil : Visit.tokens (visit Broker.exec b s) = []
  · rw [hnil]
    exact List.nodup_nil
  obtain ⟨t, ht⟩ := List.exists_mem_of_ne_nil _ hnil
  have hm := tokens_minted ht
  obtain ⟨x, hx, hxs, -⟩ := hm.claimed
  obtain ⟨-, -, c, r, st, -, -, hclaimed, hcom, hf⟩ := fetched_of_claimed (List.mem_map_of_mem (f := Claimed.seq) hx)
  have htok : Visit.tokens (visit Broker.exec b s) = r.claimed.map r.token := by
    simp only [Visit.tokens, visit, hcom.out, FetchResult.tokens]
  obtain ⟨head, st₁, -, -, -, hclaim, -⟩ := hf.admitted
  rw [htok]
  refine List.Nodup.of_map Token.seq ?_
  rw [List.map_map]
  exact hclaim.nodup

/-- The names in a minted token have no slash. -/
theorem Minted.names {v : Visit} (h : Minted v t) : chr '/' ∉ t.stream ∧ chr '/' ∉ t.consumer := by
  obtain ⟨batch, maxBytes, hreq, hcheck⟩ := h.req
  rw [hreq] at hcheck
  simp only [checkRequest, bind_eq_ok] at hcheck
  obtain ⟨_, hstream, _, hname, -⟩ := hcheck
  exact ⟨Subject.validateName_no_slash (liftGrammar_eq_ok.mp hstream),
    Subject.validateName_no_slash (liftGrammar_eq_ok.mp hname)⟩

/-- **Tokens.** No ack token is minted twice over the life of a data directory, in a run without stray chunks in which
no dead-letter stream is re-seeded, no consumer is created over messages its name has claimed before, and generations
stay within 32 bits. -/
theorem tokens_unique {h : List Visit} {b : Broker} (r : Runs h b) (hm : ∀ v ∈ h, ReapsMarked v)
    (hf : ∀ v ∈ h, SeedsFresh v) (hg : ∀ v ∈ h, ∀ c ∈ v.pre.store.consumers, c.generation ≤ maxInt32)
    (hc : Upheld CreatedFresh h) : ((mintedTokens h).map Token.string).Nodup := by
  have hinv : (∀ t ∈ mintedTokens h, Barred b t) ∧ (mintedTokens h).Nodup := by
    refine r.invariant_along
      (C := fun past v => ReapsMarked v ∧ SeedsFresh v ∧ (∀ c ∈ v.pre.store.consumers, c.generation ≤ maxInt32) ∧
        CreatedFresh past v)
      (I := fun h b => (∀ t ∈ mintedTokens h, Barred b t) ∧ (mintedTokens h).Nodup)
      (fun h₁ v h₂ hh => ⟨hm v (by simp [hh]), hf v (by simp [hh]), hg v (by simp [hh]), hc h₁ v h₂ hh⟩)
      ⟨nofun, List.nodup_nil⟩ ?_
    rintro h b s r hup ⟨ihb, ihn⟩ ⟨hv₁, hv₂, hv₃, hv₄⟩
    have r : Runs h b := r
    have r' : Runs (h ++ [visit Broker.exec b s]) (b.exec s).1 := r.step s
    have hord : ∀ k l, (b.exec s).1.view k = some l → l.Ordered := fun k l hl => r'.ordered (fun w hw => by
      rcases List.mem_append.mp hw with hw | hw
      · obtain ⟨p, q, hpq⟩ := List.append_of_mem hw
        exact (hup p w q hpq).1
      · rw [List.mem_singleton.mp hw]; exact hv₁) hl
    have hsplit : mintedTokens (h ++ [visit Broker.exec b s]) = mintedTokens h ++ Visit.tokens
        (visit Broker.exec b s) := by
      rw [mintedTokens, List.flatMap_append, List.flatMap_singleton, mintedTokens]
    rw [hsplit]
    refine ⟨fun t ht => ?_, List.nodup_append.mpr ⟨ihn, tokens_nodup b s, ?_⟩⟩
    · rcases List.mem_append.mp ht with ht | ht
      · exact (ihb t ht).step r.sound hv₂ hv₄ (mem_claimedEver r ht)
      · exact (tokens_minted ht).barred r.sound hv₃ hord
    · rintro t ht _ ht' rfl
      exact (ihb t ht).not_minted r.sound hv₃ (tokens_minted ht')
  have hnames : ∀ t ∈ mintedTokens h, chr '/' ∉ t.stream ∧ chr '/' ∉ t.consumer := fun t ht => by
    obtain ⟨v, hv, ht⟩ := List.mem_flatMap.mp ht
    obtain ⟨h₁, h₂, -, -, hvis, -⟩ := r.at_mem hv
    rw [hvis] at ht
    exact (tokens_minted ht).names
  exact hinv.2.map_on fun t ht u hu he =>
    Token.string_inj (hnames t ht).1 (hnames t ht).2 (hnames u hu).1 (hnames u hu).2 he

/-! ## A consumer that is created again -/

/-- The consumer is deleted while it holds a delivery, created again and fetches. -/
def recreatedLife : List (ℤ × Request) :=
  aSetup 1 ++ [(10, aFetch 1), (11, .deleteConsumer aStream aConsumer []),
    (12, aSubscribe),
    (13, aFetch 1)]

theorem recreated_consumer_reuses : Runs (play recreatedLife) (playState recreatedLife) ∧
    mintedTokens (play recreatedLife) =
      [⟨aStream, aConsumer, 1, 1, 1⟩, ⟨aStream, aConsumer, 1, 1, 1⟩] :=
  ⟨runs_play _, by decide +kernel⟩

/-- The consumer is deleted after its message was purged; a restart, a redelivery and a seek follow. -/
def renewedLife : List (ℤ × Request) :=
  aSetup 1 ++ [(10, aFetch 1), (11, .purge aStream {} false []),
    (12, .deleteConsumer aStream aConsumer []),
    (13, aSubscribe),
    (14, aPublish), (15, aFetch 1),
    (16, .restart none), (6000, aFetch 1),
    (6001, .seek aStream aConsumer .first false []), (6002, aFetch 1)]

theorem tokens_unique_renewedLife :
    (mintedTokens (play renewedLife)).map (fun t => (t.seq, t.attempt, t.generation)) =
      [(1, 1, 1), (2, 1, 1), (2, 2, 1), (2, 1, 2)] ∧
    ((mintedTokens (play renewedLife)).map Token.string).Nodup := by
  exact ⟨by decide +kernel, tokens_unique (runs_play renewedLife) (by decide +kernel) (by decide +kernel)
    (by decide +kernel) (by decide +kernel)⟩

/-! ## Every run is a run of the ledgers -/

/-- What a visit is to the consumer `k`. -/
def Visit.Simulates (v : Visit) (k : Bytes × Bytes) : Prop :=
  match v.pre.view k, v.post.view k with
  | none, none => True
  | none, some l => (∀ q, l.slot q = none) ∧ l.epoch = 1 ∧
      ∃ cfg start actor, v.act.req = .createConsumer k.1 cfg start actor ∧ k.2 = cfg.name
  | some l, some l' => l.Sound ∧ Ledger.Step l (Visit.action v k) l' ∧ l'.Sound
  | some _, none => v.act.req.deletes k = true

/-- **Refinement.** -/
theorem runs_refine_ledger {h : List Visit} (r : Runs h b) : ∀ v ∈ h, ∀ k, Visit.Simulates v k := by
  intro v hv k
  obtain ⟨h₁, h₂, -, r₁, hvis, r₂⟩ := r.at_mem hv
  have hs := r₁.sound
  have hpost : v.post = (v.pre.exec v.act).1 := congrArg (·.post) hvis
  unfold Visit.Simulates
  split
  next => trivial
  next l hl hl' =>
    rw [hpost] at hl'
    obtain ⟨hslot, hepoch⟩ := view_born hs hl hl'
    exact ⟨hslot, hepoch, created_of_view hs hl hl'⟩
  next l l' hl hl' =>
    refine ⟨view_sound hs hl, ?_, view_sound r₂.sound hl'⟩
    rw [hpost] at hl'
    rw [hvis]
    exact view_step hs hl hl'
  next l hl hn => exact view_vanished hs hl (hpost ▸ hn)

/-- The fetch after the restart hands message 2 out a second time. -/
theorem runs_refine_ledger_renewedLife : ∃ v ∈ play renewedLife, ∃ l l' : Ledger,
    v.pre.view (aStream, aConsumer) = some l ∧ v.post.view (aStream, aConsumer) = some l' ∧
    (l.slot 2).map Slot.attempts = some 1 ∧ (l'.slot 2).map Slot.attempts = some 2 ∧
    l.Sound ∧ Ledger.Step l (Visit.action v (aStream, aConsumer)) l' ∧ l'.Sound := by
  obtain ⟨v, hv, hpre, hpost⟩ : ∃ v ∈ play renewedLife,
      (v.pre.view (aStream, aConsumer)).map (fun l => (l.slot 2).map Slot.attempts) = some (some 1) ∧
      (v.post.view (aStream, aConsumer)).map (fun l => (l.slot 2).map Slot.attempts) =
        some (some 2) := by decide +kernel
  obtain ⟨l, hl, hone⟩ := Option.map_eq_some_iff.mp hpre
  obtain ⟨l', hl', htwo⟩ := Option.map_eq_some_iff.mp hpost
  have hsim := runs_refine_ledger (runs_play renewedLife) v hv (aStream, aConsumer)
  rw [Visit.Simulates, hl, hl'] at hsim
  exact ⟨v, hv, l, l', hl, hl', hone, htwo, hsim⟩

end Messq

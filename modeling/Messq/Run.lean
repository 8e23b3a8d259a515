import Messq.Invariant

/-! # A consumer along a run

`Broker.view` is the ledger of a consumer in a state of a run. From one state to the next it takes a ledger step
named by `Visit.action` (`view_step`), or it starts empty at epoch 1 (`view_born`). -/

namespace Messq

open Lib

variable {env : Env} {h : List Visit} {req : Request} {st st' : Store} {k : Bytes × Bytes} {c : ConsumerRow}
  {l : Ledger} {s : Step}

/-- The ledger of the consumer `k`, when there is one. -/
def Broker.view (b : Broker) (k : Bytes × Bytes) : Option Ledger := (b.store.consumers.find? k).map b.store.ledger

/-- What a visit looks like to the consumer `k`. -/
def Visit.action (v : Visit) (k : Bytes × Bytes) : Ledger.Action :=
  match v.out with
  | .ok reply es => v.act.req.action v.act.env reply es k
  | _ => .quiet fun _ => False

/-- The rows a visit claimed for the consumer `k`. -/
def Visit.claimed (v : Visit) (k : Bytes × Bytes) : List Claimed :=
  match v.act.req, v.out with
  | .fetch s n _ _, .ok (.fetched r) _ => if (s, n) = k then r.claimed else []
  | _, _ => []

section View

variable {b : Broker} {l' : Ledger}

theorem view_eq_some : b.view k = some l ↔ ∃ c, b.store.consumers.find? k = some c ∧ b.store.ledger c = l :=
  Option.map_eq_some_iff

theorem view_eq_none : b.view k = none ↔ b.store.consumers.find? k = none := Option.map_eq_none_iff

theorem view_of_find? (h : b.store.consumers.find? k = some c) : b.view k = some (b.store.ledger c) :=
  view_eq_some.mpr ⟨c, h, rfl⟩

theorem view_sound (hs : b.store.Sound) (hl : b.view k = some l) : l.Sound := by
  obtain ⟨c, hc, rfl⟩ := view_eq_some.mp hl
  exact hs.ledger k c hc

/-- **Step.** A consumer that stays takes a ledger step. -/
theorem view_step (hs : b.store.Sound) (hl : b.view k = some l) (hl' : (b.exec s).1.view k = some l') :
    Ledger.Step l (Visit.action (visit Broker.exec b s) k) l' := by
  obtain ⟨c, hc, rfl⟩ := view_eq_some.mp hl
  obtain ⟨c', hc', rfl⟩ := view_eq_some.mp hl'
  rcases exec_cases b s with ⟨reply, st, hcom⟩ | ⟨hst, -, -, hout⟩
  · rw [hcom.post] at hc' ⊢
    simp only [Visit.action, visit, hcom.out]
    have hstep := effect_step (hs.uncarried []) hcom.effect hc hc'
    exact hstep
  · have ha : Visit.action (visit Broker.exec b s) k = .quiet fun _ => False := by
      cases ho : (b.exec s).2 with
      | ok reply es => exact absurd ho (hout reply es)
      | _ => simp only [Visit.action, visit, ho]
    rw [ha, hst]
    rw [hst, hc] at hc'
    cases hc'
    exact .refl _ _

/-- A consumer that comes into being has nothing pending. -/
theorem view_born (hs : b.store.Sound) (hl : b.view k = none) (hl' : (b.exec s).1.view k = some l') :
    (∀ q, l'.slot q = none) ∧ l'.epoch = 1 := by
  rw [view_eq_none] at hl
  obtain ⟨c', hc', rfl⟩ := view_eq_some.mp hl'
  rcases exec_cases b s with ⟨reply, st, hcom⟩ | ⟨hst, -⟩
  · rw [hcom.post] at hc' ⊢
    have he := hcom.effect
    obtain ⟨cfg, start, actor, hreq, hk, hins⟩ := effect_inserted (hs.uncarried []) he hl fun hn => by
      rw [hc'] at hn; cases hn
    rw [hreq] at he
    obtain ⟨stream, name⟩ := k
    obtain rfl : name = cfg.name := hk
    obtain ⟨hgen, -, hslot, -⟩ := hins.start (hs.uncarried []) he.1 hc'
    exact ⟨hslot, hgen⟩
  · rw [hst, hl] at hc'
    cases hc'

end View

/-- Only a deletion makes a consumer vanish. -/
theorem effect_vanished {reply : Reply} (hs : st.Sound) (he : Effect env st req reply st')
    (hc : st.consumers.find? k = some c) (hn : st'.consumers.find? k = none) : req.deletes k = true := by
  cases effect_consumer hs he k with
  | same h => cases (hc.symm.trans h.symm).trans hn
  | removed hreq _ _ => exact hreq
  | inserted hk h =>
    have hfresh := h.fresh
    rw [← hk] at hfresh
    cases hc.symm.trans hfresh
  | reconfigured _ _ _ _ _ h | altered _ _ _ _ _ _ h => cases hn.symm.trans h

theorem view_vanished {b : Broker} (hs : b.store.Sound) (hl : b.view k = some l) (hn : (b.exec s).1.view k = none) :
    s.req.deletes k = true := by
  obtain ⟨c, hc, rfl⟩ := view_eq_some.mp hl
  rw [view_eq_none] at hn
  rcases exec_cases b s with ⟨reply, st, hcom⟩ | ⟨hst, -⟩
  · rw [hcom.post] at hn
    have hc' : { b.store with carriers := [] }.consumers.find? k = some c := hc
    exact effect_vanished (hs.uncarried []) hcom.effect hc' hn
  · rw [hst, hc] at hn
    cases hn

/-! ## Visits of a run -/

/-- A visit of a run leads from the run before it to the run up to it. -/
theorem Runs.at_mem {b : Broker} {v : Visit} (r : Runs h b) (hv : v ∈ h) :
    ∃ h₁ h₂, h = h₁ ++ v :: h₂ ∧ Runs h₁ v.pre ∧ v = visit Broker.exec v.pre v.act ∧ Runs (h₁ ++ [v]) v.post := by
  obtain ⟨h₁, h₂, rfl⟩ := List.append_of_mem hv
  obtain ⟨r₁, hvis, -⟩ := r.at_visit
  refine ⟨h₁, h₂, rfl, r₁, hvis, ?_⟩
  rw [hvis]
  exact r₁.step v.act

/-- **Store invariants.** What holds of an empty store, does not look at the carriers and survives every committed
request holds along a run. -/
theorem Runs.holds {C : Visit → Prop} {I : Store → Prop} (h0 : I {})
    (hcar : ∀ st cs, I st → I { st with carriers := cs }) (hstep : ∀ b s reply st, b.store.Sound → st.Sound →
      C (visit Broker.exec b s) → Committed b s reply st →
      I { b.store with carriers := [] } → I st)
    {b : Broker} (r : Runs h b) (hc : ∀ v ∈ h, C v) : I b.store := by
  refine r.invariant_along (C := fun _ v => C v) (I := fun _ b => I b.store) (upheld_of_forall hc) h0
    fun h b s r _ hi hv => ?_
  have r : Runs h b := r
  rcases exec_cases b s with ⟨reply, st, hcom⟩ | ⟨hst, -⟩
  · have hs := exec_sound r.sound s
    rw [hcom.post] at hs ⊢
    exact hcar st [] (hstep b s reply st r.sound (hs.uncarried st.carriers) hv hcom (hcar _ [] hi))
  · rw [hst]
    exact hi

/-- The tokens a visit minted. -/
def Visit.tokens (v : Visit) : List Token :=
  match v.out with
  | .ok (.fetched r) _ => r.tokens
  | _ => []

theorem fetched_reply {r : FetchResult} (h : applyRequest env req st = .ok (.fetched r, st')) :
    ∃ s n batch maxBytes, req = .fetch s n batch maxBytes := by
  cases req with
  | fetch s n batch maxBytes => exact ⟨s, n, batch, maxBytes, rfl⟩
  | _ =>
    obtain ⟨_, _, h⟩ := run_map.mp h
    cases h

/-- A minted token names a row that was claimed for it, and carries the consumer's generation. -/
structure Minted (v : Visit) (t : Token) : Prop where
  req : ∃ batch maxBytes, v.act.req = .fetch t.stream t.consumer batch maxBytes ∧
    checkRequest v.act.env v.act.req = .ok ()
  consumer : ∃ c, v.pre.store.consumers.find? (t.stream, t.consumer) = some c ∧ t.generation = toInt32 c.generation
  claimed : ∃ x ∈ Visit.claimed v (t.stream, t.consumer), x.seq = t.seq ∧ x.attempt = t.attempt
  row : ∃ d, v.post.store.deliveries.find? t.row = some d ∧ d.attempts = t.attempt

theorem tokens_minted {b : Broker} {t : Token} (ht : t ∈ Visit.tokens (visit Broker.exec b s)) :
    Minted (visit Broker.exec b s) t := by
  rcases exec_cases b s with ⟨reply, st, hcom⟩ | ⟨-, -, -, hout⟩
  · unfold Visit.tokens at ht
    simp only [visit, hcom.out] at ht
    split at ht
    · rename_i r es hr
      obtain ⟨rfl, rfl⟩ : reply = .fetched r ∧ st.carriers = es := by simpa using hr
      obtain ⟨s', n, batch, maxBytes, hreq⟩ := fetched_reply hcom.run
      have he := hcom.effect
      rw [hreq] at he
      obtain ⟨r', c, hr', hc, hrs, hrc, hgen, hconf, hf⟩ := he
      cases hr'
      obtain ⟨x, hx, rfl⟩ := List.mem_map.mp ht
      have hkey : (r.stream, r.consumer) = (s', n) := by rw [hrs, hrc]
      refine ⟨⟨batch, maxBytes, ?_, hcom.checked⟩, ⟨c, ?_, ?_⟩, ⟨x, ?_, rfl, rfl⟩, ?_⟩
      · show s.req = .fetch r.stream r.consumer batch maxBytes
        rw [hreq, hrs, hrc]
      · show b.store.consumers.find? (r.stream, r.consumer) = some c
        rw [hkey]; exact hc
      · show toInt32 r.generation = _
        rw [hgen]
      · show x ∈ Visit.claimed _ (r.stream, r.consumer)
        simp only [Visit.claimed, visit, hreq, hcom.out, hkey, if_pos]
        exact hx
      · rcases hf with ⟨hnil, -⟩ | hf
        · rw [hnil] at hx
          cases hx
        · obtain ⟨head, st₁, -, -, -, hclaim, -⟩ := hf.admitted
          obtain ⟨rfl, rfl⟩ := pair_of_find? hc
          have hq : x.seq ∈ r.claimed.map Claimed.seq := List.mem_map_of_mem hx
          obtain ⟨⟨d, hd, -⟩, -⟩ := hclaim.chosen.claimable x.seq hq
          have hrow := hclaim.deliveries (c.stream, c.name, x.seq)
          rw [if_pos ⟨rfl, rfl, hq⟩, hd] at hrow
          have hatt := hclaim.attempts x hx
          rw [hrow] at hatt
          refine ⟨d.claim s.env.nowMs c.ackWaitMs, ?_, hatt⟩
          show (b.exec s).1.store.deliveries.find? (r.stream, r.consumer, x.seq) = _
          rw [hcom.post, hrs, hrc]
          exact hrow
    · cases ht
  · unfold Visit.tokens at ht
    split at ht
    · rename_i r es hr
      exact absurd hr (hout _ es)
    · cases ht

/-! ## Runs of given requests -/

/-- A process with the default options whose clock shows `ms` milliseconds. -/
def Env.atMs (ms : ℤ) : Env where
  now := ms * millisecond
  opts := defaultOptions
  newID n := itoa (ms * 1000 + n)
  traceID n := itoa n
  jitter _ d := d
  random _ := 0

/-- The requests, each with the clock it is made at, on a new data directory. -/
def play (rs : List (ℤ × Request)) : List Visit := trace Broker.exec {} (rs.map fun r => ⟨.atMs r.1, r.2⟩)

def playState (rs : List (ℤ × Request)) : Broker := run Broker.exec {} (rs.map fun r => ⟨.atMs r.1, r.2⟩)

theorem runs_play (rs : List (ℤ × Request)) : Runs (play rs) (playState rs) := history_trace _ _

def aStream : Bytes := str "s"

def aConsumer : Bytes := str "c"

def aCreate : Request := .createStream (defaultConfig aStream) []
def aSubscribe : Request := .createConsumer aStream (defaultConsumerConfig aConsumer) .first []
def aPublish : Request := .publish aStream { subject := str "a", body := [] }
def aFetch (batch : ℤ) : Request := .fetch aStream aConsumer batch 0

/-- A stream with a consumer from its first message on, and `msgs` messages. -/
def aSetup (msgs : ℕ) : List (ℤ × Request) :=
  (1, aCreate) ::
  (2, aSubscribe) ::
  (List.range msgs).map fun i => ((3 + i : ℤ), aPublish)

/-- The number, or 1 where a token cannot carry it. -/
def inRange (n : ℤ) : { n : ℤ // 1 ≤ n ∧ n ≤ maxInt32 } := if h : 1 ≤ n ∧ n ≤ maxInt32 then ⟨n, h⟩ else ⟨1, by decide⟩

/-- A settle item of the sample consumer. -/
def anItem (verb : Verb) (seq attempt generation : ℤ) : ClientItem :=
  ⟨{ token := ⟨aStream, aConsumer, inRange seq, inRange attempt, inRange generation⟩, verb := verb },
  ⟨by show Subject.validateStreamName aStream = _; decide,
    by show Subject.validateConsumerName aConsumer = _; decide,
    ⟨(inRange seq).2.1, (inRange seq).2.2.trans (by decide)⟩, (inRange attempt).2, (inRange generation).2⟩⟩

/-! ## Reading an action back -/

section Action

variable {v : Visit}

theorem action_fetch {now : ℤ} {S : ℤ → Prop} (h : Visit.action v k = .fetch now S) :
    ∃ batch maxBytes r es, v.act.req = .fetch k.1 k.2 batch maxBytes ∧ v.out = .ok (.fetched r) es ∧
      now = v.act.env.nowMs ∧ S = (· ∈ (Visit.claimed v k).map Claimed.seq) := by
  unfold Visit.action Request.action at h
  split at h
  · rename_i reply es hout
    split at h
    · rename_i s n batch maxBytes r hreq
      split at h
      · rename_i hk
        subst hk
        injection h with h₁ h₂
        refine ⟨batch, maxBytes, r, es, hreq, hout, h₁.symm, ?_⟩
        simp only [Visit.claimed, hreq, hout, if_pos, ← h₂]
      · cases h
    all_goals first | cases h | (split at h <;> cases h)
  · cases h

theorem action_purge (h : Visit.action v k = .purge) :
    ∃ spec actor, v.act.req = .purge k.1 spec false actor := by
  unfold Visit.action Request.action at h
  split at h
  · split at h
    case h_3 s spec actor hreq _ =>
      split at h
      · rename_i hk
        exact ⟨spec, actor, hk ▸ hreq⟩
      · cases h
    all_goals first | cases h | (split at h <;> cases h)
  · cases h

theorem action_seek (h : Visit.action v k = .seek) : ∃ dest actor, v.act.req = .seek k.1 k.2 dest false actor := by
  unfold Visit.action Request.action at h
  split at h
  · split at h
    case h_2 s n dest actor hreq _ =>
      split at h
      · rename_i hk
        subst hk
        exact ⟨dest, actor, hreq⟩
      · cases h
    all_goals first | cases h | (split at h <;> cases h)
  · cases h

theorem action_patch (h : Visit.action v k = .patch) :
    (∃ cfg start actor, v.act.req = .createConsumer k.1 cfg start actor ∧ cfg.name = k.2) ∨
      ∃ p actor, v.act.req = .updateConsumer k.1 k.2 p actor := by
  unfold Visit.action Request.action at h
  split at h
  · split at h
    case h_4 s cfg start actor hreq _ =>
      split at h
      · rename_i hk
        subst hk
        exact .inl ⟨cfg, start, actor, hreq, rfl⟩
      · cases h
    case h_5 s n p actor hreq _ =>
      split at h
      · rename_i hk
        subst hk
        exact .inr ⟨p, actor, hreq⟩
      · cases h
    all_goals first | cases h | (split at h <;> cases h)
  · cases h

theorem action_reclaim (h : Visit.action v k = .reclaim) : ∃ unclean, v.act.req = .restart unclean := by
  unfold Visit.action Request.action at h
  split at h
  · split at h
    case h_6 unclean hreq _ => exact ⟨unclean, hreq⟩
    all_goals first | cases h | (split at h <;> cases h)
  · cases h

/-- A delivery that a visit ends is named by one of its events. -/
theorem action_drops {q : ℤ} (h : (Visit.action v k).drops q) : ∃ e ∈ v.out.events, e.Ends (k.1, k.2, q) := by
  unfold Visit.action Request.action at h
  split at h
  · rename_i reply es hout
    have hq : endsIn es k q := by
      split at h
      all_goals first | exact h | (split at h <;> first | exact h | exact h.elim) | exact h.elim
    rw [hout]
    exact hq
  · exact h.elim

end Action

end Messq

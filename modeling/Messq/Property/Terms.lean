import Messq.Run

/-! # The terms of a consumer

A consumer's configuration is written when it is created and when it is edited, and no other request touches it
(`effect_terms`). What every accepted configuration has, every row of a run has (`Runs.terms`): in particular its
terms are canonical (`Runs.canonical`), so that they survive being read and written again. A configuration comes back
from its row when its durations are whole milliseconds (`diff_of_terms`). -/

namespace Messq

open Lib

variable {b : Broker} {k : Bytes × Bytes} {h : List Visit} {l : ConsumerLimits}

/-- The configured columns of a consumer. -/
@[ext] structure Terms where
  filters : List Bytes
  ackWaitMs : ℤ
  maxDeliver : ℤ
  maxAckPending : ℤ
  backoffMs : List ℤ
  deadPolicy : DeadPolicy
  deriving DecidableEq

def ConsumerRow.terms (c : ConsumerRow) : Terms :=
  ⟨c.filters, c.ackWaitMs, c.maxDeliver, c.maxAckPending, c.backoffMs, c.deadPolicy⟩

/-- The columns a configuration is written to. -/
def ConsumerConfig.terms (cfg : ConsumerConfig) : Terms :=
  ⟨sortedSet cfg.filters, milliseconds cfg.ackWait, cfg.maxDeliver, cfg.maxAckPending, cfg.backoff.map milliseconds,
    cfg.deadPolicy⟩

@[simp] theorem terms_withConfig (c : ConsumerRow) (cfg : ConsumerConfig) : (c.withConfig cfg).terms = cfg.terms := rfl

@[simp] theorem terms_newConsumer (stream : Bytes) (cfg : ConsumerConfig) (cursor createdAt : ℤ) :
    (newConsumer stream cfg cursor createdAt).terms = cfg.terms := rfl

section Effect

variable {env : Env} {req : Request} {reply : Reply} {st st' : Store}

/-- A row has the terms it had, or those of a configuration within the limits. -/
theorem effect_terms (hs : st.Sound) (hchk : checkRequest env req = .ok ()) (he : Effect env st req reply st')
    {c' : ConsumerRow} (hc' : st'.consumers.find? k = some c') :
    (∃ c, st.consumers.find? k = some c ∧ c'.terms = c.terms) ∨
      ∃ cfg : ConsumerConfig, cfg.Within env.opts.consumerLimits ∧
        validateDeadPolicyForStream k.1 cfg.deadPolicy = .ok () ∧ c'.terms = cfg.terms := by
  have hnew : ∀ {cfg start actor}, req = .createConsumer k.1 cfg start actor →
      cfg.Within env.opts.consumerLimits ∧ validateDeadPolicyForStream k.1 cfg.deadPolicy = .ok () := by
    rintro cfg start actor rfl
    simp only [checkRequest, bind_eq_ok] at hchk
    obtain ⟨_, -, _, hpol, hval⟩ := hchk
    exact ⟨validateConsumerConfig_eq_ok.mp hval, hpol⟩
  cases effect_consumer hs he k with
  | same h => exact .inl ⟨c', h ▸ hc', rfl⟩
  | removed _ h => cases hc'.symm.trans h
  | @inserted cfg _ _ hk h =>
    obtain ⟨_, _, _, -, hrow⟩ := h.row
    rw [← hk] at hrow
    obtain rfl : c' = _ := Option.some.inj (hc'.symm.trans hrow)
    exact .inr ⟨cfg, (hnew rfl).1, (hnew rfl).2, terms_newConsumer ..⟩
  | reconfigured c _ cfg hc hval h =>
    obtain rfl : c' = _ := Option.some.inj (hc'.symm.trans h)
    rcases hval with ⟨_, _, hreq, -⟩ | ⟨hpol, hval⟩
    · exact .inr ⟨cfg, (hnew hreq).1, (hnew hreq).2, terms_withConfig _ cfg⟩
    · exact .inr ⟨cfg, validateConsumerConfig_eq_ok.mp hval, hpol, terms_withConfig _ cfg⟩
  | altered c _ _ _ hc _ h =>
    obtain rfl : c' = _ := Option.some.inj (hc'.symm.trans h)
    exact .inl ⟨c, hc, rfl⟩

end Effect

/-- **Terms.** What the configurations within the limits of a run have, its consumers have. -/
theorem Runs.terms {L : ConsumerLimits → Prop} {P : Terms → Prop}
    (hP : ∀ l (cfg : ConsumerConfig), L l → cfg.Within l → P cfg.terms) (r : Runs h b)
    (hl : ∀ v ∈ h, L v.act.env.opts.consumerLimits) : ∀ k c, b.store.consumers.find? k = some c → P c.terms := by
  refine Runs.holds (C := fun v => L v.act.env.opts.consumerLimits)
    (I := fun st => ∀ k c, st.consumers.find? k = some c → P c.terms) (fun k c hc => by cases hc) (fun _ _ hi => hi)
    (fun b s reply st hs _ hv hcom hi k c hc => ?_) r hl
  rcases effect_terms (hs.uncarried []) hcom.checked hcom.effect hc with ⟨c₀, hc₀, ht⟩ | ⟨cfg, hcfg, -, ht⟩
  · rw [ht]
    exact hi k c₀ hc₀
  · rw [ht]
    exact hP _ cfg hv hcfg

/-! ## Rows and configurations -/

/-- Terms that survive being read and written again: the filters are a sorted set and the durations fit into a
`time.Duration`. -/
structure Terms.Canonical (t : Terms) : Prop where
  filters : sortedSet t.filters = t.filters
  ackWait : IsInt64 (t.ackWaitMs * millisecond)
  backoff : ∀ ms ∈ t.backoffMs, IsInt64 (ms * millisecond)

/-- What is written of a configuration within the limits is canonical. -/
theorem ConsumerConfig.Within.canonical {cfg : ConsumerConfig} (h : cfg.Within l) : cfg.terms.Canonical := by
  obtain ⟨ha, hb⟩ := h.int64
  refine ⟨sortedSet_sortedSet _, isInt64_milliseconds ha, fun ms hms => ?_⟩
  obtain ⟨d, hd, rfl⟩ := List.mem_map.mp hms
  exact isInt64_milliseconds (hb d hd)

theorem Runs.canonical (r : Runs h b) {c : ConsumerRow} (hc : b.store.consumers.find? k = some c) : c.terms.Canonical :=
  r.terms (L := fun _ => True) (P := Terms.Canonical) (fun _ _ _ hcfg => hcfg.canonical) (fun _ _ => trivial) k c hc

/-- The filters of a consumer compile. -/
theorem Runs.patterns (r : Runs h b) {c : ConsumerRow} (hc : b.store.consumers.find? k = some c) :
    ∃ set, Subject.parseSet c.filters = .ok set := by
  refine r.terms (L := fun _ => True) (P := fun t => ∃ set, Subject.parseSet t.filters = .ok set)
    (fun _ cfg _ hcfg => ?_)
    (fun _ _ => trivial) k c hc
  obtain ⟨set, hset⟩ := hcfg.patterns
  exact Subject.exists_parseSet_sortedSet hset

/-- A row that already has the terms is not changed by writing them. -/
theorem withConfig_eq_self {c : ConsumerRow} {cfg : ConsumerConfig} (h : cfg.terms = c.terms) :
    c.withConfig cfg = c := by
  simp only [ConsumerConfig.terms, ConsumerRow.terms, Terms.mk.injEq] at h
  obtain ⟨h₁, h₂, h₃, h₄, h₅, h₆⟩ := h
  rw [ConsumerRow.withConfig, h₁, h₂, h₃, h₄, h₅, h₆]

/-- The durations are whole milliseconds. -/
def ConsumerConfig.Whole (cfg : ConsumerConfig) : Prop := ∀ d ∈ cfg.ackWait :: cfg.backoff, millisecond ∣ d

instance (cfg : ConsumerConfig) : Decidable cfg.Whole := inferInstanceAs (Decidable (∀ d ∈ _, _))

theorem diff_eq_nil {old next : ConsumerConfig} : old.diff next = [] ↔
    sortedSet old.filters = sortedSet next.filters ∧ old.ackWait = next.ackWait ∧ old.maxDeliver = next.maxDeliver ∧
      old.maxAckPending = next.maxAckPending ∧ old.backoff = next.backoff ∧ old.deadPolicy = next.deadPolicy := by
  simp [ConsumerConfig.diff, flaggedFields]

section Row

variable {c : ConsumerRow} {cfg : ConsumerConfig}

/-- The durations of a configuration come back from its row when they are whole. -/
theorem durations_of_terms (hw : cfg.Within l) (ht : c.terms = cfg.terms) :
    (c.config.ackWait = cfg.ackWait ∧ c.config.backoff = cfg.backoff) ↔ cfg.Whole := by
  simp only [ConsumerConfig.terms, ConsumerRow.terms, Terms.mk.injEq] at ht
  obtain ⟨-, ha, -, -, hb, -⟩ := ht
  obtain ⟨hai, hbi⟩ := hw.int64
  simp only [ConsumerRow.config, ConsumerConfig.Whole, List.forall_mem_cons, ha, hb, List.map_map]
  rw [msDuration_milliseconds hai, map_eq_self_iff]
  exact and_congr_right fun _ => forall₂_congr fun d hd => msDuration_milliseconds (hbi d hd)

/-- The configuration a row was written from differs from the one it holds in durations only. -/
theorem diff_of_terms (hw : cfg.Within l) (ht : c.terms = cfg.terms) : c.config.diff cfg = [] ↔ cfg.Whole := by
  rw [← durations_of_terms hw ht, diff_eq_nil]
  simp only [ConsumerConfig.terms, ConsumerRow.terms, Terms.mk.injEq] at ht
  obtain ⟨hf, -, hd, hp, -, hdp⟩ := ht
  simp only [ConsumerRow.config, hf, hd, hp, hdp, sortedSet_sortedSet, true_and, and_true]

end Row

end Messq

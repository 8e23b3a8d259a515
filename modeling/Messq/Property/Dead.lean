import Messq.Property.Tokens
import Messq.Property.Redelivery

/-! # Dead-letter conservation

Settle, sweep and retire give deliveries up through one sink. `Burials` says what a run of them did: every death
reported is the end of a row, every copy reported is a new message like its origin, and no other message came. Over a
life a delivery does not die twice in one generation (`Laid`), unless a consumer is deleted and created again over a
message that died under its name. -/

namespace Messq

open Lib Table Relation

variable {d : DeliveryRow} {e : Event} {h : List Visit} {st' : Store} {maxDeliver : ℤ} {b : Broker} {env : Env}
  {s : Step}

/-- What identifies a death. -/
structure Death where
  stream : Bytes
  consumer : Bytes
  seq : ℤ
  generation : ℤ
  deriving DecidableEq

def Death.row (x : Death) : Bytes × Bytes × ℤ := (x.stream, x.consumer, x.seq)

/-- The death an event reports. -/
def Event.death (e : Event) : Option Death :=
  match e.name, e.detail with
  | .msgDead, .dead _ _ _ generation _ _ _ _ => some ⟨e.stream.getD [], e.consumer.getD [], e.seq.getD 0, generation⟩
  | _, _ => none

/-- The copy an event reports. -/
def Event.copy (e : Event) : Option (Bytes × ℤ) := if e.name = .msgDead then e.allocation else none

theorem death_of_name (h : e.name ≠ .msgDead) : e.death = none := by
  unfold Event.death
  split
  · exact absurd ‹_› h
  · rfl

theorem copy_of_name (h : e.name ≠ .msgDead) : e.copy = none := if_neg h

theorem deadEvent_death (env : Env) (d : DeadCtx) (policy : DeadPolicy) (outcome : DeadOutcome) :
    (deadEvent env d policy outcome).death = some ⟨d.stream, d.consumer, d.seq, d.generation⟩ := by
  simp only [Event.death, deadEvent, nullStr_getD, nullI64_getD]

/-! ## What the sink does -/

/-- The copy that `e` reports is new, is in the dead-letter stream of the origin and like it, and the row is gone. -/
structure Interred (st st' : Store) (e : Event) (copy : Bytes × ℤ) : Prop where
  dlq : copy.1 = dlqName e.about.1
  fresh : st.messages.find? copy = none
  copied : ∃ origin m, st.messages.find? (e.about.1, e.about.2.2) = some origin ∧ st'.messages.find? copy = some m ∧
    m.Copies origin
  row : st.deliveries.find? e.about ≠ none ∧ st'.deliveries.find? e.about = none

/-- What commands that reported `es` did to the deliveries and messages. -/
structure Burials (st : Store) (es : List Event) (st' : Store) : Prop where
  died : ∀ e ∈ es, ∀ x, e.death = some x →
    (∃ d, st.deliveries.find? x.row = some d ∧ (d.state = .inflight ∨ 1 ≤ d.attempts) ∧
      (x.generation = d.generation ∨ x.generation = toInt32 d.generation)) ∧ st'.deliveries.find? x.row = none
  once : ((es.filterMap Event.death).map Death.row).Nodup
  interred : ∀ e ∈ es, ∀ copy, e.copy = some copy → Interred st st' e copy
  apart : (es.filterMap Event.copy).Nodup
  rest : ∀ k, k ∉ es.filterMap Event.copy → st'.messages.find? k = st.messages.find? k

theorem filterMap_death_nil {es : List Event} (h : ∀ e ∈ es, e.name ≠ .msgDead) : es.filterMap Event.death = [] :=
  List.filterMap_eq_nil_iff.mpr fun e he => death_of_name (h e he)

theorem filterMap_copy_nil {es : List Event} (h : ∀ e ∈ es, e.name ≠ .msgDead) : es.filterMap Event.copy = [] :=
  List.filterMap_eq_nil_iff.mpr fun e he => copy_of_name (h e he)

/-- Nobody died. -/
theorem burials_quiet {st : Store} {es : List Event} (hm : st'.messages = st.messages)
    (he : ∀ e ∈ es, e.name ≠ .msgDead) : Burials st es st' where
  died e h x hd := by rw [death_of_name (he e h)] at hd; cases hd
  once := by rw [filterMap_death_nil he]; exact List.nodup_nil
  interred e h c hc := by rw [copy_of_name (he e h)] at hc; cases hc
  apart := by rw [filterMap_copy_nil he]; exact List.nodup_nil
  rest k _ := by rw [hm]

section Trans

variable {st₁ st₂ st₃ : Store} {es es' : List Event}

/-- A message that is there under a delivery row was there before. -/
theorem origin_before (hs : st₁.Sound) (hb : Background st₁ st₂) (h : Burials st₁ es st₂) {k : Bytes × Bytes × ℤ}
    {origin : MessageRow} (hrow : st₂.deliveries.find? k ≠ none) (ho : st₂.messages.find? (k.1, k.2.2) = some origin) :
    st₁.messages.find? (k.1, k.2.2) = some origin := by
  by_cases hc : (k.1, k.2.2) ∈ es.filterMap Event.copy
  · -- a copy has a number that no row has yet
    obtain ⟨e, he, hcopy⟩ := List.mem_filterMap.mp hc
    have hnone := (h.interred e he _ hcopy).fresh
    obtain ⟨d', hd'⟩ := Option.ne_none_iff_exists'.mp hrow
    obtain ⟨d, hd, -⟩ := hb.kept k d' hd'
    obtain ⟨c, hcons⟩ := Option.ne_none_iff_exists'.mp (hs.owner k (by simp [hd]))
    obtain ⟨head, hhead, hnext, -⟩ := hs.bounded (k := (k.1, k.2.1)) (by simp [hcons])
    obtain ⟨hcs, hcn⟩ := pair_of_find? hcons
    have hlt := ((hs.ledger _ c hcons).range k.2.2 d.slot (slot_eq_some.mpr ⟨d, by rw [hcs, hcn]; exact hd, rfl⟩)).2
    rcases hb.stored k.1 k.2.2 origin ho with ⟨m, hm, -⟩ | happ
    · rw [hnone] at hm; cases hm
    · have hle := happ.above head hhead
      have hlt : k.2.2 < st₁.headOf c.stream := hlt
      rw [hcs, hnext] at hlt
      omega
  · rw [← h.rest _ hc]
    exact ho

theorem Burials.trans (hs : st₁.Sound) (hb : Background st₁ st₂) (hb' : Background st₂ st₃) (h : Burials st₁ es st₂)
    (h' : Burials st₂ es' st₃) : Burials st₁ (es ++ es') st₃ := by
  have hgone : ∀ k, st₂.deliveries.find? k = none → st₃.deliveries.find? k = none := fun k hn =>
    Option.eq_none_iff_forall_ne_some.mpr fun d' hd' => by
      obtain ⟨d, hd, -⟩ := hb'.kept k d' hd'
      rw [hn] at hd
      cases hd
  have hwas : ∀ k, st₂.deliveries.find? k ≠ none → st₁.deliveries.find? k ≠ none := fun k hne hn => by
    obtain ⟨d', hd'⟩ := Option.ne_none_iff_exists'.mp hne
    obtain ⟨d, hd, -⟩ := hb.kept k d' hd'
    rw [hn] at hd
    cases hd
  -- the copies of the first part are stored, those of the second part are not yet
  have hsep : ∀ k ∈ es.filterMap Event.copy, k ∉ es'.filterMap Event.copy := fun k hk hk' => by
    obtain ⟨e, he, hc⟩ := List.mem_filterMap.mp hk
    obtain ⟨e', he', hc'⟩ := List.mem_filterMap.mp hk'
    obtain ⟨origin, m, -, hm, -⟩ := (h.interred e he k hc).copied
    rw [(h'.interred e' he' k hc').fresh] at hm
    cases hm
  refine ⟨fun e he x hx => ?_, ?_, fun e he c hc => ?_, ?_, fun k hk => ?_⟩
  · rcases List.mem_append.mp he with he | he
    · obtain ⟨hrow, hn⟩ := h.died e he x hx
      exact ⟨hrow, hgone _ hn⟩
    · obtain ⟨⟨d', hd', hs', hg⟩, hn⟩ := h'.died e he x hx
      obtain ⟨d, hd, ht⟩ := hb.kept _ d' hd'
      refine ⟨⟨d, hd, ?_, ht.generation ▸ hg⟩, hn⟩
      rcases hs' with hi | h1
      · cases hst : d.state with
        | inflight => exact .inl rfl
        | ready => rw [ht.ready hst] at hi; cases hi
      · exact .inr (ht.attempts ▸ h1)
  · rw [List.filterMap_append, List.map_append, List.nodup_append]
    refine ⟨h.once, h'.once, ?_⟩
    rintro k hk _ hk' rfl
    obtain ⟨x, hx, rfl⟩ := List.mem_map.mp hk
    obtain ⟨x', hx', hkey⟩ := List.mem_map.mp hk'
    obtain ⟨e, he, hd⟩ := List.mem_filterMap.mp hx
    obtain ⟨e', he', hd'⟩ := List.mem_filterMap.mp hx'
    obtain ⟨⟨d, hrow, -⟩, -⟩ := h'.died e' he' x' hd'
    rw [hkey, (h.died e he x hd).2] at hrow
    cases hrow
  · rcases List.mem_append.mp he with he | he
    · obtain ⟨hdlq, hf, ⟨origin, m, ho, hm, hlike⟩, hrow, hn⟩ := h.interred e he c hc
      refine ⟨hdlq, hf, ⟨origin, m, ho, ?_, hlike⟩, hrow, hgone _ hn⟩
      rw [h'.rest c (hsep c (List.mem_filterMap.mpr ⟨e, he, hc⟩))]
      exact hm
    · obtain ⟨hdlq, hf, ⟨origin, m, ho, hm, hlike⟩, hrow, hn⟩ := h'.interred e he c hc
      refine ⟨hdlq, ?_, ⟨origin, m, origin_before hs hb h hrow ho, hm, hlike⟩, hwas _ hrow, hn⟩
      rw [← h.rest c fun hk => hsep c hk (List.mem_filterMap.mpr ⟨e, he, hc⟩)]
      exact hf
  · rw [List.filterMap_append, List.nodup_append]
    exact ⟨h.apart, h'.apart, fun k hk _ hk' hne => hsep k hk (hne ▸ hk')⟩
  · rw [List.filterMap_append, List.mem_append, not_or] at hk
    rw [h'.rest k hk.2, h.rest k hk.1]

end Trans

/-- One delivery is given up. -/
theorem Buried.burials {ctx : DeadCtx} {st st₁ : Store} {t : Table DeliveryRow.key} (hb : Buried env ctx st st₁)
    (hd : st.deliveries.find? d.key = some d) (hs : d.state = .inflight ∨ 1 ≤ d.attempts) (hk : ctx.key = d.key)
    (hg : ctx.generation = d.generation ∨ ctx.generation = toInt32 d.generation)
    (ht : st.deliveries.Sets d.key none t) :
    ∃ es, Logs st es { st₁ with deliveries := t } ∧ Burials st es { st₁ with deliveries := t } := by
  have hdied : ∀ policy outcome x, (deadEvent env ctx policy outcome).death = some x →
      (∃ d, st.deliveries.find? x.row = some d ∧ (d.state = .inflight ∨ 1 ≤ d.attempts) ∧
        (x.generation = d.generation ∨ x.generation = toInt32 d.generation)) ∧ t.find? x.row = none :=
    fun policy outcome x h => by
      rw [deadEvent_death] at h
      cases h
      have hrow : Death.row ⟨ctx.stream, ctx.consumer, ctx.seq, ctx.generation⟩ = d.key := hk
      rw [hrow]
      exact ⟨⟨d, hd, hs, hg⟩, ht.same⟩
  cases hb with
  | report policy outcome ho =>
    have hcopy : (deadEvent env ctx policy outcome).copy = none := by rcases ho with rfl | rfl <;> rfl
    refine ⟨[deadEvent env ctx policy outcome], ⟨rfl, _, rfl, fun _ h => h⟩, fun e he x h => ?_, ?_,
      fun e he c hc => ?_, ?_,
      fun k _ => rfl⟩
    · rw [List.mem_singleton.mp he] at h
      exact hdied policy outcome x h
    · simp [deadEvent_death]
    · rw [List.mem_singleton.mp he, hcopy] at hc
      cases hc
    · simp [hcopy]
  | copy c origin m row msgs trimmed truncated hc hp ho hm hr hq hi =>
    have hkey : ctx.key = (ctx.stream, ctx.consumer, ctx.seq) := rfl
    have hko := find?_key ho
    have hms : m.stream = dlqName ctx.stream := hm.stream.trans (congrArg dlqName (Prod.mk.inj hko).1)
    have hcopy : (deadEvent env ctx .dlq (.written m.stream m.seq m.size trimmed truncated)).copy = some m.key := rfl
    have hplain : ∀ e ∈ ensuredEvents env st (dlqName ctx.stream) ctx.stream, e.name ≠ .msgDead := fun e he => by
      rw [mem_ensuredEvents he]
      exact nofun
    have hlogs := (@logs_ensured env st (dlqName ctx.stream) ctx.stream).trans (logs_appended _ m msgs
      (deadEvent env ctx .dlq (.written m.stream m.seq m.size trimmed truncated)))
    refine ⟨_, ⟨hlogs.events, hlogs.carriers⟩, fun e he x h => ?_, ?_, fun e he c hc => ?_, ?_, fun k hn => ?_⟩
    · rcases List.mem_append.mp he with he | he
      · rw [death_of_name (hplain e he)] at h
        cases h
      · rw [List.mem_singleton.mp he] at h
        exact hdied _ _ x h
    · rw [List.filterMap_append, filterMap_death_nil hplain]
      simp [deadEvent_death]
    · rcases List.mem_append.mp he with he | he
      · rw [copy_of_name (hplain e he)] at hc
        cases hc
      · rw [List.mem_singleton.mp he, hcopy] at hc
        cases hc
        rw [List.mem_singleton.mp he]
        refine ⟨?_, find?_of_insert hi, ⟨origin, m, ?_, (find?_insert hi _).trans (if_pos rfl),
          hm.toCopies⟩, ?_, ?_⟩
        · rw [deadEvent_about]
          exact hms
        · rw [deadEvent_about]
          exact ho
        · rw [deadEvent_about, hk, hd]
          exact nofun
        · rw [deadEvent_about, hk]
          exact ht.same
    · rw [List.filterMap_append, filterMap_copy_nil hplain]
      simp [hcopy]
    · rw [List.filterMap_append, filterMap_copy_nil hplain] at hn
      simp only [List.nil_append, List.filterMap_cons, hcopy, List.filterMap_nil, List.mem_singleton] at hn
      exact (find?_insert hi k).trans (if_neg hn)

theorem Act.burials {st : Store} (h : Act env .delivery st st') : ∃ es, Logs st es st' ∧ Burials st es st' := by
  cases h with
  | log _ e _ hn =>
    refine ⟨[e], logs_logged st e, burials_quiet rfl fun e' he' => ?_⟩
    rw [List.mem_singleton.mp he']
    rintro h
    rw [h] at hn
    cases hn
  | lapse _ e _ hn =>
    refine ⟨[e], logs_logged st e, burials_quiet rfl fun e' he' => ?_⟩
    rw [List.mem_singleton.mp he', hn]
    exact nofun
  | ack _ d e t _ _ _ hn =>
    refine ⟨[e], ⟨rfl, [e], rfl, fun _ h => h⟩, burials_quiet rfl fun e' he' => ?_⟩
    rw [List.mem_singleton.mp he', hn]
    exact nofun
  | limit | extend | release => exact ⟨[], logs_nil rfl rfl, burials_quiet rfl fun _ h => nomatch h⟩
  | die _ st₁ ctx d t hb hd hs hk hg ht => exact hb.burials hd hs hk hg ht

/-- **Burials.** What settle, sweep and retire do with the deliveries they give up. -/
theorem Acts.burials {st : Store} (hs : st.Sound) (h : Acts env .delivery st st') :
    ∃ es, Logs st es st' ∧ Burials st es st' := by
  induction h with
  | refl => exact ⟨[], logs_nil rfl rfl, burials_quiet rfl fun _ h => nomatch h⟩
  | tail h₁ ha ih =>
    obtain ⟨es, hl, hb⟩ := ih
    obtain ⟨es', hl', hb'⟩ := ha.burials
    exact ⟨es ++ es', hl.trans hl', hb.trans hs (Acts.moves h₁).background ha.moves.background hb'⟩

/-! ## Visits -/

theorem background_of_delivery {req : Request} (h : req.kind = .delivery) : req.Background := by
  cases req <;> trivial

section Visits

/-- What a settle, a sweep or a retire did, in the terms of what it wrote to the audit trail. -/
theorem visit_burials (hs : b.store.Sound) (hk : s.req.kind = .delivery) :
    Burials b.store ((Visit.written (visit Broker.exec b s)).map EventRow.event) (b.exec s).1.store ∧
      (b.exec s).1.store.consumers = b.store.consumers ∧
      ∀ k, b.store.deliveries.find? k ≠ none → (b.exec s).1.store.deliveries.find? k = none →
        ∃ row ∈ Visit.written (visit Broker.exec b s), row.event.Ends k := by
  rcases exec_cases b s with ⟨reply, st, hcom⟩ | ⟨hst, -⟩
  · have hacts : Acts s.env s.req.kind { b.store with carriers := [] } st :=
      applyRequest_acts (background_of_delivery hk) _ _ _ hcom.run
    rw [hk] at hacts
    have hback := (Acts.moves hacts).background
    obtain ⟨es, hl, hb⟩ := Acts.burials (hs.uncarried []) hacts
    have hpost : (b.exec s).1.store = { st with carriers := [] } := by rw [hcom.post]
    have hes : (visit Broker.exec b s).post.store.events = journal (visit Broker.exec b s).pre.store.events es := by
      show (b.exec s).1.store.events = _
      rw [hpost]
      exact hl.events
    rw [(written_of_journal hes).2.1, hpost]
    refine ⟨⟨hb.died, hb.once, fun e he c hc => ?_, hb.apart, hb.rest⟩, hback.consumers, fun k hk hn => ?_⟩
    · obtain ⟨hdlq, hfresh, hcopied, hrow⟩ := hb.interred e he c hc
      exact ⟨hdlq, hfresh, hcopied, hrow⟩
    · obtain ⟨e, he, hend⟩ := hback.dropped k hk hn
      obtain ⟨row, hrow, rfl⟩ := reported_written (b := b) (s := s) (e := e) (by rw [hcom.out]; exact he)
      exact ⟨row, hrow, hend⟩
  · rw [List.eq_nil_iff_forall_not_mem.mpr (not_written hst), hst]
    exact ⟨burials_quiet rfl fun _ h => absurd h List.not_mem_nil, rfl, fun k hk hn => absurd hn hk⟩

/-- The deaths a visit reported. -/
def Visit.deaths (v : Visit) : List Death := (Visit.written v).filterMap fun r => r.event.death

/-- Only a settle, a sweep or a retire reports deaths. -/
theorem delivery_of_dead {r : EventRow} (hr : r ∈ Visit.written (visit Broker.exec b s))
    (hn : r.event.name = .msgDead) :
    s.req.kind = .delivery := by
  by_contra hk
  by_cases htrim : s.req.kind = .trimming
  · rw [written_trim htrim] at hr
    cases hr
  · obtain ⟨es, hes, -, hp⟩ := exec_journal (b := b) htrim
    have hmap := (written_of_journal (v := visit Broker.exec b s) hes).2.1
    exact ((hp r.event (hmap ▸ List.mem_map_of_mem hr)).2.2 hk).1 hn

theorem delivery_of_death {x : Death} (hx : x ∈ Visit.deaths (visit Broker.exec b s)) : s.req.kind = .delivery := by
  obtain ⟨r, hr, hd⟩ := List.mem_filterMap.mp hx
  refine delivery_of_dead hr (by_contra fun hn => ?_)
  rw [death_of_name hn] at hd
  cases hd

theorem seek_ne_action {k : Bytes × Bytes} (hk : s.req.kind = .delivery) :
    Visit.action (visit Broker.exec b s) k ≠ .seek := fun h => by
  have hseek := seeks_of_action h
  unfold Visit.seeks at hseek
  split at hseek
  · rename_i hreq _
    have hreq : s.req = _ := hreq
    rw [hreq] at hk
    cases hk
  · cases hseek

/-- A death in the terms of the consumer's ledger: a position that was handed out leaves. -/
theorem death_ledger (hs : b.store.Sound) (hg : ∀ c ∈ b.store.consumers, c.generation ≤ maxInt32)
    (hdate : ∀ k l, b.view k = some l → Ledger.Dated 1 l) {x : Death}
    (hx : x ∈ Visit.deaths (visit Broker.exec b s)) :
    ∃ l l' t, b.view (x.stream, x.consumer) = some l ∧ (b.exec s).1.view (x.stream, x.consumer) = some l' ∧
      l.slot x.seq = some t ∧ t.attempts ≠ 0 ∧ t.epoch = x.generation ∧ l'.slot x.seq = none := by
  have hk := delivery_of_death hx
  obtain ⟨hb, hcons, -⟩ := visit_burials hs hk
  obtain ⟨r, hr, hd⟩ := List.mem_filterMap.mp hx
  obtain ⟨⟨d, hrow, hheld, hgen⟩, hgone⟩ := hb.died r.event (List.mem_map_of_mem hr) x hd
  obtain ⟨c, hc⟩ := Option.ne_none_iff_exists'.mp (hs.owner x.row (by simp [hrow]))
  have hc : b.store.consumers.find? (x.stream, x.consumer) = some c := hc
  obtain ⟨hcs, hcn⟩ := pair_of_find? hc
  have hslot : (b.store.ledger c).slot x.seq = some d.slot := slot_eq_some.mpr ⟨d, by rw [hcs, hcn]; exact hrow, rfl⟩
  refine ⟨_, _, d.slot, view_of_find? hc, view_of_find? (c := c) (by rw [hcons]; exact hc), hslot, fun h0 => ?_, ?_, ?_⟩
  · obtain ⟨hready, -⟩ := (hs.ledger _ c hc).fresh x.seq d.slot hslot h0
    have hready : d.state = .ready := by simpa [DeliveryRow.slot] using hready
    have h0 : d.attempts = 0 := h0
    rcases hheld with h | h
    · rw [hready] at h; cases h
    · omega
  · obtain ⟨hlow, hhigh⟩ := hdate _ _ (view_of_find? hc) x.seq d.slot hslot
    have hhigh : d.generation ≤ c.generation := hhigh
    rcases hgen with h | h
    · exact h.symm
    · exact ((toInt32_eq hlow (hhigh.trans (hg c (mem_of_find? hc)))) ▸ h).symm
  · exact Option.map_eq_none_iff.mpr (by rw [hcs, hcn]; exact hgone)

end Visits

/-! ## Runs -/

theorem Runs.dated (r : Runs h b) (k : Bytes × Bytes) (l : Ledger) (hl : b.view k = some l) : Ledger.Dated 1 l := by
  refine r.invariant_along (C := fun _ _ => True) (I := fun _ b => ∀ l, b.view k = some l → Ledger.Dated 1 l)
    (fun _ _ _ _ => trivial) (fun _ hl => nomatch hl) ?_ l hl
  intro h b s r _ ih _ l' hl'
  have r : Runs h b := r
  cases hv : b.view k with
  | none =>
    intro q t ht
    rw [(view_born r.sound hv hl').1 q] at ht
    cases ht
  | some l =>
    refine (view_step r.sound hv hl').dated ?_ (ih l hv)
    obtain ⟨c, hc, rfl⟩ := view_eq_some.mp hv
    exact (r.sound.config k c hc).1

/-- The deaths of a run. -/
def deaths (h : List Visit) : List Death := h.flatMap Visit.deaths

/-- When a consumer comes into being, no message that died under its name is still stored. -/
def DiedFresh (past : List Visit) (v : Visit) : Prop :=
  ∀ k ∈ Visit.born v, ∀ x ∈ deaths past, (x.stream, x.consumer) = k → v.pre.store.messages.find? (k.1, x.seq) = none

instance (past : List Visit) (v : Visit) : Decidable (DiedFresh past v) := by unfold DiedFresh; infer_instance

/-- The death does not happen again: its message is gone for good, or its consumer has moved past it. -/
structure Laid (b : Broker) (x : Death) : Prop where
  below : x.seq < b.store.upcoming x.stream
  ended : b.store.messages.find? (x.stream, x.seq) = none ∨
    ∀ l, b.view (x.stream, x.consumer) = some l → l.Ended x.seq x.generation

section Steps

variable {x : Death}

theorem Laid.step {past : List Visit} (hx : Laid b x) (hs : b.store.Sound) (hf : SeedsFresh (visit Broker.exec b s))
    (hc : DiedFresh past (visit Broker.exec b s)) (hmem : x ∈ deaths past) : Laid (b.exec s).1 x := by
  have h := closed_step (k := (x.stream, x.consumer)) (P := fun l => l.Ended x.seq x.generation)
    (fun hstep hl => hstep.ended hl) hs hf hx.below (fun hk => hc _ hk x hmem rfl) hx.ended
  exact ⟨h.1, h.2⟩

theorem laid_of_death (hs : b.store.Sound) (hf : SeedsFresh (visit Broker.exec b s))
    (hg : ∀ c ∈ b.store.consumers, c.generation ≤ maxInt32) (hdate : ∀ k l, b.view k = some l → Ledger.Dated 1 l)
    (hord : ∀ k l, b.view k = some l → l.Ordered) (hx : x ∈ Visit.deaths (visit Broker.exec b s)) :
    Laid (b.exec s).1 x := by
  obtain ⟨l, l', t, hl, hl', ht, h0, hgen, hn⟩ := death_ledger hs hg hdate hx
  refine ⟨(upcoming_of_slot hs hl ht).trans_le ((exec_drawn hs hf).1 _).le, .inr fun l₂ hl₂ => ?_⟩
  obtain rfl : l' = l₂ := Option.some.inj (hl'.symm.trans hl₂)
  rw [← hgen]
  exact (view_step hs hl hl').ends (view_sound hs hl) (hord _ l hl) (hdate _ l hl)
    (seek_ne_action (delivery_of_death hx)) ht h0 hn

theorem Laid.not_again (hlaid : Laid b x) (hs : b.store.Sound) (hb : b.store.Backed)
    (hg : ∀ c ∈ b.store.consumers, c.generation ≤ maxInt32) (hdate : ∀ k l, b.view k = some l → Ledger.Dated 1 l) :
    x ∉ Visit.deaths (visit Broker.exec b s) := fun hx => by
  obtain ⟨l, -, t, hl, -, ht, -, hgen, -⟩ := death_ledger hs hg hdate hx
  rcases hlaid.ended with hn | hend
  · obtain ⟨c, hc, rfl⟩ := view_eq_some.mp hl
    obtain ⟨hcs, hcn⟩ := pair_of_find? hc
    obtain ⟨d, hd, -⟩ := slot_eq_some.mp ht
    obtain ⟨m, hm, -⟩ := hb _ d hd
    rw [hcs, hn] at hm
    cases hm
  · exact (hend l hl).slot t ht hgen

/-- One visit reports different deaths. -/
theorem deaths_nodup (hs : b.store.Sound) : (Visit.deaths (visit Broker.exec b s)).Nodup := by
  by_cases hk : s.req.kind = .delivery
  · have honce := (visit_burials hs hk).1.once
    rw [List.filterMap_map] at honce
    exact honce.of_map
  · rw [List.eq_nil_iff_forall_not_mem.mpr fun x hx => hk (delivery_of_death hx)]
    exact List.nodup_nil

end Steps

theorem deaths_once (r : Runs h b) (hm : ∀ v ∈ h, ReapsMarked v) (hf : ∀ v ∈ h, SeedsFresh v)
    (hg : ∀ v ∈ h, ∀ c ∈ v.pre.store.consumers, c.generation ≤ maxInt32) (hc : Upheld DiedFresh h) :
    (deaths h).Nodup := by
  refine (r.invariant_along
    (C := fun past v => ReapsMarked v ∧ SeedsFresh v ∧ (∀ c ∈ v.pre.store.consumers, c.generation ≤ maxInt32) ∧
      DiedFresh past v)
    (I := fun h b => (∀ x ∈ deaths h, Laid b x) ∧ (deaths h).Nodup)
    (fun h₁ v h₂ hh => ⟨hm v (by simp [hh]), hf v (by simp [hh]), hg v (by simp [hh]), hc h₁ v h₂ hh⟩)
    ⟨nofun, List.nodup_nil⟩ ?_).2
  rintro h b s r hup ⟨ihl, ihn⟩ ⟨-, hv₂, hv₃, hv₄⟩
  have r : Runs h b := r
  have hmarked : ∀ v ∈ h, ReapsMarked v := fun v hv => by
    obtain ⟨p, q, hpq⟩ := List.append_of_mem hv
    exact (hup p v q hpq).1
  have hsplit : deaths (h ++ [visit Broker.exec b s]) = deaths h ++ Visit.deaths (visit Broker.exec b s) := by
    rw [deaths, List.flatMap_append, List.flatMap_singleton, deaths]
  rw [hsplit]
  refine ⟨fun x hx => ?_, List.nodup_append.mpr ⟨ihn, deaths_nodup r.sound, ?_⟩⟩
  · rcases List.mem_append.mp hx with hx | hx
    · exact (ihl x hx).step r.sound hv₂ hv₄ hx
    · exact laid_of_death r.sound hv₂ hv₃ r.dated (fun k l hl => r.ordered hmarked hl) hx
  · rintro x hx _ hx' rfl
    exact (ihl x hx).not_again r.sound (r.backed hmarked) hv₃ r.dated hx'

/-! ## Refusals -/

/-- The budget refuses the copy: one is due, and it does not fit. -/
def Store.Refuses (st : Store) (budget : DeadBudget) (d : DeadCtx) : Prop :=
  (planDead d (st.deadPolicyOf d.stream d.consumer)).copy = true ∧
    ∃ origin, st.messages.find? (d.stream, d.seq) = some origin ∧ budget.canCopy origin.size = false

section Refusals

variable {budget : DeadBudget} {st : Store}

theorem deadLetter_refused {d : DeadCtx} (h : st.Refuses budget d) : deadLetter env budget d st = .ok (none, st) := by
  obtain ⟨hplan, origin, ho, hfit⟩ := h
  refine run_bind.mpr ⟨st, st, rfl, ?_⟩
  simp only [hplan, ho, hfit, Bool.not_true, Bool.not_false, Bool.false_eq_true, if_false, if_true]
  rfl

/-- A sweep leaves the row for the next tick. -/
theorem sweepDead_refused {trigger : DeadTrigger} (res : SweepResult)
    (h : st.Refuses budget (d.deadCtx st maxDeliver trigger)) :
    sweepDead env budget d maxDeliver trigger res st = .ok (({ res with deferred := res.deferred + 1 }, budget), st) :=
  run_bind.mpr ⟨st, st, rfl, run_bind.mpr ⟨none, st, deadLetter_refused h, rfl⟩⟩

/-- A retire stops. -/
theorem retireRows_refused (ds : List DeliveryRow) (retired : ℕ)
    (h : st.Refuses budget (d.deadCtx st maxDeliver .policyLowered)) :
    retireRows env maxDeliver (d :: ds) retired budget st = .ok ((retired, none), st) :=
  run_bind.mpr ⟨st, st, rfl, run_bind.mpr ⟨none, st, deadLetter_refused h, rfl⟩⟩

/-- A settle fails as a whole. -/
theorem applyDead_refused {it : SettleItem} {cons : SettleConsumer} {row : SettleRow} {plan : SettlePlan}
    {reason : Bytes}
    (res : ItemResult) (h : st.Refuses budget (it.deadCtx cons row plan reason)) :
    applyDead env budget it cons row plan reason res st = .error (.fault .deadBudget) := by
  have hdead : ∀ e, deadLetter env budget (it.deadCtx cons row plan reason) (st.logged e) = .ok (none, st.logged e) :=
    fun e => deadLetter_refused h
  rw [applyDead, run_bind_ok (a := ()) (commitEvent_run.mpr rfl)]
  exact run_bind_ok (hdead _) _

end Refusals

/-! ## Conservation -/

/-- **Conservation.** In a run without stray chunks in which no dead-letter stream is re-seeded, no consumer is created
over a message that died under its name, and generations stay within 32 bits: a delivery dies once in a generation; the
copies reported are new messages like their origins, different ones, and the only messages that came, while the
rows that went were reported; and a death the budget refuses changes nothing. -/
theorem deaths_conserved {h : List Visit} {b : Broker} (r : Runs h b) (hm : ∀ v ∈ h, ReapsMarked v)
    (hf : ∀ v ∈ h, SeedsFresh v) (hg : ∀ v ∈ h, ∀ c ∈ v.pre.store.consumers, c.generation ≤ maxInt32)
    (hc : Upheld DiedFresh h) :
    (deaths h).Nodup ∧
    (∀ v ∈ h, v.act.req.kind = .delivery →
      (∀ row ∈ Visit.written v, ∀ copy, row.event.copy = some copy →
        Interred v.pre.store v.post.store row.event copy) ∧
      ((Visit.written v).filterMap fun row => row.event.copy).Nodup ∧
      (∀ k, v.pre.store.messages.find? k = none → v.post.store.messages.find? k ≠ none →
        ∃ row ∈ Visit.written v, row.event.copy = some k) ∧
      ∀ k, v.pre.store.deliveries.find? k ≠ none → v.post.store.deliveries.find? k = none →
        ∃ row ∈ Visit.written v, row.event.Ends k) ∧
    (∀ v ∈ h, (∀ reply es, v.out ≠ .ok reply es) → v.post.store = v.pre.store ∧ Visit.written v = []) ∧
    ∀ (env : Env) (budget : DeadBudget) (st : Store),
      (∀ d maxDeliver trigger res, st.Refuses budget (d.deadCtx st maxDeliver trigger) →
        sweepDead env budget d maxDeliver trigger res st =
          .ok (({ res with deferred := res.deferred + 1 }, budget), st)) ∧
      (∀ d ds maxDeliver retired, st.Refuses budget (d.deadCtx st maxDeliver .policyLowered) →
        retireRows env maxDeliver (d :: ds) retired budget st = .ok ((retired, none), st)) ∧
      ∀ it cons row plan reason res, st.Refuses budget (SettleItem.deadCtx it cons row plan reason) →
        applyDead env budget it cons row plan reason res st = .error (.fault .deadBudget) := by
  refine ⟨deaths_once r hm hf hg hc, fun v hv hk => ?_, fun v hv hout => ?_, fun env budget st =>
    ⟨fun d maxDeliver trigger res hr => sweepDead_refused res hr, fun d ds maxDeliver retired hr =>
      retireRows_refused ds retired hr, fun it cons row plan reason res hr => applyDead_refused res hr⟩⟩
  · obtain ⟨h₁, h₂, -, r₁, hvis, -⟩ := r.at_mem hv
    have r₁ : Runs h₁ v.pre := r₁
    rw [hvis]
    obtain ⟨hb, -, hends⟩ := visit_burials r₁.sound hk
    have hcopies := hb.apart
    rw [List.filterMap_map] at hcopies
    refine ⟨fun row hrow copy hcopy => hb.interred _ (List.mem_map_of_mem hrow) copy hcopy, hcopies,
      fun k hn hne => ?_, hends⟩
    by_contra hno
    refine hne ((hb.rest k fun hk => hno ?_).trans hn)
    obtain ⟨e, he, hcopy⟩ := List.mem_filterMap.mp hk
    obtain ⟨row, hrow, rfl⟩ := List.mem_map.mp he
    exact ⟨row, hrow, hcopy⟩
  · obtain ⟨h₁, h₂, -, -, hvis, -⟩ := r.at_mem hv
    rw [hvis] at hout ⊢
    rcases exec_cases v.pre v.act with ⟨reply, st, hcom⟩ | ⟨hst, -⟩
    · exact absurd hcom.out (hout reply st.carriers)
    · exact ⟨hst, List.eq_nil_iff_forall_not_mem.mpr (not_written hst)⟩

/-- A message dies, its consumer is deleted and created again, and the message dies again. -/
def diedTwice : List (ℤ × Request) :=
  aSetup 1 ++ [(10, aFetch 1), (11, .settle [anItem .term 1 1 1]),
    (12, .deleteConsumer aStream aConsumer []),
    (13, aSubscribe),
    (14, aFetch 1), (15, .settle [anItem .term 1 1 1])]

theorem recreated_consumer_buries_again : Runs (play diedTwice) (playState diedTwice) ∧
    deaths (play diedTwice) = [⟨aStream, aConsumer, 1, 1⟩, ⟨aStream, aConsumer, 1, 1⟩] ∧
    (playState diedTwice).store.messages.rows.map MessageRow.key =
      [(aStream, 1), (dlqName aStream, 1), (dlqName aStream, 2)] :=
  ⟨runs_play _, by decide +kernel⟩

/-- A message dies, the consumer seeks back, and it dies again in the next generation. -/
def diedAnew : List (ℤ × Request) :=
  aSetup 1 ++ [(10, aFetch 1), (11, .settle [anItem .term 1 1 1]),
    (12, .seek aStream aConsumer .first false []),
    (13, aFetch 1), (14, .settle [anItem .term 1 1 2])]

theorem deaths_conserved_diedAnew :
    deaths (play diedAnew) = [⟨aStream, aConsumer, 1, 1⟩, ⟨aStream, aConsumer, 1, 2⟩] ∧
    (deaths (play diedAnew)).Nodup ∧ ∀ v ∈ play diedAnew, v.act.req.kind = .delivery →
      ∀ row ∈ Visit.written v, ∀ copy, row.event.copy = some copy →
        Interred v.pre.store v.post.store row.event copy := by
  have hlife : (∀ v ∈ play diedAnew, ReapsMarked v ∧ SeedsFresh v ∧ ∀ c ∈ v.pre.store.consumers,
    c.generation ≤ maxInt32) ∧
      Upheld DiedFresh (play diedAnew) ∧
      deaths (play diedAnew) = [⟨aStream, aConsumer, 1, 1⟩, ⟨aStream, aConsumer, 1, 2⟩] := by
    decide +kernel
  obtain ⟨hvisits, hfresh, hdeaths⟩ := hlife
  have hcons := deaths_conserved (runs_play diedAnew) (fun v hv => (hvisits v hv).1) (fun v hv => (hvisits v hv).2.1)
    (fun v hv => (hvisits v hv).2.2) hfresh
  exact ⟨hdeaths, hcons.1, fun v hv hk => (hcons.2.1 v hv hk).1⟩

end Messq

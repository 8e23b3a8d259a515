import Messq.Property.Stamp

/-! # Redeliveries are explained by the audit trail

A delivery row counts its claims, and every claim is reported (`visit_row`). A held row waits again only with a report
of a nak or of a timeout in the same transaction (`Acts.frees`), or because a restart took the lease back; so between
two claims of a row there is one of these (`redelivery_explained`). -/

namespace Messq

open Lib Relation

variable {k : Bytes × Bytes × ℤ} {d d' : DeliveryRow} {env : Env} {st st' : Store} {v : Visit} {consumer stream : Bytes}
  {kind : Kind} {maxBytes : ℤ} {b : Broker} {s : Step}

/-- The events a visit wrote that report a delivery of `k`. -/
def Visit.delivers (v : Visit) (k : Bytes × Bytes × ℤ) : ℕ :=
  (Visit.written v).countP fun r => decide (r.event.name = .msgDeliver ∧ r.event.about = k)

/-- The visit wrote a report that `k` was given back or timed out, or it is a restart that took the lease back. -/
def Visit.frees (v : Visit) (k : Bytes × Bytes × ℤ) : Prop :=
  (∃ r ∈ Visit.written v, r.event.Frees k) ∨ (∃ unclean, v.act.req = .restart unclean) ∧
    ∃ d d', v.pre.store.deliveries.find? k = some d ∧ v.post.store.deliveries.find? k = some d' ∧
      d.state = .inflight ∧ d'.state = .ready

/-- The visit claimed `k`, for the `n`-th time. -/
def Visit.claims (v : Visit) (k : Bytes × Bytes × ℤ) (n : ℤ) : Prop :=
  ∃ d', v.post.store.deliveries.find? k = some d' ∧ d'.attempts = n ∧
    ((v.pre.store.deliveries.find? k).map DeliveryRow.attempts).getD 0 + 1 = n

/-! ## Releases -/

theorem Act.frees (h : Act env kind st st') (hd : st.deliveries.find? k = some d)
    (hd' : st'.deliveries.find? k = some d') (hi : d.state = .inflight) (hr : d'.state = .ready) :
    ∃ e ∈ st.carriers, e.Frees k := by
  have hsame : st.deliveries.find? k = st'.deliveries.find? k → False := fun h => by
    rw [hd, hd', Option.some.injEq] at h
    rw [h, hr] at hi
    cases hi
  cases h with
  | log | lapse | limit | store | evict | tune | redact | trim => exact absurd rfl hsame
  | extend _ d₀ visibleAt t hd₀ hs ht =>
    by_cases hk : k = d₀.key
    · rw [hk, ht.same] at hd'
      cases hd'
      rw [hs] at hr
      cases hr
    · exact (hsame (ht.other hk).symm).elim
  | release _ d₀ visibleAt reason t hd₀ hs hb he ht =>
    by_cases hk : k = d₀.key
    · rw [hk, hd₀] at hd
      cases hd
      rw [hk]
      exact he hi
    · exact (hsame (ht.other hk).symm).elim
  | ack _ d₀ e t hd₀ hs hts hn hk₀ ht =>
    by_cases hk : k = d₀.key
    · rw [hk, ht.same] at hd'
      cases hd'
    · exact (hsame (ht.other hk).symm).elim
  | die _ st₁ ctx d₀ t hb hd₀ hs hk₀ hg ht =>
    by_cases hk : k = d₀.key
    · rw [hk, ht.same] at hd'
      cases hd'
    · exact (hsame (ht.other hk).symm).elim

/-- **Releases.** A row that is held before and waits afterwards has its report. -/
theorem Acts.frees (h : Acts env kind st st') (hd : st.deliveries.find? k = some d)
    (hd' : st'.deliveries.find? k = some d') (hi : d.state = .inflight) (hr : d'.state = .ready) :
    ∃ e ∈ st'.carriers, e.Frees k := by
  induction h generalizing d' with
  | refl =>
    rw [hd, Option.some.injEq] at hd'
    rw [hd', hr] at hi
    cases hi
  | @tail st₁ st₂ h₁ ha ih =>
    have hback := ha.moves.background
    obtain ⟨d₁, hd₁, ht⟩ := hback.kept k d' hd'
    have hfree : ∃ e ∈ st₁.carriers, e.Frees k := by
      cases hs : d₁.state with
      | ready => exact ih hd₁ hs
      | inflight => exact ha.frees hd₁ hd' hs hr
    obtain ⟨e, he, hfe⟩ := hfree
    exact ⟨e, hback.carriers e he, hfe⟩

/-! ## Reports of deliveries -/

theorem delivers_of_journal {es : List Event} (h : v.post.store.events = journal v.pre.store.events es)
    (k : Bytes × Bytes × ℤ) : Visit.delivers v k = es.countP fun e => decide (e.name = .msgDeliver ∧ e.about = k) := by
  rw [← (written_of_journal h).2.1, List.countP_map]
  rfl

theorem delivers_eq_zero (hf : s.req.fetches = false) (k : Bytes × Bytes × ℤ) :
    Visit.delivers (visit Broker.exec b s) k = 0 := by
  by_cases hk : s.req.kind = .trimming
  · rw [Visit.delivers, written_trim hk]
    rfl
  · obtain ⟨es, hes, -, hp⟩ := exec_journal (b := b) hk
    rw [delivers_of_journal (v := visit Broker.exec b s) hes, List.countP_eq_zero]
    exact fun e he hd => (hp e he).2.1 hf (of_decide_eq_true hd).1

theorem deliverEvent_about (nowMs : ℤ) (stream consumer : Bytes) (x : Claimed) :
    (deliverEvent nowMs stream consumer x).about = (stream, consumer, x.seq) := by
  simp only [Event.about, deliverEvent, nullStr_getD, nullI64_getD]

/-- A fetch reports each delivery it claimed. -/
theorem delivers_fetch {batch : ℕ} {r : FetchResult} (hpost : (b.exec s).1.store = { st with carriers := [] })
    (hrun : fetch s.env stream consumer batch maxBytes { b.store with carriers := [] } = .ok (r, st))
    (k : Bytes × Bytes × ℤ) : Visit.delivers (visit Broker.exec b s) k =
      if (k.1, k.2.1) = (stream, consumer) then (r.claimed.map Claimed.seq).count k.2.2 else 0 := by
  obtain ⟨es, hl, hp⟩ := fetch_logs hrun
  have hes : (visit Broker.exec b s).post.store.events = journal (visit Broker.exec b s).pre.store.events
      (es ++ r.claimed.map (deliverEvent s.env.nowMs stream consumer)) := by
    show (b.exec s).1.store.events = _
    rw [hpost]
    exact hl.events
  rw [delivers_of_journal hes, List.countP_append, List.countP_eq_zero.mpr, zero_add, List.countP_map]
  · have hone : ∀ x : Claimed, decide ((deliverEvent s.env.nowMs stream consumer x).name = .msgDeliver ∧
        (deliverEvent s.env.nowMs stream consumer x).about = k) = decide ((stream, consumer, x.seq) = k) := fun x => by
      rw [deliverEvent_about]
      simp [deliverEvent]
    rw [List.countP_congr fun x _ => by rw [Function.comp_apply, hone]]
    obtain ⟨k₁, k₂, q⟩ := k
    split
    · rename_i hk
      obtain ⟨rfl, rfl⟩ := Prod.mk.inj hk
      rw [List.count, List.countP_map]
      refine List.countP_congr fun x _ => ?_
      simp
    · rename_i hk
      refine List.countP_eq_zero.mpr fun x _ hx => hk ?_
      have hx := of_decide_eq_true hx
      simp only [Prod.mk.injEq] at hx ⊢
      exact ⟨hx.1.symm, hx.2.1.symm⟩
  · exact fun e he hd => (hp e he).2.1 (of_decide_eq_true hd).1

/-- A visit that leaves the store alone writes nothing. -/
theorem not_written (h : (b.exec s).1.store = b.store) (r : EventRow) :
    r ∉ Visit.written (visit Broker.exec b s) := fun hr => by
  obtain ⟨hmem, hne⟩ := mem_written.mp hr
  have hmem : r ∈ (b.exec s).1.store.events := hmem
  rw [h] at hmem
  exact hne r hmem rfl

/-- What is fanned out is in the audit trail. -/
theorem reported_written {e : Event} (he : e ∈ (b.exec s).2.events) :
    ∃ r ∈ Visit.written (visit Broker.exec b s), r.event = e := by
  by_cases hk : s.req.kind = .trimming
  · obtain ⟨spec, batch, hreq⟩ := trims_of_kind hk
    rcases exec_cases b s with ⟨reply, st, hcom⟩ | ⟨-, -, hev, -⟩
    · have hrun := hcom.run
      rw [hreq] at hrun
      obtain ⟨res, hrun, -⟩ := run_map.mp hrun
      simp only [trimEvents, run_get_bind, run_set_bind, run_pure] at hrun
      obtain ⟨-, rfl⟩ := hrun
      rw [hcom.out] at he
      cases he
    · rw [hev] at he
      cases he
  · obtain ⟨es, hes, hsub, -⟩ := exec_journal (b := b) hk
    have hmap := (written_of_journal (v := visit Broker.exec b s) hes).2.1
    exact List.mem_map.mp (hmap ▸ hsub e he)

/-! ## Rows -/

/-- What a visit did to a delivery row that is there afterwards. -/
inductive RowStep (v : Visit) (k : Bytes × Bytes × ℤ) : Option DeliveryRow → DeliveryRow → Prop
  | admitted {d' : DeliveryRow} (ha : d'.attempts = 0) (hn : Visit.delivers v k = 0) : RowStep v k none d'
  | kept {d d' : DeliveryRow} (ha : d'.attempts = d.attempts)
      (hf : d.state = .inflight → d'.state = .ready → Visit.frees v k) (hn : Visit.delivers v k = 0)
      (hw : d.state = .ready → d'.state = .ready) : RowStep v k (some d) d'
  | claimed {o : Option DeliveryRow} {d' : DeliveryRow} (ho : ∀ d, o = some d → d.state = .ready)
      (ha : d'.attempts = (o.map DeliveryRow.attempts).getD 0 + 1) (hs : d'.state = .inflight)
      (hn : Visit.delivers v k = 1) : RowStep v k o d'

/-- A row that stays as it is. -/
theorem RowStep.same (hn : Visit.delivers v k = 0) :
    RowStep v k (some d) d := .kept rfl (fun hi hr => by rw [hi] at hr; cases hr) hn id

theorem fetch_row {batch : ℤ} {reply : Reply} (hs : b.store.Sound)
    (hreq : s.req = .fetch stream consumer batch maxBytes) (hcom : Committed b s reply st)
    (hd' : st.deliveries.find? k = some d') : RowStep (visit Broker.exec b s) k (b.store.deliveries.find? k) d' := by
  have hrun := hcom.run
  rw [hreq] at hrun
  obtain ⟨r, hrun, -⟩ := run_map.mp hrun
  have hdel := delivers_fetch (by rw [hcom.post]) hrun k
  obtain ⟨c, hc, -, -, -, hconf, hwhat⟩ := fetch_run hrun
  by_cases hk : (k.1, k.2.1) = (stream, consumer)
  · rw [if_pos hk] at hdel
    obtain ⟨k₁, k₂, q⟩ := k
    obtain ⟨rfl, rfl⟩ := Prod.mk.inj hk
    rcases hwhat with ⟨hnone, rfl⟩ | hfetched
    · rw [hnone] at hdel
      have hd' : b.store.deliveries.find? (k₁, k₂, q) = some d' := hd'
      rw [hd']
      exact .same hdel
    · obtain ⟨head, st₁, hhead, -, htop, hclaim, -⟩ := hfetched.admitted
      obtain ⟨rfl, rfl⟩ := pair_of_find? hc
      obtain ⟨head', hhead', -, hbound⟩ := hs.bounded (k := c.key) (by
        rw [show b.store.consumers.find? c.key = some c from hc]
        exact Option.some_ne_none c)
      obtain rfl : head = head' := Option.some.inj (hhead.symm.trans hhead')
      have htop := htop hbound
      have hfresh : ∀ d, st₁.deliveries.find? (c.stream, c.name, q) = some d →
          b.store.deliveries.find? (c.stream, c.name, q) = some d ∨
          b.store.deliveries.find? (c.stream, c.name, q) = none ∧ d.attempts = 0 := fun d hd => by
        cases hpre : b.store.deliveries.find? (c.stream, c.name, q) with
        | some d₀ => exact .inl ((htop.kept _ d₀ hpre).symm.trans hd)
        | none =>
          rcases htop.fresh q d hd with hd | ⟨-, -, m, -, rfl⟩
          · exact absurd (hpre.symm.trans hd) nofun
          · exact .inr ⟨rfl, rfl⟩
      rw [hclaim.deliveries] at hd'
      split at hd'
      · rename_i hq
        obtain ⟨d, hd, rfl⟩ := Option.map_eq_some_iff.mp hd'
        rw [List.count_eq_one_of_mem hclaim.nodup hq.2.2] at hdel
        obtain ⟨d₁, hd₁, hready, -⟩ := (hclaim.chosen.claimable q hq.2.2).1
        obtain rfl : d = d₁ := Option.some.inj (hd.symm.trans hd₁)
        rcases hfresh d hd with hpre | ⟨hpre, h0⟩
        · rw [hpre]
          exact .claimed (fun _ h => by cases h; exact hready) rfl rfl hdel
        · rw [hpre]
          exact .claimed (fun _ h => nomatch h) (by rw [DeliveryRow.claim, h0]; rfl) rfl hdel
      · rename_i hq
        rw [List.count_eq_zero_of_not_mem fun h => hq ⟨rfl, rfl, h⟩] at hdel
        rcases hfresh d' hd' with hpre | ⟨hpre, h0⟩
        · rw [hpre]
          exact .same hdel
        · rw [hpre]
          exact .admitted h0 hdel
  · rw [if_neg hk] at hdel
    rw [hconf.deliveries k hk] at hd'
    have hd' : b.store.deliveries.find? k = some d' := hd'
    rw [hd']
    exact .same hdel

/-- **Step.** A visit leaves a row admitted, kept or claimed; it reports the claims, and it explains a release. -/
theorem visit_row (hs : b.store.Sound) (hd' : (b.exec s).1.store.deliveries.find? k = some d') :
    RowStep (visit Broker.exec b s) k (b.store.deliveries.find? k) d' := by
  have hstart := hd'
  rcases exec_cases b s with ⟨reply, st, hcom⟩ | ⟨hst, -, -, hno⟩
  · have hpost : (b.exec s).1.store = { st with carriers := [] } := by rw [hcom.post]
    rw [hpost] at hd'
    cases hf : s.req.fetches with
    | true =>
      cases hreq : s.req with
      | fetch stream consumer batch maxBytes => exact fetch_row hs hreq hcom hd'
      | _ => rw [hreq] at hf; cases hf
    | false =>
      have hnone := delivers_eq_zero (b := b) hf k
      by_cases hb : s.req.Background
      · have hacts : Acts s.env s.req.kind { b.store with carriers := [] } st := applyRequest_acts hb _ _ _ hcom.run
        obtain ⟨d, hd, ht⟩ := (Acts.moves hacts).background.kept k d' hd'
        have hd : b.store.deliveries.find? k = some d := hd
        rw [hd]
        refine .kept ht.attempts (fun hi hr => .inl ?_) hnone ht.ready
        obtain ⟨e, he, hfe⟩ := Acts.frees hacts hd hd' hi hr
        obtain ⟨r, hr, rfl⟩ := reported_written (b := b) (s := s) (e := e) (by rw [hcom.out]; exact he)
        exact ⟨r, hr, hfe⟩
      · by_cases hr : ∃ unclean, s.req = .restart unclean
        · obtain ⟨unclean, hreq⟩ := hr
          have he := hcom.effect
          rw [hreq] at he
          have hrow := Restarted.deliveries he k
          rw [hd'] at hrow
          obtain ⟨d, hd, hd₁⟩ := Option.map_eq_some_iff.mp hrow.symm
          have hd : b.store.deliveries.find? k = some d := hd
          rw [hd]
          refine .kept ?_ (fun hi hr => .inr ⟨⟨unclean, hreq⟩, d, d', hd, hstart, hi, hr⟩) hnone fun hr => ?_
          · rw [← hd₁]
            split <;> rfl
          · rw [← hd₁]
            split
            · rfl
            · exact hr
        · have hrow := effect_row hcom.effect hb hf (fun unclean h => hr ⟨unclean, h⟩) hd'
          have hrow : b.store.deliveries.find? k = some d' := hrow
          rw [hrow]
          exact .same hnone
  · rw [hst] at hd'
    rw [hd']
    exact .same (List.countP_eq_zero.mpr fun r hr => absurd hr (not_written hst r))

/-! ## Runs -/

/-- The claims of a row are reported since it was admitted. -/
def Reported (h : List Visit) (b : Broker) : Prop :=
  ∀ k d, b.store.deliveries.find? k = some d → ∃ h₁ v h₂, h = h₁ ++ v :: h₂ ∧ v.pre.store.deliveries.find? k = none ∧
    (∀ u ∈ v :: h₂, u.post.store.deliveries.find? k ≠ none) ∧
    d.attempts = (((v :: h₂).map fun u => Visit.delivers u k).sum : ℕ)

/-- A row that was claimed has its last claim, and if it waits again there is a reason since. -/
def Explained (h : List Visit) (b : Broker) : Prop :=
  ∀ k d, b.store.deliveries.find? k = some d → 1 ≤ d.attempts → ∃ h₁ u h₂, h = h₁ ++ u :: h₂ ∧
    Visit.claims u k d.attempts ∧ (∀ w ∈ u :: h₂, w.post.store.deliveries.find? k ≠ none) ∧
    (d.state = .ready → ∃ w ∈ h₂, Visit.frees w k)

section Steps

variable {h : List Visit}

theorem forall_mem_concat {P : Visit → Prop} {u : Visit} {l : List Visit} (hall : ∀ w ∈ v :: l, P w) (hu : P u) :
    ∀ w ∈ v :: (l ++ [u]), P w := by
  intro w hw
  rw [← List.cons_append, List.mem_append, List.mem_singleton] at hw
  rcases hw with hw | rfl
  · exact hall w hw
  · exact hu

theorem Reported.step (hc : Reported h b) (hs : b.store.Sound) :
    Reported (h ++ [visit Broker.exec b s]) (b.exec s).1 := by
  intro k d' hd'
  have hpost : (visit Broker.exec b s).post.store.deliveries.find? k ≠ none :=
    fun hn => absurd (hn.symm.trans hd') nofun
  have hrow := visit_row hs hd'
  -- a row that is new starts the count, a row that was there carries on with it
  have hnew : b.store.deliveries.find? k = none → d'.attempts = Visit.delivers (visit Broker.exec b s) k →
      ∃ h₁ v h₂, h ++ [visit Broker.exec b s] = h₁ ++ v :: h₂ ∧ v.pre.store.deliveries.find? k = none ∧
        (∀ u ∈ v :: h₂, u.post.store.deliveries.find? k ≠ none) ∧
        d'.attempts = (((v :: h₂).map fun u => Visit.delivers u k).sum : ℕ) := fun hpre hatt =>
    ⟨h, visit Broker.exec b s, [], rfl, hpre, fun u hu => by rwa [List.mem_singleton.mp hu], by simpa using hatt⟩
  have hold : ∀ d, b.store.deliveries.find? k = some d →
    d'.attempts = d.attempts + Visit.delivers (visit Broker.exec b s) k →
      ∃ h₁ v h₂, h ++ [visit Broker.exec b s] = h₁ ++ v :: h₂ ∧ v.pre.store.deliveries.find? k = none ∧
        (∀ u ∈ v :: h₂, u.post.store.deliveries.find? k ≠ none) ∧
        d'.attempts = (((v :: h₂).map fun u => Visit.delivers u k).sum : ℕ) := fun d hpre hatt => by
    obtain ⟨h₁, v, h₂, rfl, hnone, hall, hsum⟩ := hc k d hpre
    refine ⟨h₁, v, h₂ ++ [visit Broker.exec b s], by simp, hnone, forall_mem_concat hall hpost, ?_⟩
    rw [hatt, hsum, ← List.cons_append, List.map_append, List.sum_append]
    simp
  cases hpre : b.store.deliveries.find? k with
  | none =>
    rw [hpre] at hrow
    cases hrow with
    | admitted ha hn => exact hnew hpre (by rw [ha, hn]; rfl)
    | claimed ho ha _ hn => exact hnew hpre (by rw [ha, hn]; rfl)
  | some d =>
    rw [hpre] at hrow
    cases hrow with
    | kept ha _ hn => exact hold d hpre (by rw [ha, hn]; simp)
    | claimed ho ha _ hn => exact hold d hpre (by rw [ha, hn]; rfl)

theorem Explained.step (he : Explained h b) (hs : b.store.Sound) :
    Explained (h ++ [visit Broker.exec b s]) (b.exec s).1 := by
  intro k d' hd' h1
  have hpost : (visit Broker.exec b s).post.store.deliveries.find? k ≠ none :=
    fun hn => absurd (hn.symm.trans hd') nofun
  have hrow := visit_row hs hd'
  generalize hpre : b.store.deliveries.find? k = o at hrow
  cases hrow with
  | admitted ha => omega
  | claimed ho ha hst hn =>
    refine ⟨h, visit Broker.exec b s, [], rfl, ⟨d', hd', rfl, ?_⟩,
      fun w hw => by rwa [List.mem_singleton.mp hw], fun hr => ?_⟩
    · rw [ha, ← hpre]
      rfl
    · rw [hst] at hr
      cases hr
  | @kept d _ ha hf hn =>
    obtain ⟨h₁, u, h₂, rfl, hclaim, hall, hfree⟩ := he k d hpre (by omega)
    refine ⟨h₁, u, h₂ ++ [visit Broker.exec b s], by simp, ha ▸ hclaim, forall_mem_concat hall hpost, fun hr => ?_⟩
    cases hst : d.state with
    | ready =>
      obtain ⟨w, hw, hwf⟩ := hfree hst
      exact ⟨w, List.mem_append_left _ hw, hwf⟩
    | inflight => exact ⟨_, List.mem_append_right _ (List.mem_singleton.mpr rfl), hf hst hr⟩

end Steps

/-- **Redeliveries.** A row's attempts are the deliveries reported since it was admitted; and before a claim that is not
its first there is, since the claim before it, a report that it was given back or timed out, or a restart that took it
back. -/
theorem redelivery_explained {h : List Visit} {b : Broker} (r : Runs h b) :
    (∀ k d, b.store.deliveries.find? k = some d → ∃ h₁ v h₂, h = h₁ ++ v :: h₂ ∧
      v.pre.store.deliveries.find? k = none ∧ (∀ u ∈ v :: h₂, u.post.store.deliveries.find? k ≠ none) ∧
      d.attempts = (((v :: h₂).map fun u => Visit.delivers u k).sum : ℕ)) ∧
    ∀ h₁ v h₂, h = h₁ ++ v :: h₂ → ∀ k d d', v.pre.store.deliveries.find? k = some d →
      v.post.store.deliveries.find? k = some d' → 1 ≤ d.attempts → d'.attempts = d.attempts + 1 →
      ∃ g₁ u g₂, h₁ = g₁ ++ u :: g₂ ∧ Visit.claims u k d.attempts ∧
        (∀ w ∈ u :: g₂, w.post.store.deliveries.find? k ≠ none) ∧ ∃ w ∈ g₂, Visit.frees w k := by
  have hinv : ∀ {h : List Visit} {b : Broker}, Runs h b → Reported h b ∧ Explained h b := fun r => by
    refine r.invariant_along (C := fun _ _ => True) (I := fun h b => Reported h b ∧ Explained h b)
      (fun _ _ _ _ => trivial)
      ⟨fun k d hd => (nomatch hd), fun k d hd => (nomatch hd)⟩ fun h b s r _ ⟨hc, he⟩ _ => ?_
    have r : Runs h b := r
    exact ⟨hc.step r.sound, he.step r.sound⟩
  refine ⟨(hinv r).1, ?_⟩
  rintro h₁ v h₂ rfl k d d' hd hd' h1 hatt
  obtain ⟨r₁, hvis, -⟩ := r.at_visit
  have r₁ : Runs h₁ v.pre := r₁
  rw [hvis] at hd'
  have hrow := visit_row r₁.sound hd'
  rw [hd] at hrow
  cases hrow with
  | kept ha => omega
  | claimed ho ha hst hn =>
    obtain ⟨g₁, u, g₂, hg, hclaim, hall, hfree⟩ := (hinv r₁).2 k d hd h1
    exact ⟨g₁, u, g₂, hg, hclaim, hall, hfree (ho d rfl)⟩

/-- A message is claimed, given back, claimed again, and after a restart once more. -/
def redeliveredLife : List (ℤ × Request) :=
  aSetup 1 ++ [(10, aFetch 1), (11, .settle [anItem .nak 1 1 1]),
    (5000, aFetch 1), (5001, .restart none), (9000, aFetch 1)]

theorem redelivery_explained_redeliveredLife :
    ((playState redeliveredLife).store.deliveries.rows.map DeliveryRow.attempts) = [3] ∧
    ∀ k d, (playState redeliveredLife).store.deliveries.find? k = some d → ∃ h₁ v h₂,
      play redeliveredLife = h₁ ++ v :: h₂ ∧ v.pre.store.deliveries.find? k = none ∧
      (∀ u ∈ v :: h₂, u.post.store.deliveries.find? k ≠ none) ∧
      d.attempts = (((v :: h₂).map fun u => Visit.delivers u k).sum : ℕ) :=
  ⟨by decide +kernel, (redelivery_explained (runs_play redeliveredLife)).1⟩

end Messq

import Messq.Property.Terms
import Messq.Api.Consumers

/-! # Creating and editing a consumer

A `consumer.update` event says that the row of its consumer now holds the requested configuration.

- no two consumers of a stream have names that differ in case only (`Runs.namesApart`);
- the events of a create or an update are true exactly when the request is `Faithful` (`update_events_truthful_iff`):
  the create that finds a row finds it under its own name and asks for whole milliseconds, the patch changes something
  and its millisecond counts fit into a `time.Duration`;
- a document is answered as unchanged when it is posted again exactly when it lists no filter twice and its durations
  are whole milliseconds (`repost_unchanged_iff`). -/

namespace Messq

open Lib Table

variable {k : Bytes × Bytes} {c : ConsumerRow} {req : Request} {res : ConsumerCreateResult} {e : Event} {out : Outcome}
  {post pre : Store} {b : Broker} {actor name stream : Bytes} {cfg : ConsumerConfig} {env : Env} {start : StartPosition}

/-! ## Names that differ in case -/

/-- No two consumers of a stream have names that differ in case only. -/
def Store.NamesApart (st : Store) : Prop :=
  ∀ k k', st.consumers.find? k ≠ none → st.consumers.find? k' ≠ none → k.1 = k'.1 → eqNoCase k.2 k'.2 = true → k = k'

theorem eqNoCase_comm (a b : Bytes) : eqNoCase a b = eqNoCase b a := by
  rw [eqNoCase, eqNoCase, Bool.beq_comm]

theorem eqNoCase_self (a : Bytes) : eqNoCase a a = true := by simp [eqNoCase]

theorem namesake_eq_none {st : Store} (h : st.namesake stream name = none) (hk : st.consumers.find? k ≠ none)
    (hs : k.1 = stream) : eqNoCase k.2 name = false := by
  obtain ⟨c, hc⟩ := Option.ne_none_iff_exists'.mp hk
  obtain rfl : c.key = k := find?_key hc
  have hn := List.find?_eq_none.mp h c (mem_of_find? hc)
  simpa [show c.stream = stream from hs] using hn

theorem namesake_eq_some {st : Store} (h : st.namesake stream name = some c) :
    c ∈ st.consumers ∧ c.stream = stream ∧ eqNoCase c.name name = true := by
  have hp := List.find?_some h
  simp only [Bool.and_eq_true, beq_iff_eq] at hp
  exact ⟨List.mem_of_find?_eq_some h, hp⟩

/-- The row that a create finds is the one of its name, if there is one. -/
theorem Store.NamesApart.namesake {st : Store} (hn : st.NamesApart) {c' : ConsumerRow}
    (h : st.namesake stream name = some c) (hc' : st.consumers.find? (stream, name) = some c') : c = c' := by
  obtain ⟨hc, hs, hname⟩ := namesake_eq_some h
  have hc := find?_of_mem hc
  have hk : c.key = (stream, name) := hn c.key (stream, name) (by simp [hc]) (by simp [hc']) hs hname
  rw [hk] at hc
  exact Option.some.inj (hc.symm.trans hc')

/-- A create that inserts found no name of the stream that differs in case only. -/
theorem createConsumer_fresh {r : ConsumerCreateResult} {st st' : Store}
    (h : createConsumer env stream cfg start actor st = .ok (r, st')) (hn : st.consumers.find? k = none)
    (hk : st'.consumers.find? k ≠ none) : st.namesake stream cfg.name = none := by
  obtain ⟨-, -, h⟩ := createConsumer_iff.mp h
  cases hsake : st.namesake stream cfg.name with
  | none => rfl
  | some c =>
    simp only [hsake] at h
    split_ifs at h
    · rw [← h.2.2, hn] at hk
      exact absurd rfl hk
    · obtain ⟨-, hev, -⟩ := replaceConsumer_run h.2
      obtain rfl := commitEvent_run.mp hev
      have hsame : (st.consumers.update (fun c => c.key == (stream, cfg.name)) (fun c => c.withConfig cfg)
          fun _ _ => rfl).find? k = none := by
        refine (find?_setConfig st (stream, cfg.name) cfg k).trans ?_
        rw [hn]
        exact ite_self none
      exact absurd hsame hk

theorem applyRequest_namesApart {reply : Reply} {st st' : Store} (hs : st.Sound) (hi : st.NamesApart)
    (h : applyRequest env req st = .ok (reply, st')) : st'.NamesApart := by
  have he := applyRequest_effect h
  -- a new name is apart from every name of the new store
  have hnew : ∀ {k k' : Bytes × Bytes}, st.consumers.find? k = none → st'.consumers.find? k ≠ none →
      st'.consumers.find? k' ≠ none → k.1 = k'.1 → eqNoCase k.2 k'.2 = true → k = k' := by
    intro k k' hn hk hk' hstream hname
    obtain ⟨cfg, start, actor, rfl, hkn, -⟩ := effect_inserted hs he hn hk
    by_cases hold : st.consumers.find? k' = none
    · obtain ⟨cfg', start', actor', hreq', hkn', -⟩ := effect_inserted hs he hold hk'
      obtain ⟨hstream, rfl, -, -⟩ := Request.createConsumer.inj hreq'
      exact Prod.ext hstream (hkn.trans hkn'.symm)
    · obtain ⟨res, hrun, -⟩ := run_map.mp h
      have hfalse := namesake_eq_none (createConsumer_fresh hrun hn hk) hold hstream.symm
      rw [← hkn, eqNoCase_comm, hname] at hfalse
      cases hfalse
  intro k k' hk hk' hstream hname
  by_cases hold : st.consumers.find? k = none
  · exact hnew hold hk hk' hstream hname
  · by_cases hold' : st.consumers.find? k' = none
    · exact (hnew hold' hk' hk hstream.symm (by rwa [eqNoCase_comm])).symm
    · exact hi k k' hold hold' hstream hname

/-- **Names.** No two consumers of a stream ever have names that differ in case only. -/
theorem Runs.namesApart {h : List Visit} (r : Runs h b) : b.store.NamesApart :=
  Runs.holds (C := fun _ => True) (I := Store.NamesApart) (fun _ _ hk => absurd rfl hk) (fun _ _ hi => hi)
    (fun _ _ _ _ hs _ _ hcom hi => applyRequest_namesApart (hs.uncarried []) hi hcom.run) r fun _ _ => trivial

/-! ## Update events -/

/-- The event reports an update of the consumer. -/
def Event.Updates (e : Event) (k : Bytes × Bytes) : Prop :=
  e.name = .consumerUpdate ∧ e.stream = nullStr k.1 ∧ e.consumer = nullStr k.2

/-- The terms a patch asks for. -/
def ConsumerPatch.terms (p : ConsumerPatch) (t : Terms) : Terms where
  filters := (p.filters.map sortedSet).getD t.filters
  ackWaitMs := p.ackWaitMs.getD t.ackWaitMs
  maxDeliver := p.maxDeliver.getD t.maxDeliver
  maxAckPending := p.maxAckPending.getD t.maxAckPending
  backoffMs := p.backoffMs.getD t.backoffMs
  deadPolicy := p.deadPolicy.getD t.deadPolicy

/-- The millisecond counts of a patch. -/
def ConsumerPatch.durations (p : ConsumerPatch) : List ℤ := p.ackWaitMs.toList ++ p.backoffMs.getD []

/-- The row that was `c` and is `c'` holds the configuration the request asks for. -/
def Request.Met (req : Request) (c c' : ConsumerRow) : Prop :=
  match req with
  | .createConsumer _ cfg _ _ => c'.config.diff cfg = []
  | .updateConsumer _ _ p _ => c'.terms = p.terms c.terms
  | _ => True

/-- Every reported update has its row, which holds what was asked for, and something was changed. -/
def UpdatesTruthful (pre : Store) (req : Request) (post : Store) (es : List Event) : Prop :=
  ∀ e ∈ es, ∀ k, e.Updates k →
    (∃ c c', pre.consumers.find? k = some c ∧ post.consumers.find? k = some c' ∧ req.Met c c') ∧
    ((∃ k', post.consumers.find? k' ≠ pre.consumers.find? k') ∨ ∃ k', post.deliveries.find? k' ≠
      pre.deliveries.find? k')

/-- A create that finds a row finds it under its own name and asks for whole milliseconds; a patch changes something,
and its millisecond counts fit into a `time.Duration`. -/
def Request.Faithful (st : Store) : Request → Prop
  | .createConsumer stream cfg _ _ => ∀ c, st.namesake stream cfg.name = some c → c.config.diff cfg ≠ [] →
      c.name = cfg.name ∧ cfg.Whole
  | .updateConsumer stream name p _ => ∀ c, st.consumers.find? (stream, name) = some c → p.fields ≠ [] →
      p.terms c.terms ≠ c.terms ∧ ∀ ms ∈ p.durations, IsInt64 (ms * millisecond)
  | _ => True

theorem nullStr_inj {a b : Bytes} (h : nullStr a = nullStr b) : a = b := by
  rw [← nullStr_getD a, h, nullStr_getD]

/-- What a patch writes is what it asks for when its millisecond counts fit. -/
theorem terms_apply_iff {p : ConsumerPatch} (hc : c.terms.Canonical) :
    (p.apply c.config).terms = p.terms c.terms ↔ ∀ ms ∈ p.durations, IsInt64 (ms * millisecond) := by
  obtain ⟨hf, ha, hb⟩ := hc
  have hf' : sortedSet (p.filters.getD c.filters) = (p.filters.map sortedSet).getD c.filters := by
    cases p.filters with
    | none => exact hf
    | some l => rfl
  have ha' : milliseconds ((p.ackWaitMs.map msDuration).getD (msDuration c.ackWaitMs)) = p.ackWaitMs.getD c.ackWaitMs ↔
      ∀ ms ∈ p.ackWaitMs.toList, IsInt64 (ms * millisecond) := by
    cases p.ackWaitMs with
    | none => simpa using milliseconds_msDuration.mpr (show IsInt64 (c.ackWaitMs * millisecond) from ha)
    | some ms => simpa using milliseconds_msDuration
  have hb' : ((p.backoffMs.map fun l => l.map msDuration).getD (c.backoffMs.map msDuration)).map milliseconds =
      p.backoffMs.getD c.backoffMs ↔ ∀ ms ∈ p.backoffMs.getD [], IsInt64 (ms * millisecond) := by
    have hmap : ∀ l : List ℤ, (l.map msDuration).map milliseconds = l ↔ ∀ ms ∈ l, IsInt64 (ms * millisecond) := by
      intro l
      rw [List.map_map, map_eq_self_iff]
      exact forall₂_congr fun ms _ => milliseconds_msDuration
    cases p.backoffMs with
    | none => simpa using (hmap c.backoffMs).mpr hb
    | some l => simpa using hmap l
  simp only [ConsumerConfig.terms, ConsumerPatch.apply, ConsumerPatch.terms, ConsumerRow.config, ConsumerRow.terms,
    Terms.mk.injEq, hf', ha', hb', true_and, and_true, ConsumerPatch.durations, List.forall_mem_append]

/-- The one event of a command, when it is an update. -/
theorem updatesTruthful_singleton (he : e.Updates k) :
    UpdatesTruthful pre req post [e] ↔
      (∃ c c', pre.consumers.find? k = some c ∧ post.consumers.find? k = some c' ∧ req.Met c c') ∧
      ((∃ k', post.consumers.find? k' ≠ pre.consumers.find? k') ∨
        ∃ k', post.deliveries.find? k' ≠ pre.deliveries.find? k') := by
  constructor
  · intro h
    exact h e (List.mem_singleton.mpr rfl) k he
  · intro h e' he' k' hk
    rw [List.mem_singleton.mp he'] at hk
    obtain rfl : k' = k := Prod.ext (nullStr_inj (hk.2.1.symm.trans he.2.1)) (nullStr_inj (hk.2.2.symm.trans he.2.2))
    exact h

theorem updatesTruthful_nil : UpdatesTruthful pre req post [] :=
  fun _ he => absurd he List.not_mem_nil

section Step

variable {p : ConsumerPatch} {st st' : Store}

/-- A create tells the truth when it is faithful. -/
theorem createConsumer_truthful_iff (hn : st.NamesApart) (hcar : st.carriers = [])
    (hw : cfg.Within env.opts.consumerLimits) (h : createConsumer env stream cfg start actor st = .ok (res, st')) :
    UpdatesTruthful st (.createConsumer stream cfg start actor) st' st'.carriers ↔
      (Request.createConsumer stream cfg start actor).Faithful st := by
  obtain ⟨-, -, h⟩ := createConsumer_iff.mp h
  cases hsake : st.namesake stream cfg.name with
  | none =>
    simp only [hsake] at h
    obtain ⟨cursor, clamped, consumers, metaTable, -, -, -, hev, -⟩ := insertConsumer_run h
    obtain rfl := commitEvent_run.mp hev
    refine ⟨fun _ c hc => absurd (hsake.symm.trans hc) (by simp), fun _ e he k hk => ?_⟩
    simp only [hcar, List.nil_append, List.mem_singleton] at he
    rw [he] at hk
    exact absurd hk.1 (by simp)
  | some existing =>
    simp only [hsake] at h
    obtain ⟨-, h⟩ := h
    split_ifs at h with hdiff
    · obtain ⟨-, rfl⟩ := h
      rw [hcar]
      refine ⟨fun _ c hc hd => ?_, fun _ => updatesTruthful_nil⟩
      obtain rfl : existing = c := Option.some.inj (hsake.symm.trans hc)
      exact absurd hdiff hd
    · obtain ⟨-, hev, -⟩ := replaceConsumer_run h
      obtain rfl := commitEvent_run.mp hev
      simp only [hcar, List.nil_append]
      rw [updatesTruthful_singleton (k := (stream, cfg.name)) ⟨rfl, rfl, rfl⟩]
      have hrow : ∀ {c}, st.consumers.find? (stream, cfg.name) = some c →
          (st.consumers.update (fun c => c.key == (stream, cfg.name)) (fun c => c.withConfig cfg) fun _ _ => rfl).find?
            (stream, cfg.name) = some (c.withConfig cfg) := by
        intro c hc
        rw [find?_update_pair (·.withConfig cfg) fun _ _ => rfl, hc]
        rfl
      constructor
      · rintro ⟨⟨c, c', hc, hc', hmet⟩, -⟩ c₀ hc₀ -
        -- the row of the event is the one that was found
        obtain rfl : existing = c₀ := Option.some.inj (hsake.symm.trans hc₀)
        obtain rfl : existing = c := hn.namesake hsake hc
        obtain rfl : c' = existing.withConfig cfg := Option.some.inj (hc'.symm.trans (hrow hc))
        exact ⟨(pair_of_find? hc).2, (diff_of_terms hw (terms_withConfig existing cfg)).mp hmet⟩
      · intro hf
        obtain ⟨hname, hwhole⟩ := hf existing hsake hdiff
        obtain ⟨hmem, hstream, -⟩ := namesake_eq_some hsake
        have hc : st.consumers.find? (stream, cfg.name) = some existing := by
          rw [← hstream, ← hname]
          exact find?_of_mem hmem
        have hmet : (existing.withConfig cfg).config.diff cfg = [] :=
          (diff_of_terms hw (terms_withConfig existing cfg)).mpr hwhole
        refine ⟨⟨existing, _, hc, hrow hc, hmet⟩, .inl ⟨(stream, cfg.name), ?_⟩⟩
        intro hsame
        have hsame : some (existing.withConfig cfg) = some existing := (hrow hc).symm.trans (hsame.trans hc)
        rw [Option.some.inj hsame] at hmet
        exact hdiff hmet

/-- A patch tells the truth when it is faithful. -/
theorem updateConsumer_truthful_iff {row : ConsumerRow} (hcanon : ∀ k c, st.consumers.find? k = some c →
      c.terms.Canonical)
    (hcar : st.carriers = []) (h : updateConsumer env stream name p actor st = .ok (row, st')) :
    UpdatesTruthful st (.updateConsumer stream name p actor) st' st'.carriers ↔
      (Request.updateConsumer stream name p actor).Faithful st := by
  obtain ⟨c, hc, ⟨hf, rfl⟩ | ⟨hf, -, st₁, detail, hsh, hev⟩⟩ := updateConsumer_cases h
  · rw [hcar]
    exact ⟨fun _ _ _ hf' => absurd hf hf', fun _ => updatesTruthful_nil⟩
  · obtain ⟨-, hst₁, hcar₁⟩ := hsh.run
    obtain rfl := commitEvent_run.mp hev
    simp only [hcar₁, hcar, List.nil_append]
    rw [updatesTruthful_singleton (k := (stream, name)) ⟨rfl, rfl, rfl⟩]
    -- the row after the command: a shrink moves its cursor only
    have hrow : ∃ cursor, (st₁.consumers.update (fun c => c.key == (stream, name))
        (fun c₁ => c₁.withConfig (p.apply c.config)) fun _ _ => rfl).find? (stream, name) =
          some ({ c with cursorSeq := cursor }.withConfig (p.apply c.config)) := by
      rw [find?_update_pair (·.withConfig (p.apply c.config)) fun _ _ => rfl]
      rcases hst₁ with rfl | ⟨low, hlow⟩
      · exact ⟨c.cursorSeq, by rw [hc]; rfl⟩
      · exact ⟨low, by rw [hlow.row, hc]; rfl⟩
    obtain ⟨cursor, hrow⟩ := hrow
    have hiff := terms_apply_iff (p := p) (hcanon _ c hc)
    constructor
    · rintro ⟨⟨c₀, c', hc₀, hc', hmet⟩, hchanged⟩ c₁ hc₁ -
      obtain rfl : c = c₀ := Option.some.inj (hc.symm.trans hc₀)
      obtain rfl : c = c₁ := Option.some.inj (hc.symm.trans hc₁)
      obtain rfl : c' = _ := Option.some.inj (hc'.symm.trans hrow)
      have hmet : (p.apply c.config).terms = p.terms c.terms := hmet
      refine ⟨fun hsame => ?_, hiff.mp hmet⟩
      -- a patch that asks for the terms of the row does not shrink, and writes what is there
      have hnone : p.shrinkTo c = none := by
        have hpend : p.maxAckPending.getD c.maxAckPending = c.maxAckPending := congrArg Terms.maxAckPending hsame
        cases hp : p.maxAckPending with
        | none => simp [ConsumerPatch.shrinkTo, hp]
        | some bound =>
          rw [hp, Option.getD_some] at hpend
          simp [ConsumerPatch.shrinkTo, hp, hpend]
      obtain rfl : st₁ = st := by rwa [ShrunkFor, hnone] at hsh
      have hrows : ∀ k, (st₁.consumers.update (fun c => c.key == (stream, name))
          (fun c₁ => c₁.withConfig (p.apply c.config)) fun _ _ => rfl).find? k = st₁.consumers.find? k := by
        intro k
        refine (find?_setConfig st₁ (stream, name) (p.apply c.config) k).trans ?_
        split
        · rename_i hkey
          rw [hkey, hc]
          exact congrArg some (withConfig_eq_self (hmet.trans hsame))
        · rfl
      rcases hchanged with ⟨k, hk⟩ | ⟨k, hk⟩
      · exact hk (hrows k)
      · exact hk rfl
    · intro hfaith
      obtain ⟨hne, hms⟩ := hfaith c hc hf
      have hmet : (p.apply c.config).terms = p.terms c.terms := hiff.mpr hms
      refine ⟨⟨c, _, hc, hrow, hmet⟩, .inl ⟨(stream, name), fun hsame => hne ?_⟩⟩
      have hsame : some ({ c with cursorSeq := cursor }.withConfig (p.apply c.config)) = some c :=
        hrow.symm.trans (hsame.trans hc)
      rw [← hmet, ← terms_withConfig { c with cursorSeq := cursor }, Option.some.inj hsame]

end Step

/-- **Update events.** The update events of a committed create or update are true exactly when the request is
faithful. -/
theorem update_events_truthful_iff {h : List Visit} {b : Broker} (r : Runs h b) {s : Step} {reply : Reply}
    {es : List Event} (hok : (b.exec s).2 = .ok reply es)
    (hreq : (∃ stream cfg start actor, s.req = .createConsumer stream cfg start actor) ∨
      ∃ stream name p actor, s.req = .updateConsumer stream name p actor) :
    UpdatesTruthful b.store s.req (b.exec s).1.store es ↔ s.req.Faithful b.store := by
  rcases exec_cases b s with ⟨reply', st, hcom⟩ | ⟨-, -, -, hno⟩
  · have hout := hcom.out
    rw [hok] at hout
    obtain ⟨rfl, rfl⟩ := Outcome.ok.inj hout
    rw [hcom.post]
    have hrun := hcom.run
    rcases hreq with ⟨stream, cfg, start, actor, hreq⟩ | ⟨stream, name, p, actor, hreq⟩
    · have hchk := hcom.checked
      rw [hreq] at hrun hchk ⊢
      obtain ⟨res, hrun, -⟩ := run_map.mp hrun
      simp only [checkRequest, bind_eq_ok] at hchk
      obtain ⟨-, -, -, -, hval⟩ := hchk
      have hapart : { b.store with carriers := [] }.NamesApart := r.namesApart
      have hiff := createConsumer_truthful_iff hapart rfl (validateConsumerConfig_eq_ok.mp hval) hrun
      exact hiff
    · rw [hreq] at hrun ⊢
      obtain ⟨row, hrun, -⟩ := run_map.mp hrun
      have hcanon : ∀ k c, { b.store with carriers := [] }.consumers.find? k = some c → c.terms.Canonical :=
        fun _ _ => r.canonical
      have hiff := updateConsumer_truthful_iff hcanon rfl hrun
      exact hiff
  · exact absurd hok (hno reply es)

theorem Outcome.eq_ok_of_events (h : e ∈ out.events) : ∃ reply, out = .ok reply out.events := by
  cases out with
  | ok reply es => exact ⟨reply, rfl⟩
  | _ => exact absurd h List.not_mem_nil

/-- The sample consumer's configuration with another delivery bound, under the given spelling of its name. -/
def sevenTries (name : Bytes) : Request :=
  .createConsumer aStream { defaultConsumerConfig name with maxDeliver := 7 } .first []

/-- Under its own name the event of the change is true. -/
theorem update_events_truthful_seven : ∃ reply es,
    ((playState (aSetup 1)).exec ⟨.atMs 5, sevenTries aConsumer⟩).2 = .ok reply es ∧ es ≠ [] ∧
      UpdatesTruthful (playState (aSetup 1)).store (sevenTries aConsumer)
        ((playState (aSetup 1)).exec ⟨.atMs 5, sevenTries aConsumer⟩).1.store es := by
  have hne : ((playState (aSetup 1)).exec ⟨.atMs 5, sevenTries aConsumer⟩).2.events ≠ [] := by decide +kernel
  obtain ⟨e, he⟩ := List.exists_mem_of_ne_nil _ hne
  obtain ⟨reply, hok⟩ := Outcome.eq_ok_of_events he
  refine ⟨reply, _, hok, hne, (update_events_truthful_iff (runs_play (aSetup 1)) hok (.inl ⟨_, _, _, _, rfl⟩)).mpr ?_⟩
  intro c hc _
  have hname : ((playState (aSetup 1)).store.namesake aStream aConsumer).map ConsumerRow.name =
      some aConsumer := by decide +kernel
  refine ⟨?_, by decide⟩
  rw [show (playState (aSetup 1)).store.namesake aStream aConsumer = some c from hc] at hname
  exact Option.some.inj hname

/-- A create under another case of a taken name reports an update of a consumer that does not exist. -/
theorem update_event_without_row :
    ¬ ∀ (h : List Visit) (b : Broker) (s : Step) (reply : Reply) (es : List Event), Runs h b →
      (b.exec s).2 = .ok reply es →
      ((∃ stream cfg start actor, s.req = .createConsumer stream cfg start actor) ∨
        ∃ stream name p actor, s.req = .updateConsumer stream name p actor) →
      UpdatesTruthful b.store s.req (b.exec s).1.store es := by
  intro hall
  have hev : ∃ e ∈ ((playState (aSetup 1)).exec ⟨.atMs 5, sevenTries (str "C")⟩).2.events,
      e.name = .consumerUpdate ∧ e.stream = some aStream ∧ e.consumer = some (str "C") := by decide +kernel
  obtain ⟨e, he, hname, hstream, hconsumer⟩ := hev
  obtain ⟨reply, hok⟩ := Outcome.eq_ok_of_events he
  obtain ⟨⟨c, -, hc, -⟩, -⟩ := hall _ _ _ _ _ (runs_play (aSetup 1)) hok (.inl ⟨_, _, _, _, rfl⟩) e he
    (aStream, str "C") ⟨hname, hstream, hconsumer⟩
  have hnone : ((playState (aSetup 1)).store.consumers.find? (aStream, str "C")).isNone = true := by
    decide +kernel
  rw [hc] at hnone
  cases hnone

/-! ## Posting a document again -/

/-- The comparison of the handler finds the stored row equal to its document when no filter is listed twice and the
durations are whole. -/
theorem consumerConfigsEqual_iff {l : ConsumerLimits} (hw : cfg.Within l) (ht : c.terms = cfg.terms) :
    consumerConfigsEqual c.config cfg = true ↔ cfg.filters.Nodup ∧ cfg.Whole := by
  rw [← durations_of_terms hw ht, ← sortStrings_sortedSet_iff]
  simp only [ConsumerConfig.terms, ConsumerRow.terms, Terms.mk.injEq] at ht
  obtain ⟨hf, -, hd, hp, -, hdp⟩ := ht
  simp only [consumerConfigsEqual, ConsumerRow.config, hf, hd, hp, hdp, Bool.and_eq_true, beq_iff_eq,
    and_true, beq_self_eq_true]
  tauto

section Post

variable {doc : ConsumerConfigRequest} {b' : Broker} {resp : CreateConsumerResponse}

theorem createAnswer_eq_ok {st : Store} : createAnswer st stream name out = .ok resp ↔
    ∃ r es info, out = .ok (.consumer r) es ∧ st.getConsumer stream name = .ok info ∧
      resp = ⟨if r.created then 201 else 200, info, r.clamped, r.created || r.updated⟩ := by
  constructor
  · intro h
    unfold createAnswer at h
    split at h
    · rename_i r es
      split at h
      · cases h
      · rename_i info hinfo
        exact ⟨r, es, info, rfl, hinfo, (Except.ok.inj h).symm⟩
    all_goals cases h
  · rintro ⟨r, es, info, rfl, hinfo, rfl⟩
    simp only [createAnswer, hinfo]

/-- A document that is accepted: its checks passed, and its command was answered. -/
theorem handleCreateConsumer_eq_ok : handleCreateConsumer env stream doc b = (b', .ok resp) ↔
    validateExistingStreamName stream = .ok () ∧ doc.ordered = none ∧ doc.maxRate = none ∧
      ∃ start, doc.start = some start ∧ consumerExistsRefusal b.store stream (doc.config stream) = .ok () ∧
        (b.exec ⟨env, .createConsumer stream (doc.config stream) start actorAPI⟩).1 = b' ∧
        createAnswer b'.store stream doc.name
          (b.exec ⟨env, .createConsumer stream (doc.config stream) start actorAPI⟩).2 = .ok resp := by
  constructor
  · intro h
    unfold handleCreateConsumer at h
    split at h
    · cases h
    rename_i hstream
    split_ifs at h with ho hm
    · cases h
    · cases h
    · cases hst : doc.start with
      | none => simp only [hst] at h; cases h
      | some start =>
        simp only [hst] at h
        split at h
        · cases h
        · rename_i hex
          obtain ⟨rfl, hans⟩ := Prod.mk.inj h
          exact ⟨hstream, by simpa using ho, by simpa using hm, start, rfl, hex, rfl, hans⟩
  · rintro ⟨hstream, ho, hm, start, hst, hex, rfl, hans⟩
    simp [handleCreateConsumer, hstream, ho, hm, hst, hex, hans]

theorem getConsumer_eq_ok {st : Store} : st.getConsumer stream name = .ok c ↔
    validateExistingStreamName stream = .ok () ∧ validateConsumerName name = .ok () ∧
      st.consumers.find? (stream, name) = some c := by
  simp only [Store.getConsumer, bind_eq_ok]
  constructor
  · rintro ⟨_, hs, _, hn, h⟩
    split at h
    · cases h
    · rename_i row hrow
      rw [← Except.ok.inj h]
      exact ⟨hs, hn, hrow⟩
  · rintro ⟨hs, hn, hrow⟩
    exact ⟨(), hs, (), hn, by rw [hrow]⟩

/-- What a create that inserted leaves behind. -/
theorem createConsumer_created {st st' : Store} (h : createConsumer env stream cfg start actor st = .ok (res, st'))
    (hcr : res.created = true) :
    ∃ row, row.terms = cfg.terms ∧ st'.consumers.find? (stream, cfg.name) = some row ∧
      st'.namesake stream cfg.name = some row ∧ st'.metaTable.find? (.reap stream) = none ∧
      st'.metaTable.find? (.cstart stream cfg.name) = some ⟨.cstart stream cfg.name, .start start⟩ ∧
      st'.streams.find? stream ≠ none := by
  obtain ⟨hreap, hstream, h⟩ := createConsumer_iff.mp h
  cases hsake : st.namesake stream cfg.name with
  | none =>
    simp only [hsake] at h
    obtain ⟨cursor, clamped, consumers, metaTable, -, hcons, hmeta, hev, -⟩ := insertConsumer_run h
    obtain rfl := commitEvent_run.mp hev
    refine ⟨newConsumer stream cfg cursor env.nowMs, terms_newConsumer .., (find?_insert hcons _).trans (if_pos rfl),
      ?_, (find?_insert hmeta _).trans ((if_neg (by simp)).trans hreap),
      (find?_insert hmeta _).trans (if_pos rfl), hstream⟩
    show consumers.rows.find? _ = _
    rw [rows_insert hcons, List.find?_append, show st.consumers.rows.find? _ = none from hsake]
    simp [newConsumer, eqNoCase_self]
  | some existing =>
    simp only [hsake] at h
    obtain ⟨-, h⟩ := h
    split_ifs at h
    · rw [← h.1] at hcr
      cases hcr
    · obtain ⟨-, -, rfl⟩ := replaceConsumer_run h
      cases hcr

/-- **Declarative create.** A document whose post created its consumer is answered as unchanged when it is posted again,
and nothing is written, exactly when it lists no filter twice and its durations are whole milliseconds. -/
theorem repost_unchanged_iff {env' : Env} (hopts : env'.opts = env.opts)
    (h : handleCreateConsumer env stream doc b = (b', .ok resp)) (hnew : resp.status = 201) :
    (∃ info, handleCreateConsumer env' stream doc b' = (b', .ok ⟨200, info, false, false⟩)) ↔
      doc.filters.Nodup ∧ (doc.config stream).Whole := by
  obtain ⟨hstream, ho, hm, start, hst, -, hb', hans⟩ := handleCreateConsumer_eq_ok.mp h
  obtain ⟨res, es, info, hout, hget, rfl⟩ := createAnswer_eq_ok.mp hans
  obtain ⟨-, hname, -⟩ := getConsumer_eq_ok.mp hget
  have hcr : res.created = true := by
    by_contra hcr
    simp [hcr] at hnew
  rcases exec_cases b ⟨env, .createConsumer stream (doc.config stream) start actorAPI⟩
    with ⟨reply, st, hcom⟩ | ⟨-, -, -, hno⟩
  · -- the store after the first post
    obtain ⟨rfl, -⟩ := Outcome.ok.inj (hcom.out.symm.trans hout)
    obtain ⟨res', hrun, hres⟩ := run_map.mp hcom.run
    obtain rfl := Reply.consumer.inj hres
    obtain ⟨row, hterms, hrow, hsake, hreap, hrec, hstreams⟩ := createConsumer_created hrun hcr
    rw [hcom.post] at hb'
    subst hb'
    have hchk := hcom.checked
    have hval := hchk
    simp only [checkRequest, bind_eq_ok] at hval
    obtain ⟨-, -, -, -, hval⟩ := hval
    have hw := validateConsumerConfig_eq_ok.mp hval
    have hequal := consumerConfigsEqual_iff hw hterms
    have hfound : ({ st with carriers := [] } : Store).getConsumer stream (doc.config stream).name = .ok row :=
      getConsumer_eq_ok.mpr ⟨hstream, hname, hrow⟩
    constructor
    · rintro ⟨_, h'⟩
      obtain ⟨-, -, -, -, -, hex, -⟩ := handleCreateConsumer_eq_ok.mp h'
      simp only [consumerExistsRefusal, hfound] at hex
      split at hex
      · rename_i heq
        exact hequal.mp heq
      · cases hex
    · intro hcond
      -- the second command finds the row, its start and no difference
      have hsame : createConsumer env' stream (doc.config stream) start actorAPI { st with carriers := [] } =
          .ok (⟨row, false, false, false⟩, { st with carriers := [] }) := by
        have hsake' : ({ st with carriers := [] } : Store).namesake stream (doc.config stream).name = some row := hsake
        refine createConsumer_iff.mpr ⟨hreap, hstreams, ?_⟩
        simp only [hsake']
        refine ⟨fun m hmeta => ?_, ?_⟩
        · rw [← Option.some.inj (hrec.symm.trans hmeta)]
        · rw [if_pos ((diff_of_terms hw hterms).mpr hcond.2)]
          exact ⟨trivial, trivial⟩
      have hchk' : checkRequest env' (.createConsumer stream (doc.config stream) start actorAPI) = .ok () := by
        rw [checkRequest, hopts]
        exact hchk
      have hcom' := Committed.of_run (b := ⟨{ st with carriers := [] }, nextReaping b.reaping
        (.createConsumer stream (doc.config stream) start actorAPI) (.consumer res'), false⟩)
        (s := ⟨env', .createConsumer stream (doc.config stream) start actorAPI⟩) rfl hchk' (run_map.mpr ⟨_, hsame, rfl⟩)
      refine ⟨row, handleCreateConsumer_eq_ok.mpr ⟨hstream, ho, hm, start, hst, ?_, hcom'.post, ?_⟩⟩
      · simp only [consumerExistsRefusal, hfound, hequal.mpr hcond, if_true]
      · rw [hcom'.out]
        exact createAnswer_eq_ok.mpr ⟨_, _, row, rfl, hfound, rfl⟩
  · exact absurd hout (hno _ _)

/-- The status of an answer, if it is not a refusal. -/
def postStatus (a : Broker × Except ConsumerError CreateConsumerResponse) : Option ℕ :=
  a.2.toOption.map CreateConsumerResponse.status

theorem eq_of_postStatus {a : Broker × Except ConsumerError CreateConsumerResponse} {n : ℕ}
    (h : postStatus a = some n) :
    ∃ resp, a = (a.1, .ok resp) ∧ resp.status = n := by
  obtain ⟨b, x⟩ := a
  cases x with
  | error e => cases h
  | ok resp => exact ⟨resp, rfl, Option.some.inj h⟩

/-- A stream without consumers. -/
def bareStream : Broker := playState [(1, aCreate)]

/-- Three filters, not in order. -/
def thriceFiltered : ConsumerConfigRequest :=
  { defaultConsumerConfigRequest aConsumer .first with
    filters := [str "c.>", str "a", str "b.*"], backoffMs := [1500, 250] }

theorem repost_unchanged_thriceFiltered : ∃ b' resp,
    handleCreateConsumer (.atMs 2) aStream thriceFiltered bareStream = (b', .ok resp) ∧ resp.status = 201 ∧
    ∃ info, handleCreateConsumer (.atMs 3) aStream thriceFiltered b' = (b', .ok ⟨200, info, false, false⟩) := by
  have hpost : postStatus (handleCreateConsumer (.atMs 2) aStream thriceFiltered bareStream) =
    some 201 := by decide +kernel
  obtain ⟨resp, hok, h201⟩ := eq_of_postStatus hpost
  exact ⟨_, resp, hok, h201, (repost_unchanged_iff rfl hok h201).mpr ⟨by decide, by decide⟩⟩

/-- The same filter listed twice. -/
def twiceFiltered : ConsumerConfigRequest :=
  { defaultConsumerConfigRequest aConsumer .first with filters := [str "a", str "a"] }

/-- A document that lists a filter twice is created and then refused as another configuration. -/
theorem repost_refused :
    ¬ ∀ (h : List Visit) (b b' : Broker) (env env' : Env) (stream : Bytes) (doc : ConsumerConfigRequest)
      (resp : CreateConsumerResponse), Runs h b → env'.opts = env.opts →
      handleCreateConsumer env stream doc b = (b', .ok resp) → resp.status = 201 →
      ∃ info, handleCreateConsumer env' stream doc b' = (b', .ok ⟨200, info, false, false⟩) := by
  intro hall
  have hstatus : postStatus (handleCreateConsumer (.atMs 2) aStream twiceFiltered bareStream) = some 201 := by
    decide +kernel
  obtain ⟨resp, hok, h201⟩ := eq_of_postStatus hstatus
  obtain ⟨info, hagain⟩ := hall _ bareStream _ (.atMs 2) (.atMs 3) _ _ _ (runs_play _) rfl hok h201
  have hrefused : postStatus (handleCreateConsumer (.atMs 3) aStream twiceFiltered
      (handleCreateConsumer (.atMs 2) aStream twiceFiltered bareStream).1) = none := by decide +kernel
  rw [hagain] at hrefused
  cases hrefused

end Post

end Messq
